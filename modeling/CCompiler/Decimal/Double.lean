import CCompiler.Text.Bytes

/-
  This file defines double-precision values by their bit
  patterns, the correctly rounded conversion of an exact ratio
  to a binary format, and the arithmetic that constant
  expressions need.

  Key definitions include:
    * `Double`
    * `BinaryFormat`, `BinaryFormat.ofRatio`
    * `Double.ofRatio`, `Double.ofInt`
    * `Double.magnitude`
    * `Double.toSingleBits`
    * `Double.truncate`
    * `Double.add`, `Double.sub`, `Double.mul`, `Double.div`, `Double.neg`
-/

namespace CCompiler

------------
-- Binary formats
------------

/-
  An IEEE-754 binary format: the number of mantissa bits
  with the hidden one, the exponent of the smallest positive
  value, and the pattern of infinity.
-/
structure BinaryFormat where
  precision : Nat
  minExponent : Int
  infinity : Nat

namespace BinaryFormat

/- Double precision. -/
def binary64 : BinaryFormat :=
  ⟨53, -1074, 0x7FF0000000000000⟩

/- Single precision. -/
def binary32 : BinaryFormat :=
  ⟨24, -149, 0x7F800000⟩

/- The integer next to a ratio; a half goes to the even neighbour. -/
def roundHalfEven (num den : Nat) : Nat :=
  let q := num / den
  let twice := 2 * (num % den)
  if twice > den || (twice == den && q % 2 == 1) then q + 1 else q

/- A ratio divided by a power of two, as a ratio. -/
def scaleDown (num den : Nat) (e : Int) : Nat × Nat :=
  if e < 0 then (num * Nat.pow 2 e.natAbs, den) else (num, den * Nat.pow 2 e.natAbs)

/-
  The exponent of the last mantissa bit of the value nearest
  to a positive ratio.
-/
def exponentOf (f : BinaryFormat) (num den : Nat) : Int :=
  let guess : Int := num.log2 - den.log2 - f.precision
  let (n, d) := scaleDown num den guess
  let e := if n / d < Nat.pow 2 f.precision then guess else guess + 1
  max e f.minExponent

/-
  The pattern of the value nearest to a non-negative ratio.
  The mantissa is added to the exponent field, so that a
  carry out of the mantissa and the step from subnormal to
  normal values need no case of their own.
-/
def ofRatio (f : BinaryFormat) (num den : Nat) : Nat :=
  if num == 0 || den == 0 then 0
  else
    let e := exponentOf f num den
    let (n, d) := scaleDown num den e
    let field := (e - f.minExponent).toNat
    min f.infinity (field * Nat.pow 2 (f.precision - 1) + roundHalfEven n d)

end BinaryFormat

------------
-- Doubles
------------

/- A double-precision value as its 64 bits. -/
structure Double where
  bits : UInt64
deriving DecidableEq, Inhabited, Repr

namespace Double

/- The sign bit. -/
def isNegative (x : Double) : Bool :=
  x.bits >>> 63 == 1

/- The eleven exponent bits. -/
def exponentField (x : Double) : Nat :=
  ((x.bits >>> 52) &&& 0x7FF).toNat

/- The fifty-two mantissa bits. -/
def fraction (x : Double) : Nat :=
  (x.bits &&& 0xFFFFFFFFFFFFF).toNat

/- Whether the value is an infinity. -/
def isInfinite (x : Double) : Bool :=
  x.exponentField == 0x7FF && x.fraction == 0

/- Whether the value is not a number. -/
def isNaN (x : Double) : Bool :=
  x.exponentField == 0x7FF && x.fraction != 0

/- Whether the value is a zero of either sign. -/
def isZero (x : Double) : Bool :=
  x.exponentField == 0 && x.fraction == 0

/- A finite value without its sign, as a mantissa and a power of two. -/
def magnitude (x : Double) : Nat × Int :=
  if x.exponentField == 0 then (x.fraction, -1074)
  else (x.fraction + 0x10000000000000, x.exponentField - 1075)

/- The value with a chosen sign. -/
def withSign (negative : Bool) (pattern : Nat) : Double :=
  ⟨UInt64.ofNat pattern ||| (if negative then 0x8000000000000000 else 0)⟩

/- The double nearest to a ratio. -/
def ofRatio (negative : Bool) (num den : Nat) : Double :=
  withSign negative (BinaryFormat.binary64.ofRatio num den)

/- The double nearest to an integer. -/
def ofInt (n : Int) : Double :=
  ofRatio (n < 0) n.natAbs 1

/- The pattern of the single-precision value nearest to a double. -/
def toSingleBits (x : Double) : UInt32 :=
  let sign : UInt32 := if x.isNegative then 0x80000000 else 0
  if x.isNaN then sign ||| (0x7FC00000 : UInt32) ||| UInt32.ofNat (x.fraction >>> 29)
  else if x.isInfinite then sign ||| (0x7F800000 : UInt32)
  else
    let (m, e) := x.magnitude
    let (n, d) := BinaryFormat.scaleDown m 1 (-e)
    sign ||| UInt32.ofNat (BinaryFormat.binary32.ofRatio n d)

/- The double equal to a single-precision pattern. -/
def ofSingleBits (b : UInt32) : Double :=
  let negative := b >>> 31 == 1
  let field := ((b >>> 23) &&& 0xFF).toNat
  let frac := (b &&& 0x7FFFFF).toNat
  if field == 0xFF then withSign negative (0x7FF0000000000000 + frac <<< 29)
  else
    let (m, e) : Nat × Int := if field == 0 then (frac, -149) else (frac + 0x800000, field - 150)
    let (n, d) := BinaryFormat.scaleDown m 1 (-e)
    ofRatio negative n d

/- The value rounded to single precision. -/
def roundToSingle (x : Double) : Double :=
  ofSingleBits x.toSingleBits

/- The integer part of a finite value. -/
def truncate (x : Double) : Int :=
  let (m, e) := x.magnitude
  let n : Nat := if e < 0 then m / Nat.pow 2 e.natAbs else m * Nat.pow 2 e.natAbs
  if x.isNegative then -n else n

/- The value with the opposite sign. -/
def neg (x : Double) : Double :=
  ⟨x.bits ^^^ 0x8000000000000000⟩

/-
  The result of an operation on two operands: an operand
  that is not a number is handed on with its quiet bit set,
  and an operation without a result gives the negative quiet
  pattern.
-/
def arith (op : Float → Float → Float) (x y : Double) : Double :=
  if x.isNaN then ⟨x.bits ||| 0x8000000000000⟩
  else if y.isNaN then ⟨y.bits ||| 0x8000000000000⟩
  else
    let r := op (Float.ofBits x.bits) (Float.ofBits y.bits)
    if r.isNaN then ⟨0xFFF8000000000000⟩ else ⟨r.toBits⟩

/- The sum. -/
def add (x y : Double) : Double := arith (· + ·) x y

/- The difference. -/
def sub (x y : Double) : Double := arith (· - ·) x y

/- The product. -/
def mul (x y : Double) : Double := arith (· * ·) x y

/- The quotient. -/
def div (x y : Double) : Double := arith (· / ·) x y

/- Numeric equality: zeros of either sign are equal, and a NaN equals nothing. -/
def eqNum (x y : Double) : Bool := Float.ofBits x.bits == Float.ofBits y.bits

/- Numeric order. -/
def ltNum (x y : Double) : Bool := Float.ofBits x.bits < Float.ofBits y.bits

/- Numeric order or equality. -/
def leNum (x y : Double) : Bool := Float.ofBits x.bits ≤ Float.ofBits y.bits

end Double

end CCompiler

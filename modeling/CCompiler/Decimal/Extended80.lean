import CCompiler.Decimal.Double

/-
  This file defines the storage of a double in the 80-bit
  extended format: a 64-bit mantissa with an explicit integer
  bit, then fifteen exponent bits and the sign.

  Key definitions include:
    * `Extended80`, `Extended80.ofDouble`
    * `Extended80.toBytes`
-/

namespace CCompiler

/- An 80-bit extended value. -/
structure Extended80 where
  mantissa : UInt64
  signExponent : UInt16
deriving DecidableEq, Repr

namespace Extended80

/-
  Shift a mantissa up until its bit 52 is set, counting the
  shifts.
-/
def normalize : Nat → UInt64 → Nat → UInt64 × Nat
| 0, frac, shift => (frac, shift)
| fuel + 1, frac, shift =>
  if frac &&& 0x10000000000000 == 0 then normalize fuel (frac <<< 1) (shift + 1)
  else (frac, shift)

/- The extended value equal to a double; subnormal doubles become normal. -/
def ofDouble (x : Double) : Extended80 :=
  let sign : UInt16 := if x.isNegative then 0x8000 else 0
  let frac := UInt64.ofNat x.fraction
  let exp := x.exponentField
  if exp == 0 && frac == 0 then ⟨0, sign⟩
  else if exp == 0x7FF then ⟨(0x8000000000000000 : UInt64) ||| (frac <<< 11), sign ||| 0x7FFF⟩
  else if exp == 0 then
    let (norm, shift) := normalize 52 frac 0
    ⟨norm <<< 11, sign ||| UInt16.ofNat (1 + 16383 - 1023 - shift)⟩
  else ⟨(0x8000000000000000 : UInt64) ||| (frac <<< 11), sign ||| UInt16.ofNat (exp + 16383 - 1023)⟩

/- The ten bytes of the value, lowest first. -/
def toBytes (x : Extended80) : Bytes :=
  (List.range 8).map (fun i => (x.mantissa >>> UInt64.ofNat (8 * i)).toUInt8) ++
    [x.signExponent.toUInt8, (x.signExponent >>> 8).toUInt8]

end Extended80

end CCompiler

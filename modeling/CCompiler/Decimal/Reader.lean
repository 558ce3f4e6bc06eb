import CCompiler.Decimal.Double

/-
  This file reads decimal and hexadecimal floating constants
  and gives the nearest double.  Too large a value gives
  infinity, too small a one a subnormal or zero.

  Key definitions include:
    * `FloatText.read?`
-/

namespace CCompiler

namespace FloatText

/- The digits before and after the point, and the number of those after it. -/
structure Mantissa where
  value : Nat
  places : Nat
  digits : Nat
  pointSeen : Bool

/- Read a mantissa of a given base, with at most one point. -/
def mantissa (base : Nat) : Mantissa → Bytes → Mantissa × Bytes
| m, [] => (m, [])
| m, c :: rest =>
  if c == Bytes.of '.' && !m.pointSeen then mantissa base { m with pointSeen := true } rest
  else
    match Bytes.hexValue? c with
    | some d =>
      if d < base then
        mantissa base
          { m with
            value := m.value * base + d
            places := if m.pointSeen then m.places + 1 else 0
            digits := m.digits + 1 } rest
      else (m, c :: rest)
    | none => (m, c :: rest)

/- The digits of an exponent; it stops growing beyond ten thousand. -/
def exponentDigits : Nat → Bytes → Option Nat
| e, [] => some e
| e, c :: rest =>
  if Bytes.isDigit c then
    exponentDigits (if e < 10000 then e * 10 + (c.toNat - 48) else e) rest
  else none

/- An exponent with its optional sign, up to the end of the text. -/
def exponent? : Bytes → Option Int
| [] => none
| c :: rest =>
  let (negative, ds) :=
    if c == Bytes.of '-' then (true, rest)
    else if c == Bytes.of '+' then (false, rest)
    else (false, c :: rest)
  if ds.isEmpty then none
  else (exponentDigits 0 ds).map fun e => if negative then -(e : Int) else (e : Int)

/- The double nearest to value · radix^k · base^(-places). -/
def assemble (value base places radix : Nat) (k : Int) : Double :=
  if k < 0 then Double.ofRatio false value (Nat.pow base places * Nat.pow radix k.natAbs)
  else Double.ofRatio false (value * Nat.pow radix k.natAbs) (Nat.pow base places)

/-
  The value of a floating constant without its suffix, or
  `none` if it is malformed.  A hexadecimal one needs an
  exponent.
-/
def read? (s : Bytes) : Option Double :=
  let start : Mantissa := ⟨0, 0, 0, false⟩
  match s with
  | a :: b :: c :: rest =>
    if a == Bytes.of '0' && Bytes.lower b == Bytes.of 'x' then
      let (m, tail) := mantissa 16 start (c :: rest)
      match tail with
      | p :: ex =>
        if m.digits == 0 || Bytes.lower p != Bytes.of 'p' then none
        else (exponent? ex).map (assemble m.value 16 m.places 2)
      | [] => none
    else decimal? s
  | _ => decimal? s
where
  /- A decimal constant; its exponent is optional. -/
  decimal? (s : Bytes) : Option Double :=
    let (m, tail) := mantissa 10 ⟨0, 0, 0, false⟩ s
    if m.digits == 0 then none
    else
      match tail with
      | [] => some (assemble m.value 10 m.places 10 0)
      | p :: ex =>
        if Bytes.lower p != Bytes.of 'e' then none
        else (exponent? ex).map (assemble m.value 10 m.places 10)

end FloatText

end CCompiler

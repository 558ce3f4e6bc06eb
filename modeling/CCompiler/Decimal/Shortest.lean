import CCompiler.Decimal.Double

/-
  This file defines the shortest decimal text of a double:
  the fewest digits that read back as the same value.

  Key definitions include:
    * `Shortest.digits`
    * `Shortest.render`
-/

namespace CCompiler

namespace Shortest

------------
-- Digits
------------

/-
  The reals that round to a value, scaled to integers over a
  common denominator: the value itself, the two ends, and
  whether the ends round to the value as well.
-/
structure Interval where
  den : Nat
  value : Nat
  low : Nat
  high : Nat
  closed : Bool

/-
  The interval of m · 2^e.  Below a power of two the lower
  neighbour is half as far away as the upper one.
-/
def Interval.of (m : Nat) (e : Int) : Interval :=
  let (scale, den) : Nat × Nat := if e < 0 then (1, Nat.pow 2 e.natAbs) else (Nat.pow 2 e.natAbs, 1)
  let lowGap := if m == 0x10000000000000 && e > -1074 then 1 else 2
  { den := 4 * den
    value := 4 * m * scale
    low := (4 * m - lowGap) * scale
    high := (4 * m + 2) * scale
    closed := m % 2 == 0 }

/- Whether n / d lies in the interval. -/
def Interval.contains (i : Interval) (n d : Nat) : Bool :=
  let x := n * i.den
  if i.closed then i.low * d ≤ x && x ≤ i.high * d else i.low * d < x && x < i.high * d

/-
  The decimal exponent of a positive value: the number of
  digits before the point, which is zero or negative for
  values below one tenth.
-/
def pointOf (n d : Nat) : Int :=
  let guess : Int := ((n.log2 : Int) - d.log2 - 1) * 30103 / 100000
  let atLeast (k : Int) : Bool :=
    if k < 0 then n * Nat.pow 10 k.natAbs ≥ d else n ≥ d * Nat.pow 10 k.natAbs
  (List.range 4).foldl (fun p (_ : Nat) => if atLeast p then p + 1 else p) guess

/- A grid step: 10 to a power, as a ratio. -/
def power (k : Int) : Nat × Nat :=
  if k < 0 then (1, Nat.pow 10 k.natAbs) else (Nat.pow 10 k.natAbs, 1)

/-
  The digit string of `count` digits inside the interval
  nearest to its value, if there is one, with the exponent
  of its last digit.
-/
def onGrid? (i : Interval) (point : Int) (count : Nat) : Option (Nat × Int) :=
  let k := point - count
  let (pn, pd) := power k
  let num := i.value * pd
  let den := i.den * pn
  let down := num / den
  let up := down + 1
  let okDown := i.contains (down * pn) pd
  let okUp := i.contains (up * pn) pd
  let twice := 2 * (num % den)
  if okDown && okUp then
    let goUp := twice > den || (twice == den && down % 2 == 1)
    some (if goUp then up else down, k)
  else if okDown then some (down, k)
  else if okUp then some (up, k)
  else none

/- A digit string without its trailing zeros. -/
def trimZeros : Nat → Nat → Int → Nat × Int
| 0, d, k => (d, k)
| fuel + 1, d, k =>
  if d != 0 && d % 10 == 0 then trimZeros fuel (d / 10) (k + 1) else (d, k)

/-
  The shortest digits of the positive value m · 2^e, as an
  integer and the power of ten it is multiplied with.
  Seventeen digits always suffice.
-/
def digits (m : Nat) (e : Int) : Nat × Int :=
  let i := Interval.of m e
  let point := pointOf i.value i.den
  let hit := (List.range 18).findSome? fun c => if c == 0 then none else onGrid? i point c
  let (d, k) := hit.getD (0, 0)
  trimZeros 20 d k

------------
-- Text
------------

/- The exponent of scientific notation: a sign and at least two digits. -/
def exponentText (x : Int) : Bytes :=
  let sign := if x < 0 then Bytes.of '-' else Bytes.of '+'
  let ds := Bytes.ofNat x.natAbs
  Bytes.of 'e' :: sign :: (if ds.length < 2 then Bytes.of '0' :: ds else ds)

/- Digits with a point after the first `before` of them. -/
def withPoint (ds : Bytes) (before : Int) : Bytes :=
  if before ≤ 0 then ascii "0." ++ List.replicate before.natAbs (Bytes.of '0') ++ ds
  else
    let n := before.toNat
    if ds.length ≤ n then ds ++ List.replicate (n - ds.length) (Bytes.of '0')
    else ds.take n ++ Bytes.of '.' :: ds.drop n

/-
  The text of a double.  Scientific notation is used when the
  decimal exponent is below -4 or at least 6.
-/
def render (x : Double) : Bytes :=
  if x.isNaN then ascii "NaN"
  else if x.isInfinite then if x.isNegative then ascii "-Inf" else ascii "+Inf"
  else
    let sign := if x.isNegative then [Bytes.of '-'] else []
    if x.isZero then sign ++ ascii "0"
    else
      let (m, e) := x.magnitude
      let (d, k) := digits m e
      let ds := Bytes.ofNat d
      let exponent : Int := ds.length + k - 1
      if exponent < -4 || exponent ≥ 6 then
        let body := match ds with
          | [] => []
          | [c] => [c]
          | c :: rest => c :: Bytes.of '.' :: rest
        sign ++ body ++ exponentText exponent
      else sign ++ withPoint ds (exponent + 1)

end Shortest

end CCompiler

/-
  This file defines rounding of sizes and offsets to multiples
  of an alignment.  Sizes and offsets are signed words of 64
  bits, so sums wrap around at their ends.  Division drops the
  fraction toward zero, so below zero the two directions meet
  there.

  Key definitions include:
    * `wrap64`
    * `alignUp`
    * `alignDown`
-/

namespace CCompiler

/- An integer reduced to a signed word. -/
def wrap64 (n : Int) : Int :=
  Int.bmod n 0x10000000000000000

/- The multiple of an alignment at or above a size; an alignment below one changes nothing. -/
def alignUp (n align : Int) : Int :=
  if align ≤ 0 then n else (wrap64 (n + align - 1)).tdiv align * align

/- The multiple of an alignment at or below an offset. -/
def alignDown (n align : Int) : Int :=
  alignUp (wrap64 (n - align + 1)) align

end CCompiler

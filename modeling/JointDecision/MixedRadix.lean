/-! # Mixed radix numbers

A list of values, each below the entry of a list of radices, is a number whose first digit is the
least significant. `MixedRadix.index` reads the number and `MixedRadix.digits?` writes it. Read in
words of 64 bits by `MixedRadix.index?`, a number is missing once a word on the way would overflow.
-/

namespace JointDecision

/-- The numbers that a word holds are those below this. -/
def wordLimit : Nat := 18446744073709551616

def word? (n : Nat) : Option Nat :=
  if n < wordLimit then some n else none

namespace MixedRadix

def volume : List Nat → Nat
  | [] => 1
  | r :: radix => r * volume radix

/-- A number read so far and the weight of the next digit. -/
structure Place where
  index : Nat
  weight : Nat
deriving DecidableEq

def Place.start : Place := ⟨0, 1⟩

def Place.step (place : Place) (digit : Nat × Nat) : Place :=
  ⟨place.index + digit.2 * place.weight, place.weight * digit.1⟩

/-- The number whose digits are `values`, read as far as both lists go. -/
def index (radix values : List Nat) : Nat :=
  ((radix.zip values).foldl Place.step .start).index

/-- `Place.step` in words: what the digit adds, the number read so far and the next weight. -/
def Place.step? (place : Place) (digit : Nat × Nat) : Option Place := do
  let share ← word? (digit.2 * place.weight)
  let index ← word? (place.index + share)
  let weight ← word? (place.weight * digit.1)
  return ⟨index, weight⟩

def index? (radix values : List Nat) : Option Nat :=
  ((radix.zip values).foldlM Place.step? .start).map Place.index

/-- The digits of a number, taken modulo the volume of the radices. There are none if a radix is
zero. -/
def digits? : List Nat → Nat → Option (List Nat)
  | [], _ => some []
  | r :: radix, n =>
    if r = 0 then none
    else (digits? radix (n / r)).map (n % r :: ·)

end MixedRadix

end JointDecision

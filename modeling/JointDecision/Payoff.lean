/-! # Payoffs

The numbers a joint decision is worth. The solvers are written once over this interface and run on
doubles; on rationals the same definitions compute without rounding.

A double has two zeros and a least value, a rational has neither, so the interface names the
constants and the comparisons that a search needs instead of deriving them from an order. -/

namespace JointDecision

class Payoff (α : Type) extends Add α, Sub α where
  /-- What a running score and an untouched table entry start from. -/
  zero : α
  /-- The sum of no payoffs. -/
  emptySum : α
  /-- What is reported where no payoff was above the least one. -/
  bottom : α
  /-- One of so many equal shares of a payoff. -/
  share : α → Nat → α
  /-- Whether the first payoff is strictly below the second. -/
  less : α → α → Bool
  /-- Whether a payoff is strictly above the least one. -/
  aboveBottom : α → Bool
  /-- The payoff nearest to a whole number. -/
  ofInt : Int → α

/-- Doubles. A sum starts from negative zero, which is neutral for every double, and negative
infinity lies below all others; no comparison with a NaN holds. -/
instance : Payoff Float where
  zero := 0.0
  emptySum := -0.0
  bottom := -(1.0 / 0.0)
  share total count := total / Float.ofNat count
  less a b := a < b
  aboveBottom a := -(1.0 / 0.0) < a
  ofInt
    | .ofNat n => Float.ofScientific n false 0
    | .negSucc n => -Float.ofScientific (n + 1) false 0

/-- Rationals: arithmetic without rounding, in which every payoff is above the least one. -/
instance : Payoff Rat where
  zero := 0
  emptySum := 0
  bottom := 0
  share total count := total / count
  less a b := a < b
  aboveBottom _ := true
  ofInt n := n

namespace Payoff

variable {α : Type} [Payoff α]

def total (payoffs : List α) : α :=
  payoffs.foldl (· + ·) emptySum

/-- Whether a payoff is strictly above the best so far; before there is one, above the least. -/
def beats : Option α → α → Bool
  | none, payoff => aboveBottom payoff
  | some best, payoff => less best payoff

def raise (best : Option α) (payoff : α) : Option α :=
  if beats best payoff then some payoff else best

/-- The greatest payoff and where it stands first. There is none if no payoff is above the least. -/
def peak? (payoffs : List α) : Option (α × Nat) :=
  payoffs.zipIdx.foldl
    (fun best entry => if beats (best.map Prod.fst) entry.1 then some entry else best) none

/-- Where the greatest payoff stands first, and its value; the bottom and the first position if no
payoff is above the least. -/
def peak (payoffs : List α) : α × Nat :=
  (peak? payoffs).getD (bottom, 0)

/-- The position that no later one beats, from the left; the first position is beaten only by a
payoff strictly above its own. -/
def leader : List α → Nat
  | [] => 0
  | first :: rest =>
    ((rest.zipIdx 1).foldl
      (fun best entry => if less best.1 entry.1 then entry else best) (first, 0)).2

end Payoff

end JointDecision

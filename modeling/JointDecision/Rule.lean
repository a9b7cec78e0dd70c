import JointDecision.Assignment
import JointDecision.Payoff

/-! # Rules

A rule is a payoff that is earned by every full assignment agreeing with it. The objective of a
joint decision problem is the sum of its rules, and a solution is a full assignment with its
score. -/

namespace JointDecision

variable {α : Type}

/-- One local contribution to the objective. The tags say which value each variable removed on the
way to the rule was given, in the order of removal; a rule of the problem itself usually has none.
-/
structure Rule (α : Type) where
  assignment : Assignment
  payoff : α
  tags : List (Nat × Nat)
deriving DecidableEq

structure Solution (α : Type) where
  assignment : List Nat
  payoff : α
deriving DecidableEq

/-- The rules that a full assignment agrees with, in order; missing if a variable read on the way
has no value. -/
def applicable? (full : List Nat) : List (Rule α) → Option (List (Rule α))
  | [] => some []
  | rule :: rules =>
    match rule.assignment.agrees? full, applicable? full rules with
    | some true, some rest => some (rule :: rest)
    | some false, some rest => some rest
    | _, _ => none

def score? [Payoff α] (rules : List (Rule α)) (full : List Nat) : Option α :=
  (applicable? full rules).map fun earned => Payoff.total (earned.map Rule.payoff)

end JointDecision

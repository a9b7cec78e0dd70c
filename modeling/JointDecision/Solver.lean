import JointDecision.Elimination
import JointDecision.MaxPlus

/-! # Solvers

Either algorithm behind one function, for callers that only want a full assignment with a high
score. -/

namespace JointDecision

variable {α : Type} [Payoff α]

inductive Solver
  | elimination (order : Elimination.Order)
  | maxPlus (iterations : Nat)
deriving DecidableEq

namespace Solver

def exact : Solver := .elimination default

def anytime : Solver := .maxPlus MaxPlus.defaultIterations

def solve (solver : Solver) (space : Space) (rules : List (Rule α)) :
    Except Failure (Solution α) :=
  match solver with
  | .elimination order => (Elimination.solve order space rules).map Prod.fst
  | .maxPlus iterations => (MaxPlus.solve iterations space rules).map Prod.fst

end Solver

end JointDecision

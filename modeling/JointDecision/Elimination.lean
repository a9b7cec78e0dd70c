import JointDecision.Elimination.Step
import JointDecision.Problem

/-! # Variable elimination

The exact solver. Variables are eliminated one at a time in a given order; what is left is one rule
over no variables per connected component, whose tags together are an optimal assignment. A variable
that no rule mentions keeps its first value.

The cost of a step is exponential in the neighborhood only, so the largest neighborhood of a run,
its induced width, bounds the cost of the whole. -/

namespace JointDecision.Elimination

variable {α : Type} [Payoff α]

structure Report where
  eliminated : Nat
  skipped : Nat
  inducedWidth : Nat
  rulesGenerated : Nat
deriving DecidableEq

def Report.start : Report := ⟨0, 0, 0, 0⟩

def Report.add (report : Report) : Step → Report
  | .skipped _ => { report with skipped := report.skipped + 1 }
  | .eliminated _ neighborhood generated =>
    { report with
      eliminated := report.eliminated + 1
      inducedWidth := max report.inducedWidth neighborhood.size
      rulesGenerated := report.rulesGenerated + generated }

def Report.ofSteps (steps : List Step) : Report :=
  steps.foldl Report.add .start

/-- Eliminates variables until none is live, at most `limit` of them. -/
def Run.advance? (space : Space) (order : Order) : Nat → Run α → Option (Run α)
  | 0, run => some run
  | limit + 1, run =>
    match order.next? run.graph with
    | none => some run
    | some key => (run.eliminate? space key).bind (advance? space order limit)

/-- Eliminates every variable of a graph. A step eliminates one, so no more steps are needed than
the graph has variables. -/
def eliminateAll? (space : Space) (order : Order) (graph : FactorGraph (List (Rule α))) :
    Option (Run α) :=
  (Run.start graph).advance? space order graph.varCount

/-- Writes choices into a full assignment, a later one over an earlier one; there is no result if a
choice is for a variable the assignment does not have. -/
def assign? (full : List Nat) : List (Nat × Nat) → Option (List Nat)
  | [] => some full
  | (key, choice) :: tags =>
    if key < full.length then assign? (full.set key choice) tags else none

/-- The solution that final rules spell out: their payoffs are added up from zero, and their tags
are written over the origin in order. -/
def assemble? (space : Space) (finals : List (Rule α)) : Option (Solution α) :=
  (assign? space.origin (finals.flatMap Rule.tags)).map fun assignment =>
    ⟨assignment, finals.foldl (fun score rule => score + rule.payoff) Payoff.zero⟩

/-- The factor graph of the rules of a problem; a factor keeps its rules in their order. -/
def buildGraph (space : Space) (rules : List (Rule α)) :
    Except Failure (FactorGraph (List (Rule α))) :=
  FactorGraph.ofRules (fun rule => some (· ++ [rule])) space rules

/-- Solves a problem given as a graph. Every rule of a factor should mention only variables of the
factor's scope. -/
def solveGraph (order : Order) (space : Space) (graph : FactorGraph (List (Rule α))) :
    Except Failure (Solution α × Report) := do
  graph.checkSpace space
  let run ← Failure.unlessOutOfBounds (eliminateAll? space order graph)
  let solution ← Failure.unlessOutOfBounds (assemble? space run.finals)
  return (solution, .ofSteps run.steps)

def solve (order : Order) (space : Space) (rules : List (Rule α)) :
    Except Failure (Solution α × Report) := do
  let graph ← buildGraph space rules
  solveGraph order space graph

end JointDecision.Elimination

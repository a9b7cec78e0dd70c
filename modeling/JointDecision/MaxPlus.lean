import JointDecision.MaxPlus.Network
import JointDecision.Problem

/-! # Max-plus

The approximate solver. Factors and variables exchange messages for a fixed number of sweeps; after
each sweep the values that the variables prefer are scored on the tables, and the best assignment so
far is kept. The origin comes first, so the result is never worse than the origin. -/

namespace JointDecision.MaxPlus

variable {α : Type} [Payoff α]

def defaultIterations : Nat := 10

/-- What a run did: the sweeps, those whose candidate was better than everything before it, and the
last of these, counted from zero. -/
structure Report where
  iterationsRun : Nat
  improvements : Nat
  lastImprovement : Option Nat
deriving DecidableEq

structure Progress (α : Type) where
  best : Solution α
  report : Report
deriving DecidableEq

/-- Scores the next candidate and keeps it if it is strictly better. -/
def Progress.offer (progress : Progress α) (candidate : Solution α) : Progress α :=
  let sweep := progress.report.iterationsRun
  if Payoff.less progress.best.payoff candidate.payoff then
    ⟨candidate, sweep + 1, progress.report.improvements + 1, some sweep⟩
  else
    { progress with report := { progress.report with iterationsRun := sweep + 1 } }

/-- Adds a payoff to the entry of a table at `index`; an empty table is first filled with `size`
zeros. -/
def addEntry (size index : Nat) (payoff : α) (table : List α) : List α :=
  let table := if table.isEmpty then List.replicate size Payoff.zero else table
  table.modify index (· + payoff)

def tableEdit? (space : Space) (rule : Rule α) : Option (List α → List α) := do
  let size ← space.jointSize? rule.assignment.keys
  let index ← space.index? rule.assignment.keys rule.assignment.values
  return addEntry size index rule.payoff

/-- The factor graph of the rules of a problem; a factor has a table of the payoffs by index. -/
def buildGraph (space : Space) (rules : List (Rule α)) :
    Except Failure (FactorGraph (List α)) :=
  FactorGraph.ofRules (tableEdit? space) space rules

/-- Whether every table has an entry per joint value of its scope; the first that has not is
reported. -/
def checkTables (space : Space) : List (Factor (List α)) → Except Failure Unit
  | [] => .ok ()
  | factor :: factors =>
    match space.jointSize? factor.scope.keys with
    | none => .error .outOfBounds
    | some expected =>
      if factor.data.length = expected then checkTables space factors
      else .error (.sizeMismatch expected factor.data.length)

def Progress.start (network : Network α) : Progress α :=
  ⟨⟨network.space.origin, network.evaluate network.space.origin⟩, ⟨0, 0, none⟩⟩

def run (iterations : Nat) (network : Network α) : Progress α :=
  (network.candidates iterations network.blank).foldl
    (fun progress candidate => progress.offer ⟨candidate, network.evaluate candidate⟩)
    (.start network)

def solveGraph (iterations : Nat) (space : Space) (graph : FactorGraph (List α)) :
    Except Failure (Solution α × Report) := do
  graph.checkSpace space
  checkTables space (graph.factors.map Prod.snd)
  let network ← Failure.unlessOutOfBounds (Network.ofGraph? space graph)
  let progress := run iterations network
  return (progress.best, progress.report)

def solve (iterations : Nat) (space : Space) (rules : List (Rule α)) :
    Except Failure (Solution α × Report) := do
  let graph ← buildGraph space rules
  solveGraph iterations space graph

end JointDecision.MaxPlus

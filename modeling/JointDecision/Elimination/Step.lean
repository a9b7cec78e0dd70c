import JointDecision.Elimination.ConsumedFactor
import JointDecision.Elimination.Order
import JointDecision.Odometer

/-! # One elimination step

Eliminating a variable consumes the factors around it. For each joint value of the other variables
in their scopes, the best value of the variable is found and recorded as a rule over these others.
The rule's tags are those of the rules that earned the best value, and then the choice itself, so
that a rule over no variables spells out a whole component of the solution. -/

namespace JointDecision.Elimination

variable {α : Type} [Payoff α]

inductive Step
  /-- No factor touched the variable. -/
  | skipped (removed : Nat)
  /-- The factors around the variable became `generated` rules over the rest of the neighborhood. -/
  | eliminated (removed : Nat) (neighborhood : Scope) (generated : Nat)
deriving DecidableEq

/-- A run so far: the factors left, the rules over no variables, and the steps in order. -/
structure Run (α : Type) where
  graph : FactorGraph (List (Rule α))
  finals : List (Rule α)
  steps : List Step

def Run.start (graph : FactorGraph (List (Rule α))) : Run α :=
  ⟨graph, [], []⟩

/-- The score of a joint value of the neighborhood: what each factor earns, added up from zero. -/
def localScore? (factors : List (ConsumedFactor α)) (joint : List Nat) : Option α :=
  (matchingAll? factors joint).map fun earned =>
    earned.foldl (fun score rules => score + Payoff.total (rules.map Rule.payoff)) Payoff.zero

/-- The scores of the first `domain` values of the variable at position `pivot`, beside fixed values
of the others. -/
def choiceScores? (factors : List (ConsumedFactor α)) (pivot : Nat) (others : List Nat)
    (domain : Nat) : Option (List α) :=
  (List.range domain).mapM fun choice => localScore? factors (others.insertIdx pivot choice)

/-- The rule for one joint value of the others: the best score over the values of the variable
`key`, and the tags that lead to it. -/
def bestResponse? (space : Space) (key : Nat) (factors : List (ConsumedFactor α)) (pivot : Nat)
    (remaining : Scope) (others : List Nat) : Option (Rule α) := do
  let domain ← space[key]?
  let scores ← choiceScores? factors pivot others domain
  let best := Payoff.peak scores
  let earned ← matchingAll? factors (others.insertIdx pivot best.2)
  return {
    assignment := .pairing remaining others
    payoff := best.1
    tags := earned.flatten.flatMap Rule.tags ++ [(key, best.2)] }

def consume? (space : Space) (neighborhood : Scope) :
    List Handle → FactorGraph (List (Rule α)) →
      Option (List (ConsumedFactor α) × FactorGraph (List (Rule α)))
  | [], graph => some ([], graph)
  | handle :: handles, graph => do
    let factor ← graph.factor? handle
    let (rules, graph) ← graph.eraseFactor? handle
    let consumed ← ConsumedFactor.ofRules? space neighborhood factor.scope rules
    let (rest, graph) ← consume? space neighborhood handles graph
    return (consumed :: rest, graph)

/-- Puts rules over `scope` where they belong: behind those of the factor over the scope, or among
the finals if the scope is empty. -/
def Run.deposit? (run : Run α) (scope : Scope) (rules : List (Rule α)) : Option (Run α) :=
  if scope = .empty then some { run with finals := run.finals ++ rules }
  else (run.graph.ensure? scope).map fun (handle, graph) =>
    { run with graph := graph.modifyData handle (· ++ rules) }

def Run.eliminate? (space : Space) (run : Run α) (key : Nat) : Option (Run α) :=
  match run.graph.neighbors key with
  | [] =>
    some { run with
      graph := run.graph.eraseVariable key
      steps := run.steps ++ [.skipped key] }
  | handles => do
    let neighborhood := run.graph.unionScope handles
    let pivot ← neighborhood.position? key
    let (factors, graph) ← consume? space neighborhood handles run.graph
    let remaining := neighborhood.erase key
    let joints ← space.jointValues? remaining.keys
    let rules ← joints.mapM (bestResponse? space key factors pivot remaining)
    let step := Step.eliminated key neighborhood rules.length
    Run.deposit? ⟨graph.eraseVariable key, run.finals, run.steps ++ [step]⟩ remaining rules

end JointDecision.Elimination

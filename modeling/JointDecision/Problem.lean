import JointDecision.FactorGraph
import JointDecision.Rule

/-! # Problems

A joint decision problem is a space with a sum of local payoffs, given as rules or as a factor
graph. Here is what the solvers share: the checks that a problem is over its space, and the filing
of rules by scope. -/

namespace JointDecision

variable {α δ : Type}

def checkRules (space : Space) : List (Rule α) → Except Failure Unit
  | [] => .ok ()
  | rule :: rules =>
    match rule.assignment.check space with
    | .error failure => .error failure
    | .ok () => checkRules space rules

namespace FactorGraph

def checkSpace (graph : FactorGraph δ) (space : Space) : Except Failure Unit :=
  match space.validate with
  | .error failure => .error failure
  | .ok () =>
    if graph.varCount = space.length then .ok ()
    else .error (.sizeMismatch space.length graph.varCount)

/-- Files rules in their order: each edits the payload of the factor over its scope, which is made
when the first rule asks for it. -/
def file? [EmptyCollection δ] (edit? : Rule α → Option (δ → δ)) :
    List (Rule α) → FactorGraph δ → Option (FactorGraph δ)
  | [], graph => some graph
  | rule :: rules, graph => do
    let (handle, graph) ← graph.ensure? rule.assignment.scope
    let edit ← edit? rule
    file? edit? rules (graph.modifyData handle edit)

/-- The graph of some rules over a space: a factor per distinct scope, in the order of first
appearance. Space and rules are checked first. -/
def ofRules [EmptyCollection δ] (edit? : Rule α → Option (δ → δ)) (space : Space)
    (rules : List (Rule α)) : Except Failure (FactorGraph δ) := do
  space.validate
  checkRules space rules
  Failure.unlessOutOfBounds (file? edit? rules (.new space.length))

end FactorGraph

end JointDecision

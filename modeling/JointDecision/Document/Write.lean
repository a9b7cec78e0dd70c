import JointDecision.Document
import JointDecision.Rule

/-! # Writing documents

Scopes are written as lists, and compounds as objects with a field per part. -/

namespace JointDecision.Document

variable {α : Type}

def writeWords (words : List Nat) : Document α :=
  .list (words.map fun n => .whole (Int.ofNat n))

def writeScope (scope : Scope) : Document α :=
  writeWords scope.keys

def writeAssignment (a : Assignment) : Document α :=
  .object [("keys", writeScope a.scope), ("values", writeWords a.values)]

def writeRule (rule : Rule α) : Document α :=
  .object [("assignment", writeAssignment rule.assignment), ("value", .real rule.payoff),
    ("tags", .list (rule.tags.map fun tag => writeWords [tag.1, tag.2]))]

def writeSolution (solution : Solution α) : Document α :=
  .object [("assignment", writeWords solution.assignment), ("value", .real solution.payoff)]

end JointDecision.Document

/-! # Failures

Why a scope, an assignment or a whole problem is refused. Every cause keeps the numbers that name
the offender, and `Failure.message` is the one place that words them. -/

namespace JointDecision

inductive ScopeViolation
  | empty
  | outOfRange (key varCount : Nat)
  | unsorted (position : Nat)
  | duplicate (key : Nat)
deriving DecidableEq

/-- Why an operation on a joint decision problem is refused.

`outOfBounds` is the one cause that is no verdict on the problem: an index lies outside the list it
addresses, a remainder is taken by an empty domain, or a number overflows a word. -/
inductive Failure
  | invalidScope (violation : ScopeViolation)
  | sizeMismatch (expected found : Nat)
  | lengthMismatch (keys values : Nat)
  | valueOutOfRange (key value domain : Nat)
  | emptyDomain (key : Nat)
  | outOfBounds
deriving DecidableEq

def ScopeViolation.message : ScopeViolation → String
  | .empty => "scope is empty"
  | .outOfRange key varCount =>
    s!"variable {key} is out of range for a space of {varCount} variables"
  | .unsorted position => s!"keys are not increasing at position {position}"
  | .duplicate key => s!"variable {key} appears more than once"

def Failure.message : Failure → String
  | .invalidScope violation => "Invalid scope: " ++ violation.message
  | .sizeMismatch expected found => s!"Size mismatch: expected {expected}, found {found}"
  | .lengthMismatch keys values => s!"Got {keys} keys but {values} values"
  | .valueOutOfRange key value domain =>
    s!"Value {value} of variable {key} is outside its domain of size {domain}"
  | .emptyDomain key => s!"Variable {key} has an empty domain"
  | .outOfBounds => "An index is outside the list it addresses"

/-- A partial result as a failing computation: what is missing was out of bounds. -/
def Failure.unlessOutOfBounds {α : Type} : Option α → Except Failure α
  | some a => .ok a
  | none => .error .outOfBounds

end JointDecision

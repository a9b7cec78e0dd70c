import JointDecision.Document
import JointDecision.Rule

/-! # Reading documents

A document is read as a scope, an assignment, a rule or a solution. A compound may be an object,
whose fields are read in alphabetical order and whose unknown fields are ignored, or a list of
exactly its parts. Parts are read before it is asked whether any is missing or too many, and the
first failure is the answer.

What is read needs no space, so keys are only held to be numbers of 64 bits, and values are free. -/

namespace JointDecision.Document

variable {α : Type}

/-- Why a document is not read: it has the wrong shape, or its content is refused. -/
inductive ReadError
  | malformed
  | refused (failure : Failure)
deriving DecidableEq

def maxWord : Nat := 18446744073709551615

def readWord : Document α → Except ReadError Nat
  | .whole (.ofNat n) => if n ≤ maxWord then .ok n else .error .malformed
  | _ => .error .malformed

/-- A payoff; a whole number is rounded to the nearest one. -/
def readPayoff [Payoff α] : Document α → Except ReadError α
  | .whole n => .ok (Payoff.ofInt n)
  | .real x => .ok x
  | _ => .error .malformed

def readList {β : Type} (read : Document α → Except ReadError β) :
    Document α → Except ReadError (List β)
  | .list items => items.mapM read
  | _ => .error .malformed

def readPair : Document α → Except ReadError (Nat × Nat)
  | .list [a, b] => do return (← readWord a, ← readWord b)
  | _ => .error .malformed

def readScope (document : Document α) : Except ReadError Scope := do
  let keys ← readList readWord document
  (Scope.ofList keys maxWord).mapError .refused

def readPart {β : Type} (read : Document α → Except ReadError β) :
    Option (Document α) → Except ReadError (Option β)
  | some part => (read part).map some
  | none => .ok none

def joinAssignment : Option Scope → Option (List Nat) → Except ReadError Assignment
  | some scope, some values =>
    if scope.size = values.length then .ok (.pairing scope values)
    else .error (.refused (.lengthMismatch scope.size values.length))
  | _, _ => .error .malformed

/-- An assignment: its keys and its values, which must be as many. -/
def readAssignment : Document α → Except ReadError Assignment
  | .object fields => do
    let scope ← readPart readScope (field? fields "keys")
    let values ← readPart (readList readWord) (field? fields "values")
    joinAssignment scope values
  | .list items => do
    let scope ← readPart readScope items[0]?
    let values ← readPart (readList readWord) items[1]?
    if items.length = 2 then joinAssignment scope values else throw .malformed
  | _ => .error .malformed

def joinRule : Option Assignment → Option α → Option (List (Nat × Nat)) →
    Except ReadError (Rule α)
  | some assignment, some payoff, some tags => .ok ⟨assignment, payoff, tags⟩
  | _, _, _ => .error .malformed

def readRule [Payoff α] : Document α → Except ReadError (Rule α)
  | .object fields => do
    let assignment ← readPart readAssignment (field? fields "assignment")
    let tags ← readPart (readList readPair) (field? fields "tags")
    let payoff ← readPart readPayoff (field? fields "value")
    joinRule assignment payoff tags
  | .list items => do
    let assignment ← readPart readAssignment items[0]?
    let payoff ← readPart readPayoff items[1]?
    let tags ← readPart (readList readPair) items[2]?
    if items.length = 3 then joinRule assignment payoff tags else throw .malformed
  | _ => .error .malformed

def joinSolution : Option (List Nat) → Option α → Except ReadError (Solution α)
  | some assignment, some payoff => .ok ⟨assignment, payoff⟩
  | _, _ => .error .malformed

def readSolution [Payoff α] : Document α → Except ReadError (Solution α)
  | .object fields => do
    let assignment ← readPart (readList readWord) (field? fields "assignment")
    let payoff ← readPart readPayoff (field? fields "value")
    joinSolution assignment payoff
  | .list items => do
    let assignment ← readPart (readList readWord) items[0]?
    let payoff ← readPart readPayoff items[1]?
    if items.length = 2 then joinSolution assignment payoff else throw .malformed
  | _ => .error .malformed

end JointDecision.Document

import JointDecision.Scope

/-! # Factor graphs

A factor graph joins variables to factors over scopes of them. At most one factor has a given scope;
it is found through an index of scopes, read through a handle, and reached from a variable through
the variable's list of adjacent factors.

Variables and factors share one table of slots. The variables hold the first slots for good. A
factor takes the slot freed last, or a new one at the end, and gives it back when it is erased.
Slots are therefore used again, while serials never are: a handle carries both, and one whose serial
is not the serial in its slot is stale. -/

namespace JointDecision

variable {δ : Type}

/-- A reference to a factor: its creation rank, and the slot it was put in. -/
structure Handle where
  serial : Nat
  slot : Nat
deriving DecidableEq

structure Factor (δ : Type) where
  scope : Scope
  serial : Nat
  data : δ

/-- What a slot in use holds. A variable lists its adjacent factors in creation order. -/
inductive Node (δ : Type)
  | var (live : Bool) (adjacent : List Handle)
  | factor (factor : Factor δ)

/-- Variables, factors, and the index of the factors by scope. `vacant` is the stack of freed
slots. -/
structure FactorGraph (δ : Type) where
  varCount : Nat
  slots : Array (Option (Node δ))
  vacant : List Nat
  byScope : List (Scope × Handle)
  nextSerial : Nat
  liveCount : Nat

namespace Node

def attach (handle : Handle) : Option (Node δ) → Option (Node δ)
  | some (.var live adjacent) => some (.var live (adjacent ++ [handle]))
  | node => node

def detach (handle : Handle) : Option (Node δ) → Option (Node δ)
  | some (.var live adjacent) => some (.var live (adjacent.filter (· ≠ handle)))
  | node => node

end Node

namespace FactorGraph

def new (varCount : Nat) : FactorGraph δ where
  varCount := varCount
  slots := Array.replicate varCount (some (.var true []))
  vacant := []
  byScope := []
  nextSerial := 0
  liveCount := varCount

/-- The slot that a number stands for. A variable's number is its slot; any other number is read as
a 32-bit word. -/
def slotOf (graph : FactorGraph δ) (number : Nat) : Nat :=
  if number < graph.varCount then number else number % 4294967296

def node? (graph : FactorGraph δ) (slot : Nat) : Option (Node δ) :=
  (graph.slots[slot]?).join

/-- Whether `number` is a variable that has not been eliminated. -/
def isLive (graph : FactorGraph δ) (number : Nat) : Bool :=
  match graph.node? (graph.slotOf number) with
  | some (.var live _) => live
  | _ => false

def liveVariables (graph : FactorGraph δ) : List Nat :=
  (List.range graph.varCount).filter graph.isLive

def factorCount (graph : FactorGraph δ) : Nat :=
  graph.byScope.length

/-- The factors adjacent to a variable, in creation order; a number that is not a variable has
none. -/
def neighbors (graph : FactorGraph δ) (number : Nat) : List Handle :=
  match graph.node? (graph.slotOf number) with
  | some (.var _ adjacent) => adjacent
  | _ => []

/-- The number of edges at the slot of `number`: for a variable its factors, for the slot of a
factor the variables of its scope. -/
def degree (graph : FactorGraph δ) (number : Nat) : Nat :=
  match graph.node? (graph.slotOf number) with
  | some (.var _ adjacent) => adjacent.length
  | some (.factor factor) => factor.scope.size
  | none => 0

/-- The factor a handle refers to, unless the handle is stale. -/
def factor? (graph : FactorGraph δ) (handle : Handle) : Option (Factor δ) :=
  match graph.node? handle.slot with
  | some (.factor factor) => if factor.serial = handle.serial then some factor else none
  | _ => none

def factors (graph : FactorGraph δ) : List (Handle × Factor δ) :=
  graph.slots.toList.zipIdx.filterMap fun
    | (some (.factor factor), slot) => some (⟨factor.serial, slot⟩, factor)
    | _ => none

def find? (graph : FactorGraph δ) (scope : Scope) : Option Handle :=
  graph.byScope.lookup scope

/-- The union of the scopes of the factors that the handles refer to; stale handles count for
nothing. -/
def unionScope (graph : FactorGraph δ) (handles : List Handle) : Scope :=
  (handles.filterMap graph.factor?).foldl (fun scope factor => scope.union factor.scope) .empty

def nextSlot (graph : FactorGraph δ) : Nat :=
  graph.vacant.headD graph.slots.size

def occupy (graph : FactorGraph δ) (node : Node δ) : Array (Option (Node δ)) :=
  match graph.vacant with
  | [] => graph.slots.push (some node)
  | slot :: _ => graph.slots.setIfInBounds slot (some node)

def create [EmptyCollection δ] (graph : FactorGraph δ) (scope : Scope) :
    Handle × FactorGraph δ :=
  let handle : Handle := ⟨graph.nextSerial, graph.nextSlot⟩
  (handle,
    { graph with
      slots := scope.keys.foldl
        (fun slots key => slots.modify (graph.slotOf key) (Node.attach handle))
        (graph.occupy (.factor ⟨scope, graph.nextSerial, ∅⟩))
      vacant := graph.vacant.tail
      byScope := (scope, handle) :: graph.byScope
      nextSerial := graph.nextSerial + 1 })

/-- The factor with exactly this scope, made if there is none. A new factor needs a scope of live
variables. -/
def ensure? [EmptyCollection δ] (graph : FactorGraph δ) (scope : Scope) :
    Option (Handle × FactorGraph δ) :=
  match graph.find? scope with
  | some handle => some (handle, graph)
  | none => if scope.keys.all graph.isLive then some (graph.create scope) else none

/-- Edits the payload of a factor; a stale handle edits nothing. -/
def modifyData (graph : FactorGraph δ) (handle : Handle) (edit : δ → δ) : FactorGraph δ :=
  match graph.factor? handle with
  | some factor =>
    let edited := { factor with data := edit factor.data }
    { graph with slots := graph.slots.setIfInBounds handle.slot (some (.factor edited)) }
  | none => graph

/-- Takes a factor out of the graph and answers with its payload; a stale handle takes nothing. -/
def eraseFactor? (graph : FactorGraph δ) (handle : Handle) : Option (δ × FactorGraph δ) :=
  match graph.factor? handle with
  | some factor =>
    some (factor.data,
      { graph with
        slots := factor.scope.keys.foldl
          (fun slots key => slots.modify (graph.slotOf key) (Node.detach handle))
          (graph.slots.setIfInBounds handle.slot none)
        vacant := handle.slot :: graph.vacant
        byScope := graph.byScope.filter (·.1 ≠ factor.scope) })
  | none => none

/-- Marks a variable as eliminated. It should have no adjacent factors; a number that is not a live
variable changes nothing. -/
def eraseVariable (graph : FactorGraph δ) (number : Nat) : FactorGraph δ :=
  match graph.node? (graph.slotOf number) with
  | some (.var true adjacent) =>
    { graph with
      slots := graph.slots.setIfInBounds (graph.slotOf number) (some (.var false adjacent))
      liveCount := graph.liveCount - 1 }
  | _ => graph

def renderKeys (keys : List Nat) : String :=
  "[" ++ ", ".intercalate (keys.map fun key => s!"{key}") ++ "]"

def render (graph : FactorGraph δ) : String :=
  let factorLine (entry : Handle × Factor δ) : String :=
    "    [" ++ s!"{entry.1.serial}" ++ "] " ++ renderKeys entry.2.scope.keys
  "\n".intercalate <|
    ["FactorGraph \x7b",
      s!"  Variables: {graph.varCount} ({graph.liveCount} live)",
      s!"  Factors: {graph.factorCount}"]
    ++ graph.factors.map factorLine ++ ["\x7d"]

end FactorGraph

end JointDecision

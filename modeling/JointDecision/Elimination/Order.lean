import JointDecision.FactorGraph

/-! # Elimination orders

Which live variable is eliminated next. The order never changes the optimum, only the sizes of the
neighborhoods met on the way and which of several optimal assignments is found. -/

namespace JointDecision.Elimination

variable {δ : Type}

/-- The policy that picks the next variable: the highest one, or one with the fewest variables in
its neighborhood, the highest of these. -/
inductive Order
  | lastFirst
  | minDegree
deriving DecidableEq

/-- Unless a caller asks otherwise, the highest variable goes first. -/
instance : Inhabited Order := ⟨.lastFirst⟩

/-- The number of variables in the scopes that contain `key`, itself included; none if no factor
touches it. -/
def width (graph : FactorGraph δ) (key : Nat) : Nat :=
  (graph.unionScope (graph.neighbors key)).size

/-- The best candidate so far and its width, from increasing variables: a later one wins a tie. -/
def pickNarrower (graph : FactorGraph δ) (best : Option (Nat × Nat)) (key : Nat) :
    Option (Nat × Nat) :=
  match best with
  | none => some (key, width graph key)
  | some (held, least) =>
    if width graph key ≤ least then some (key, width graph key) else some (held, least)

def lastLive? (graph : FactorGraph δ) : Nat → Option Nat
  | 0 => none
  | count + 1 => if graph.isLive count then some count else lastLive? graph count

def Order.next? (order : Order) (graph : FactorGraph δ) : Option Nat :=
  match order with
  | .lastFirst => lastLive? graph graph.varCount
  | .minDegree => (graph.liveVariables.foldl (pickNarrower graph) none).map Prod.fst

end JointDecision.Elimination

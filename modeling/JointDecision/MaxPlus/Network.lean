import JointDecision.MaxPlus.Message

/-! # Networks

A factor graph of payoff tables made ready for passing messages, and one synchronous sweep: every
factor reads the messages of the sweep before, and only these, and writes one message to each
variable of its scope. -/

namespace JointDecision.MaxPlus

variable {α : Type} [Payoff α]

/-- A factor ready for message passing: its scope and the domains of the scope's variables, the
joint values of the scope in index order and their payoffs, and the row of the factor in the inbox
of each variable. -/
structure Station (α : Type) where
  scope : List Nat
  radix : List Nat
  joints : List (List Nat)
  table : List α
  rows : List Nat

/-- The factors of a graph in slot order, and how many of them are adjacent to each variable. -/
structure Network (α : Type) where
  space : Space
  stations : List (Station α)
  degrees : List Nat

namespace Station

/-- The station of a factor. Its row at a variable is its place among the variable's neighbors. -/
def ofFactor? (space : Space) (graph : FactorGraph (List α)) (handle : Handle)
    (factor : Factor (List α)) : Option (Station α) := do
  let radix ← space.radix? factor.scope.keys
  let joints ← space.jointValues? factor.scope.keys
  return {
    scope := factor.scope.keys
    radix := radix
    joints := joints
    table := factor.data
    rows := factor.scope.keys.map fun key => ((graph.neighbors key).idxOf? handle).getD 0 }

/-- What the rest of the graph has told each variable of the scope about its value in a joint
value. -/
def heard (station : Station α) (inboxes : Array (Inbox α)) (joint : List Nat) : List α :=
  (station.scope.zip (station.rows.zip joint)).map fun (key, row, value) =>
    ((inboxes[key]?).map fun inbox => inbox.excluding row value).getD Payoff.zero

/-- For each joint value in order, what its variables have heard and what the factor makes of it:
its own payoff and all that was heard. -/
def appraisals (station : Station α) (inboxes : Array (Inbox α)) :
    List (List Nat × List α × α) :=
  (station.joints.zip station.table).map fun (joint, payoff) =>
    let heard := station.heard inboxes joint
    (joint, heard, payoff + Payoff.total heard)

/-- What the variable at a position of the scope is told about its values: about each, the best over
the joint values that give it this value of what the factor makes of them, less what the variable
itself said. -/
def bestMessages (appraisals : List (List Nat × List α × α)) (position width : Nat) : Array α :=
  let best := appraisals.foldl
    (fun best (joint, heard, combined) =>
      best.modify (joint.getD position 0) fun held =>
        Payoff.raise held (combined - heard.getD position Payoff.zero))
    (Array.replicate width none)
  best.map fun held => held.getD Payoff.bottom

def letters (station : Station α) (inboxes : Array (Inbox α)) : List (Letter α) :=
  let appraisals := station.appraisals inboxes
  (station.scope.zip (station.rows.zip station.radix)).mapIdx fun position (key, row, width) =>
    ⟨key, row, centered (bestMessages appraisals position width)⟩

def payoffAt (station : Station α) (full : Array Nat) : α :=
  station.table.getD
    (MixedRadix.index station.radix (station.scope.map fun key => full.getD key 0)) Payoff.zero

end Station

namespace Network

def ofGraph? (space : Space) (graph : FactorGraph (List α)) : Option (Network α) := do
  let stations ← graph.factors.mapM fun (handle, factor) =>
    Station.ofFactor? space graph handle factor
  return {
    space := space
    stations := stations
    degrees := (List.range space.length).map fun key => (graph.neighbors key).length }

def blank (network : Network α) : Array (Inbox α) :=
  (List.zipWith Inbox.blank network.degrees network.space).toArray

/-- One sweep: the inboxes after every station has answered the messages of the last sweep. -/
def sweep (network : Network α) (inboxes : Array (Inbox α)) : Array (Inbox α) :=
  ((network.stations.flatMap fun station => station.letters inboxes).foldl Letter.deliver
    network.blank).map Inbox.refresh

/-- The full assignments that the next sweeps lead to: after each sweep, every variable takes the
value it has heard the best of. -/
def candidates (network : Network α) : Nat → Array (Inbox α) → List (List Nat)
  | 0, _ => []
  | sweeps + 1, inboxes =>
    let inboxes := network.sweep inboxes
    (inboxes.map Inbox.choice).toList :: candidates network sweeps inboxes

def evaluate (network : Network α) (full : List Nat) : α :=
  let values := full.toArray
  Payoff.total (network.stations.map fun station => station.payoffAt values)

end Network

end JointDecision.MaxPlus

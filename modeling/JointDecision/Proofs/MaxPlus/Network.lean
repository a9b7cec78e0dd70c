import JointDecision.Proofs.MaxPlus.Tables
import JointDecision.Proofs.Odometer

/-! # The network of a graph

A sound graph over an inhabited space has a network with a station for every factor. Full
assignments are scored on the tables of the graph, and every sweep leads to a full assignment. -/

namespace JointDecision.MaxPlus

open FactorGraph MixedRadix

def stationOf {α : Type} (space : Space) (graph : FactorGraph (List α))
    (entry : Handle × Factor (List α)) : Station α where
  scope := entry.2.scope.keys
  radix := entry.2.scope.keys.map space.domain
  joints := (space.jointValues? entry.2.scope.keys).getD []
  table := entry.2.data
  rows := entry.2.scope.keys.map fun key => ((graph.neighbors key).idxOf? entry.1).getD 0

def networkOf {α : Type} (space : Space) (graph : FactorGraph (List α)) : Network α where
  space := space
  stations := graph.factors.map (stationOf space graph)
  degrees := (List.range space.length).map fun key => (graph.neighbors key).length

section Graph

variable {α : Type} {space : Space} {graph : FactorGraph (List α)}

theorem scope_lt (hsound : graph.Sound) (hcount : graph.varCount = space.length)
    {entry : Handle × Factor (List α)} (hentry : entry ∈ graph.factors) :
    ∀ key ∈ entry.2.scope.keys, key < space.length := by
  intro key hkey
  rw [← hcount]
  exact ((hsound.scope (mem_factors.1 hentry)).2 key hkey).1

theorem tabled_iff :
    Tabled space graph ↔ checkTables space (graph.factors.map Prod.snd) = .ok () := by
  rw [checkTables_eq_ok_iff, List.forall_mem_map]
  rfl

/-- The first factor, if there is one, whose table does not fit. -/
theorem exists_first_mismatch (htabled : ¬ Tabled space graph) : ∃ before entry later,
    graph.factors = before ++ entry :: later ∧
      (∀ other ∈ before, space.jointSize? other.2.scope.keys = some other.2.data.length) ∧
      space.jointSize? entry.2.scope.keys ≠ some entry.2.data.length := by
  rw [Tabled] at htabled
  generalize graph.factors = factors at htabled ⊢
  induction factors with
  | nil => simp at htabled
  | cons first factors ih =>
    by_cases hfirst : space.jointSize? first.2.scope.keys = some first.2.data.length
    · obtain ⟨before, entry, later, rfl, hbefore, hentry⟩ :=
        ih fun hall => htabled (List.forall_mem_cons.2 ⟨hfirst, hall⟩)
      exact ⟨first :: before, entry, later, rfl, List.forall_mem_cons.2 ⟨hfirst, hbefore⟩, hentry⟩
    · exact ⟨[], first, factors, rfl, by simp, hfirst⟩

theorem ofGraph?_eq (hsound : graph.Sound) (hcount : graph.varCount = space.length) :
    Network.ofGraph? space graph = some (networkOf space graph) := by
  have hstations : graph.factors.mapM (fun entry =>
      Station.ofFactor? space graph entry.1 entry.2) =
        some (graph.factors.map (stationOf space graph)) := by
    refine mapM_eq_some_map fun entry hentry => ?_
    have hkeys := scope_lt hsound hcount hentry
    obtain ⟨joints, hjoints, -⟩ := Space.jointValues?_eq hkeys
    simp [Station.ofFactor?, stationOf, Space.radix?_eq hkeys, hjoints]
  rw [Network.ofGraph?, hstations]
  rfl

theorem map_getD_toArray (keys full : List Nat) :
    (keys.map fun key => full.toArray.getD key 0) = keys.map (valuation full) := by
  refine List.map_congr_left fun key _ => ?_
  simp [valuation]

theorem evaluate_eq {graph : FactorGraph (List Rat)} (full : List Nat) :
    (networkOf space graph).evaluate full = tableSum space graph (valuation full) := by
  rw [Network.evaluate, Payoff.total_rat, networkOf, List.map_map, tableSum]
  congr 1
  refine List.map_congr_left fun entry _ => ?_
  simp only [Function.comp, Station.payoffAt, stationOf, map_getD_toArray, factorValue,
    Payoff.zero_rat]

end Graph

namespace Network

variable {α : Type} [Payoff α]

def inboxes (network : Network α) : Nat → Array (Inbox α)
  | 0 => network.blank
  | sweeps + 1 => network.sweep (network.inboxes sweeps)

/-- What the sweep with a given number, counted from zero, leads to. -/
def candidate (network : Network α) (sweep : Nat) : List Nat :=
  ((network.inboxes (sweep + 1)).map Inbox.choice).toList

private theorem candidates_eq_map (network : Network α) (sweeps done : Nat) :
    network.candidates sweeps (network.inboxes done) =
      (List.range' done sweeps).map network.candidate := by
  induction sweeps generalizing done with
  | zero => rfl
  | succ sweeps ih =>
    rw [candidates, List.range'_succ, List.map_cons]
    congr 1
    exact ih (done + 1)

/-- The candidates of a run do not depend on how many sweeps it has. -/
theorem candidates_eq (network : Network α) (sweeps : Nat) :
    network.candidates sweeps network.blank = (List.range sweeps).map network.candidate := by
  rw [List.range_eq_range']
  exact network.candidates_eq_map sweeps 0

end Network

def Inbox.collect {α : Type} (inbox : Inbox α) (letters : List (Letter α)) : Inbox α :=
  { inbox with
    rows := letters.foldl (fun rows letter => rows.setIfInBounds letter.row letter.message)
      inbox.rows }

theorem getElem?_foldl_deliver {α : Type} (letters : List (Letter α)) (inboxes : Array (Inbox α))
    (key : Nat) :
    (letters.foldl Letter.deliver inboxes)[key]? =
      (inboxes[key]?).map (·.collect (letters.filter (·.key = key))) := by
  induction letters generalizing inboxes with
  | nil =>
    cases hinbox : inboxes[key]? with
    | none => simp [hinbox]
    | some inbox => simp [hinbox, Inbox.collect]
  | cons letter letters ih =>
    rw [List.foldl_cons, ih, Letter.deliver, Array.getElem?_modify]
    by_cases heq : letter.key = key
    · subst heq
      cases hinbox : inboxes[letter.key]? with
      | none => simp
      | some inbox => simp [Inbox.collect]
    · simp [heq]

section Sweep

variable {α : Type} [Payoff α] {space : Space} {graph : FactorGraph (List α)}

theorem getElem?_blank {key : Nat} (hkey : key < space.length) :
    (networkOf space graph).blank[key]? =
      some (.blank (graph.neighbors key).length (space.domain key)) := by
  simp [Network.blank, networkOf, hkey, Space.domain]

theorem getElem?_sweep (inboxes : Array (Inbox α)) {key : Nat} (hkey : key < space.length) :
    ((networkOf space graph).sweep inboxes)[key]? =
      some ((Inbox.blank (graph.neighbors key).length (space.domain key)).collect
        (((networkOf space graph).stations.flatMap (·.letters inboxes)).filter
          (·.key = key))).refresh := by
  rw [Network.sweep, Array.getElem?_map, getElem?_foldl_deliver, getElem?_blank hkey]
  rfl

private theorem size_sweep (inboxes : Array (Inbox α)) :
    ((networkOf space graph).sweep inboxes).size = space.length := by
  have hfold : ∀ (letters : List (Letter α)) (start : Array (Inbox α)),
      (letters.foldl Letter.deliver start).size = start.size := by
    intro letters
    induction letters with
    | nil => intro start; rfl
    | cons letter letters ih =>
      intro start
      rw [List.foldl_cons, ih, Letter.deliver, Array.size_modify]
  rw [Network.sweep, Array.size_map, hfold]
  simp [Network.blank, networkOf]

end Sweep

section Candidates

variable {space : Space} {graph : FactorGraph (List Rat)}

theorem candidate_choice (hspace : space.Inhabited) (sweep : Nat) {key : Nat}
    (hkey : key < space.length) :
    ∃ inbox greatest, ((networkOf space graph).inboxes (sweep + 1))[key]? = some inbox ∧
      inbox.sum.size = space.domain key ∧
      Payoff.FirstGreatest inbox.sum.toList
        (greatest, valuation ((networkOf space graph).candidate sweep) key) := by
  have hinbox := @getElem?_sweep Rat _ space graph ((networkOf space graph).inboxes sweep) key hkey
  generalize hletters : (((networkOf space graph).stations.flatMap
    (·.letters ((networkOf space graph).inboxes sweep))).filter (·.key = key)) = letters at hinbox
  generalize hsome : ((Inbox.blank (graph.neighbors key).length
    (space.domain key)).collect letters).refresh = inbox at hinbox
  have hsize : inbox.sum.size = space.domain key := by
    rw [← hsome]
    simp [Inbox.refresh, Inbox.collect, Inbox.blank]
  have hne : inbox.sum.toList ≠ [] := by
    intro hnil
    have hzero := congrArg List.length hnil
    have hpos := hspace.domain_pos hkey
    simp only [Array.length_toList, List.length_nil] at hzero
    omega
  obtain ⟨greatest, hgreatest⟩ := Payoff.leader_spec hne
  have hchoice : valuation ((networkOf space graph).candidate sweep) key =
      Payoff.leader inbox.sum.toList := by
    have hget : ((networkOf space graph).inboxes (sweep + 1))[key]? = some inbox := hinbox
    simp [valuation, Network.candidate, hget, Inbox.choice]
  rw [← hchoice] at hgreatest
  exact ⟨inbox, greatest, hinbox, hsize, hgreatest⟩

/-- Every sweep leads to a full assignment. -/
theorem candidate_admits (hspace : space.Inhabited) (sweep : Nat) :
    space.Admits ((networkOf space graph).candidate sweep) := by
  refine Space.admits_iff.2 ⟨?_, ?_⟩
  · rw [Network.candidate, Array.length_toList, Array.size_map]
    exact size_sweep _
  · intro key hkey
    obtain ⟨inbox, greatest, -, hsize, hgreatest⟩ :=
      @candidate_choice space graph hspace sweep key hkey
    have hlt := hgreatest.position_lt
    rwa [Array.length_toList, hsize] at hlt

end Candidates

end JointDecision.MaxPlus

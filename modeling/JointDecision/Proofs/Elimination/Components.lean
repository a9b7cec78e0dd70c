import JointDecision.Proofs.Elimination.PrimalGraph
import Mathlib.Combinatorics.SimpleGraph.Connectivity.Connected

/-! # Components of the primal graph

Vertex elimination joins only variables that a path joined already, and keeps what joined two
variables as long as both are there. So what is joined at some point of a run lies in one connected
component of the variables that rules mention. -/

namespace JointDecision

variable {α : Type}

namespace PrimalGraph

def toSimpleGraph (graph : PrimalGraph) : SimpleGraph Nat where
  Adj key other := other ∈ graph.near key
  symm := ⟨fun _ _ h => graph.symm h⟩
  loopless := ⟨graph.loopless⟩

def Linked (graph : PrimalGraph) (key other : Nat) : Prop :=
  graph.toSimpleGraph.Reachable key other

theorem linked_of_near {graph : PrimalGraph} {key other : Nat} (h : other ∈ graph.near key) :
    graph.Linked key other :=
  SimpleGraph.Adj.reachable (G := graph.toSimpleGraph) h

theorem linked_of_near_after {graph : PrimalGraph} (order : List Nat) {key other : Nat}
    (h : other ∈ (graph.after order).near key) : graph.Linked key other := by
  induction order using List.reverseRecOn generalizing key other with
  | nil => exact linked_of_near h
  | append_singleton order last ih =>
    rw [after_concat] at h
    obtain ⟨-, -, -, hnear | ⟨hkey, hother⟩⟩ := mem_fill.1 h
    · exact ih hnear
    · exact (ih hkey).symm.trans (ih hother)

theorem near_after {graph : PrimalGraph} {order : List Nat} {key other : Nat}
    (h : other ∈ graph.near key) (hkey : key ∉ order) (hother : other ∉ order) :
    other ∈ (graph.after order).near key := by
  induction order using List.reverseRecOn with
  | nil => exact h
  | append_singleton order last ih =>
    rw [List.mem_append, List.mem_singleton, not_or] at hkey hother
    have hne : other ≠ key := fun heq => graph.loopless key (heq ▸ h)
    rw [after_concat]
    exact mem_fill.2 ⟨hkey.2, hother.2, hne, .inl (ih hkey.1 hother.1)⟩

theorem occurs_of_near {rules : List (Rule α)} {key other : Nat}
    (h : other ∈ (ofRules rules).near key) : Occurs rules key ∧ Occurs rules other := by
  obtain ⟨-, rule, hrule, hkey, hother⟩ := mem_beside.1 h
  exact ⟨⟨rule, hrule, hkey⟩, ⟨rule, hrule, hother⟩⟩

/-- A path leads from a set of variables only to the set, if all neighbors of its variables are in
it. -/
theorem Linked.mem_of_closed {graph : PrimalGraph} {s : Set Nat}
    (hclosed : ∀ key ∈ s, ∀ other ∈ graph.near key, other ∈ s) {key other : Nat}
    (h : graph.Linked key other) (hkey : key ∈ s) : other ∈ s := by
  have hpath := (SimpleGraph.reachable_iff_reflTransGen key other).1 h
  induction hpath with
  | refl => exact hkey
  | tail hpath hnear ih =>
    exact hclosed _ (ih ((SimpleGraph.reachable_iff_reflTransGen _ _).2 hpath)) _ hnear

/-- The primal graph of some rules, restricted to the variables that they mention. -/
def occurring (rules : List (Rule α)) : SimpleGraph {key // Occurs rules key} :=
  (ofRules rules).toSimpleGraph.induce {key | Occurs rules key}

theorem Linked.occurring {rules : List (Rule α)} {key other : Nat}
    (h : (ofRules rules).Linked key other) (hkey : Occurs rules key) (hother : Occurs rules other) :
    (occurring rules).Reachable ⟨key, hkey⟩ ⟨other, hother⟩ := by
  have hpath := (SimpleGraph.reachable_iff_reflTransGen key other).1 h
  clear h
  induction hpath with
  | refl => exact .refl _
  | tail _ hnear ih =>
    have hmiddle := (occurs_of_near hnear).1
    have hadjacent : (PrimalGraph.occurring rules).Adj ⟨_, hmiddle⟩ ⟨_, hother⟩ := hnear
    exact (ih hmiddle).trans hadjacent.reachable

/-- Linked variables that all their neighbors are among make up a component. -/
theorem exists_component {rules : List (Rule α)} {keys : List Nat} (hne : keys ≠ [])
    (hoccurs : ∀ key ∈ keys, Occurs rules key)
    (hclosed : ∀ key ∈ keys, ∀ other ∈ (ofRules rules).near key, other ∈ keys)
    (hlinked : ∀ key ∈ keys, ∀ other ∈ keys, (ofRules rules).Linked key other) :
    ∃ component : (occurring rules).ConnectedComponent,
      ∀ key, key ∈ keys ↔ ∃ h, (occurring rules).connectedComponentMk ⟨key, h⟩ = component := by
  obtain ⟨first, hfirst⟩ := List.exists_mem_of_ne_nil keys hne
  refine ⟨(occurring rules).connectedComponentMk ⟨first, hoccurs first hfirst⟩, fun key => ?_⟩
  constructor
  · intro hkey
    refine ⟨hoccurs key hkey, SimpleGraph.ConnectedComponent.eq.2 ?_⟩
    exact (hlinked key hkey first hfirst).occurring _ _
  · rintro ⟨h, hsame⟩
    have hpath := (SimpleGraph.ConnectedComponent.eq.1 hsame).symm
    have hlinked : (ofRules rules).Linked first key :=
      hpath.map (SimpleGraph.Embedding.induce _).toHom
    exact hlinked.mem_of_closed (s := {key | key ∈ keys}) hclosed hfirst

end PrimalGraph

end JointDecision

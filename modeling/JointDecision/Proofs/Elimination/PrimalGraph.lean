import JointDecision.Elimination
import JointDecision.Proofs.Elimination.Order
import Mathlib.Algebra.BigOperators.Group.Finset.Basic
import Mathlib.Algebra.BigOperators.Group.List.Basic
import Mathlib.Algebra.GroupWithZero.Nat

/-! # Vertex elimination

The primal graph of some rules joins two variables when a rule mentions both. Vertex elimination
removes its variables one by one, and every removal joins the neighbors of the variable to one
another. What it costs to eliminate variables from rules can be read off this graph alone. -/

namespace JointDecision

variable {α : Type}

/-- A graph without loops over variables, as the neighbors of each variable. -/
structure PrimalGraph where
  near : Nat → Finset Nat
  symm : ∀ {key other}, other ∈ near key → key ∈ near other
  loopless : ∀ key, key ∉ near key

def Occurs (rules : List (Rule α)) (key : Nat) : Prop :=
  ∃ rule ∈ rules, key ∈ rule.assignment.keys

instance (rules : List (Rule α)) : DecidablePred (Occurs rules) := fun key =>
  inferInstanceAs (Decidable (∃ rule ∈ rules, key ∈ rule.assignment.keys))

namespace PrimalGraph

def beside (rules : List (Rule α)) (key : Nat) : Finset Nat :=
  ((rules.map fun rule => rule.assignment.keys).filter (key ∈ ·)).flatten.toFinset.erase key

theorem mem_beside {rules : List (Rule α)} {key other : Nat} : other ∈ beside rules key ↔
    other ≠ key ∧ ∃ rule ∈ rules, key ∈ rule.assignment.keys ∧ other ∈ rule.assignment.keys := by
  simp only [beside, Finset.mem_erase, List.mem_toFinset, List.mem_flatten, List.mem_filter,
    List.mem_map, decide_eq_true_eq]
  refine and_congr_right fun _ => ⟨?_, ?_⟩
  · rintro ⟨_, ⟨⟨rule, hrule, rfl⟩, hkey⟩, hother⟩
    exact ⟨rule, hrule, hkey, hother⟩
  · rintro ⟨rule, hrule, hkey, hother⟩
    exact ⟨_, ⟨⟨rule, hrule, rfl⟩, hkey⟩, hother⟩

def ofRules (rules : List (Rule α)) : PrimalGraph where
  near := beside rules
  symm h := by
    obtain ⟨hne, rule, hrule, hkey, hother⟩ := mem_beside.1 h
    exact mem_beside.2 ⟨hne.symm, rule, hrule, hother, hkey⟩
  loopless _ h := (mem_beside.1 h).1 rfl

/-- The neighbors of `other` once `key` is gone and its neighbors are joined. -/
def fill (graph : PrimalGraph) (key other : Nat) : Finset Nat :=
  if other = key then ∅
  else if key ∈ graph.near other then ((graph.near other ∪ graph.near key).erase key).erase other
  else graph.near other

theorem mem_fill {graph : PrimalGraph} {key other third : Nat} : third ∈ graph.fill key other ↔
    other ≠ key ∧ third ≠ key ∧ third ≠ other ∧
      (third ∈ graph.near other ∨ (other ∈ graph.near key ∧ third ∈ graph.near key)) := by
  unfold fill
  by_cases hsame : other = key
  · simp [hsame]
  · by_cases hnear : key ∈ graph.near other
    · have hback := graph.symm hnear
      simp only [hsame, hnear, hback, if_true, if_false, Finset.mem_erase, Finset.mem_union,
        true_and, ne_eq, not_false_eq_true]
      tauto
    · have hback : other ∉ graph.near key := fun h => hnear (graph.symm h)
      simp only [hsame, hnear, hback, if_false, false_and, or_false, ne_eq, not_false_eq_true,
        true_and]
      refine ⟨fun h => ⟨?_, ?_, h⟩, fun h => h.2.2⟩
      · rintro rfl
        exact hnear h
      · rintro rfl
        exact graph.loopless _ h

/-- Removes a variable and makes its neighbors a clique. -/
def eliminate (graph : PrimalGraph) (key : Nat) : PrimalGraph where
  near := graph.fill key
  symm {other third} h := by
    obtain ⟨hother, hthird, hne, hnear⟩ := mem_fill.1 h
    exact mem_fill.2 ⟨hthird, hother, hne.symm, hnear.imp graph.symm And.symm⟩
  loopless _ h := (mem_fill.1 h).2.2.1 rfl

def after (graph : PrimalGraph) (order : List Nat) : PrimalGraph :=
  order.foldl eliminate graph

def removals : PrimalGraph → List Nat → List (Nat × Finset Nat)
  | _, [] => []
  | graph, key :: order => (key, graph.near key) :: (graph.eliminate key).removals order

theorem after_concat (graph : PrimalGraph) (order : List Nat) (key : Nat) :
    graph.after (order ++ [key]) = (graph.after order).eliminate key := by
  rw [after, after, List.foldl_append]
  rfl

theorem removals_concat (graph : PrimalGraph) (order : List Nat) (key : Nat) :
    graph.removals (order ++ [key]) =
      graph.removals order ++ [(key, (graph.after order).near key)] := by
  induction order generalizing graph with
  | nil => rfl
  | cons first order ih =>
    rw [List.cons_append, removals, ih]
    rfl

theorem map_fst_removals (graph : PrimalGraph) (order : List Nat) :
    (graph.removals order).map Prod.fst = order := by
  induction order generalizing graph with
  | nil => rfl
  | cons key order ih => rw [removals, List.map_cons, ih]

theorem notMem_of_mem_removals (graph : PrimalGraph) (order : List Nat) :
    ∀ removal ∈ graph.removals order, removal.1 ∉ removal.2 := by
  induction order generalizing graph with
  | nil => simp [removals]
  | cons key order ih => exact List.forall_mem_cons.2 ⟨graph.loopless key, ih _⟩

/-- The size of the clique that a variable makes with its neighbors, counting itself. A variable
that no rule mentions makes none. -/
def width (rules : List (Rule α)) (graph : PrimalGraph) (key : Nat) : Nat :=
  if Occurs rules key then (graph.near key).card + 1 else 0

end PrimalGraph

namespace Elimination

/-- Whether a step is the removal of a variable with its neighbors from the primal graph: it is
skipped if no rule mentions it, else it is eliminated in the neighborhood of itself and its
neighbors, with a new rule for each joint value of these. -/
def Agrees (space : Space) (rules : List (Rule α)) (removal : Nat × Finset Nat) : Step → Prop
  | .skipped removed => removed = removal.1 ∧ ¬ Occurs rules removed
  | .eliminated removed neighborhood generated =>
    removed = removal.1 ∧ Occurs rules removed ∧
      neighborhood.keys.toFinset = insert removed removal.2 ∧
      generated = ∏ key ∈ removal.2, space.domain key

/-- The report of vertex elimination in an order: how many variables a rule mentions, how many none
does, the largest clique, and the joint values of the neighbors of the variables that a rule
mentions, at their removal. -/
def Report.ofOrder (space : Space) (rules : List (Rule α)) (order : List Nat) : Report :=
  let cliques := ((PrimalGraph.ofRules rules).removals order).filter (Occurs rules ·.1)
  { eliminated := ((List.range space.length).filter (Occurs rules ·)).length
    skipped := ((List.range space.length).filter (¬ Occurs rules ·)).length
    inducedWidth := (cliques.map fun (_, near) => near.card + 1).foldr max 0
    rulesGenerated := (cliques.map fun (_, near) => ∏ key ∈ near, space.domain key).sum }

/-- Whether every variable of an order was narrowest in the primal graph of its turn among all that
were still there, and the highest of these. -/
def Narrowest (space : Space) (rules : List (Rule α)) (order : List Nat) : Prop :=
  ∀ before key later, order = before ++ key :: later → ∀ other < space.length, other ∉ before →
    Precedes (PrimalGraph.width rules ((PrimalGraph.ofRules rules).after before)) key other

end Elimination

end JointDecision

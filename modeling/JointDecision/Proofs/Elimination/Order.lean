import JointDecision.Elimination.Order
import JointDecision.Proofs.FactorGraph.Sound
import Mathlib.Data.List.Range

/-! # The variable that is next

An order finds a variable as long as one is live, and only a live one: the highest, or the highest
of those with the fewest variables around them. -/

namespace JointDecision.Elimination

open FactorGraph

variable {δ : Type} {graph : FactorGraph δ}

private theorem lastLive?_eq (graph : FactorGraph δ) (count : Nat) :
    lastLive? graph count = ((List.range count).filter graph.isLive).getLast? := by
  induction count with
  | zero => rfl
  | succ count ih =>
    rw [lastLive?, List.range_succ, List.filter_append]
    cases hlive : graph.isLive count with
    | true => simp [hlive]
    | false => simp [hlive, ih]

/-- Whether a variable is narrower than another, or as narrow and not below it. -/
def Precedes (width : Nat → Nat) (key other : Nat) : Prop :=
  width key < width other ∨ (width key = width other ∧ other ≤ key)

/-- From increasing variables the one is picked that precedes all others. -/
theorem foldl_pickNarrower_spec (graph : FactorGraph δ) {keys : List Nat} {held : Nat}
    (hkeys : (held :: keys).Pairwise (· < ·)) :
    ∃ best ∈ held :: keys, keys.foldl (pickNarrower graph) (some (held, width graph held)) =
        some (best, width graph best) ∧
      ∀ key ∈ held :: keys, Precedes (width graph) best key := by
  induction keys generalizing held with
  | nil => exact ⟨held, List.mem_cons_self, rfl, by simp [Precedes]⟩
  | cons key keys ih =>
    obtain ⟨habove, hrest⟩ := List.pairwise_cons.1 hkeys
    have hlt := habove key List.mem_cons_self
    rw [List.foldl_cons]
    by_cases hwidth : width graph key ≤ width graph held
    · obtain ⟨best, hin, hbest, hleast⟩ := ih hrest
      refine ⟨best, List.mem_cons_of_mem _ hin, by rw [← hbest]; simp [pickNarrower, hwidth], ?_⟩
      rw [List.forall_mem_cons]
      refine ⟨?_, hleast⟩
      have hkey := hleast key List.mem_cons_self
      unfold Precedes at hkey ⊢
      omega
    · have hheld : (held :: keys).Pairwise (· < ·) :=
        List.pairwise_cons.2 ⟨fun other hother => habove other (List.mem_cons_of_mem _ hother),
          (List.pairwise_cons.1 hrest).2⟩
      obtain ⟨best, hin, hbest, hleast⟩ := ih hheld
      refine ⟨best, ?_, by rw [← hbest]; simp [pickNarrower, hwidth], ?_⟩
      · simp only [List.mem_cons] at hin ⊢
        exact hin.imp_right .inr
      · obtain ⟨hfirst, hothers⟩ := List.forall_mem_cons.1 hleast
        rw [List.forall_mem_cons, List.forall_mem_cons]
        refine ⟨hfirst, ?_, hothers⟩
        unfold Precedes at hfirst ⊢
        omega

theorem next?_minDegree (graph : FactorGraph δ) :
    (Order.minDegree.next? graph = none ∧ graph.liveVariables = []) ∨
      ∃ key ∈ graph.liveVariables, Order.minDegree.next? graph = some key ∧
        ∀ other ∈ graph.liveVariables, Precedes (width graph) key other := by
  have hincreasing : graph.liveVariables.Pairwise (· < ·) := List.pairwise_lt_range.filter _
  rw [Order.next?]
  cases hlive : graph.liveVariables with
  | nil => exact .inl ⟨rfl, rfl⟩
  | cons first rest =>
    rw [hlive] at hincreasing
    obtain ⟨best, hin, hbest, hleast⟩ := foldl_pickNarrower_spec graph hincreasing
    exact .inr ⟨best, hin, by rw [List.foldl_cons, pickNarrower, hbest, Option.map_some], hleast⟩

theorem next?_lastFirst (graph : FactorGraph δ) :
    Order.lastFirst.next? graph = graph.liveVariables.getLast? :=
  lastLive?_eq graph graph.varCount

theorem next?_spec (order : Order) (graph : FactorGraph δ) :
    (order.next? graph = none ∧ graph.liveVariables = []) ∨
      ∃ key ∈ graph.liveVariables, order.next? graph = some key := by
  cases order with
  | lastFirst =>
    rw [next?_lastFirst]
    cases hlive : graph.liveVariables.getLast? with
    | none => exact .inl ⟨rfl, List.getLast?_eq_none_iff.1 hlive⟩
    | some key => exact .inr ⟨key, List.mem_of_getLast? hlive, rfl⟩
  | minDegree =>
    rcases next?_minDegree graph with hnone | ⟨key, hkey, hnext, -⟩
    · exact .inl hnone
    · exact .inr ⟨key, hkey, hnext⟩

end JointDecision.Elimination

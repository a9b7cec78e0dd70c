import JointDecision.Proofs.FactorGraph.Operations

/-! # Reachable factor graphs

The graphs that a caller can make are sound, and on them every operation is one change of the list
of factors. -/

namespace JointDecision.FactorGraph

variable {δ : Type}

/-- The graphs reached from the graph without factors: factors are asked for over live variables,
edited and erased, and variables are erased once they have no factors. -/
inductive Reachable [EmptyCollection δ] (varCount : Nat) : FactorGraph δ → Prop
  | new : Reachable varCount (.new varCount)
  | ensure {graph after : FactorGraph δ} {scope : Scope} {handle : Handle} :
      Reachable varCount graph → graph.Asked scope →
      graph.ensure? scope = some (handle, after) → Reachable varCount after
  | modifyData {graph : FactorGraph δ} (handle : Handle) (edit : δ → δ) :
      Reachable varCount graph → Reachable varCount (graph.modifyData handle edit)
  | eraseFactor {graph after : FactorGraph δ} {handle : Handle} {data : δ} :
      Reachable varCount graph → graph.eraseFactor? handle = some (data, after) →
      Reachable varCount after
  | eraseVariable {graph : FactorGraph δ} {number : Nat} :
      Reachable varCount graph → graph.neighbors number = [] →
      Reachable varCount (graph.eraseVariable number)

theorem Reachable.varCount_eq [EmptyCollection δ] {varCount : Nat} {graph : FactorGraph δ}
    (h : Reachable varCount graph) : graph.varCount = varCount := by
  induction h with
  | new => rfl
  | @ensure graph after scope handle _ _ hensure ih =>
    unfold ensure? at hensure
    split at hensure
    · cases hensure
      exact ih
    · split at hensure
      · cases hensure
        exact ih
      · cases hensure
  | modifyData handle edit _ ih =>
    rw [Sound.modifyData_varCount]
    exact ih
  | eraseFactor _ herase ih =>
    obtain ⟨-, -, -, hcount, -⟩ := Sound.eraseFactor?_spec herase
    rw [hcount]
    exact ih
  | eraseVariable _ _ ih =>
    rw [Sound.eraseVariable_varCount]
    exact ih

theorem Sound.ensure?_cases [EmptyCollection δ] {graph after : FactorGraph δ} {scope : Scope}
    {handle : Handle} (h : graph.Sound) (hensure : graph.ensure? scope = some (handle, after)) :
    (after = graph ∧ ∃ factor, graph.factor? handle = some factor ∧ factor.scope = scope) ∨
      (graph.find? scope = none ∧ (handle, after) = graph.create scope) := by
  unfold ensure? at hensure
  split at hensure
  · rename_i found hfind
    cases hensure
    exact .inl ⟨rfl, (h.index _ _).1 hfind⟩
  · rename_i hfind
    split at hensure
    · exact .inr ⟨hfind, (Option.some.inj hensure).symm⟩
    · cases hensure

theorem Sound.ensure? [EmptyCollection δ] {graph after : FactorGraph δ} {scope : Scope}
    {handle : Handle} (h : graph.Sound) (hscope : graph.Asked scope)
    (hensure : graph.ensure? scope = some (handle, after)) : after.Sound := by
  rcases h.ensure?_cases hensure with ⟨rfl, -⟩ | ⟨hfresh, hcreate⟩
  · exact h
  · have hafter : after = (graph.create scope).2 := congrArg Prod.snd hcreate
    rw [hafter]
    exact h.create hscope hfresh

/-- Every reachable graph is sound. -/
theorem Reachable.sound [EmptyCollection δ] {varCount : Nat} {graph : FactorGraph δ}
    (h : Reachable varCount graph) : graph.Sound := by
  induction h with
  | new => exact sound_new varCount
  | ensure _ hscope hensure ih => exact ih.ensure? hscope hensure
  | modifyData handle edit _ ih => exact ih.modifyData handle edit
  | eraseFactor _ herase ih => exact ih.eraseFactor? herase
  | eraseVariable _ hfree ih => exact ih.eraseVariable hfree

end JointDecision.FactorGraph

import JointDecision.Proofs.FactorGraph.History

/-! # Unions of scopes

On increasing lists, which are sets, the walk over two lists is a union of sets. The union of the
scopes of some factors therefore does not depend on how, in which order or how often the factors are
named. -/

namespace JointDecision

section Keys

variable {a b c : List Nat}

theorem mergeKeys_comm (ha : a.Pairwise (· < ·)) (hb : b.Pairwise (· < ·)) :
    mergeKeys a b = mergeKeys b a := by
  apply (pairwise_mergeKeys ha hb).eq_of_mem_iff (pairwise_mergeKeys hb ha)
  intro key
  rw [mem_mergeKeys, mem_mergeKeys, or_comm]

theorem mergeKeys_assoc (ha : a.Pairwise (· < ·)) (hb : b.Pairwise (· < ·))
    (hc : c.Pairwise (· < ·)) : mergeKeys (mergeKeys a b) c = mergeKeys a (mergeKeys b c) := by
  apply (pairwise_mergeKeys (pairwise_mergeKeys ha hb) hc).eq_of_mem_iff
    (pairwise_mergeKeys ha (pairwise_mergeKeys hb hc))
  intro key
  simp only [mem_mergeKeys, or_assoc]

theorem mergeKeys_self (ha : a.Pairwise (· < ·)) : mergeKeys a a = a := by
  apply (pairwise_mergeKeys ha ha).eq_of_mem_iff ha
  intro key
  rw [mem_mergeKeys, or_self]

/-- What makes `merge` the union of sets that are kept as increasing lists. -/
structure UnionLaws (merge : List Nat → List Nat → List Nat) : Prop where
  increasing : ∀ a b, a.Pairwise (· < ·) → b.Pairwise (· < ·) → (merge a b).Pairwise (· < ·)
  mem_iff : ∀ a b, a.Pairwise (· < ·) → b.Pairwise (· < ·) → ∀ key,
    key ∈ merge a b ↔ key ∈ a ∨ key ∈ b
  comm : ∀ a b, a.Pairwise (· < ·) → b.Pairwise (· < ·) → merge a b = merge b a
  assoc : ∀ a b c, a.Pairwise (· < ·) → b.Pairwise (· < ·) → c.Pairwise (· < ·) →
    merge (merge a b) c = merge a (merge b c)
  idem : ∀ a, a.Pairwise (· < ·) → merge a a = a
  nil_left : ∀ a, a.Pairwise (· < ·) → merge [] a = a
  nil_right : ∀ a, a.Pairwise (· < ·) → merge a [] = a

theorem unionLaws_mergeKeys : UnionLaws mergeKeys where
  increasing _ _ := pairwise_mergeKeys
  mem_iff _ _ _ _ _ := mem_mergeKeys
  comm _ _ := mergeKeys_comm
  assoc _ _ _ := mergeKeys_assoc
  idem _ := mergeKeys_self
  nil_left a _ := nil_mergeKeys a
  nil_right a _ := mergeKeys_nil a

end Keys

theorem Scope.eq_of_mem_iff {a b : Scope} (h : ∀ key, key ∈ a.keys ↔ key ∈ b.keys) : a = b := by
  have hkeys : a.keys = b.keys := a.increasing.eq_of_mem_iff b.increasing fun {key} => h key
  cases a
  cases b
  cases hkeys
  rfl

namespace FactorGraph

variable {δ : Type} {graph : FactorGraph δ}

private theorem mem_foldl_union {key : Nat} (factors : List (Factor δ)) (start : Scope) :
    key ∈ (factors.foldl (fun scope factor => scope.union factor.scope) start).keys ↔
      key ∈ start.keys ∨ ∃ factor ∈ factors, key ∈ factor.scope.keys := by
  induction factors generalizing start with
  | nil => simp
  | cons factor factors ih =>
    rw [List.foldl_cons, ih]
    simp only [Scope.union, mem_mergeKeys, List.exists_mem_cons_iff, or_assoc]

theorem mem_unionScope {handles : List Handle} {key : Nat} :
    key ∈ (graph.unionScope handles).keys ↔
      ∃ handle ∈ handles, ∃ factor, graph.factor? handle = some factor ∧
        key ∈ factor.scope.keys := by
  rw [unionScope, mem_foldl_union]
  simp only [Scope.empty, List.not_mem_nil, false_or, List.mem_filterMap]
  constructor
  · intro h
    obtain ⟨factor, ⟨handle, hhandle, hfactor⟩, hkey⟩ := h
    exact ⟨handle, hhandle, factor, hfactor, hkey⟩
  · intro h
    obtain ⟨handle, hhandle, factor, hfactor, hkey⟩ := h
    exact ⟨factor, ⟨handle, hhandle, hfactor⟩, hkey⟩

/-- The scopes of a sound graph are over live variables, and so are their unions. -/
theorem Sound.unionScope_live (h : graph.Sound) (handles : List Handle) :
    ∀ key ∈ (graph.unionScope handles).keys, key < graph.varCount ∧ graph.isLive key = true := by
  intro key hkey
  obtain ⟨handle, -, factor, hfactor, hin⟩ := mem_unionScope.1 hkey
  exact (h.scope hfactor).2 key hin

theorem mem_unionScope_iff_named {handles : List Handle} {key : Nat} :
    key ∈ (graph.unionScope handles).keys ↔
      ∃ entry ∈ graph.factors, entry.1 ∈ handles ∧ key ∈ entry.2.scope.keys := by
  rw [mem_unionScope]
  constructor
  · intro h
    obtain ⟨handle, hhandle, factor, hfactor, hkey⟩ := h
    exact ⟨(handle, factor), mem_factors.2 hfactor, hhandle, hkey⟩
  · intro h
    obtain ⟨⟨handle, factor⟩, hentry, hhandle, hkey⟩ := h
    exact ⟨handle, hhandle, factor, mem_factors.1 hentry, hkey⟩

/-- Lists that name the same factors have one union. -/
theorem unionScope_congr {handles others : List Handle}
    (h : ∀ entry ∈ graph.factors, entry.1 ∈ others ↔ entry.1 ∈ handles) :
    graph.unionScope others = graph.unionScope handles := by
  apply Scope.eq_of_mem_iff
  intro key
  rw [mem_unionScope_iff_named, mem_unionScope_iff_named]
  apply exists_congr
  intro entry
  apply and_congr_right
  intro hentry
  rw [h entry hentry]

/-- The walk over two lists is a union of sets. Whatever a caller did, and whichever handles it
keeps, their union lists the variables of the live factors among them in increasing order, and any
other list that names these factors has the same union. -/
theorem unionScope_of_live {varCount : Nat} [EmptyCollection δ] {log : List (Event δ)}
    (h : History varCount log graph) : UnionLaws mergeKeys ∧ ∀ handles,
      (graph.unionScope handles).keys.Pairwise (· < ·) ∧
      (∀ key, key ∈ (graph.unionScope handles).keys ↔
        ∃ entry ∈ graph.factors, entry.1 ∈ handles ∧ key ∈ entry.2.scope.keys) ∧
      (∀ key ∈ (graph.unionScope handles).keys, key < varCount ∧ graph.isLive key = true) ∧
      ∀ others, (∀ entry ∈ graph.factors, entry.1 ∈ others ↔ entry.1 ∈ handles) →
        graph.unionScope others = graph.unionScope handles := by
  have hcount := h.varCount_eq
  refine ⟨unionLaws_mergeKeys, fun handles => ⟨?increasing, ?members, ?live, ?others⟩⟩
  case increasing => exact (graph.unionScope handles).increasing
  case members => exact fun _ => mem_unionScope_iff_named
  case live => exact hcount ▸ h.sound.unionScope_live handles
  case others => exact fun _ => unionScope_congr

private theorem factors_reusedGraph : reusedGraph.factors =
    [(⟨2, 3⟩, ⟨pairScope 0 1 Nat.zero_lt_one, 2, []⟩),
      (⟨1, 4⟩, ⟨pairScope 1 2 Nat.one_lt_two, 1, []⟩)] := rfl

/-- A stale handle adds nothing, nor does one that comes twice, and the order is free. -/
theorem unionScope_of_live_reused : History 3 (reuseLog.take 5) reusedGraph ∧
    (reusedGraph.unionScope [⟨1, 4⟩, ⟨0, 3⟩, ⟨2, 3⟩, ⟨1, 4⟩]).keys = [0, 1, 2] ∧
    reusedGraph.unionScope [⟨2, 3⟩, ⟨1, 4⟩] =
      reusedGraph.unionScope [⟨1, 4⟩, ⟨0, 3⟩, ⟨2, 3⟩, ⟨1, 4⟩] := by
  obtain ⟨-, hunion⟩ := unionScope_of_live history_reusedGraph
  obtain ⟨hincreasing, hmem, -, hothers⟩ := hunion [⟨1, 4⟩, ⟨0, 3⟩, ⟨2, 3⟩, ⟨1, 4⟩]
  refine ⟨history_reusedGraph, ?keys, ?order⟩
  case keys =>
    apply hincreasing.eq_of_mem_iff (by decide)
    intro key
    have hpairs : (key = 0 ∨ key = 1) ∨ key = 1 ∨ key = 2 ↔ key = 0 ∨ key = 1 ∨ key = 2 := by
      omega
    rw [hmem, factors_reusedGraph]
    simpa [pairScope] using hpairs
  case order =>
    apply hothers
    simp [factors_reusedGraph]

end FactorGraph

end JointDecision

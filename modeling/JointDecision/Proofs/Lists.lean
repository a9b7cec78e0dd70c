import Mathlib.Data.List.Forall2
import Mathlib.Data.List.Nodup

/-! # Lists

What a walk over a list that can fail has computed, and what is found in a list of entries. -/

namespace JointDecision

theorem mapM_eq_some_map {β γ : Type} {f : β → Option γ} {g : β → γ} {list : List β}
    (h : ∀ b ∈ list, f b = some (g b)) : list.mapM f = some (list.map g) := by
  induction list with
  | nil => rfl
  | cons b list ih =>
    have hrest := ih fun c hc => h c (List.mem_cons_of_mem _ hc)
    rw [List.mapM_cons, h b List.mem_cons_self, hrest]
    rfl

/-- A fold none of whose steps fails, from a state that has what the steps keep. -/
theorem foldlM_eq_some_foldl {β γ : Type} {P : γ → Prop} {f : γ → β → Option γ} {g : γ → β → γ}
    {list : List β} {start : γ} (hstart : P start)
    (h : ∀ b ∈ list, ∀ state, P state → f state b = some (g state b) ∧ P (g state b)) :
    list.foldlM f start = some (list.foldl g start) ∧ P (list.foldl g start) := by
  induction list generalizing start with
  | nil => exact ⟨rfl, hstart⟩
  | cons b list ih =>
    obtain ⟨hstep, hkept⟩ := h b List.mem_cons_self start hstart
    rw [List.foldlM_cons, hstep]
    exact ih hkept fun c hc => h c (List.mem_cons_of_mem _ hc)

theorem forall₂_of_mapM {β γ : Type} {f : β → Option γ} {list : List β} {results : List γ}
    (h : list.mapM f = some results) : List.Forall₂ (fun b c => f b = some c) list results := by
  induction list generalizing results with
  | nil =>
    cases h
    exact .nil
  | cons b list ih =>
    rw [List.mapM_cons, Option.bind_eq_bind, Option.bind_eq_some_iff] at h
    obtain ⟨c, hc, h⟩ := h
    rw [Option.bind_eq_bind, Option.bind_eq_some_iff] at h
    obtain ⟨rest, hrest, h⟩ := h
    cases h
    exact .cons hc (ih hrest)

theorem length_of_mapM {β γ : Type} {f : β → Option γ} {list : List β} {results : List γ}
    (h : list.mapM f = some results) : results.length = list.length :=
  (forall₂_of_mapM h).length_eq.symm

theorem mem_of_mapM {β γ : Type} {f : β → Option γ} {list : List β} {results : List γ}
    (h : list.mapM f = some results) {c : γ} (hc : c ∈ results) : ∃ b ∈ list, f b = some c := by
  obtain ⟨position, hposition, rfl⟩ := List.mem_iff_getElem.1 hc
  have hpairs := List.forall₂_iff_get.1 (forall₂_of_mapM h)
  exact ⟨_, List.get_mem list ⟨position, hpairs.1 ▸ hposition⟩, hpairs.2 position _ hposition⟩

theorem exists_of_mapM {β γ : Type} {f : β → Option γ} {list : List β} {results : List γ}
    (h : list.mapM f = some results) {b : β} (hb : b ∈ list) : ∃ c, f b = some c := by
  obtain ⟨position, hposition, rfl⟩ := List.mem_iff_getElem.1 hb
  have hpairs := List.forall₂_iff_get.1 (forall₂_of_mapM h)
  exact ⟨_, hpairs.2 position hposition (hpairs.1 ▸ hposition)⟩

variable {β γ : Type} [DecidableEq β] {entries : List (β × γ)} {key : β} {value : γ}

theorem mem_of_lookup (h : entries.lookup key = some value) : (key, value) ∈ entries := by
  obtain ⟨front, back, rfl, -⟩ := List.lookup_eq_some_iff.1 h
  exact List.mem_append_right _ List.mem_cons_self

/-- Where no key comes twice, an entry is what is found under its key. -/
theorem mem_iff_lookup (hnodup : (entries.map Prod.fst).Nodup) :
    (key, value) ∈ entries ↔ entries.lookup key = some value := by
  refine ⟨fun hmem => ?_, mem_of_lookup⟩
  obtain ⟨front, back, rfl⟩ := List.append_of_mem hmem
  refine List.lookup_eq_some_iff.2 ⟨front, back, rfl, fun entry hentry => ?_⟩
  rw [List.map_append, List.nodup_append] at hnodup
  have hne := hnodup.2.2 entry.1 (List.mem_map_of_mem hentry) key (by simp)
  simpa using Ne.symm hne

end JointDecision

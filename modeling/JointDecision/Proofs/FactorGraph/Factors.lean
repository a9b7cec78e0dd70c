import JointDecision.Proofs.FactorGraph.Reachable

/-! # The factors of a graph as a list

Up to order, every operation on a reachable graph adds one factor to the list of factors, takes one
away or edits one. -/

namespace JointDecision.FactorGraph

theorem eraseDups_concat {β : Type} [DecidableEq β] (list : List β) (b : β) :
    (list ++ [b]).eraseDups =
      if b ∈ list.eraseDups then list.eraseDups else list.eraseDups ++ [b] := by
  rw [List.eraseDups_append]
  by_cases hold : b ∈ list
  · rw [if_pos (List.mem_eraseDups.2 hold)]
    simp [List.removeAll, hold]
  · rw [if_neg fun hmem => hold (List.mem_eraseDups.1 hmem)]
    simp [List.removeAll, hold, List.eraseDups_cons]

variable {δ : Type}

/-- Two graphs that differ in one factor. -/
theorem factors_perm_cons {graph smaller : FactorGraph δ} {handle : Handle} {factor : Factor δ}
    (hfactor : graph.factor? handle = some factor) (hgone : smaller.factor? handle = none)
    (hother : ∀ other ≠ handle, smaller.factor? other = graph.factor? other) :
    graph.factors.Perm ((handle, factor) :: smaller.factors) := by
  have hnot : (handle, factor) ∉ smaller.factors := by
    rw [mem_factors, hgone]
    simp
  refine (List.perm_ext_iff_of_nodup (nodup_factors graph)
    (List.nodup_cons.2 ⟨hnot, nodup_factors smaller⟩)).2 ?_
  intro h
  obtain ⟨other, found⟩ := h
  rw [List.mem_cons, mem_factors, mem_factors]
  by_cases heq : other = handle
  · subst heq
    simp [hfactor, hgone, eq_comm]
  · simp [heq, hother other heq]

private theorem factors_perm {graph after : FactorGraph δ}
    (h : ∀ handle, after.factor? handle = graph.factor? handle) :
    after.factors.Perm graph.factors := by
  refine (List.perm_ext_iff_of_nodup (nodup_factors after) (nodup_factors graph)).2 ?_
  intro h'
  obtain ⟨handle, factor⟩ := h'
  rw [mem_factors, mem_factors, h]

private theorem factors_modifyData {graph : FactorGraph δ} {handle : Handle} {factor : Factor δ}
    (hfactor : graph.factor? handle = some factor) (edit : δ → δ) :
    ∃ rest, graph.factors.Perm ((handle, factor) :: rest) ∧
      (graph.modifyData handle edit).factors.Perm
        ((handle, { factor with data := edit factor.data }) :: rest) := by
  obtain ⟨rest, hperm⟩ : ∃ rest, graph.factors.Perm ((handle, factor) :: rest) := by
    obtain ⟨front, back, heq⟩ := List.append_of_mem (mem_factors.2 hfactor)
    exact ⟨front ++ back, heq ▸ List.perm_middle⟩
  have hnodup : ((handle, factor) :: rest).Nodup := hperm.nodup (nodup_factors graph)
  have hrest : ∀ other found, (other, found) ∈ rest ↔
      other ≠ handle ∧ graph.factor? other = some found := by
    intro other found
    have hmem := hperm.mem_iff (a := (other, found))
    rw [mem_factors, List.mem_cons] at hmem
    constructor
    · intro hin
      have hfound := hmem.2 (.inr hin)
      refine ⟨?_, hfound⟩
      rintro rfl
      obtain rfl : factor = found := Option.some.inj (hfactor.symm.trans hfound)
      exact (List.nodup_cons.1 hnodup).1 hin
    · intro h
      obtain ⟨hne, hfound⟩ := h
      rcases hmem.1 hfound with heq | hin
      · exact absurd (congrArg Prod.fst heq) hne
      · exact hin
  refine ⟨rest, hperm, ?_⟩
  have hnot : (handle, { factor with data := edit factor.data }) ∉ rest := fun hin =>
    ((hrest _ _).1 hin).1 rfl
  refine (List.perm_ext_iff_of_nodup (nodup_factors _)
    (List.nodup_cons.2 ⟨hnot, (List.nodup_cons.1 hnodup).2⟩)).2 ?_
  intro h
  obtain ⟨other, found⟩ := h
  rw [mem_factors, Sound.factor?_modifyData, List.mem_cons, hrest]
  by_cases heq : other = handle
  · subst heq
    simp [hfactor, eq_comm]
  · simp [heq]

def HasScope (graph : FactorGraph δ) (scope : Scope) : Prop :=
  ∃ handle factor, graph.factor? handle = some factor ∧ factor.scope = scope

namespace Sound

theorem nodup_scopes {graph : FactorGraph δ} (h : graph.Sound) :
    (graph.factors.map fun entry => entry.2.scope).Nodup := by
  refine (List.nodup_map_iff_inj_on (nodup_factors graph)).2 ?_
  rintro ⟨handle, factor⟩ hentry ⟨other, found⟩ hother hscope
  rw [mem_factors] at hentry hother
  have hfind := (h.index factor.scope handle).2 ⟨factor, hentry, rfl⟩
  have hfind' := (h.index factor.scope other).2 ⟨found, hother, hscope.symm⟩
  obtain rfl : handle = other := Option.some.inj (hfind.symm.trans hfind')
  rw [Option.some.inj (hentry.symm.trans hother)]

section Ensure

variable [EmptyCollection δ] {graph after : FactorGraph δ} {scope : Scope} {handle : Handle}

theorem ensure?_eq (graph : FactorGraph δ) (hscope : graph.Asked scope) :
    ∃ handle after, graph.ensure? scope = some (handle, after) := by
  cases hfind : graph.find? scope with
  | some handle => exact ⟨handle, graph, by simp [FactorGraph.ensure?, hfind]⟩
  | none =>
    have hall : scope.keys.all graph.isLive = true :=
      List.all_eq_true.2 fun key hkey => (hscope.2 key hkey).2
    exact ⟨_, _, by simp [FactorGraph.ensure?, hfind, hall]; rfl⟩

theorem ensure?_varCount (h : graph.Sound)
    (hensure : graph.ensure? scope = some (handle, after)) : after.varCount = graph.varCount := by
  rcases h.ensure?_cases hensure with ⟨rfl, -⟩ | ⟨-, hcreate⟩
  · rfl
  · have hafter : after = (graph.create scope).2 := congrArg Prod.snd hcreate
    rw [hafter, varCount_create]

theorem isLive_ensure? (h : graph.Sound) (hscope : graph.Asked scope)
    (hensure : graph.ensure? scope = some (handle, after)) {key : Nat}
    (hkey : key < graph.varCount) : after.isLive key = graph.isLive key := by
  rcases h.ensure?_cases hensure with ⟨rfl, -⟩ | ⟨-, hcreate⟩
  · rfl
  · have hafter : after = (graph.create scope).2 := congrArg Prod.snd hcreate
    rw [hafter, h.isLive_create hscope hkey]

/-- Asking for a scope answers with its factor and leaves the other factors alone. A factor that was
not there is new and empty. -/
theorem factor?_ensure? (h : graph.Sound) (hscope : graph.Asked scope)
    (hensure : graph.ensure? scope = some (handle, after)) :
    ∃ factor, after.factor? handle = some factor ∧ factor.scope = scope ∧
      (graph.factor? handle = some factor ∨
        (graph.find? scope = none ∧ graph.factor? handle = none ∧ factor.data = ∅)) ∧
      ∀ other ≠ handle, after.factor? other = graph.factor? other := by
  rcases h.ensure?_cases hensure with ⟨rfl, factor, hfactor, hover⟩ | ⟨hfresh, hcreate⟩
  · exact ⟨factor, hfactor, hover, .inl hfactor, fun _ _ => rfl⟩
  · have hhandle : handle = (graph.create scope).1 := congrArg Prod.fst hcreate
    have hafter : after = (graph.create scope).2 := congrArg Prod.snd hcreate
    have hfactors := h.factor?_create hscope
    rw [← hafter, ← hhandle] at hfactors
    refine ⟨⟨scope, graph.nextSerial, ∅⟩, by rw [hfactors, if_pos rfl], rfl,
      .inr ⟨hfresh, ?_, rfl⟩, fun other hne => by rw [hfactors, if_neg hne]⟩
    cases hfactor : graph.factor? handle with
    | none => rfl
    | some factor =>
      rw [hhandle] at hfactor
      exact absurd (h.serial_lt hfactor) (Nat.lt_irrefl _)

/-- Asking for a scope and editing its factor: the factor was there, or there was none and its
payload was empty. -/
theorem factors_ensure? (h : graph.Sound) (hscope : graph.Asked scope)
    (hensure : graph.ensure? scope = some (handle, after)) (edit : δ → δ) :
    ∃ serial data rest,
      (graph.factors.Perm ((handle, ⟨scope, serial, data⟩) :: rest) ∨
        (data = ∅ ∧ graph.factors.Perm rest)) ∧
      (after.modifyData handle edit).factors.Perm
        ((handle, ⟨scope, serial, edit data⟩) :: rest) := by
  obtain ⟨factor, hfactor, rfl, hold, hother⟩ := h.factor?_ensure? hscope hensure
  obtain ⟨rest, hbefore, hafter⟩ := factors_modifyData hfactor edit
  refine ⟨factor.serial, factor.data, rest, ?_, hafter⟩
  rcases hold with hold | ⟨-, hnone, hempty⟩
  · refine .inl ((factors_perm fun other => ?_).trans hbefore)
    by_cases heq : other = handle
    · rw [heq, hfactor, hold]
    · exact (hother other heq).symm
  · have hgrown := factors_perm_cons hfactor hnone fun other hne => (hother other hne).symm
    exact .inr ⟨hempty, (hgrown.symm.trans hbefore).cons_inv⟩

theorem factor?_edited (h : graph.Sound) (hscope : graph.Asked scope)
    (hensure : graph.ensure? scope = some (handle, after)) (edit : δ → δ) :
    ∃ factor, factor.scope = scope ∧
      (graph.factor? handle = some factor ∨
        (graph.find? scope = none ∧ graph.factor? handle = none ∧ factor.data = ∅)) ∧
      ∀ other, (after.modifyData handle edit).factor? other =
        if other = handle then some { factor with data := edit factor.data }
        else graph.factor? other := by
  obtain ⟨factor, hfactor, hover, hold, hothers⟩ := h.factor?_ensure? hscope hensure
  refine ⟨factor, hover, hold, fun other => ?_⟩
  rw [factor?_modifyData, hfactor]
  split
  · rfl
  · rename_i hne
    exact hothers other hne

/-- Asking for a scope and editing its factor leaves the other scopes as they are. -/
theorem hasScope_ensure? (h : graph.Sound) (hscope : graph.Asked scope)
    (hensure : graph.ensure? scope = some (handle, after)) (edit : δ → δ) (other : Scope) :
    (after.modifyData handle edit).HasScope other ↔ graph.HasScope other ∨ other = scope := by
  obtain ⟨factor, hover, hold, hedited⟩ := h.factor?_edited hscope hensure edit
  constructor
  · intro hhas
    obtain ⟨held, found, hfound, hsame⟩ := hhas
    rw [hedited] at hfound
    split at hfound
    · cases hfound
      exact .inr (hsame.symm.trans hover)
    · exact .inl ⟨held, found, hfound, hsame⟩
  · intro hhas
    obtain ⟨held, found, hfound, hsame⟩ | rfl := hhas
    · by_cases heq : held = handle
      · refine ⟨handle, _, (hedited handle).trans (if_pos rfl), ?_⟩
        rcases hold with hold | ⟨-, hnone, -⟩
        · rw [heq, hold] at hfound
          rw [Option.some.inj hfound]
          exact hsame
        · rw [heq, hnone] at hfound
          cases hfound
      · exact ⟨held, found, by rw [hedited, if_neg heq, hfound], hsame⟩
    · exact ⟨handle, _, (hedited handle).trans (if_pos rfl), hover⟩

end Ensure

theorem hasScope_eraseVariable {graph : FactorGraph δ} {number : Nat} (h : graph.Sound)
    (hfree : graph.neighbors number = []) (scope : Scope) :
    (graph.eraseVariable number).HasScope scope ↔ graph.HasScope scope := by
  simp only [HasScope, h.factor?_eraseVariable hfree]

theorem factors_eraseFactor? {graph after : FactorGraph δ} {handle : Handle} {factor : Factor δ}
    {data : δ} (h : graph.Sound) (hfactor : graph.factor? handle = some factor)
    (herase : graph.eraseFactor? handle = some (data, after)) :
    graph.factors.Perm ((handle, factor) :: after.factors) := by
  refine factors_perm_cons hfactor ?_ fun other hne => ?_
  · rw [h.factor?_eraseFactor? herase, if_pos rfl]
  · rw [h.factor?_eraseFactor? herase, if_neg hne]

theorem factors_eraseVariable {graph : FactorGraph δ} {number : Nat} (h : graph.Sound)
    (hfree : graph.neighbors number = []) :
    (graph.eraseVariable number).factors.Perm graph.factors :=
  factors_perm (h.factor?_eraseVariable hfree)

theorem isLive_eraseVariable {graph : FactorGraph δ} {key other : Nat} (h : graph.Sound)
    (hfree : graph.neighbors key = []) (hkey : key < graph.varCount)
    (hother : other < graph.varCount) :
    (graph.eraseVariable key).isLive other = (graph.isLive other && decide (other ≠ key)) := by
  have hslot : graph.slotOf key = key := slotOf_eq hkey
  have hcount := eraseVariable_varCount graph key
  obtain ⟨live, adjacent, hvar⟩ := h.var key hkey
  rcases h.eraseVariable_cases hfree with heq | ⟨-, hnode⟩
  · rw [heq]
    by_cases hsame : other = key
    · subst hsame
      cases live with
      | false => simp [isLive_of_node? hkey hvar]
      | true =>
        have hnode : graph.node? (graph.slotOf other) = some (.var true adjacent) := by
          rw [hslot, hvar]
        have hfalse := node?_eraseVariable hnode (graph.slotOf other)
        rw [heq, if_pos rfl, hnode] at hfalse
        simp at hfalse
    · simp [hsame]
  · have hafter := node?_eraseVariable hnode other
    rw [hslot] at hafter
    by_cases hsame : other = key
    · rw [if_pos hsame] at hafter
      rw [isLive_of_node? (hcount ▸ hother) hafter]
      simp [hsame]
    · rw [if_neg hsame] at hafter
      rw [isLive_congr hcount hother hafter]
      simp [hsame]

end Sound

end JointDecision.FactorGraph

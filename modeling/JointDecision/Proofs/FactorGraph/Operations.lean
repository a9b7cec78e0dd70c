import JointDecision.Proofs.FactorGraph.Sound

/-! # Operations on factor graphs

What each operation changes in the factors, the neighbors and the live variables of a sound graph,
and that the graph stays sound. -/

namespace JointDecision.FactorGraph

variable {δ : Type}

namespace Sound

section Create

variable [EmptyCollection δ] {graph : FactorGraph δ} {scope : Scope}

theorem varCount_create (graph : FactorGraph δ) (scope : Scope) :
    (graph.create scope).2.varCount = graph.varCount := rfl

theorem node?_create (h : graph.Sound) (hscope : graph.Asked scope) (slot : Nat) :
    (graph.create scope).2.node? slot =
      if slot = graph.nextSlot then some (.factor ⟨scope, graph.nextSerial, ∅⟩)
      else if slot ∈ scope.keys then
        Node.attach (graph.create scope).1 (graph.node? slot)
      else graph.node? slot :=
  FactorGraph.node?_create h.vacates (fun key hkey => (hscope.2 key hkey).1) h.nextSlot_spec.1 slot

theorem factor?_create (h : graph.Sound) (hscope : graph.Asked scope) (handle : Handle) :
    (graph.create scope).2.factor? handle =
      if handle = (graph.create scope).1 then some ⟨scope, graph.nextSerial, ∅⟩
      else graph.factor? handle := by
  have hnode := h.node?_create hscope handle.slot
  by_cases hslot : handle.slot = graph.nextSlot
  · rw [if_pos hslot] at hnode
    have hold : graph.factor? handle = none :=
      factor?_eq_none fun factor => by simp [hslot, h.nextSlot_spec.2]
    by_cases hserial : handle.serial = graph.nextSerial
    · have heq : handle = (graph.create scope).1 := by
        cases handle
        simp_all [create]
      rw [if_pos heq]
      simp [factor?, hnode, hserial]
    · have hne : handle ≠ (graph.create scope).1 := fun heq => hserial (by rw [heq]; rfl)
      rw [if_neg hne, hold]
      simp [factor?, hnode, Ne.symm hserial]
  · have hne : handle ≠ (graph.create scope).1 := fun heq => hslot (by rw [heq]; rfl)
    rw [if_neg hslot] at hnode
    rw [if_neg hne]
    by_cases hkey : handle.slot ∈ scope.keys
    · obtain ⟨live, adjacent, hvar⟩ := h.var _ (hscope.2 _ hkey).1
      rw [if_pos hkey, hvar] at hnode
      rw [factor?_eq_none (by simp [hnode, Node.attach]), factor?_eq_none (by simp [hvar])]
    · rw [if_neg hkey] at hnode
      exact factor?_congr hnode

theorem var_create (h : graph.Sound) (hscope : graph.Asked scope) {key : Nat}
    (hkey : key < graph.varCount) {live : Bool} {adjacent : List Handle}
    (hvar : graph.node? key = some (.var live adjacent)) :
    (graph.create scope).2.node? key = some (.var live
      (if key ∈ scope.keys then adjacent ++ [(graph.create scope).1] else adjacent)) := by
  have hslot : key ≠ graph.nextSlot := by
    have := h.nextSlot_spec.1
    omega
  rw [h.node?_create hscope, if_neg hslot, hvar]
  split <;> rfl

private theorem neighbors_create (h : graph.Sound) (hscope : graph.Asked scope) {key : Nat}
    (hkey : key < graph.varCount) :
    (graph.create scope).2.neighbors key =
      if key ∈ scope.keys then graph.neighbors key ++ [(graph.create scope).1]
      else graph.neighbors key := by
  obtain ⟨live, adjacent, hvar⟩ := h.var key hkey
  rw [neighbors_of_node? hkey hvar]
  exact neighbors_of_node? ((varCount_create graph scope).symm ▸ hkey)
    (h.var_create hscope hkey hvar)

theorem isLive_create (h : graph.Sound) (hscope : graph.Asked scope) {key : Nat}
    (hkey : key < graph.varCount) :
    (graph.create scope).2.isLive key = graph.isLive key := by
  obtain ⟨live, adjacent, hvar⟩ := h.var key hkey
  rw [isLive_of_node? hkey hvar]
  exact isLive_of_node? ((varCount_create graph scope).symm ▸ hkey)
    (h.var_create hscope hkey hvar)

private theorem find?_create (graph : FactorGraph δ) (scope other : Scope) :
    (graph.create scope).2.find? other =
      if other = scope then some (graph.create scope).1 else graph.find? other := by
  have hcons : (graph.create scope).2.find? other =
      ((scope, (graph.create scope).1) :: graph.byScope).lookup other := rfl
  rw [hcons, List.lookup_cons]
  by_cases heq : other = scope
  · simp [heq]
  · have hbeq : (other == scope) = false := by simpa using heq
    simp [heq, hbeq, find?]

theorem factor?_create_iff (h : graph.Sound) (hscope : graph.Asked scope) {handle : Handle}
    {factor : Factor δ} :
    (graph.create scope).2.factor? handle = some factor ↔
      (handle = (graph.create scope).1 ∧ factor = ⟨scope, graph.nextSerial, ∅⟩) ∨
        graph.factor? handle = some factor := by
  rw [h.factor?_create hscope]
  by_cases heq : handle = (graph.create scope).1
  · rw [if_pos heq]
    constructor
    · intro hfactor
      exact .inl ⟨heq, (Option.some.inj hfactor).symm⟩
    · intro hfactor
      rcases hfactor with ⟨-, rfl⟩ | hfactor
      · rfl
      · have hlt := h.serial_lt hfactor
        rw [heq] at hlt
        exact absurd hlt (Nat.lt_irrefl _)
  · simp [heq]

private theorem vacant_create (h : graph.Sound) (hscope : graph.Asked scope) {slot : Nat}
    (hslot : slot ∈ (graph.create scope).2.vacant) :
    graph.varCount ≤ slot ∧ slot < (graph.create scope).2.slots.size ∧
      (graph.create scope).2.node? slot = none := by
  obtain ⟨hge, hlt, hnone⟩ := h.vacant slot (List.mem_of_mem_tail hslot)
  refine ⟨hge, hlt.trans_le (size_le_size_create graph scope), ?_⟩
  have hnext : slot ≠ graph.nextSlot := by
    have hnodup := h.vacant_nodup
    change slot ∈ graph.vacant.tail at hslot
    unfold nextSlot
    cases hvacant : graph.vacant with
    | nil => simp [hvacant] at hslot
    | cons head rest =>
      rw [hvacant] at hslot hnodup
      intro heq
      rw [List.headD_cons] at heq
      exact (List.nodup_cons.1 hnodup).1 (heq ▸ hslot)
  rw [h.node?_create hscope, if_neg hnext, hnone]
  split <;> rfl

private theorem sorted_create (h : graph.Sound) (hscope : graph.Asked scope) {key : Nat}
    (hkey : key < graph.varCount) :
    ((graph.create scope).2.neighbors key).Pairwise (·.serial < ·.serial) := by
  rw [h.neighbors_create hscope hkey]
  split
  · refine List.pairwise_append.2 ⟨h.sorted key hkey, List.pairwise_singleton _ _, ?_⟩
    intro a ha b hb
    obtain ⟨factor, hfactor, -⟩ := (h.adjacent key hkey a).1 ha
    rw [List.mem_singleton.1 hb]
    exact h.serial_lt hfactor
  · exact h.sorted key hkey

private theorem adjacent_create (h : graph.Sound) (hscope : graph.Asked scope) {key : Nat}
    (hkey : key < graph.varCount) (handle : Handle) :
    handle ∈ (graph.create scope).2.neighbors key ↔
      ∃ factor, (graph.create scope).2.factor? handle = some factor ∧
        key ∈ factor.scope.keys := by
  have hmem : handle ∈ (graph.create scope).2.neighbors key ↔
      handle ∈ graph.neighbors key ∨ (key ∈ scope.keys ∧ handle = (graph.create scope).1) := by
    rw [h.neighbors_create hscope hkey]
    by_cases hin : key ∈ scope.keys
    · simp [hin]
    · simp [hin]
  rw [hmem, h.adjacent key hkey]
  simp only [h.factor?_create_iff hscope]
  constructor
  · intro hold
    rcases hold with ⟨factor, hfactor, hin⟩ | ⟨hin, heq⟩
    · exact ⟨factor, .inr hfactor, hin⟩
    · exact ⟨_, .inl ⟨heq, rfl⟩, hin⟩
  · intro hnew
    obtain ⟨factor, hfactor, hin⟩ := hnew
    rcases hfactor with ⟨heq, rfl⟩ | hfactor
    · exact .inr ⟨hin, heq⟩
    · exact .inl ⟨factor, hfactor, hin⟩

private theorem index_create (h : graph.Sound) (hscope : graph.Asked scope)
    (hfresh : graph.find? scope = none) (other : Scope) (handle : Handle) :
    (graph.create scope).2.find? other = some handle ↔
      ∃ factor, (graph.create scope).2.factor? handle = some factor ∧ factor.scope = other := by
  simp only [find?_create, h.factor?_create_iff hscope]
  by_cases heq : other = scope
  · subst heq
    rw [if_pos rfl]
    constructor
    · intro hhandle
      exact ⟨_, .inl ⟨(Option.some.inj hhandle).symm, rfl⟩, rfl⟩
    · intro hnew
      obtain ⟨factor, hfactor, hother⟩ := hnew
      rcases hfactor with ⟨rfl, -⟩ | hfactor
      · rfl
      · rw [(h.index _ _).2 ⟨factor, hfactor, hother⟩] at hfresh
        cases hfresh
  · rw [if_neg heq, h.index]
    constructor
    · intro hold
      obtain ⟨factor, hfactor, hother⟩ := hold
      exact ⟨factor, .inr hfactor, hother⟩
    · intro hnew
      obtain ⟨factor, hfactor, hother⟩ := hnew
      rcases hfactor with ⟨-, rfl⟩ | hfactor
      · exact absurd hother.symm heq
      · exact ⟨factor, hfactor, hother⟩

theorem create (h : graph.Sound) (hscope : graph.Asked scope)
    (hfresh : graph.find? scope = none) : (graph.create scope).2.Sound := by
  have hasked : ∀ {other}, graph.Asked other → (graph.create scope).2.Asked other :=
    fun hother => hother.congr (varCount_create graph scope)
      fun key hkey => h.isLive_create hscope hkey
  constructor
  case var =>
    intro key hkey
    obtain ⟨live, adjacent, hvar⟩ := h.var key hkey
    exact ⟨live, _, h.var_create hscope hkey hvar⟩
  case nonvar =>
    intro slot hslot live adjacent
    rw [h.node?_create hscope]
    by_cases hnext : slot = graph.nextSlot
    · simp [hnext]
    · have hnot : slot ∉ scope.keys := fun hmem => by
        have := (hscope.2 slot hmem).1
        exact Nat.not_lt.2 hslot this
      rw [if_neg hnext, if_neg hnot]
      exact h.nonvar slot hslot live adjacent
  case vacant => exact fun slot hslot => h.vacant_create hscope hslot
  case vacant_nodup => exact h.vacant_nodup.sublist (List.tail_sublist _)
  case serial_lt =>
    intro handle factor hfactor
    rcases (h.factor?_create_iff hscope).1 hfactor with ⟨rfl, -⟩ | hfactor
    · exact Nat.lt_succ_self _
    · exact Nat.lt_succ_of_lt (h.serial_lt hfactor)
  case serial_inj =>
    intro a b f g hf hg hserial
    rcases (h.factor?_create_iff hscope).1 hf with ⟨rfl, -⟩ | hf
    · rcases (h.factor?_create_iff hscope).1 hg with ⟨rfl, -⟩ | hg
      · rfl
      · exact absurd hserial (Nat.ne_of_gt (h.serial_lt hg))
    · rcases (h.factor?_create_iff hscope).1 hg with ⟨rfl, -⟩ | hg
      · exact absurd hserial (Nat.ne_of_lt (h.serial_lt hf))
      · exact h.serial_inj hf hg hserial
  case scope =>
    intro handle factor hfactor
    rcases (h.factor?_create_iff hscope).1 hfactor with ⟨-, rfl⟩ | hfactor
    · exact hasked hscope
    · exact hasked (h.scope hfactor)
  case sorted => exact fun key hkey => h.sorted_create hscope hkey
  case adjacent => exact fun key hkey handle => h.adjacent_create hscope hkey handle
  case index => exact h.index_create hscope hfresh

end Create

theorem modifyData_varCount (graph : FactorGraph δ) (handle : Handle) (edit : δ → δ) :
    (graph.modifyData handle edit).varCount = graph.varCount := by
  unfold FactorGraph.modifyData
  split <;> rfl

theorem modifyData_nextSerial (graph : FactorGraph δ) (handle : Handle) (edit : δ → δ) :
    (graph.modifyData handle edit).nextSerial = graph.nextSerial := by
  unfold FactorGraph.modifyData
  split <;> rfl

private theorem modifyData_find? (graph : FactorGraph δ) (handle : Handle) (edit : δ → δ)
    (scope : Scope) :
    (graph.modifyData handle edit).find? scope = graph.find? scope := by
  unfold FactorGraph.modifyData
  split <;> rfl

theorem modifyData_node?_var {graph : FactorGraph δ} (h : graph.Sound) (handle : Handle)
    (edit : δ → δ) {key : Nat} (hkey : key < graph.varCount) :
    (graph.modifyData handle edit).node? key = graph.node? key := by
  cases hfactor : graph.factor? handle with
  | none => rw [modifyData_stale hfactor]
  | some factor =>
    have hne : key ≠ handle.slot := fun heq => by
      have := h.slot_ge hfactor
      omega
    rw [node?_modifyData hfactor, if_neg hne]

private theorem modifyData_neighbors {graph : FactorGraph δ} (h : graph.Sound) (handle : Handle)
    (edit : δ → δ) {key : Nat} (hkey : key < graph.varCount) :
    (graph.modifyData handle edit).neighbors key = graph.neighbors key :=
  neighbors_congr (modifyData_varCount graph handle edit) hkey
    (h.modifyData_node?_var handle edit hkey)

theorem modifyData_isLive {graph : FactorGraph δ} (h : graph.Sound) (handle : Handle)
    (edit : δ → δ) {key : Nat} (hkey : key < graph.varCount) :
    (graph.modifyData handle edit).isLive key = graph.isLive key :=
  isLive_congr (modifyData_varCount graph handle edit) hkey
    (h.modifyData_node?_var handle edit hkey)

theorem factor?_modifyData (graph : FactorGraph δ) (handle : Handle) (edit : δ → δ)
    (other : Handle) :
    (graph.modifyData handle edit).factor? other =
      if other = handle then
        (graph.factor? handle).map fun factor => { factor with data := edit factor.data }
      else graph.factor? other := by
  cases hfactor : graph.factor? handle with
  | none =>
    rw [modifyData_stale hfactor]
    split
    · rename_i heq
      rw [heq, hfactor, Option.map_none]
    · rfl
  | some factor =>
    obtain ⟨hnode, hserial⟩ := node?_of_factor? hfactor
    have hafter := node?_modifyData hfactor edit other.slot
    by_cases hslot : other.slot = handle.slot
    · rw [if_pos hslot] at hafter
      by_cases heq : other = handle
      · subst heq
        simp [factor?, hafter, hserial]
      · have hne : factor.serial ≠ other.serial := by
          intro hsame
          apply heq
          cases other
          cases handle
          simp_all
        rw [if_neg heq]
        simp only [factor?, hafter]
        simp [hslot, hnode, hne]
    · have hne : other ≠ handle := fun heq => hslot (by rw [heq])
      rw [if_neg hslot] at hafter
      rw [if_neg hne]
      exact factor?_congr hafter

theorem modifyData {graph : FactorGraph δ} (h : graph.Sound) (handle : Handle) (edit : δ → δ) :
    (graph.modifyData handle edit).Sound := by
  cases hfactor : graph.factor? handle with
  | none =>
    rw [modifyData_stale hfactor]
    exact h
  | some factor =>
    have hnode := node?_modifyData hfactor edit
    refine h.keep (fun _ => true) (modifyData_varCount graph handle edit) ?_ ?_ ?_ ?_ ?_ ?_ ?_ ?_ ?_
    · simp [FactorGraph.modifyData, hfactor]
    · intro other
      rw [factor?_modifyData, if_pos rfl]
      split
      · rename_i heq
        rw [heq, hfactor]
        rfl
      · rfl
    · intro key hkey
      rw [h.modifyData_neighbors handle edit hkey, List.filter_true]
    · intro key hkey _
      exact h.modifyData_isLive handle edit hkey
    · intro scope
      rw [modifyData_find?]
      cases graph.find? scope <;> rfl
    · intro key hkey
      rw [h.modifyData_node?_var handle edit hkey]
      exact h.var key hkey
    · intro slot hslot live adjacent
      rw [hnode]
      split
      · simp
      · exact h.nonvar slot hslot live adjacent
    · have hvacant : (graph.modifyData handle edit).vacant = graph.vacant := by
        simp [FactorGraph.modifyData, hfactor]
      have hsize : (graph.modifyData handle edit).slots.size = graph.slots.size := by
        simp [FactorGraph.modifyData, hfactor]
      rw [hvacant, hsize]
      intro slot hslot
      obtain ⟨hge, hlt, hnone⟩ := h.vacant slot hslot
      have hne : slot ≠ handle.slot := fun heq => by
        rw [heq, (node?_of_factor? hfactor).1] at hnone
        cases hnone
      exact ⟨hge, hlt, by rw [hnode, if_neg hne, hnone]⟩
    · simp only [FactorGraph.modifyData, hfactor]
      exact h.vacant_nodup

section EraseFactor

variable {graph after : FactorGraph δ} {handle : Handle} {data : δ}

theorem eraseFactor?_spec (herase : graph.eraseFactor? handle = some (data, after)) :
    ∃ factor, graph.factor? handle = some factor ∧ factor.data = data ∧
      after.varCount = graph.varCount ∧ after.nextSerial = graph.nextSerial ∧
      after.slots.size = graph.slots.size ∧ after.vacant = handle.slot :: graph.vacant ∧
      after.byScope = graph.byScope.filter (·.1 ≠ factor.scope) := by
  cases hfactor : graph.factor? handle with
  | none => simp [eraseFactor?, hfactor] at herase
  | some factor =>
    simp only [eraseFactor?, hfactor, Option.some.injEq, Prod.mk.injEq] at herase
    obtain ⟨hdata, rfl⟩ := herase
    exact ⟨factor, rfl, hdata, rfl, rfl, by simp [size_foldl_modify], rfl, rfl⟩

theorem node?_eraseFactor? (h : graph.Sound) {factor : Factor δ}
    (hfactor : graph.factor? handle = some factor)
    (herase : graph.eraseFactor? handle = some (data, after)) (slot : Nat) :
    after.node? slot =
      if slot = handle.slot then none
      else if slot ∈ factor.scope.keys then Node.detach handle (graph.node? slot)
      else graph.node? slot :=
  FactorGraph.node?_eraseFactor? hfactor (fun key hkey => ((h.scope hfactor).2 key hkey).1)
    (h.slot_ge hfactor) herase slot

/-- Erasing a factor makes its handle stale, and no other. -/
theorem factor?_eraseFactor? (h : graph.Sound)
    (herase : graph.eraseFactor? handle = some (data, after)) (other : Handle) :
    after.factor? other = if other = handle then none else graph.factor? other := by
  obtain ⟨factor, hfactor, -⟩ := eraseFactor?_spec herase
  obtain ⟨hnode, hserial⟩ := node?_of_factor? hfactor
  have hafter := h.node?_eraseFactor? hfactor herase other.slot
  by_cases hslot : other.slot = handle.slot
  · rw [if_pos hslot] at hafter
    have hgone : after.factor? other = none := factor?_eq_none fun f => by simp [hafter]
    rw [hgone]
    split
    · rfl
    · rename_i hne
      have hstale : factor.serial ≠ other.serial := by
        intro hsame
        apply hne
        cases other
        cases handle
        simp_all
      simp [factor?, hslot, hnode, hstale]
  · have hne : other ≠ handle := fun heq => hslot (by rw [heq])
    rw [if_neg hslot] at hafter
    rw [if_neg hne]
    by_cases hkey : other.slot ∈ factor.scope.keys
    · obtain ⟨live, adjacent, hvar⟩ := h.var _ ((h.scope hfactor).2 _ hkey).1
      rw [if_pos hkey, hvar] at hafter
      rw [factor?_eq_none (by simp [hafter, Node.detach]), factor?_eq_none (by simp [hvar])]
    · rw [if_neg hkey] at hafter
      exact factor?_congr hafter

theorem var_eraseFactor? (h : graph.Sound)
    (herase : graph.eraseFactor? handle = some (data, after)) {key : Nat}
    (hkey : key < graph.varCount) {live : Bool} {adjacent : List Handle}
    (hvar : graph.node? key = some (.var live adjacent)) :
    after.node? key = some (.var live (adjacent.filter (· ≠ handle))) := by
  obtain ⟨factor, hfactor, -⟩ := eraseFactor?_spec herase
  have hne : key ≠ handle.slot := by
    have := h.slot_ge hfactor
    omega
  rw [h.node?_eraseFactor? hfactor herase, if_neg hne, hvar]
  split
  · rfl
  · rename_i hnot
    have hself : adjacent.filter (· ≠ handle) = adjacent := by
      refine List.filter_eq_self.2 ?_
      intro other hother
      rw [← neighbors_of_node? hkey hvar, h.adjacent key hkey] at hother
      obtain ⟨found, hfound, hin⟩ := hother
      have : other ≠ handle := by
        rintro rfl
        rw [hfactor] at hfound
        exact hnot (Option.some.inj hfound ▸ hin)
      simpa using this
    rw [hself]

theorem isLive_eraseFactor? (h : graph.Sound)
    (herase : graph.eraseFactor? handle = some (data, after)) {key : Nat}
    (hkey : key < graph.varCount) : after.isLive key = graph.isLive key := by
  obtain ⟨factor, -, -, hcount, -⟩ := eraseFactor?_spec herase
  obtain ⟨live, adjacent, hvar⟩ := h.var key hkey
  rw [isLive_of_node? hkey hvar]
  exact isLive_of_node? (hcount ▸ hkey) (h.var_eraseFactor? herase hkey hvar)

private theorem lookup_filter_ne (entries : List (Scope × Handle)) (scope gone : Scope) :
    (entries.filter fun entry => entry.1 ≠ gone).lookup scope =
      if scope = gone then none else entries.lookup scope := by
  induction entries with
  | nil => simp
  | cons entry entries ih =>
    by_cases hsame : entry.1 = gone
    · rw [List.filter_cons_of_neg (by simpa using hsame), ih, List.lookup_cons]
      by_cases hgone : scope = gone
      · rw [if_pos hgone, if_pos hgone]
      · have hbeq : (scope == entry.1) = false := by simpa [hsame] using hgone
        rw [if_neg hgone, if_neg hgone, hbeq]
    · rw [List.filter_cons_of_pos (by simpa using hsame), List.lookup_cons, List.lookup_cons, ih]
      cases hbeq : scope == entry.1 with
      | true =>
        have hkept : scope ≠ gone := fun heq => hsame (by rw [← heq, eq_of_beq hbeq])
        simp [hkept]
      | false => rfl

private theorem find?_eraseFactor? (h : graph.Sound)
    (herase : graph.eraseFactor? handle = some (data, after)) (scope : Scope) :
    after.find? scope = (graph.find? scope).filter fun other => decide (other ≠ handle) := by
  obtain ⟨factor, hfactor, -, -, -, -, -, hindex⟩ := eraseFactor?_spec herase
  have hlookup : after.find? scope =
      if scope = factor.scope then none else graph.find? scope := by
    rw [FactorGraph.find?, hindex]
    exact lookup_filter_ne graph.byScope scope factor.scope
  rw [hlookup]
  by_cases heq : scope = factor.scope
  · rw [if_pos heq, (h.index _ _).2 ⟨factor, hfactor, heq.symm⟩]
    simp [Option.filter]
  · rw [if_neg heq]
    cases hfind : graph.find? scope with
    | none => rfl
    | some found =>
      have hother : found ≠ handle := by
        intro hsame
        obtain ⟨other, hother, hscope⟩ := (h.index _ _).1 hfind
        rw [hsame, hfactor] at hother
        rw [← Option.some.inj hother] at hscope
        exact heq hscope.symm
      simp [Option.filter, hother]

theorem eraseFactor? (h : graph.Sound)
    (herase : graph.eraseFactor? handle = some (data, after)) : after.Sound := by
  obtain ⟨factor, hfactor, -, hcount, hserial, hsize, hvacant, -⟩ := eraseFactor?_spec herase
  have hnode := h.node?_eraseFactor? hfactor herase
  refine h.keep (fun other => decide (other ≠ handle)) hcount hserial ?_ ?_ ?_
    (h.find?_eraseFactor? herase) ?_ ?_ ?_ ?_
  · intro other
    rw [h.factor?_eraseFactor? herase]
    by_cases heq : other = handle
    · simp [heq]
    · simp [heq]
  · intro key hkey
    obtain ⟨live, adjacent, hvar⟩ := h.var key hkey
    rw [neighbors_of_node? hkey hvar]
    exact neighbors_of_node? (hcount ▸ hkey) (h.var_eraseFactor? herase hkey hvar)
  · intro key hkey _
    exact h.isLive_eraseFactor? herase hkey
  · intro key hkey
    obtain ⟨live, adjacent, hvar⟩ := h.var key hkey
    exact ⟨live, _, h.var_eraseFactor? herase hkey hvar⟩
  · intro slot hslot live adjacent
    have hnot : slot ∉ factor.scope.keys := fun hmem =>
      Nat.not_lt.2 hslot ((h.scope hfactor).2 slot hmem).1
    rw [hnode, if_neg hnot]
    split
    · simp
    · exact h.nonvar slot hslot live adjacent
  · rw [hvacant, hsize]
    intro slot hslot
    rcases List.mem_cons.1 hslot with rfl | hslot
    · exact ⟨h.slot_ge hfactor, lt_size_of_node? (node?_of_factor? hfactor).1,
        by rw [hnode, if_pos rfl]⟩
    · obtain ⟨hge, hlt, hnone⟩ := h.vacant slot hslot
      refine ⟨hge, hlt, ?_⟩
      rw [hnode, hnone]
      split
      · rfl
      · split <;> rfl
  · rw [hvacant]
    refine List.nodup_cons.2 ⟨fun hmem => ?_, h.vacant_nodup⟩
    have hnone := (h.vacant _ hmem).2.2
    rw [(node?_of_factor? hfactor).1] at hnone
    cases hnone

end EraseFactor

section EraseVariable

variable {graph : FactorGraph δ} {number : Nat}

theorem eraseVariable_varCount (graph : FactorGraph δ) (number : Nat) :
    (graph.eraseVariable number).varCount = graph.varCount := by
  unfold FactorGraph.eraseVariable
  split <;> rfl

theorem eraseVariable_nextSerial (graph : FactorGraph δ) (number : Nat) :
    (graph.eraseVariable number).nextSerial = graph.nextSerial := by
  unfold FactorGraph.eraseVariable
  split <;> rfl

/-- Erasing a variable changes one slot, or nothing. -/
theorem eraseVariable_cases (h : graph.Sound) (hfree : graph.neighbors number = []) :
    graph.eraseVariable number = graph ∨
      (graph.slotOf number < graph.varCount ∧
        graph.node? (graph.slotOf number) = some (.var true [])) := by
  cases hnode : graph.node? (graph.slotOf number) with
  | none => exact .inl (by simp [FactorGraph.eraseVariable, hnode])
  | some node =>
    cases node with
    | factor factor => exact .inl (by simp [FactorGraph.eraseVariable, hnode])
    | var live adjacent =>
      cases live with
      | false => exact .inl (by simp [FactorGraph.eraseVariable, hnode])
      | true =>
        have hlt : graph.slotOf number < graph.varCount := by
          by_contra hge
          exact h.nonvar _ (by omega) _ _ hnode
        have hnil : adjacent = [] := by simpa [neighbors, hnode] using hfree
        exact .inr ⟨hlt, by rw [hnil]⟩

theorem factor?_eraseVariable (h : graph.Sound) (hfree : graph.neighbors number = [])
    (handle : Handle) : (graph.eraseVariable number).factor? handle = graph.factor? handle := by
  rcases h.eraseVariable_cases hfree with heq | ⟨-, hnode⟩
  · rw [heq]
  · have hafter := node?_eraseVariable hnode handle.slot
    by_cases hslot : handle.slot = graph.slotOf number
    · rw [if_pos hslot] at hafter
      rw [factor?_eq_none (by simp [hafter]), factor?_eq_none (by simp [hslot, hnode])]
    · rw [if_neg hslot] at hafter
      exact factor?_congr hafter

theorem eraseVariable (h : graph.Sound) (hfree : graph.neighbors number = []) :
    (graph.eraseVariable number).Sound := by
  rcases h.eraseVariable_cases hfree with heq | ⟨hlt, hnode⟩
  · rw [heq]
    exact h
  · have hafter := node?_eraseVariable hnode
    have hcount : (graph.eraseVariable number).varCount = graph.varCount := by
      rw [eraseVariable_eq hnode]
    have hfound : (graph.eraseVariable number).node? (graph.slotOf number) =
        some (.var false []) := by
      rw [hafter, if_pos rfl]
    have hsame : ∀ key, key ≠ graph.slotOf number →
        (graph.eraseVariable number).node? key = graph.node? key := by
      intro key hne
      rw [hafter, if_neg hne]
    refine h.keep (fun _ => true) hcount (by rw [eraseVariable_eq hnode]) ?_ ?_ ?_ ?_ ?_ ?_ ?_ ?_
    · intro handle
      rw [h.factor?_eraseVariable hfree, if_pos rfl]
    · intro key hkey
      rw [List.filter_true]
      by_cases heq : key = graph.slotOf number
      · subst heq
        rw [neighbors_of_node? hlt hnode]
        exact neighbors_of_node? (hcount ▸ hlt) hfound
      · exact neighbors_congr hcount hkey (hsame key heq)
    · intro key hkey hne
      by_cases heq : key = graph.slotOf number
      · subst heq
        exact absurd (neighbors_of_node? (hcount ▸ hlt) hfound) hne
      · exact isLive_congr hcount hkey (hsame key heq)
    · intro scope
      have hfind : (graph.eraseVariable number).find? scope = graph.find? scope := by
        rw [eraseVariable_eq hnode]
        rfl
      rw [hfind]
      cases graph.find? scope <;> rfl
    · intro key hkey
      by_cases heq : key = graph.slotOf number
      · exact ⟨false, [], heq ▸ hfound⟩
      · rw [hsame key heq]
        exact h.var key hkey
    · intro slot hslot live adjacent
      rw [hsame slot (by omega)]
      exact h.nonvar slot hslot live adjacent
    · rw [eraseVariable_eq hnode] at hsame ⊢
      intro slot hslot
      obtain ⟨hge, hsize, hnone⟩ := h.vacant slot hslot
      refine ⟨hge, by simpa using hsize, ?_⟩
      rw [hsame slot (by omega), hnone]
    · rw [eraseVariable_eq hnode]
      exact h.vacant_nodup

end EraseVariable

end Sound

end JointDecision.FactorGraph

import JointDecision.Proofs.FactorGraph.Slots

/-! # The invariant of factor graphs

Variables keep the first slots, a serial names one factor, the neighbors of a variable are the
factors whose scope has it, and the index finds every factor by its scope. -/

namespace JointDecision.FactorGraph

variable {δ : Type}

def Asked (graph : FactorGraph δ) (scope : Scope) : Prop :=
  scope ≠ .empty ∧ ∀ key ∈ scope.keys, key < graph.varCount ∧ graph.isLive key = true

/-- What holds in every reachable graph. -/
structure Sound (graph : FactorGraph δ) : Prop where
  var : ∀ key < graph.varCount, ∃ live adjacent, graph.node? key = some (.var live adjacent)
  nonvar : ∀ slot, graph.varCount ≤ slot →
    ∀ live adjacent, graph.node? slot ≠ some (.var live adjacent)
  vacant : ∀ slot ∈ graph.vacant,
    graph.varCount ≤ slot ∧ slot < graph.slots.size ∧ graph.node? slot = none
  vacant_nodup : graph.vacant.Nodup
  serial_lt : ∀ {handle factor}, graph.factor? handle = some factor →
    handle.serial < graph.nextSerial
  serial_inj : ∀ {a b f g}, graph.factor? a = some f → graph.factor? b = some g →
    a.serial = b.serial → a = b
  scope : ∀ {handle factor}, graph.factor? handle = some factor → graph.Asked factor.scope
  sorted : ∀ key < graph.varCount, (graph.neighbors key).Pairwise (·.serial < ·.serial)
  adjacent : ∀ key < graph.varCount, ∀ handle, handle ∈ graph.neighbors key ↔
    ∃ factor, graph.factor? handle = some factor ∧ key ∈ factor.scope.keys
  index : ∀ scope handle, graph.find? scope = some handle ↔
    ∃ factor, graph.factor? handle = some factor ∧ factor.scope = scope

theorem Sound.nodup_neighbors {graph : FactorGraph δ} (h : graph.Sound) {key : Nat}
    (hkey : key < graph.varCount) : (graph.neighbors key).Nodup := by
  refine (h.sorted key hkey).imp fun hlt heq => ?_
  rw [heq] at hlt
  exact Nat.lt_irrefl _ hlt

theorem factor?_congr {graph after : FactorGraph δ} {handle : Handle}
    (h : after.node? handle.slot = graph.node? handle.slot) :
    after.factor? handle = graph.factor? handle := by
  simp only [factor?, h]

theorem factor?_eq_none {graph : FactorGraph δ} {handle : Handle}
    (h : ∀ factor, graph.node? handle.slot ≠ some (.factor factor)) :
    graph.factor? handle = none := by
  cases hfactor : graph.factor? handle with
  | none => rfl
  | some factor => exact absurd (node?_of_factor? hfactor).1 (h factor)

theorem neighbors_of_node? {graph : FactorGraph δ} {key : Nat} (hkey : key < graph.varCount)
    {live : Bool} {adjacent : List Handle} (h : graph.node? key = some (.var live adjacent)) :
    graph.neighbors key = adjacent := by
  simp [neighbors, slotOf_eq hkey, h]

theorem isLive_of_node? {graph : FactorGraph δ} {key : Nat} (hkey : key < graph.varCount)
    {live : Bool} {adjacent : List Handle} (h : graph.node? key = some (.var live adjacent)) :
    graph.isLive key = live := by
  simp [isLive, slotOf_eq hkey, h]

theorem neighbors_congr {graph after : FactorGraph δ} {key : Nat}
    (hcount : after.varCount = graph.varCount) (hkey : key < graph.varCount)
    (h : after.node? key = graph.node? key) : after.neighbors key = graph.neighbors key := by
  simp only [neighbors, slotOf_eq hkey, slotOf_eq (hcount ▸ hkey), h]

theorem isLive_congr {graph after : FactorGraph δ} {key : Nat}
    (hcount : after.varCount = graph.varCount) (hkey : key < graph.varCount)
    (h : after.node? key = graph.node? key) : after.isLive key = graph.isLive key := by
  simp only [isLive, slotOf_eq hkey, slotOf_eq (hcount ▸ hkey), h]

theorem mem_liveVariables {graph : FactorGraph δ} {key : Nat} :
    key ∈ graph.liveVariables ↔ key < graph.varCount ∧ graph.isLive key = true := by
  rw [liveVariables, List.mem_filter, List.mem_range]

theorem nodup_liveVariables (graph : FactorGraph δ) : graph.liveVariables.Nodup :=
  List.nodup_range.filter _

theorem liveVariables_congr {graph after : FactorGraph δ} (hcount : after.varCount = graph.varCount)
    (hlive : ∀ key < graph.varCount, after.isLive key = graph.isLive key) :
    after.liveVariables = graph.liveVariables := by
  rw [liveVariables, liveVariables, hcount]
  exact List.filter_congr fun key hkey => hlive key (List.mem_range.1 hkey)

theorem liveVariables_erase {graph after : FactorGraph δ} {key : Nat}
    (hcount : after.varCount = graph.varCount) (hlive : ∀ other < graph.varCount,
      after.isLive other = (graph.isLive other && decide (other ≠ key))) :
    after.liveVariables = graph.liveVariables.erase key := by
  rw [(nodup_liveVariables graph).erase_eq_filter, liveVariables, liveVariables, hcount,
    List.filter_filter]
  refine List.filter_congr fun other hother => ?_
  rw [hlive other (List.mem_range.1 hother), Bool.and_comm]
  by_cases heq : other = key
  · simp [heq]
  · simp [heq]

theorem Asked.congr {graph after : FactorGraph δ} (hcount : after.varCount = graph.varCount)
    (hlive : ∀ key < graph.varCount, after.isLive key = graph.isLive key) {scope : Scope}
    (h : graph.Asked scope) : after.Asked scope := by
  refine ⟨h.1, fun key hkey => ?_⟩
  obtain ⟨hlt, hkept⟩ := h.2 key hkey
  exact ⟨hcount ▸ hlt, (hlive key hlt).trans hkept⟩

namespace Sound

variable {graph : FactorGraph δ}

private theorem not_factor (h : graph.Sound) {key : Nat} (hkey : key < graph.varCount)
    (factor : Factor δ) : graph.node? key ≠ some (.factor factor) := by
  obtain ⟨live, adjacent, hvar⟩ := h.var key hkey
  simp [hvar]

theorem slot_ge (h : graph.Sound) {handle : Handle} {factor : Factor δ}
    (hfactor : graph.factor? handle = some factor) : graph.varCount ≤ handle.slot := by
  by_contra hlt
  exact h.not_factor (by omega) factor (node?_of_factor? hfactor).1

theorem vacates (h : graph.Sound) : graph.Vacates :=
  fun slot hslot => (h.vacant slot hslot).2.1

private theorem varCount_le_size (h : graph.Sound) : graph.varCount ≤ graph.slots.size := by
  cases hcount : graph.varCount with
  | zero => exact Nat.zero_le _
  | succ last =>
    obtain ⟨live, adjacent, hvar⟩ := h.var last (by omega)
    exact lt_size_of_node? hvar

theorem nextSlot_spec (h : graph.Sound) :
    graph.varCount ≤ graph.nextSlot ∧ graph.node? graph.nextSlot = none := by
  unfold nextSlot
  cases hvacant : graph.vacant with
  | nil => exact ⟨h.varCount_le_size, by simp [node?]⟩
  | cons slot rest =>
    obtain ⟨hge, -, hnone⟩ := h.vacant slot (by simp [hvacant])
    exact ⟨hge, hnone⟩

end Sound

theorem factor?_new (varCount : Nat) (handle : Handle) :
    (FactorGraph.new varCount : FactorGraph δ).factor? handle = none := by
  refine factor?_eq_none fun factor => ?_
  rw [node?_new]
  split
  · simp
  · simp

theorem isLive_new {varCount key : Nat} (hkey : key < varCount) :
    (FactorGraph.new varCount : FactorGraph δ).isLive key = true := by
  have hnode : (FactorGraph.new varCount : FactorGraph δ).node? key = some (.var true []) := by
    rw [node?_new, if_pos hkey]
  exact isLive_of_node? hkey hnode

theorem sound_new (varCount : Nat) : (FactorGraph.new varCount : FactorGraph δ).Sound := by
  have hnone := @factor?_new δ varCount
  have hvar : ∀ key < varCount,
      (FactorGraph.new varCount : FactorGraph δ).node? key = some (.var true []) := by
    intro key hkey
    rw [node?_new, if_pos hkey]
  have hneighbors : ∀ key < varCount,
      (FactorGraph.new varCount : FactorGraph δ).neighbors key = [] :=
    fun key hkey => neighbors_of_node? hkey (hvar key hkey)
  have hfind : ∀ scope, (FactorGraph.new varCount : FactorGraph δ).find? scope = none :=
    fun _ => rfl
  refine ⟨fun key hkey => ⟨true, [], hvar key hkey⟩, ?_, by simp [new],
    by simp [new], by simp [hnone], by simp [hnone], by simp [hnone], ?_, ?_,
    by simp [hfind, hnone]⟩
  · intro slot hslot live adjacent
    rw [node?_new, if_neg (by simpa [new] using hslot)]
    simp
  · intro key hkey
    rw [hneighbors key hkey]
    exact .nil
  · intro key hkey handle
    rw [hneighbors key hkey]
    simp [hnone]

namespace Sound

/-- An operation that keeps some factors with their scopes, and forgets the others everywhere, keeps
the invariant. -/
theorem keep {graph after : FactorGraph δ} (h : graph.Sound) (kept : Handle → Bool)
    (hcount : after.varCount = graph.varCount) (hserial : after.nextSerial = graph.nextSerial)
    (hscopes : ∀ handle, (after.factor? handle).map Factor.scope =
      if kept handle then (graph.factor? handle).map Factor.scope else none)
    (hneighbors : ∀ key < graph.varCount, after.neighbors key = (graph.neighbors key).filter kept)
    (hlive : ∀ key < graph.varCount, after.neighbors key ≠ [] →
      after.isLive key = graph.isLive key)
    (hfind : ∀ scope, after.find? scope = (graph.find? scope).filter kept)
    (hvar : ∀ key < graph.varCount, ∃ live adjacent, after.node? key = some (.var live adjacent))
    (hnonvar : ∀ slot, graph.varCount ≤ slot →
      ∀ live adjacent, after.node? slot ≠ some (.var live adjacent))
    (hvacant : ∀ slot ∈ after.vacant,
      graph.varCount ≤ slot ∧ slot < after.slots.size ∧ after.node? slot = none)
    (hnodup : after.vacant.Nodup) : after.Sound := by
  have hback : ∀ {handle factor}, after.factor? handle = some factor →
      kept handle = true ∧
        ∃ old, graph.factor? handle = some old ∧ old.scope = factor.scope := by
    intro handle factor hfactor
    have hscope := hscopes handle
    rw [hfactor] at hscope
    split at hscope
    · rename_i hkept
      exact ⟨hkept, Option.map_eq_some_iff.1 hscope.symm⟩
    · cases hscope
  have hforth : ∀ {handle factor}, kept handle = true → graph.factor? handle = some factor →
      ∃ new, after.factor? handle = some new ∧ new.scope = factor.scope := by
    intro handle factor hkept hfactor
    have hscope := hscopes handle
    rw [if_pos hkept, hfactor] at hscope
    exact Option.map_eq_some_iff.1 hscope
  have hadjacent : ∀ key < graph.varCount, ∀ handle, handle ∈ after.neighbors key ↔
      ∃ factor, after.factor? handle = some factor ∧ key ∈ factor.scope.keys := by
    intro key hkey handle
    rw [hneighbors key hkey, List.mem_filter, h.adjacent key hkey]
    constructor
    · intro h'
      obtain ⟨⟨factor, hfactor, hin⟩, hkept⟩ := h'
      obtain ⟨new, hnew, hscope⟩ := hforth hkept hfactor
      exact ⟨new, hnew, hscope ▸ hin⟩
    · intro h'
      obtain ⟨factor, hfactor, hin⟩ := h'
      obtain ⟨hkept, old, hold, hscope⟩ := hback hfactor
      exact ⟨⟨old, hold, hscope ▸ hin⟩, hkept⟩
  constructor
  case var => exact hcount ▸ hvar
  case nonvar => exact hcount ▸ hnonvar
  case vacant => exact hcount ▸ hvacant
  case vacant_nodup => exact hnodup
  case serial_lt =>
    intro handle factor hfactor
    obtain ⟨-, old, hold, -⟩ := hback hfactor
    rw [hserial]
    exact h.serial_lt hold
  case serial_inj =>
    intro a b f g hf hg hab
    obtain ⟨-, _, hold, -⟩ := hback hf
    obtain ⟨-, _, hold', -⟩ := hback hg
    exact h.serial_inj hold hold' hab
  case scope =>
    intro handle factor hfactor
    obtain ⟨-, old, hold, hscope⟩ := hback hfactor
    have hasked := h.scope hold
    rw [hscope] at hasked
    refine ⟨hasked.1, fun key hkey => ?_⟩
    obtain ⟨hlt, halive⟩ := hasked.2 key hkey
    have hmem := (hadjacent key hlt handle).2 ⟨factor, hfactor, hkey⟩
    exact ⟨hcount ▸ hlt, (hlive key hlt (List.ne_nil_of_mem hmem)).trans halive⟩
  case sorted =>
    intro key hkey
    rw [hneighbors key (hcount ▸ hkey)]
    exact (h.sorted key (hcount ▸ hkey)).filter _
  case adjacent => exact hcount ▸ hadjacent
  case index =>
    intro scope handle
    rw [hfind, Option.filter_eq_some_iff, h.index]
    constructor
    · intro h'
      obtain ⟨⟨factor, hfactor, rfl⟩, hkept⟩ := h'
      exact hforth hkept hfactor
    · intro h'
      obtain ⟨factor, hfactor, rfl⟩ := h'
      obtain ⟨hkept, hold⟩ := hback hfactor
      exact ⟨hold, hkept⟩

end Sound

end JointDecision.FactorGraph

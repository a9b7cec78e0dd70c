import JointDecision.Proofs.FactorGraph.Factors
import Mathlib.Data.List.Forall2

/-! # Graphs that differ in their payloads

Two graphs are alike when slot by slot they hold the same variables and factors, and the payloads of
the factors are related. No operation looks at a payload, so every operation keeps graphs alike and
answers the same on both. -/

namespace JointDecision

section Answers

variable {β γ ε ζ : Type} {R : β → γ → Prop} {S : ε → ζ → Prop}

theorem rel_bind {a : Option β} {b : Option γ} {f : β → Option ε} {g : γ → Option ζ}
    (h : Option.Rel R a b) (hfg : ∀ x y, R x y → Option.Rel S (f x) (g y)) :
    Option.Rel S (a.bind f) (b.bind g) := by
  cases h with
  | none => exact .none
  | some hxy => exact hfg _ _ hxy

theorem rel_mapM {f : β → Option ε} {g : γ → Option ζ} {xs : List β} {ys : List γ}
    (h : List.Forall₂ R xs ys) (hfg : ∀ x y, R x y → Option.Rel S (f x) (g y)) :
    Option.Rel (List.Forall₂ S) (xs.mapM f) (ys.mapM g) := by
  induction h with
  | nil => exact .some .nil
  | cons hxy _ ih =>
    rw [List.mapM_cons, List.mapM_cons]
    refine rel_bind (hfg _ _ hxy) fun first first' hfirst => ?_
    exact rel_bind ih fun rest rest' hrest => .some (.cons hfirst hrest)

theorem rel_getElem? {xs : List β} {ys : List γ} (h : List.Forall₂ R xs ys) (position : Nat) :
    Option.Rel R xs[position]? ys[position]? := by
  induction h generalizing position with
  | nil => exact .none
  | cons hxy _ ih =>
    cases position with
    | zero => exact .some hxy
    | succ position => simpa using ih position

end Answers

variable {δ : Type} {R : Scope → δ → δ → Prop}

structure Factor.Alike (R : Scope → δ → δ → Prop) (factor other : Factor δ) : Prop where
  scope_eq : other.scope = factor.scope
  serial_eq : other.serial = factor.serial
  data : R factor.scope factor.data other.data

inductive Node.Alike (R : Scope → δ → δ → Prop) : Node δ → Node δ → Prop
  | var (live : Bool) (adjacent : List Handle) : Alike R (.var live adjacent) (.var live adjacent)
  | factor {factor other : Factor δ} :
      factor.Alike R other → Alike R (.factor factor) (.factor other)

theorem Node.Alike.attach {node other : Option (Node δ)} (h : Option.Rel (Node.Alike R) node other)
    (handle : Handle) :
    Option.Rel (Node.Alike R) (Node.attach handle node) (Node.attach handle other) := by
  cases h with
  | none => exact .none
  | some hnode =>
    cases hnode with
    | var live adjacent => exact .some (.var live _)
    | factor hfactor => exact .some (.factor hfactor)

theorem Node.Alike.detach {node other : Option (Node δ)} (h : Option.Rel (Node.Alike R) node other)
    (handle : Handle) :
    Option.Rel (Node.Alike R) (Node.detach handle node) (Node.detach handle other) := by
  cases h with
  | none => exact .none
  | some hnode =>
    cases hnode with
    | var live adjacent => exact .some (.var live _)
    | factor hfactor => exact .some (.factor hfactor)

namespace FactorGraph

/-- Graphs that differ in nothing but payloads, which the scopes of their factors relate. -/
structure Alike (R : Scope → δ → δ → Prop) (graph other : FactorGraph δ) : Prop where
  varCount : other.varCount = graph.varCount
  size : other.slots.size = graph.slots.size
  vacant : other.vacant = graph.vacant
  byScope : other.byScope = graph.byScope
  nextSerial : other.nextSerial = graph.nextSerial
  node : ∀ slot, Option.Rel (Node.Alike R) (graph.node? slot) (other.node? slot)

namespace Alike

variable {graph other : FactorGraph δ}

theorem symm (h : graph.Alike R other) :
    other.Alike (fun scope data data' => R scope data' data) graph where
  varCount := h.varCount.symm
  size := h.size.symm
  vacant := h.vacant.symm
  byScope := h.byScope.symm
  nextSerial := h.nextSerial.symm
  node slot := by
    have hnode := h.node slot
    generalize graph.node? slot = node, other.node? slot = node' at hnode
    cases hnode with
    | none => exact .none
    | some hnode =>
      cases hnode with
      | var live adjacent => exact .some (.var live adjacent)
      | factor hfactor =>
        exact .some (.factor ⟨hfactor.scope_eq.symm, hfactor.serial_eq.symm,
          hfactor.scope_eq ▸ hfactor.data⟩)

theorem slotOf_eq (h : graph.Alike R other) (number : Nat) :
    other.slotOf number = graph.slotOf number := by
  rw [slotOf, slotOf, h.varCount]

theorem nextSlot_eq (h : graph.Alike R other) : other.nextSlot = graph.nextSlot := by
  rw [nextSlot, nextSlot, h.vacant, h.size]

theorem find?_eq (h : graph.Alike R other) (scope : Scope) :
    other.find? scope = graph.find? scope := by
  rw [find?, find?, h.byScope]

theorem factor? (h : graph.Alike R other) (handle : Handle) :
    Option.Rel (Factor.Alike R) (graph.factor? handle) (other.factor? handle) := by
  unfold FactorGraph.factor?
  have hnode := h.node handle.slot
  generalize graph.node? handle.slot = node, other.node? handle.slot = node' at hnode
  cases hnode with
  | none => exact .none
  | some hnode =>
    cases hnode with
    | var live adjacent => exact .none
    | factor hfactor =>
      simp only [hfactor.serial_eq]
      split
      · exact .some hfactor
      · exact .none

theorem neighbors_eq (h : graph.Alike R other) (number : Nat) :
    other.neighbors number = graph.neighbors number := by
  rw [neighbors, neighbors, h.slotOf_eq]
  have hnode := h.node (graph.slotOf number)
  generalize graph.node? (graph.slotOf number) = node,
    other.node? (graph.slotOf number) = node' at hnode
  cases hnode with
  | none => rfl
  | some hnode => cases hnode <;> rfl

theorem isLive_eq (h : graph.Alike R other) (number : Nat) :
    other.isLive number = graph.isLive number := by
  rw [isLive, isLive, h.slotOf_eq]
  have hnode := h.node (graph.slotOf number)
  generalize graph.node? (graph.slotOf number) = node,
    other.node? (graph.slotOf number) = node' at hnode
  cases hnode with
  | none => rfl
  | some hnode => cases hnode <;> rfl

theorem liveVariables_eq (h : graph.Alike R other) : other.liveVariables = graph.liveVariables :=
  liveVariables_congr h.varCount fun key _ => h.isLive_eq key

theorem unionScope_eq (h : graph.Alike R other) (handles : List Handle) :
    other.unionScope handles = graph.unionScope handles := by
  have hscopes : (handles.filterMap other.factor?).map Factor.scope =
      (handles.filterMap graph.factor?).map Factor.scope := by
    rw [List.map_filterMap, List.map_filterMap]
    refine List.filterMap_congr fun handle _ => ?_
    have hfactor := h.factor? handle
    generalize graph.factor? handle = factor, other.factor? handle = factor' at hfactor
    cases hfactor with
    | none => rfl
    | some hfactor => exact congrArg some hfactor.scope_eq
  have hfold : ∀ factors : List (Factor δ),
      factors.foldl (fun scope factor => scope.union factor.scope) .empty =
        (factors.map Factor.scope).foldl Scope.union .empty := by
    intro factors
    rw [List.foldl_map]
  rw [unionScope, unionScope, hfold, hfold, hscopes]

theorem new (varCount : Nat) : Alike R (.new varCount) (.new varCount) where
  varCount := rfl
  size := rfl
  vacant := rfl
  byScope := rfl
  nextSerial := rfl
  node slot := by
    rw [node?_new]
    split
    · exact .some (.var _ _)
    · exact .none

theorem create [EmptyCollection δ] (h : graph.Alike R other) (hsound : graph.Sound) {scope : Scope}
    (hscope : graph.Asked scope) (hempty : R scope ∅ ∅) :
    (other.create scope).1 = (graph.create scope).1 ∧
      (graph.create scope).2.Alike R (other.create scope).2 := by
  have hhandle : (other.create scope).1 = (graph.create scope).1 := by
    rw [FactorGraph.create, FactorGraph.create, h.nextSerial, h.nextSlot_eq]
  have hkeys : ∀ key ∈ scope.keys, key < graph.varCount := fun key hkey => (hscope.2 key hkey).1
  have hnext := hsound.nextSlot_spec.1
  have hvacates : other.Vacates := fun slot hslot => h.size ▸ hsound.vacates slot (h.vacant ▸ hslot)
  refine ⟨hhandle, h.varCount, ?_, congrArg List.tail h.vacant, ?_,
    congrArg (· + 1) h.nextSerial, ?_⟩
  · simp only [FactorGraph.create, size_foldl_modify, occupy, h.vacant]
    split <;> simp [h.size]
  · exact congrArg₂ List.cons (congrArg (Prod.mk scope) hhandle) h.byScope
  · intro slot
    rw [node?_create hsound.vacates hkeys hnext,
      node?_create hvacates (h.varCount ▸ hkeys) (h.varCount ▸ h.nextSlot_eq ▸ hnext),
      h.nextSlot_eq, h.nextSerial]
    split
    · exact .some (.factor ⟨rfl, rfl, hempty⟩)
    · split
      · exact Node.Alike.attach (h.node slot) _
      · exact h.node slot

theorem ensure? [EmptyCollection δ] (h : graph.Alike R other) (hsound : graph.Sound) {scope : Scope}
    (hscope : graph.Asked scope) (hempty : R scope ∅ ∅) :
    ∃ handle after after', graph.ensure? scope = some (handle, after) ∧
      other.ensure? scope = some (handle, after') ∧ after.Alike R after' := by
  have hall : scope.keys.all graph.isLive = true :=
    List.all_eq_true.2 fun key hkey => (hscope.2 key hkey).2
  have hother : scope.keys.all other.isLive = true :=
    List.all_eq_true.2 fun key hkey => (h.isLive_eq key).trans (hscope.2 key hkey).2
  cases hfind : graph.find? scope with
  | some handle =>
    refine ⟨handle, graph, other, by simp [FactorGraph.ensure?, hfind], ?_, h⟩
    simp [FactorGraph.ensure?, h.find?_eq, hfind]
  | none =>
    obtain ⟨hhandle, hafter⟩ := h.create hsound hscope hempty
    refine ⟨(graph.create scope).1, (graph.create scope).2, (other.create scope).2, ?_, ?_, hafter⟩
    · simp [FactorGraph.ensure?, hfind, hall]
    · simp [FactorGraph.ensure?, h.find?_eq, hfind, hother, ← hhandle]

theorem modifyData (h : graph.Alike R other) {handle : Handle} {edit edit' : δ → δ}
    (hedit : ∀ factor, graph.factor? handle = some factor → ∀ data data',
      R factor.scope data data' → R factor.scope (edit data) (edit' data')) :
    (graph.modifyData handle edit).Alike R (other.modifyData handle edit') := by
  have hfactor := h.factor? handle
  generalize hold : graph.factor? handle = old at hfactor
  generalize hnew : other.factor? handle = new at hfactor
  cases hfactor with
  | none =>
    rw [modifyData_stale hold, modifyData_stale hnew]
    exact h
  | @some factor found hfactor =>
    constructor
    case varCount => rw [Sound.modifyData_varCount, Sound.modifyData_varCount, h.varCount]
    case size => simp [FactorGraph.modifyData, hold, hnew, h.size]
    case vacant => simp [FactorGraph.modifyData, hold, hnew, h.vacant]
    case byScope => simp [FactorGraph.modifyData, hold, hnew, h.byScope]
    case nextSerial =>
      rw [Sound.modifyData_nextSerial, Sound.modifyData_nextSerial, h.nextSerial]
    case node =>
      intro slot
      rw [node?_modifyData hold, node?_modifyData hnew]
      split
      · exact .some (.factor ⟨hfactor.scope_eq, hfactor.serial_eq,
          hedit factor hold _ _ hfactor.data⟩)
      · exact h.node slot

theorem eraseFactor? (h : graph.Alike R other) (hsound : graph.Sound) {handle : Handle}
    {factor found : Factor δ} (hold : graph.factor? handle = some factor)
    (hnew : other.factor? handle = some found) :
    ∃ after after', graph.eraseFactor? handle = some (factor.data, after) ∧
      other.eraseFactor? handle = some (found.data, after') ∧ after.Alike R after' := by
  have hfactor := h.factor? handle
  rw [hold, hnew, Option.rel_some_some] at hfactor
  obtain ⟨after, herase⟩ : ∃ after, graph.eraseFactor? handle = some (factor.data, after) := by
    simp [FactorGraph.eraseFactor?, hold]
  obtain ⟨after', herase'⟩ : ∃ after, other.eraseFactor? handle = some (found.data, after) := by
    simp [FactorGraph.eraseFactor?, hnew]
  have hkeys : ∀ key ∈ factor.scope.keys, key < graph.varCount :=
    fun key hkey => ((hsound.scope hold).2 key hkey).1
  have hslot := hsound.slot_ge hold
  obtain ⟨first, hfirst, -, hcount, hserial, hsize, hvacant, hindex⟩ :=
    Sound.eraseFactor?_spec herase
  obtain ⟨second, hsecond, -, hcount', hserial', hsize', hvacant', hindex'⟩ :=
    Sound.eraseFactor?_spec herase'
  obtain rfl := Option.some.inj (hold.symm.trans hfirst)
  obtain rfl := Option.some.inj (hnew.symm.trans hsecond)
  refine ⟨after, after', herase, herase', ?_⟩
  constructor
  case varCount => rw [hcount', hcount, h.varCount]
  case size => rw [hsize', hsize, h.size]
  case vacant => rw [hvacant', hvacant, h.vacant]
  case byScope => rw [hindex', hindex, h.byScope, hfactor.scope_eq]
  case nextSerial => rw [hserial', hserial, h.nextSerial]
  case node =>
    intro slot
    rw [node?_eraseFactor? hold hkeys hslot herase,
      node?_eraseFactor? hnew (hfactor.scope_eq ▸ h.varCount ▸ hkeys) (h.varCount ▸ hslot) herase',
      hfactor.scope_eq]
    split
    · exact .none
    · split
      · exact Node.Alike.detach (h.node slot) _
      · exact h.node slot

theorem eraseVariable (h : graph.Alike R other) (number : Nat) :
    (graph.eraseVariable number).Alike R (other.eraseVariable number) := by
  have hnode := h.node (graph.slotOf number)
  generalize hold : graph.node? (graph.slotOf number) = node at hnode
  generalize hnew : other.node? (graph.slotOf number) = node' at hnode
  rw [← h.slotOf_eq] at hnew
  cases hnode with
  | none =>
    simp only [FactorGraph.eraseVariable, hold, hnew]
    exact h
  | some hnode =>
    cases hnode with
    | factor _ =>
      simp only [FactorGraph.eraseVariable, hold, hnew]
      exact h
    | var live adjacent =>
      cases live with
      | false =>
        simp only [FactorGraph.eraseVariable, hold, hnew]
        exact h
      | true =>
        refine ⟨?_, ?_, ?_, ?_, ?_, fun slot => ?_⟩
        · rw [Sound.eraseVariable_varCount, Sound.eraseVariable_varCount, h.varCount]
        · simp [eraseVariable_eq hold, eraseVariable_eq hnew, h.size]
        · simp [eraseVariable_eq hold, eraseVariable_eq hnew, h.vacant]
        · simp [eraseVariable_eq hold, eraseVariable_eq hnew, h.byScope]
        · rw [Sound.eraseVariable_nextSerial, Sound.eraseVariable_nextSerial, h.nextSerial]
        · rw [node?_eraseVariable hold, node?_eraseVariable hnew, h.slotOf_eq]
          split
          · exact .some (.var _ _)
          · exact h.node slot

theorem exists_factor? (h : graph.Alike R other) {handle : Handle} {found : Factor δ}
    (hfound : other.factor? handle = some found) :
    ∃ factor, graph.factor? handle = some factor ∧ factor.Alike R found := by
  have hfactor := h.factor? handle
  rw [hfound] at hfactor
  generalize graph.factor? handle = old at hfactor
  cases hfactor with
  | some hfactor => exact ⟨_, rfl, hfactor⟩

private theorem exists_factor?_other (h : graph.Alike R other) {handle : Handle} {factor : Factor δ}
    (hfactor : graph.factor? handle = some factor) :
    ∃ found, other.factor? handle = some found ∧ factor.Alike R found := by
  have hfound := h.factor? handle
  rw [hfactor] at hfound
  generalize other.factor? handle = new at hfound
  cases hfound with
  | some hfound => exact ⟨_, rfl, hfound⟩

private theorem node?_eq_var_iff (h : graph.Alike R other) {slot : Nat} {live : Bool}
    {adjacent : List Handle} : other.node? slot = some (.var live adjacent) ↔
      graph.node? slot = some (.var live adjacent) := by
  have hnode := h.node slot
  generalize graph.node? slot = node, other.node? slot = node' at hnode
  cases hnode with
  | none => simp
  | some hnode => cases hnode <;> simp

/-- What is asked of a graph does not depend on payloads. -/
theorem sound (h : graph.Alike R other) (hsound : graph.Sound) : other.Sound := by
  constructor
  case var =>
    intro key hkey
    obtain ⟨live, adjacent, hvar⟩ := hsound.var key (h.varCount ▸ hkey)
    exact ⟨live, adjacent, h.node?_eq_var_iff.2 hvar⟩
  case nonvar =>
    intro slot hslot live adjacent hvar
    exact hsound.nonvar slot (h.varCount ▸ hslot) live adjacent (h.node?_eq_var_iff.1 hvar)
  case vacant =>
    intro slot hslot
    obtain ⟨hge, hlt, hnone⟩ := hsound.vacant slot (h.vacant ▸ hslot)
    have hnode := h.node slot
    rw [hnone] at hnode
    refine ⟨h.varCount ▸ hge, h.size ▸ hlt, ?_⟩
    generalize other.node? slot = node at hnode
    cases hnode
    rfl
  case vacant_nodup => exact h.vacant ▸ hsound.vacant_nodup
  case serial_lt =>
    intro handle found hfound
    obtain ⟨factor, hfactor, -⟩ := h.exists_factor? hfound
    exact h.nextSerial ▸ hsound.serial_lt hfactor
  case serial_inj =>
    intro a b f g hf hg
    obtain ⟨_, hfirst, -⟩ := h.exists_factor? hf
    obtain ⟨_, hsecond, -⟩ := h.exists_factor? hg
    exact hsound.serial_inj hfirst hsecond
  case scope =>
    intro handle found hfound
    obtain ⟨factor, hfactor, halike⟩ := h.exists_factor? hfound
    rw [halike.scope_eq]
    exact (hsound.scope hfactor).congr h.varCount fun key _ => h.isLive_eq key
  case sorted =>
    intro key hkey
    rw [h.neighbors_eq]
    exact hsound.sorted key (h.varCount ▸ hkey)
  case adjacent =>
    intro key hkey handle
    rw [h.neighbors_eq, hsound.adjacent key (h.varCount ▸ hkey)]
    constructor
    · intro hin
      obtain ⟨factor, hfactor, hscope⟩ := hin
      obtain ⟨found, hfound, halike⟩ := h.exists_factor?_other hfactor
      exact ⟨found, hfound, halike.scope_eq ▸ hscope⟩
    · intro hin
      obtain ⟨found, hfound, hscope⟩ := hin
      obtain ⟨factor, hfactor, halike⟩ := h.exists_factor? hfound
      exact ⟨factor, hfactor, halike.scope_eq ▸ hscope⟩
  case index =>
    intro scope handle
    rw [h.find?_eq, hsound.index]
    constructor
    · intro hin
      obtain ⟨factor, hfactor, hscope⟩ := hin
      obtain ⟨found, hfound, halike⟩ := h.exists_factor?_other hfactor
      exact ⟨found, hfound, halike.scope_eq.trans hscope⟩
    · intro hin
      obtain ⟨found, hfound, hscope⟩ := hin
      obtain ⟨factor, hfactor, halike⟩ := h.exists_factor? hfound
      exact ⟨factor, hfactor, halike.scope_eq.symm.trans hscope⟩

end Alike

end FactorGraph

def Node.mapData (f : δ → δ) : Node δ → Node δ
  | .var live adjacent => .var live adjacent
  | .factor held => .factor { held with data := f held.data }

namespace FactorGraph

def mapData (f : δ → δ) (graph : FactorGraph δ) : FactorGraph δ :=
  { graph with slots := graph.slots.map (Option.map (Node.mapData f)) }

private theorem node?_mapData (f : δ → δ) (graph : FactorGraph δ) (slot : Nat) :
    (graph.mapData f).node? slot = (graph.node? slot).map (Node.mapData f) := by
  simp only [node?, mapData, Array.getElem?_map]
  cases graph.slots[slot]? <;> rfl

theorem factors_mapData (f : δ → δ) (graph : FactorGraph δ) :
    (graph.mapData f).factors =
      graph.factors.map fun entry => (entry.1, { entry.2 with data := f entry.2.data }) := by
  simp only [factors, mapData, Array.toList_map, List.zipIdx_map, List.filterMap_map,
    List.map_filterMap]
  refine List.filterMap_congr fun entry _ => ?_
  obtain ⟨node, slot⟩ := entry
  match node with
  | none => rfl
  | some (.var live adjacent) => rfl
  | some (.factor factor) => rfl

theorem mapData_alike {f : δ → δ} {graph : FactorGraph δ}
    (h : ∀ {handle factor}, graph.factor? handle = some factor →
      R factor.scope factor.data (f factor.data)) : graph.Alike R (graph.mapData f) where
  varCount := rfl
  size := Array.size_map
  vacant := rfl
  byScope := rfl
  nextSerial := rfl
  node slot := by
    rw [node?_mapData]
    match hnode : graph.node? slot with
    | none => exact .none
    | some (.var live adjacent) => exact .some (.var live adjacent)
    | some (.factor factor) =>
      have hfactor : graph.factor? ⟨factor.serial, slot⟩ = some factor := by
        simp [factor?, hnode]
      exact .some (.factor ⟨rfl, rfl, h hfactor⟩)

end FactorGraph

end JointDecision

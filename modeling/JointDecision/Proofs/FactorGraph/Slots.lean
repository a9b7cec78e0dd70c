import JointDecision.FactorGraph
import Mathlib.Data.List.Nodup
import Mathlib.Data.List.Sort

/-! # What the slots hold

How every operation on a factor graph changes the slots, slot by slot, and how the list of factors
is read off them. -/

namespace JointDecision

variable {δ : Type}

@[simp] theorem Node.attach_none (handle : Handle) :
    Node.attach handle (none : Option (Node δ)) = none := rfl

@[simp] theorem Node.detach_none (handle : Handle) :
    Node.detach handle (none : Option (Node δ)) = none := rfl

namespace FactorGraph

theorem slotOf_eq {graph : FactorGraph δ} {key : Nat} (h : key < graph.varCount) :
    graph.slotOf key = key :=
  if_pos h

/-- Editing the slots of different numbers edits each of them once. -/
theorem getElem?_foldl_modify {ε : Type} {keys : List Nat} (hnodup : keys.Nodup) (edit : ε → ε)
    (slots : Array ε) (slot : Nat) :
    (keys.foldl (fun slots key => slots.modify key edit) slots)[slot]? =
      if slot ∈ keys then slots[slot]?.map edit else slots[slot]? := by
  induction keys generalizing slots with
  | nil => simp
  | cons key keys ih =>
    obtain ⟨hkey, hnodup⟩ := List.nodup_cons.1 hnodup
    rw [List.foldl_cons, ih hnodup, Array.getElem?_modify]
    by_cases heq : key = slot
    · subst heq
      simp [hkey]
    · have hne : slot ≠ key := Ne.symm heq
      simp [heq, hne]

theorem size_foldl_modify {ε : Type} (keys : List Nat) (edit : ε → ε) (slots : Array ε)
    (slotOf : Nat → Nat) :
    (keys.foldl (fun slots key => slots.modify (slotOf key) edit) slots).size = slots.size := by
  induction keys generalizing slots with
  | nil => rfl
  | cons key keys ih => rw [List.foldl_cons, ih, Array.size_modify]

private theorem join_map {ε : Type} {edit : Option ε → Option ε} (h : edit none = none)
    (node : Option (Option ε)) : (node.map edit).join = edit node.join := by
  cases node with
  | none => exact h.symm
  | some node => rfl

private theorem join_getElem?_foldl_modify {graph : FactorGraph δ} {scope : Scope}
    (hscope : ∀ key ∈ scope.keys, key < graph.varCount)
    {edit : Option (Node δ) → Option (Node δ)} (hedit : edit none = none)
    (slots : Array (Option (Node δ))) (slot : Nat) :
    ((scope.keys.foldl (fun slots key => slots.modify (graph.slotOf key) edit) slots)[slot]?).join =
      if slot ∈ scope.keys then edit (slots[slot]?).join else (slots[slot]?).join := by
  have hsame : scope.keys.foldl (fun slots key => slots.modify (graph.slotOf key) edit) slots =
      scope.keys.foldl (fun slots key => slots.modify key edit) slots :=
    List.foldl_ext _ _ _ fun slots key hkey => by rw [slotOf_eq (hscope key hkey)]
  rw [hsame, getElem?_foldl_modify scope.nodup]
  split
  · exact join_map hedit _
  · rfl

theorem node?_new (varCount slot : Nat) :
    (FactorGraph.new varCount : FactorGraph δ).node? slot =
      if slot < varCount then some (.var true []) else none := by
  by_cases h : slot < varCount
  · simp [new, node?, h]
  · simp [new, node?, h]

def Vacates (graph : FactorGraph δ) : Prop :=
  ∀ slot ∈ graph.vacant, slot < graph.slots.size

private theorem occupy_getElem? {graph : FactorGraph δ} (h : graph.Vacates) (node : Node δ)
    (slot : Nat) :
    (graph.occupy node)[slot]? =
      if slot = graph.nextSlot then some (some node) else graph.slots[slot]? := by
  unfold occupy nextSlot
  cases hvacant : graph.vacant with
  | nil => simp [Array.getElem?_push]
  | cons head rest =>
    have hhead := h head (by simp [hvacant])
    by_cases heq : slot = head
    · subst heq
      simp [hhead]
    · have hne : head ≠ slot := Ne.symm heq
      simp [heq, hne]

private theorem size_le_size_occupy (graph : FactorGraph δ) (node : Node δ) :
    graph.slots.size ≤ (graph.occupy node).size := by
  unfold occupy
  split <;> simp

theorem size_le_size_create [EmptyCollection δ] (graph : FactorGraph δ) (scope : Scope) :
    graph.slots.size ≤ (graph.create scope).2.slots.size := by
  simp only [create, size_foldl_modify]
  exact size_le_size_occupy graph _

theorem node?_create [EmptyCollection δ] {graph : FactorGraph δ} (h : graph.Vacates)
    {scope : Scope} (hscope : ∀ key ∈ scope.keys, key < graph.varCount)
    (hnext : graph.varCount ≤ graph.nextSlot) (slot : Nat) :
    (graph.create scope).2.node? slot =
      if slot = graph.nextSlot then some (.factor ⟨scope, graph.nextSerial, ∅⟩)
      else if slot ∈ scope.keys then
        Node.attach ⟨graph.nextSerial, graph.nextSlot⟩ (graph.node? slot)
      else graph.node? slot := by
  have hfold := join_getElem?_foldl_modify hscope (Node.attach_none
    ⟨graph.nextSerial, graph.nextSlot⟩) (graph.occupy (.factor ⟨scope, graph.nextSerial, ∅⟩)) slot
  refine hfold.trans ?_
  rw [occupy_getElem? h]
  by_cases heq : slot = graph.nextSlot
  · have hnot : slot ∉ scope.keys := fun hmem => by
      have := hscope slot hmem
      omega
    simp [heq, heq ▸ hnot]
  · simp [heq, node?]

theorem lt_size_of_node? {graph : FactorGraph δ} {slot : Nat} {node : Node δ}
    (h : graph.node? slot = some node) : slot < graph.slots.size := by
  by_contra hge
  have hnone : graph.slots[slot]? = none := Array.getElem?_eq_none (by omega)
  simp [node?, hnone] at h

theorem node?_of_factor? {graph : FactorGraph δ} {handle : Handle} {factor : Factor δ}
    (h : graph.factor? handle = some factor) :
    graph.node? handle.slot = some (.factor factor) ∧ factor.serial = handle.serial := by
  unfold factor? at h
  split at h
  · rename_i found hnode
    split at h
    · rename_i hserial
      cases h
      exact ⟨hnode, hserial⟩
    · cases h
  · cases h

theorem factor?_of_node? {graph : FactorGraph δ} {slot : Nat} {factor : Factor δ}
    (h : graph.node? slot = some (.factor factor)) :
    graph.factor? ⟨factor.serial, slot⟩ = some factor := by
  simp [factor?, h]

theorem node?_modifyData {graph : FactorGraph δ} {handle : Handle} {factor : Factor δ}
    (h : graph.factor? handle = some factor) (edit : δ → δ) (slot : Nat) :
    (graph.modifyData handle edit).node? slot =
      if slot = handle.slot then some (.factor { factor with data := edit factor.data })
      else graph.node? slot := by
  have hsize := lt_size_of_node? (node?_of_factor? h).1
  by_cases heq : slot = handle.slot
  · simp [modifyData, h, node?, heq, hsize]
  · have hne : handle.slot ≠ slot := Ne.symm heq
    simp [modifyData, h, node?, heq, hne]

theorem modifyData_stale {graph : FactorGraph δ} {handle : Handle}
    (h : graph.factor? handle = none) (edit : δ → δ) : graph.modifyData handle edit = graph := by
  simp [modifyData, h]

theorem node?_eraseFactor? {graph after : FactorGraph δ} {handle : Handle} {factor : Factor δ}
    {data : δ} (h : graph.factor? handle = some factor)
    (hscope : ∀ key ∈ factor.scope.keys, key < graph.varCount)
    (hslot : graph.varCount ≤ handle.slot) (herase : graph.eraseFactor? handle = some (data, after))
    (slot : Nat) :
    after.node? slot =
      if slot = handle.slot then none
      else if slot ∈ factor.scope.keys then Node.detach handle (graph.node? slot)
      else graph.node? slot := by
  simp only [eraseFactor?, h, Option.some.injEq, Prod.mk.injEq] at herase
  obtain ⟨-, rfl⟩ := herase
  have hsize := lt_size_of_node? (node?_of_factor? h).1
  refine (join_getElem?_foldl_modify hscope (Node.detach_none handle) _ slot).trans ?_
  by_cases heq : slot = handle.slot
  · have hnot : handle.slot ∉ factor.scope.keys := fun hmem => by
      have := hscope _ hmem
      omega
    simp [heq, hnot, hsize]
  · have hne : handle.slot ≠ slot := Ne.symm heq
    simp [heq, hne, node?]

theorem eraseVariable_eq {graph : FactorGraph δ} {number : Nat} {adjacent : List Handle}
    (h : graph.node? (graph.slotOf number) = some (.var true adjacent)) :
    graph.eraseVariable number =
      { graph with
        slots := graph.slots.setIfInBounds (graph.slotOf number) (some (.var false adjacent))
        liveCount := graph.liveCount - 1 } := by
  simp [eraseVariable, h]

theorem node?_eraseVariable {graph : FactorGraph δ} {number : Nat} {adjacent : List Handle}
    (h : graph.node? (graph.slotOf number) = some (.var true adjacent)) (slot : Nat) :
    (graph.eraseVariable number).node? slot =
      if slot = graph.slotOf number then some (.var false adjacent) else graph.node? slot := by
  have hsize := lt_size_of_node? h
  by_cases heq : slot = graph.slotOf number
  · simp [eraseVariable_eq h, node?, heq, hsize]
  · have hne : graph.slotOf number ≠ slot := Ne.symm heq
    simp [eraseVariable_eq h, node?, heq, hne]

theorem mem_factors {graph : FactorGraph δ} {handle : Handle} {factor : Factor δ} :
    (handle, factor) ∈ graph.factors ↔ graph.factor? handle = some factor := by
  constructor
  · intro h
    obtain ⟨⟨node, slot⟩, hmem, hentry⟩ := List.mem_filterMap.1 h
    have hget := List.mem_zipIdx_iff_getElem?.1 hmem
    split at hentry
    · rename_i found slot' heq
      obtain ⟨rfl, rfl⟩ := Prod.mk.inj heq
      obtain ⟨rfl, rfl⟩ := Prod.mk.inj (Option.some.inj hentry)
      refine factor?_of_node? ?_
      have hslot : graph.slots[slot]? = some (some (.factor found)) := by
        simpa using hget
      simp [node?, hslot]
    · cases hentry
  · intro h
    obtain ⟨hnode, hserial⟩ := node?_of_factor? h
    have hslot : graph.slots[handle.slot]? = some (some (.factor factor)) :=
      Option.join_eq_some_iff.1 hnode
    refine List.mem_filterMap.2 ⟨(some (.factor factor), handle.slot), ?_, ?_⟩
    · rw [List.mem_zipIdx_iff_getElem?]
      simpa using hslot
    · simp [hserial]

theorem eq_of_mem_factors {graph : FactorGraph δ} {a b : Handle × Factor δ}
    (ha : a ∈ graph.factors) (hb : b ∈ graph.factors) (h : a.1 = b.1) : a = b := by
  have hfactor := mem_factors.1 ha
  rw [h, mem_factors.1 hb] at hfactor
  exact Prod.ext h (Option.some.inj hfactor).symm

theorem pairwise_factors (graph : FactorGraph δ) :
    graph.factors.Pairwise fun a b => a.1.slot < b.1.slot := by
  have hindices : graph.slots.toList.zipIdx.Pairwise (fun a b => a.2 < b.2) := by
    rw [← List.pairwise_map (f := Prod.snd) (R := (· < ·)), List.zipIdx_map_snd]
    exact List.pairwise_lt_range'
  refine List.pairwise_filterMap.2 (hindices.imp ?_)
  rintro ⟨node, slot⟩ ⟨node', slot'⟩ hlt entry hentry entry' hentry'
  split at hentry
  · split at hentry'
    · rename_i hleft _ _ _ hright
      obtain ⟨rfl, rfl⟩ := Prod.mk.inj hleft
      obtain ⟨rfl, rfl⟩ := Prod.mk.inj hright
      rw [← Option.some.inj hentry, ← Option.some.inj hentry']
      exact hlt
    · cases hentry'
  · cases hentry

theorem nodup_factors (graph : FactorGraph δ) : graph.factors.Nodup :=
  graph.pairwise_factors.imp fun hlt heq => absurd (congrArg (·.1.slot) heq) hlt.ne

theorem nodup_handles (graph : FactorGraph δ) : (graph.factors.map Prod.fst).Nodup :=
  List.pairwise_map.2
    (graph.pairwise_factors.imp fun hlt heq => absurd (congrArg Handle.slot heq) hlt.ne)

end FactorGraph

end JointDecision

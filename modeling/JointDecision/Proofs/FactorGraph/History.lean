import JointDecision.Proofs.FactorGraph.Factors
import Mathlib.Data.List.Induction

/-! # Histories of factor graphs

A history lists what a caller asked of a graph and what the graph answered. Which vacant slot a new
factor takes is left open, so that nothing proved of histories depends on the order in which slots
are used again. -/

namespace JointDecision.FactorGraph

variable {δ : Type}

/-- Two graphs with the same nodes in the same slots. They may differ in the vacant slots that are
remembered, and so in the slot that the next factor takes. -/
structure Reslotted (graph after : FactorGraph δ) : Prop where
  varCount : after.varCount = graph.varCount
  byScope : after.byScope = graph.byScope
  nextSerial : after.nextSerial = graph.nextSerial
  liveCount : after.liveCount = graph.liveCount
  node : ∀ slot, after.node? slot = graph.node? slot
  vacant : ∀ slot ∈ after.vacant, slot < after.slots.size ∧ after.node? slot = none
  vacant_nodup : after.vacant.Nodup

inductive Event (δ : Type)
  /-- The factor over a scope is asked for, and answered with its handle. -/
  | asked (scope : Scope) (answer : Handle)
  /-- A payload is edited through a handle, unless the handle turns out to be stale. -/
  | edited (handle : Handle) (edit : δ → δ) (found : Bool)
  /-- A factor is erased and answered with its payload; a stale handle gets no answer. -/
  | erased (handle : Handle) (answer : Option δ)
  /-- A variable is erased. -/
  | removed (number : Nat)

def Event.answer? : Event δ → Option Handle
  | .asked _ handle => some handle
  | _ => none

section Steps

variable [EmptyCollection δ]

/-- What a caller may do: scopes are asked for while their variables are live, variables are erased
when no factor is adjacent to them, and handles may be of any origin. -/
inductive Step (graph : FactorGraph δ) : Event δ → FactorGraph δ → Prop
  | ask {middle after : FactorGraph δ} {scope : Scope} {handle : Handle} :
      graph.Reslotted middle → middle.Asked scope →
      middle.ensure? scope = some (handle, after) → Step graph (.asked scope handle) after
  | edit (handle : Handle) (edit : δ → δ) :
      Step graph (.edited handle edit (graph.factor? handle).isSome) (graph.modifyData handle edit)
  | erase {after : FactorGraph δ} {data : δ} (handle : Handle) :
      graph.eraseFactor? handle = some (data, after) →
      Step graph (.erased handle (some data)) after
  | miss (handle : Handle) :
      graph.eraseFactor? handle = none → Step graph (.erased handle none) graph
  | remove (number : Nat) :
      graph.neighbors number = [] → Step graph (.removed number) (graph.eraseVariable number)

/-- The graphs that are reached from the graph without factors, with all that happened on the way.
-/
inductive History (varCount : Nat) : List (Event δ) → FactorGraph δ → Prop
  | new : History varCount [] (.new varCount)
  | step {log : List (Event δ)} {event : Event δ} {graph after : FactorGraph δ} :
      History varCount log graph → Step graph event after → History varCount (log ++ [event]) after

end Steps

namespace Reslotted

variable {graph after : FactorGraph δ}

theorem factor?_eq (h : graph.Reslotted after) (handle : Handle) :
    after.factor? handle = graph.factor? handle :=
  factor?_congr (h.node handle.slot)

theorem find?_eq (h : graph.Reslotted after) (scope : Scope) :
    after.find? scope = graph.find? scope := by
  rw [find?, find?, h.byScope]

theorem slotOf_eq (h : graph.Reslotted after) (number : Nat) :
    after.slotOf number = graph.slotOf number := by
  rw [slotOf, slotOf, h.varCount]

theorem neighbors_eq (h : graph.Reslotted after) (number : Nat) :
    after.neighbors number = graph.neighbors number := by
  rw [neighbors, neighbors, h.slotOf_eq, h.node]

theorem isLive_eq (h : graph.Reslotted after) (number : Nat) :
    after.isLive number = graph.isLive number := by
  rw [isLive, isLive, h.slotOf_eq, h.node]

private theorem asked_iff (h : graph.Reslotted after) {scope : Scope} :
    after.Asked scope ↔ graph.Asked scope := by
  simp only [Asked, h.varCount, h.isLive_eq]

theorem sound (h : graph.Reslotted after) (hsound : graph.Sound) : after.Sound := by
  constructor
  case var =>
    intro key hkey
    rw [h.node]
    exact hsound.var key (h.varCount ▸ hkey)
  case nonvar =>
    intro slot hslot live adjacent
    rw [h.node]
    exact hsound.nonvar slot (h.varCount ▸ hslot) live adjacent
  case vacant =>
    intro slot hslot
    obtain ⟨hlt, hnone⟩ := h.vacant slot hslot
    refine ⟨?_, hlt, hnone⟩
    by_contra hkey
    obtain ⟨live, adjacent, hvar⟩ := hsound.var slot (by rw [h.varCount] at hkey; omega)
    rw [h.node, hvar] at hnone
    cases hnone
  case vacant_nodup => exact h.vacant_nodup
  case serial_lt =>
    intro handle factor hfactor
    rw [h.nextSerial]
    exact hsound.serial_lt (h.factor?_eq handle ▸ hfactor)
  case serial_inj =>
    intro a b f g hf hg
    exact hsound.serial_inj (h.factor?_eq a ▸ hf) (h.factor?_eq b ▸ hg)
  case scope =>
    intro handle factor hfactor
    exact h.asked_iff.2 (hsound.scope (h.factor?_eq handle ▸ hfactor))
  case sorted =>
    intro key hkey
    rw [h.neighbors_eq]
    exact hsound.sorted key (h.varCount ▸ hkey)
  case adjacent =>
    intro key hkey handle
    rw [h.neighbors_eq, hsound.adjacent key (h.varCount ▸ hkey), h.factor?_eq]
  case index =>
    intro scope handle
    rw [h.find?_eq, hsound.index, h.factor?_eq]

end Reslotted

private theorem Sound.reslotted {graph : FactorGraph δ} (h : graph.Sound) :
    graph.Reslotted graph where
  varCount := rfl
  byScope := rfl
  nextSerial := rfl
  liveCount := rfl
  node _ := rfl
  vacant slot hslot := (h.vacant slot hslot).2
  vacant_nodup := h.vacant_nodup

/-- Every vacant slot may be the next. -/
theorem exists_reslotted {graph : FactorGraph δ} {slot : Nat} (h : graph.node? slot = none) :
    ∃ after, graph.Reslotted after ∧ after.nextSlot = slot := by
  have hnode : ∀ other, ((graph.slots ++ Array.replicate (slot + 1) none)[other]?).join =
      graph.node? other := by
    intro other
    rw [Array.getElem?_append]
    split
    · rfl
    · rename_i hge
      have hnone : graph.node? other = none := by
        rw [node?, Array.getElem?_eq_none (by omega)]
        rfl
      rw [hnone, Array.getElem?_replicate]
      split <;> rfl
  refine ⟨{ graph with
      slots := graph.slots ++ Array.replicate (slot + 1) none
      vacant := [slot] }, ⟨rfl, rfl, rfl, rfl, hnode, ?_, List.nodup_singleton slot⟩, rfl⟩
  intro other hother
  rw [List.mem_singleton.1 hother]
  refine ⟨?_, (hnode slot).trans h⟩
  rw [Array.size_append, Array.size_replicate]
  omega

section Steps

variable [EmptyCollection δ] {graph after : FactorGraph δ} {event : Event δ}

theorem Step.sound (h : Step graph event after) (hsound : graph.Sound) : after.Sound := by
  cases h with
  | ask hslots hscope hensure => exact (hslots.sound hsound).ensure? hscope hensure
  | edit handle edit => exact hsound.modifyData handle edit
  | erase handle herase => exact hsound.eraseFactor? herase
  | miss _ _ => exact hsound
  | remove number hfree => exact hsound.eraseVariable hfree

theorem Step.varCount_eq (h : Step graph event after) (hsound : graph.Sound) :
    after.varCount = graph.varCount := by
  cases h with
  | ask hslots _ hensure =>
    exact ((hslots.sound hsound).ensure?_varCount hensure).trans hslots.varCount
  | edit handle edit => exact Sound.modifyData_varCount graph handle edit
  | erase handle herase =>
    obtain ⟨-, -, -, hcount, -⟩ := Sound.eraseFactor?_spec herase
    exact hcount
  | miss _ _ => rfl
  | remove _ _ => exact Sound.eraseVariable_varCount graph _

/-- Asking for a scope answers with the handle of its factor and changes no factor, or else there
was none and the answer is the handle of a new one: its serial is the next one, and its payload is
empty. -/
theorem Step.asked_cases {scope : Scope} {handle : Handle}
    (h : Step graph (.asked scope handle) after) (hsound : graph.Sound) :
    (graph.find? scope = some handle ∧ after.nextSerial = graph.nextSerial ∧
      ∀ other, after.factor? other = graph.factor? other) ∨
    (graph.find? scope = none ∧ handle.serial = graph.nextSerial ∧
      after.nextSerial = graph.nextSerial + 1 ∧
      ∀ other, after.factor? other =
        if other = handle then some ⟨scope, handle.serial, ∅⟩ else graph.factor? other) := by
  cases h with
  | @ask middle _ _ _ hslots hscope hensure =>
    have hmiddle := hslots.sound hsound
    rcases hmiddle.ensure?_cases hensure with ⟨rfl, hfound⟩ | ⟨hfresh, hcreate⟩
    · refine .inl ⟨?_, hslots.nextSerial, hslots.factor?_eq⟩
      rw [← hslots.find?_eq]
      exact (hmiddle.index _ _).2 hfound
    · have hhandle : handle = (middle.create scope).1 := congrArg Prod.fst hcreate
      have hafter : after = (middle.create scope).2 := congrArg Prod.snd hcreate
      rw [hhandle, hafter]
      refine .inr ⟨hslots.find?_eq scope ▸ hfresh, hslots.nextSerial, ?_, ?_⟩
      · exact congrArg (· + 1) hslots.nextSerial
      · intro other
        rw [hmiddle.factor?_create hscope, hslots.factor?_eq]
        rfl

/-- Only asking for a scope makes a factor. -/
theorem Step.silent (h : Step graph event after) (hsound : graph.Sound)
    (hevent : event.answer? = none) : after.nextSerial = graph.nextSerial ∧
      ∀ {handle factor}, after.factor? handle = some factor →
        ∃ old, graph.factor? handle = some old ∧ old.scope = factor.scope := by
  cases h with
  | ask _ _ _ => cases hevent
  | edit handle edit =>
    refine ⟨Sound.modifyData_nextSerial graph handle edit, ?_⟩
    intro other factor hfactor
    rw [Sound.factor?_modifyData] at hfactor
    split at hfactor
    · rename_i heq
      obtain ⟨old, hold, rfl⟩ := Option.map_eq_some_iff.1 hfactor
      exact ⟨old, heq ▸ hold, rfl⟩
    · exact ⟨factor, hfactor, rfl⟩
  | erase handle herase =>
    obtain ⟨-, -, -, -, hserial, -⟩ := Sound.eraseFactor?_spec herase
    refine ⟨hserial, ?_⟩
    intro other factor hfactor
    rw [hsound.factor?_eraseFactor? herase] at hfactor
    split at hfactor
    · cases hfactor
    · exact ⟨factor, hfactor, rfl⟩
  | miss _ _ => exact ⟨rfl, fun hfactor => ⟨_, hfactor, rfl⟩⟩
  | remove number hfree =>
    refine ⟨Sound.eraseVariable_nextSerial graph _, ?_⟩
    intro other factor hfactor
    rw [hsound.factor?_eraseVariable hfree] at hfactor
    exact ⟨factor, hfactor, rfl⟩

end Steps

section Histories

variable [EmptyCollection δ] {varCount : Nat} {log : List (Event δ)} {graph : FactorGraph δ}

theorem History.sound (h : History varCount log graph) : graph.Sound := by
  induction h with
  | new => exact sound_new varCount
  | step _ hstep ih => exact hstep.sound ih

theorem History.varCount_eq (h : History varCount log graph) : graph.varCount = varCount := by
  induction h with
  | new => rfl
  | step hbefore hstep ih => exact (hstep.varCount_eq hbefore.sound).trans ih

theorem History.last {event : Event δ} (h : History varCount (log ++ [event]) graph) :
    ∃ before, History varCount log before ∧ Step before event graph := by
  generalize hwhole : log ++ [event] = whole at h
  cases h with
  | new => simp at hwhole
  | step hbefore hstep =>
    obtain ⟨rfl, heq⟩ := List.append_inj' hwhole rfl
    obtain rfl := List.singleton_inj.1 heq
    exact ⟨_, hbefore, hstep⟩

theorem History.before {rest : List (Event δ)} (h : History varCount (log ++ rest) graph) :
    ∃ middle, History varCount log middle := by
  induction rest using List.reverseRecOn generalizing graph with
  | nil => exact ⟨graph, by simpa using h⟩
  | append_singleton rest event ih =>
    rw [← List.append_assoc] at h
    obtain ⟨_, hbefore, -⟩ := h.last
    exact ih hbefore

theorem History.cut {event : Event δ} {rest : List (Event δ)}
    (h : History varCount (log ++ event :: rest) graph) :
    ∃ before after, History varCount log before ∧ Step before event after ∧
      History varCount (log ++ [event]) after := by
  rw [List.append_cons] at h
  obtain ⟨after, hafter⟩ := h.before
  obtain ⟨before, hbefore, hstep⟩ := hafter.last
  exact ⟨before, after, hbefore, hstep, hafter⟩

theorem History.ask {after : FactorGraph δ} {scope : Scope} {handle : Handle}
    (h : History varCount log graph) (hscope : graph.Asked scope)
    (hensure : graph.ensure? scope = some (handle, after)) :
    History varCount (log ++ [.asked scope handle]) after :=
  h.step (.ask h.sound.reslotted hscope hensure)

/-- Every reachable graph has a history. -/
theorem Reachable.history (h : Reachable varCount graph) : ∃ log, History varCount log graph := by
  induction h with
  | new => exact ⟨[], .new⟩
  | ensure _ hscope hensure ih =>
    obtain ⟨log, hlog⟩ := ih
    exact ⟨_, hlog.ask hscope hensure⟩
  | modifyData handle edit _ ih =>
    obtain ⟨log, hlog⟩ := ih
    exact ⟨_, hlog.step (.edit handle edit)⟩
  | eraseFactor _ herase ih =>
    obtain ⟨log, hlog⟩ := ih
    exact ⟨_, hlog.step (.erase _ herase)⟩
  | eraseVariable _ hfree ih =>
    obtain ⟨log, hlog⟩ := ih
    exact ⟨_, hlog.step (.remove _ hfree)⟩

end Histories

def pairScope (low high : Nat) (h : low < high) : Scope := ⟨[low, high], by simpa using h⟩

/-- The factor over the first two variables is erased and asked for again, and the handle of the
erased one is tried again. -/
def reuseLog : List (Event (List Nat)) :=
  [.asked (pairScope 0 1 Nat.zero_lt_one) ⟨0, 3⟩, .edited ⟨0, 3⟩ (7 :: ·) true,
    .asked (pairScope 1 2 Nat.one_lt_two) ⟨1, 4⟩, .erased ⟨0, 3⟩ (some [7]),
    .asked (pairScope 0 1 Nat.zero_lt_one) ⟨2, 3⟩, .edited ⟨0, 3⟩ (8 :: ·) false,
    .erased ⟨0, 3⟩ none, .erased ⟨1, 4⟩ (some []), .removed 2, .removed 2]

theorem asked_pairScope {graph : FactorGraph (List Nat)} {low high : Nat} (h : low < high)
    (hcount : high < graph.varCount) (hlow : graph.isLive low = true)
    (hhigh : graph.isLive high = true) : graph.Asked (pairScope low high h) := by
  refine ⟨by simp [pairScope, Scope.empty], fun other hother => ?_⟩
  obtain rfl | rfl : other = low ∨ other = high := by simpa [pairScope] using hother
  · exact ⟨h.trans hcount, hlow⟩
  · exact ⟨hcount, hhigh⟩

def reusedGraph : FactorGraph (List Nat) where
  varCount := 3
  slots := #[some (.var true [⟨2, 3⟩]), some (.var true [⟨1, 4⟩, ⟨2, 3⟩]),
    some (.var true [⟨1, 4⟩]), some (.factor ⟨pairScope 0 1 Nat.zero_lt_one, 2, []⟩),
    some (.factor ⟨pairScope 1 2 Nat.one_lt_two, 1, []⟩)]
  vacant := []
  byScope := [(pairScope 0 1 Nat.zero_lt_one, ⟨2, 3⟩), (pairScope 1 2 Nat.one_lt_two, ⟨1, 4⟩)]
  nextSerial := 3
  liveCount := 3

theorem history_reusedGraph : History 3 (reuseLog.take 5) reusedGraph := by
  have hnew : History 3 [] (.new 3 : FactorGraph (List Nat)) := .new
  have hfirst := hnew.ask (asked_pairScope Nat.zero_lt_one (by decide) rfl rfl) rfl
  have hedited := hfirst.step (.edit ⟨0, 3⟩ (7 :: ·))
  have hsecond := hedited.ask (asked_pairScope Nat.one_lt_two (by decide) rfl rfl) rfl
  have herased := hsecond.step (.erase ⟨0, 3⟩ rfl)
  exact herased.ask (asked_pairScope Nat.zero_lt_one (by decide) rfl rfl) rfl

theorem exists_history_reuseLog : ∃ graph, History 3 reuseLog graph := by
  have hstale := (history_reusedGraph.step (.edit ⟨0, 3⟩ (8 :: ·))).step (.miss ⟨0, 3⟩ rfl)
  have hfree := (hstale.step (.erase ⟨1, 4⟩ rfl)).step (.remove 2 rfl)
  exact ⟨_, hfree.step (.remove 2 rfl)⟩

end JointDecision.FactorGraph

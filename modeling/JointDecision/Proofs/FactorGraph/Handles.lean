import JointDecision.Proofs.FactorGraph.History

/-! # Handles over a history

A handle stands for one factor from the moment it is answered: until that factor is erased the
handle finds it, with the edits made through the handle and no others, and from then on it finds
nothing, though slots and scopes are used again. -/

namespace JointDecision.FactorGraph

variable {δ : Type}

def Event.met? : Event δ → Option Handle
  | .asked _ handle => some handle
  | .edited handle _ true => some handle
  | .erased handle (some _) => some handle
  | _ => none

def Event.edit? (handle : Handle) : Event δ → Option (δ → δ)
  | .edited through edit true => if through = handle then some edit else none
  | _ => none

private theorem Event.met?_of_edit? {handle : Handle} {event : Event δ} {edit : δ → δ}
    (h : event.edit? handle = some edit) : event.met? = some handle := by
  unfold Event.edit? at h
  split at h
  · split at h
    · rename_i heq
      exact congrArg some heq
    · cases h
  · cases h

structure Stale (graph : FactorGraph δ) (handle : Handle) : Prop where
  factor? : graph.factor? handle = none
  modifyData : ∀ edit, graph.modifyData handle edit = graph
  eraseFactor? : graph.eraseFactor? handle = none

private theorem stale_of_factor? {graph : FactorGraph δ} {handle : Handle}
    (h : graph.factor? handle = none) : graph.Stale handle where
  factor? := h
  modifyData := modifyData_stale h
  eraseFactor? := by rw [FactorGraph.eraseFactor?, h]

private theorem Sound.factor_eq {graph : FactorGraph δ} {handle : Handle} {factor : Factor δ}
    (h : graph.factor? handle = some factor) :
    factor = ⟨factor.scope, handle.serial, factor.data⟩ := by
  rw [← (node?_of_factor? h).2]

section Histories

variable [EmptyCollection δ]

/-- The empty payload, with the edits that were made through a handle. -/
def payload (log : List (Event δ)) (handle : Handle) : δ :=
  (log.filterMap (Event.edit? handle)).foldl (fun data edit => edit data) ∅

private theorem payload_snoc (log : List (Event δ)) (event : Event δ) (handle : Handle) :
    payload (log ++ [event]) handle =
      ((event.edit? handle).getD id) (payload log handle) := by
  rw [payload, List.filterMap_append, List.foldl_append]
  cases hedit : event.edit? handle with
  | none => simp [hedit, payload]
  | some edit => simp [hedit, payload]

private theorem payload_unmet {log : List (Event δ)} {handle : Handle}
    (h : ∀ event ∈ log, event.met? ≠ some handle) : payload log handle = ∅ := by
  have hnone : log.filterMap (Event.edit? handle) = [] := by
    rw [List.filterMap_eq_nil_iff]
    intro event hevent
    rw [Option.eq_none_iff_forall_ne_some]
    intro edit hedit
    exact h event hevent (Event.met?_of_edit? hedit)
  rw [payload, hnone]
  rfl

structure Recorded (log : List (Event δ)) (graph : FactorGraph δ) : Prop where
  old : ∀ event ∈ log, ∀ handle, event.met? = some handle → handle.serial < graph.nextSerial
  edited : ∀ {handle factor}, graph.factor? handle = some factor → factor.data = payload log handle
  held : ∀ {scope handle}, .asked scope handle ∈ log →
    (graph.factor? handle).map Factor.scope = some scope ∨
      ∃ data, .erased handle (some data) ∈ log
  gone : ∀ {handle data}, .erased handle (some data) ∈ log → graph.factor? handle = none

namespace Recorded

variable {log : List (Event δ)} {graph after : FactorGraph δ} {event : Event δ}

theorem unmet (h : Recorded log graph) (handle : Handle)
    (hnew : graph.nextSerial ≤ handle.serial) :
    ∀ event ∈ log, event.met? ≠ some handle := by
  intro event hevent hmet
  exact Nat.not_lt.2 hnew (h.old event hevent handle hmet)

/-- No step meets a factor through the handle of an erased one. -/
theorem not_met (h : Recorded log graph) (hsound : graph.Sound) (hstep : Step graph event after)
    {handle : Handle} {data : δ} (hgone : .erased handle (some data) ∈ log) :
    event.met? ≠ some handle := by
  intro hmet
  have hnone := h.gone hgone
  cases event with
  | asked scope answer =>
    obtain rfl : answer = handle := Option.some.inj hmet
    rcases hstep.asked_cases hsound with ⟨hfind, -⟩ | ⟨-, hserial, -⟩
    · obtain ⟨factor, hfactor, -⟩ := (hsound.index _ _).1 hfind
      rw [hnone] at hfactor
      cases hfactor
    · exact h.unmet _ hserial.ge _ hgone rfl
  | edited through edit found =>
    cases found with
    | false => cases hmet
    | true =>
      obtain rfl : through = handle := Option.some.inj hmet
      generalize htrue : true = found at hstep
      cases hstep
      rw [hnone] at htrue
      cases htrue
  | erased through answer =>
    cases answer with
    | none => cases hmet
    | some data =>
      obtain rfl : through = handle := Option.some.inj hmet
      cases hstep with
      | erase _ herase =>
        obtain ⟨factor, hfactor, -⟩ := Sound.eraseFactor?_spec herase
        rw [hnone] at hfactor
        cases hfactor
  | removed number => cases hmet

/-- What a step has to do for the log to grow by its event. Of stale handles, only those that are
older than every factor to come have to stay stale. -/
theorem snoc (h : Recorded log graph) (hserial : graph.nextSerial ≤ after.nextSerial)
    (hmet : ∀ handle, event.met? = some handle → handle.serial < after.nextSerial)
    (hedited : ∀ handle factor, after.factor? handle = some factor →
      factor.data = (event.edit? handle).getD id (payload log handle))
    (hasked : ∀ scope handle, event = .asked scope handle →
      (after.factor? handle).map Factor.scope = some scope)
    (hkept : ∀ handle scope, (graph.factor? handle).map Factor.scope = some scope →
      (after.factor? handle).map Factor.scope = some scope ∨
        ∃ data, event = .erased handle (some data))
    (herased : ∀ handle data, event = .erased handle (some data) → after.factor? handle = none)
    (hstale : ∀ handle, handle.serial < graph.nextSerial → graph.factor? handle = none →
      after.factor? handle = none) :
    Recorded (log ++ [event]) after := by
  have hsplit : ∀ other, other ∈ log ++ [event] ↔ other ∈ log ∨ event = other := by
    simp [eq_comm]
  constructor
  case old =>
    intro other hother handle hhandle
    rcases (hsplit other).1 hother with hold | rfl
    · exact Nat.lt_of_lt_of_le (h.old other hold handle hhandle) hserial
    · exact hmet handle hhandle
  case edited =>
    intro handle factor hfactor
    rw [payload_snoc]
    exact hedited handle factor hfactor
  case held =>
    intro scope handle hother
    rcases (hsplit _).1 hother with hold | heq
    · rcases h.held hold with hscope | ⟨data, hdata⟩
      · exact (hkept handle scope hscope).imp_right fun ⟨data, heq⟩ =>
          ⟨data, (hsplit _).2 (.inr heq)⟩
      · exact .inr ⟨data, (hsplit _).2 (.inl hdata)⟩
    · exact .inl (hasked scope handle heq)
  case gone =>
    intro handle data hother
    rcases (hsplit _).1 hother with hold | heq
    · exact hstale handle (h.old _ hold handle rfl) (h.gone hold)
    · exact herased handle data heq

/-- A step that changes no factor: it met none, or asked for one that was there. -/
theorem keep (h : Recorded log graph) (hsound : graph.Sound)
    (hserial : after.nextSerial = graph.nextSerial)
    (hsame : ∀ handle, after.factor? handle = graph.factor? handle)
    (hmet : ∀ handle, event.met? = some handle → ∃ scope, event = .asked scope handle ∧
      (graph.factor? handle).map Factor.scope = some scope) :
    Recorded (log ++ [event]) after := by
  refine h.snoc hserial.ge ?_ ?_ ?_ (fun _ _ hscope => .inl (hsame _ ▸ hscope)) ?_
    fun handle _ hnone => (hsame handle).trans hnone
  · intro handle hhandle
    obtain ⟨scope, -, hscope⟩ := hmet handle hhandle
    obtain ⟨factor, hfactor, -⟩ := Option.map_eq_some_iff.1 hscope
    rw [hserial]
    exact hsound.serial_lt hfactor
  · intro handle factor hfactor
    have hnone : event.edit? handle = none := by
      rw [Option.eq_none_iff_forall_ne_some]
      intro edit hedit
      obtain ⟨scope, rfl, -⟩ := hmet handle (Event.met?_of_edit? hedit)
      cases hedit
    rw [hnone]
    exact h.edited (hsame handle ▸ hfactor)
  · rintro scope handle rfl
    obtain ⟨other, heq, hscope⟩ := hmet handle rfl
    cases heq
    rw [hsame]
    exact hscope
  · rintro handle data rfl
    obtain ⟨scope, heq, -⟩ := hmet handle rfl
    cases heq

theorem create (h : Recorded log graph) (hsound : graph.Sound) {scope : Scope} {handle : Handle}
    (hnew : handle.serial = graph.nextSerial) (hserial : after.nextSerial = graph.nextSerial + 1)
    (hafter : ∀ other, after.factor? other =
      if other = handle then some ⟨scope, handle.serial, ∅⟩ else graph.factor? other) :
    Recorded (log ++ [.asked scope handle]) after := by
  have hne : ∀ {other : Handle}, other.serial < graph.nextSerial → other ≠ handle := by
    rintro other hlt rfl
    omega
  refine h.snoc (by omega) ?_ ?_ ?_ ?_ (fun _ _ heq => nomatch heq) ?_
  · intro other hmet
    obtain rfl : handle = other := Option.some.inj hmet
    omega
  · intro other factor hfactor
    rw [hafter] at hfactor
    split at hfactor
    · rename_i heq
      cases hfactor
      rw [heq, payload_unmet (h.unmet _ hnew.ge)]
      rfl
    · exact h.edited hfactor
  · intro other found heq
    cases heq
    rw [hafter, if_pos rfl]
    rfl
  · intro other found hscope
    obtain ⟨factor, hfactor, -⟩ := Option.map_eq_some_iff.1 hscope
    rw [hafter, if_neg (hne (hsound.serial_lt hfactor))]
    exact .inl hscope
  · intro other hlt hnone
    rw [hafter, if_neg (hne hlt)]
    exact hnone

theorem edit (h : Recorded log graph) (hsound : graph.Sound) {handle : Handle}
    {factor : Factor δ} (hfactor : graph.factor? handle = some factor) (edit : δ → δ) :
    Recorded (log ++ [.edited handle edit true]) (graph.modifyData handle edit) := by
  have hafter := Sound.factor?_modifyData graph handle edit
  refine h.snoc (Sound.modifyData_nextSerial graph handle edit).ge ?_ ?_
    (fun _ _ heq => nomatch heq) ?_ (fun _ _ heq => nomatch heq) ?_
  · intro other hmet
    obtain rfl : handle = other := Option.some.inj hmet
    rw [Sound.modifyData_nextSerial]
    exact hsound.serial_lt hfactor
  · intro other found hfound
    rw [hafter, hfactor] at hfound
    split at hfound
    · rename_i heq
      cases hfound
      simp [Event.edit?, heq, h.edited hfactor]
    · rename_i hne
      simp [Event.edit?, Ne.symm hne, h.edited hfound]
  · intro other scope hscope
    refine .inl ?_
    rw [hafter]
    split
    · rename_i heq
      rw [heq, hfactor] at hscope
      rw [hfactor]
      exact hscope
    · exact hscope
  · intro other _ hnone
    rw [hafter]
    split
    · rename_i heq
      rw [heq, hfactor] at hnone
      cases hnone
    · exact hnone

theorem erase (h : Recorded log graph) (hsound : graph.Sound) {handle : Handle} {data : δ}
    (herase : graph.eraseFactor? handle = some (data, after)) :
    Recorded (log ++ [.erased handle (some data)]) after := by
  obtain ⟨factor, hfactor, -, -, hserial, -⟩ := Sound.eraseFactor?_spec herase
  have hafter := hsound.factor?_eraseFactor? herase
  refine h.snoc hserial.ge ?_ ?_ (fun _ _ heq => nomatch heq) ?_ ?_ ?_
  · intro other hmet
    obtain rfl : handle = other := Option.some.inj hmet
    rw [hserial]
    exact hsound.serial_lt hfactor
  · intro other found hfound
    rw [hafter] at hfound
    split at hfound
    · cases hfound
    · exact h.edited hfound
  · intro other scope hscope
    by_cases heq : other = handle
    · exact .inr ⟨data, by rw [heq]⟩
    · rw [hafter, if_neg heq]
      exact .inl hscope
  · intro other found heq
    cases heq
    rw [hafter, if_pos rfl]
  · intro other _ hnone
    rw [hafter, hnone, ite_self]

theorem step (h : Recorded log graph) (hsound : graph.Sound) (hstep : Step graph event after) :
    Recorded (log ++ [event]) after := by
  cases event with
  | asked scope handle =>
    rcases hstep.asked_cases hsound with ⟨hfind, hserial, hsame⟩ | ⟨-, hnew, hserial, hafter⟩
    · refine h.keep hsound hserial hsame fun other hmet => ?_
      obtain rfl : handle = other := Option.some.inj hmet
      exact ⟨scope, rfl, Option.map_eq_some_iff.2 ((hsound.index _ _).1 hfind)⟩
    · exact h.create hsound hnew hserial hafter
  | edited handle edit found =>
    cases hstep
    cases hfactor : graph.factor? handle with
    | some factor => exact h.edit hsound hfactor edit
    | none =>
      rw [modifyData_stale hfactor]
      exact h.keep hsound rfl (fun _ => rfl) (by simp [Event.met?])
  | erased handle answer =>
    cases hstep with
    | erase _ herase => exact h.erase hsound herase
    | miss _ _ => exact h.keep hsound rfl (fun _ => rfl) (by simp [Event.met?])
  | removed number =>
    cases hstep with
    | remove _ hfree =>
      exact h.keep hsound (Sound.eraseVariable_nextSerial graph number)
        (hsound.factor?_eraseVariable hfree) (by simp [Event.met?])

end Recorded

variable {varCount : Nat} {log : List (Event δ)} {graph : FactorGraph δ}

theorem History.recorded (h : History varCount log graph) : Recorded log graph := by
  induction h with
  | new => exact ⟨by simp, by simp [factor?_new], by simp, by simp⟩
  | step hbefore hstep ih => exact ih.step hbefore.sound hstep

/-- After its factor was erased, a handle meets no factor again. -/
theorem History.not_met_again {before rest : List (Event δ)} {handle : Handle} {data : δ}
    (h : History varCount (before ++ .erased handle (some data) :: rest) graph) :
    ∀ event ∈ rest, event.met? ≠ some handle := by
  intro event hevent
  obtain ⟨front, back, rfl⟩ := List.append_of_mem hevent
  rw [← List.cons_append, ← List.append_assoc] at h
  obtain ⟨middle, after, hmiddle, hstep, -⟩ := h.cut
  exact hmiddle.recorded.not_met hmiddle.sound hstep
    (List.mem_append_right before List.mem_cons_self)

/-- What a handle that was answered for a scope stands for. Until it erases a factor, it finds the
factor over that scope, whose payload has the edits made through the handle and no others. The
erasure answers with that payload, and the handle is stale for the rest of the history. Whichever
slot a new factor takes, and over whichever scope, it gets a handle that no event has met, and an
empty payload. -/
theorem handle_stable (h : History varCount log graph) {scope : Scope} {handle : Handle}
    (hasked : .asked scope handle ∈ log) :
    ((∀ data, .erased handle (some data) ∉ log) →
      graph.factor? handle = some ⟨scope, handle.serial, payload log handle⟩ ∧
      ∃ after, graph.eraseFactor? handle = some (payload log handle, after)) ∧
    (∀ before data rest, log = before ++ .erased handle (some data) :: rest →
      data = payload before handle ∧ graph.Stale handle ∧
      ∀ event ∈ rest, event.met? ≠ some handle) ∧
    (∀ middle other, graph.Reslotted middle → middle.Asked other → middle.find? other = none →
      ∃ new after, middle.ensure? other = some (new, after) ∧ new ≠ handle ∧
        (∀ event ∈ log, event.met? ≠ some new) ∧
        after.factor? new = some ⟨other, new.serial, ∅⟩) := by
  have hrecorded := h.recorded
  refine ⟨?live, ?erased, ?fresh⟩
  case live =>
    intro hkept
    obtain hscope | ⟨data, herased⟩ := hrecorded.held hasked
    · obtain ⟨factor, hfactor, rfl⟩ := Option.map_eq_some_iff.1 hscope
      have heq := Sound.factor_eq hfactor
      rw [hrecorded.edited hfactor] at heq
      refine ⟨heq ▸ hfactor, ?_⟩
      simp [eraseFactor?, hfactor, hrecorded.edited hfactor]
    · exact absurd herased (hkept data)
  case erased =>
    rintro before data rest rfl
    have hgone := hrecorded.gone (List.mem_append_right before List.mem_cons_self)
    refine ⟨?_, stale_of_factor? hgone, h.not_met_again⟩
    obtain ⟨middle, after, hmiddle, hstep, -⟩ := h.cut
    cases hstep with
    | erase _ herase =>
      obtain ⟨factor, hfactor, rfl, -⟩ := Sound.eraseFactor?_spec herase
      exact hmiddle.recorded.edited hfactor
  case fresh =>
    intro middle other hslots hother hnone
    have hensure : middle.ensure? other = some (middle.create other) := by
      rw [ensure?, hnone]
      exact if_pos (List.all_eq_true.2 fun key hkey => (hother.2 key hkey).2)
    have hunmet := hrecorded.unmet (middle.create other).1 hslots.nextSerial.ge
    have hne : (middle.create other).1 ≠ handle := fun heq =>
      hunmet _ hasked (congrArg some heq.symm)
    have hfactor := (hslots.sound h.sound).factor?_create hother (middle.create other).1
    exact ⟨_, _, hensure, hne, hunmet, hfactor.trans (if_pos rfl)⟩

/-- The erased handle of a factor whose slot and scope are both used again, and the handle of the
factor that uses them. -/
theorem handle_stable_reused : ∃ graph : FactorGraph (List Nat), History 3 reuseLog graph ∧
    .asked (pairScope 0 1 Nat.zero_lt_one) ⟨0, 3⟩ ∈ reuseLog ∧ graph.Stale ⟨0, 3⟩ ∧
    graph.factor? ⟨2, 3⟩ = some ⟨pairScope 0 1 Nat.zero_lt_one, 2, []⟩ := by
  obtain ⟨graph, h⟩ := exists_history_reuseLog
  have hold : .asked (pairScope 0 1 Nat.zero_lt_one) ⟨0, 3⟩ ∈ reuseLog := by simp [reuseLog]
  have hnew : .asked (pairScope 0 1 Nat.zero_lt_one) ⟨2, 3⟩ ∈ reuseLog := by simp [reuseLog]
  have hstale := (handle_stable h hold).2.1 (reuseLog.take 3) [7] (reuseLog.drop 4) rfl
  have hfound := (handle_stable h hnew).1 (by simp [reuseLog])
  exact ⟨graph, h, hold, hstale.2.1, hfound.1⟩

end Histories

end JointDecision.FactorGraph

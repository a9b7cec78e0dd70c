import JointDecision.Elimination
import JointDecision.Proofs.Elimination.Order
import JointDecision.Proofs.Elimination.Resolution
import JointDecision.Proofs.Elimination.Step

/-! # A whole run of elimination

Each step keeps the invariant of the run and ends the life of one variable, so a run with a step for
every variable ends without a live variable. -/

namespace JointDecision.Elimination

open FactorGraph

variable {space : Space} {start : List (Rule Rat)}

def Run.removed {α : Type} (run : Run α) : List Nat :=
  run.steps.map Step.removed

/-- What holds between the steps of a run that began with the rules `start`. -/
structure Invariant (space : Space) (start : List (Rule Rat)) (run : Run Rat) : Prop where
  intact : run.Intact space
  gone : ∀ key ∈ run.removed, key < space.length ∧ run.graph.isLive key = false
  resolves : ∀ x, space.Respects x → ∃ y, Resolves space start run.rules run.removed x y

theorem invariant_start {graph : FactorGraph (List (Rule Rat))} (hsound : graph.Sound)
    (hcount : graph.varCount = space.length) (hfits : graph.Fits space)
    (htags : ∀ rule ∈ graph.rules, rule.tags = []) :
    Invariant space graph.rules (Run.start graph) where
  intact := intact_start hsound hcount hfits
  gone _ h := by cases h
  resolves x hx := ⟨x, resolves_start htags hx⟩

theorem Advances.removed_eq {run after : Run Rat} {key : Nat}
    (h : Advances space key run after) : after.removed = run.removed ++ [key] :=
  h.steps

theorem Invariant.advance {run after : Run Rat} (h : Invariant space start run) {key : Nat}
    (hkey : key ∈ run.graph.liveVariables) (hadvances : Advances space key run after) :
    Invariant space start after := by
  obtain ⟨hlt, hlive⟩ := mem_liveVariables.1 hkey
  rw [h.intact.varCount] at hlt
  have hnew : key ∉ run.removed := by
    intro hin
    have hdead := (h.gone key hin).2
    rw [hlive] at hdead
    cases hdead
  refine ⟨hadvances.intact, ?_, ?_⟩
  · intro other hother
    rw [hadvances.removed_eq, List.mem_append, List.mem_singleton] at hother
    rcases hother with hother | rfl
    · obtain ⟨hin, hdead⟩ := h.gone other hother
      exact ⟨hin, by simp [hadvances.live other hin, hdead]⟩
    · exact ⟨hlt, by simp [hadvances.live other hlt]⟩
  · intro x hx
    obtain ⟨choice, hfolds⟩ := hadvances.folds x hx
    rw [hadvances.removed_eq]
    exact Resolves.fold hx hlt hnew h.resolves hfolds

theorem Advances.liveVariables_eq {run after : Run Rat} {key : Nat} (hrun : run.Intact space)
    (h : Advances space key run after) :
    after.graph.liveVariables = run.graph.liveVariables.erase key :=
  liveVariables_erase (h.intact.varCount.trans hrun.varCount.symm) fun other hother =>
    h.live other (hrun.varCount ▸ hother)

section Runs

variable {α : Type} [Payoff α] {P : Run α → Prop}

/-- Whether a property of runs is kept by eliminating any live variable, which goes through and ends
the life of this variable alone. -/
def StepsKeep (space : Space) (P : Run α → Prop) : Prop :=
  ∀ {run : Run α} {key : Nat}, P run → key ∈ run.graph.liveVariables →
    ∃ after, run.eliminate? space key = some after ∧ P after ∧
      after.graph.liveVariables = run.graph.liveVariables.erase key ∧
      after.removed = run.removed ++ [key]

/-- Whether a property of runs is kept by eliminating the variable that an order picks, which goes
through and ends the life of this variable alone. -/
def PicksKeep (space : Space) (order : Order) (P : Run α → Prop) : Prop :=
  ∀ {run : Run α} {key : Nat}, P run → key ∈ run.graph.liveVariables →
    order.next? run.graph = some key →
    ∃ after, run.eliminate? space key = some after ∧ P after ∧
      after.graph.liveVariables = run.graph.liveVariables.erase key ∧
      after.removed = run.removed ++ [key]

theorem StepsKeep.picks (h : StepsKeep space P) (order : Order) : PicksKeep space order P :=
  fun hrun hkey _ => h hrun hkey

/-- A run with a step left for every live variable goes through and ends without one, and a property
that steps keep holds in the end. The highest live variable first means that they go in decreasing
order. -/
theorem advance?_spec {order : Order} (hpicks : PicksKeep space order P) (limit : Nat)
    {run : Run α} (h : P run) (hlimit : run.graph.liveVariables.length ≤ limit) :
    ∃ final keys, run.advance? space order limit = some final ∧ P final ∧
      final.graph.liveVariables = [] ∧ final.removed = run.removed ++ keys ∧
      keys.Perm run.graph.liveVariables ∧
      (order = .lastFirst → keys = run.graph.liveVariables.reverse) := by
  induction limit generalizing run with
  | zero =>
    have hnone : run.graph.liveVariables = [] := List.length_eq_zero_iff.1 (by omega)
    exact ⟨run, [], rfl, h, hnone, by simp, by simp [hnone], by simp [hnone]⟩
  | succ limit ih =>
    rcases next?_spec order run.graph with ⟨hnext, hnone⟩ | ⟨key, hkey, hnext⟩
    · refine ⟨run, [], ?_, h, hnone, by simp, by simp [hnone], by simp [hnone]⟩
      rw [Run.advance?, hnext]
    · obtain ⟨after, hafter, hkept, hlive, hstep⟩ := hpicks h hkey hnext
      have hnodup := nodup_liveVariables run.graph
      have hperm : run.graph.liveVariables.Perm (key :: after.graph.liveVariables) := by
        rw [hlive]
        exact List.perm_cons_erase hkey
      have hlength := hperm.length_eq
      rw [List.length_cons] at hlength
      obtain ⟨final, keys, hrun, hfinal, hnone, hremoved, hkeys, hlast⟩ := ih hkept (by omega)
      refine ⟨final, key :: keys, ?_, hfinal, hnone, ?_, ?_, ?_⟩
      · rw [Run.advance?, hnext]
        simp only [hafter, Option.bind_some, hrun]
      · rw [hremoved, hstep, List.append_assoc, List.singleton_append]
      · exact (hkeys.cons key).trans hperm.symm
      · rintro rfl
        rw [next?_lastFirst] at hnext
        obtain ⟨front, hfront⟩ := List.getLast?_eq_some_iff.1 hnext
        have hrest : after.graph.liveVariables = front := by
          have hout : key ∉ front := by
            intro hin
            rw [hfront] at hnodup
            exact (List.nodup_append.1 hnodup).2.2 key hin key (by simp) rfl
          rw [hlive, hfront, List.erase_append_right _ hout]
          simp
        rw [hlast rfl, hrest, hfront]
        simp

/-- A run that went through with a step left for every live variable ended without one, and a
property that successful steps keep holds in the end. -/
theorem advance?_of_some (hsteps : ∀ {run after : Run α} {key : Nat}, P run →
      key ∈ run.graph.liveVariables → run.eliminate? space key = some after →
      P after ∧ after.graph.liveVariables = run.graph.liveVariables.erase key)
    (order : Order) (limit : Nat) {run final : Run α} (h : P run)
    (hlimit : run.graph.liveVariables.length ≤ limit)
    (hrun : run.advance? space order limit = some final) :
    P final ∧ final.graph.liveVariables = [] := by
  induction limit generalizing run with
  | zero =>
    cases hrun
    exact ⟨h, List.length_eq_zero_iff.1 (by omega)⟩
  | succ limit ih =>
    rw [Run.advance?] at hrun
    rcases next?_spec order run.graph with ⟨hnext, hnone⟩ | ⟨key, hkey, hnext⟩
    · rw [hnext] at hrun
      cases hrun
      exact ⟨h, hnone⟩
    · rw [hnext] at hrun
      obtain ⟨after, hafter, hrest⟩ := Option.bind_eq_some_iff.1 hrun
      obtain ⟨hkept, hlive⟩ := hsteps h hkey hafter
      refine ih hkept ?_ hrest
      rw [hlive, List.length_erase_of_mem hkey]
      omega

theorem length_liveVariables_le {δ : Type} (graph : FactorGraph δ) :
    graph.liveVariables.length ≤ graph.varCount := by
  have hfilter := List.length_filter_le graph.isLive (List.range graph.varCount)
  rwa [List.length_range] at hfilter

theorem eliminateAll?_of_picks {order : Order} (hpicks : PicksKeep space order P)
    {graph : FactorGraph (List (Rule α))} (h : P (.start graph)) :
    ∃ final, eliminateAll? space order graph = some final ∧ P final ∧
      final.graph.liveVariables = [] ∧ final.removed.Perm graph.liveVariables ∧
      (order = .lastFirst → final.removed = graph.liveVariables.reverse) := by
  obtain ⟨final, keys, hrun, hfinal, hnone, hremoved, hkeys⟩ :=
    advance?_spec hpicks graph.varCount h (length_liveVariables_le graph)
  obtain rfl : final.removed = keys := hremoved
  exact ⟨final, hrun, hfinal, hnone, hkeys⟩

theorem eliminateAll?_of_steps (hsteps : StepsKeep space P) (order : Order)
    {graph : FactorGraph (List (Rule α))} (h : P (.start graph)) :
    ∃ final, eliminateAll? space order graph = some final ∧ P final ∧
      final.graph.liveVariables = [] ∧ final.removed.Perm graph.liveVariables ∧
      (order = .lastFirst → final.removed = graph.liveVariables.reverse) :=
  eliminateAll?_of_picks (hsteps.picks order) h

end Runs

theorem Invariant.steps (hspace : space.Inhabited) : StepsKeep space (Invariant space start) := by
  intro run key h hkey
  have hlt : key < space.length := h.intact.varCount ▸ (mem_liveVariables.1 hkey).1
  obtain ⟨after, hafter, hadvances⟩ := eliminate?_spec hspace h.intact hlt
  exact ⟨after, hafter, h.advance hkey hadvances, hadvances.liveVariables_eq h.intact,
    hadvances.removed_eq⟩

end JointDecision.Elimination

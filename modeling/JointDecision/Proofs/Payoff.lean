import JointDecision.Payoff
import Mathlib.Algebra.BigOperators.Group.List.Basic
import Mathlib.Algebra.Order.Ring.Rat
import Mathlib.Data.List.Induction
import Mathlib.Tactic.Linarith

/-! # Payoffs without rounding

Over the rationals a total is a sum, and both searches for the best payoff find the first of the
greatest ones. -/

namespace JointDecision.Payoff

@[simp] theorem zero_rat : (Payoff.zero : Rat) = 0 := rfl

@[simp] theorem less_rat (a b : Rat) : Payoff.less a b = decide (a < b) := rfl

@[simp] theorem beats_none_rat (payoff : Rat) : beats none payoff = true := rfl

@[simp] theorem beats_some_rat (best payoff : Rat) :
    beats (some best) payoff = decide (best < payoff) := rfl

theorem foldl_add_rat (payoffs : List Rat) (start : Rat) :
    payoffs.foldl (· + ·) start = start + payoffs.sum := by
  induction payoffs generalizing start with
  | nil => simp
  | cons payoff payoffs ih => rw [List.foldl_cons, ih, List.sum_cons, add_assoc]

@[simp] theorem total_rat (payoffs : List Rat) : Payoff.total payoffs = payoffs.sum := by
  calc Payoff.total payoffs = payoffs.foldl (· + ·) 0 := rfl
    _ = payoffs.sum := by rw [foldl_add_rat, zero_add]

structure FirstGreatest (payoffs : List Rat) (best : Rat × Nat) : Prop where
  stands : payoffs[best.2]? = some best.1
  greatest : ∀ payoff ∈ payoffs, payoff ≤ best.1
  first : ∀ i < best.2, ∀ payoff, payoffs[i]? = some payoff → payoff < best.1

theorem FirstGreatest.position_lt {payoffs : List Rat} {best : Rat × Nat}
    (h : FirstGreatest payoffs best) : best.2 < payoffs.length :=
  (List.getElem?_eq_some_iff.1 h.stands).1

theorem FirstGreatest.concat_lt {payoffs : List Rat} {best : Rat × Nat} {payoff : Rat}
    (h : FirstGreatest payoffs best) (hlt : best.1 < payoff) :
    FirstGreatest (payoffs ++ [payoff]) (payoff, payoffs.length) := by
  refine ⟨by simp, ?_, ?_⟩
  · intro other hother
    rcases List.mem_append.1 hother with hother | hother
    · exact (h.greatest other hother).trans hlt.le
    · exact (List.mem_singleton.1 hother).le
  · intro i hi other hother
    rw [List.getElem?_append_left hi] at hother
    exact (h.greatest other (List.mem_of_getElem? hother)).trans_lt hlt

theorem FirstGreatest.concat_le {payoffs : List Rat} {best : Rat × Nat} {payoff : Rat}
    (h : FirstGreatest payoffs best) (hle : payoff ≤ best.1) :
    FirstGreatest (payoffs ++ [payoff]) best := by
  have hposition := h.position_lt
  refine ⟨?_, ?_, ?_⟩
  · rw [List.getElem?_append_left hposition]
    exact h.stands
  · intro other hother
    rcases List.mem_append.1 hother with hother | hother
    · exact h.greatest other hother
    · rw [List.mem_singleton.1 hother]
      exact hle
  · intro i hi other hother
    rw [List.getElem?_append_left (hi.trans hposition)] at hother
    exact h.first i hi other hother

private theorem peak?_concat {α : Type} [Payoff α] (payoffs : List α) (payoff : α) :
    peak? (payoffs ++ [payoff]) =
      if beats ((peak? payoffs).map Prod.fst) payoff then some (payoff, payoffs.length)
      else peak? payoffs := by
  rw [peak?, List.zipIdx_append, List.foldl_append]
  simp [peak?]
  rfl

private theorem peak?_lt {α : Type} [Payoff α] {payoffs : List α} {best : α × Nat}
    (h : peak? payoffs = some best) : best.2 < payoffs.length := by
  induction payoffs using List.reverseRecOn with
  | nil => cases h
  | append_singleton payoffs payoff ih =>
    rw [peak?_concat] at h
    rw [List.length_append, List.length_singleton]
    split at h
    · cases h
      exact Nat.lt_succ_self _
    · exact Nat.lt_succ_of_lt (ih h)

theorem peak_lt {α : Type} [Payoff α] {payoffs : List α} (h : 0 < payoffs.length) :
    (peak payoffs).2 < payoffs.length := by
  rw [peak]
  cases hbest : peak? payoffs with
  | none => exact h
  | some best => exact peak?_lt hbest

/-- The search keeps the first of the greatest payoffs seen. -/
theorem peak?_spec (payoffs : List Rat) :
    (payoffs = [] ∧ peak? payoffs = none) ∨
      ∃ best, peak? payoffs = some best ∧ FirstGreatest payoffs best := by
  induction payoffs using List.reverseRecOn with
  | nil => exact .inl ⟨rfl, rfl⟩
  | append_singleton payoffs payoff ih =>
    apply Or.inr
    rw [peak?_concat]
    rcases ih with ⟨rfl, hnone⟩ | ⟨best, hbest, hfirst⟩
    · exact ⟨(payoff, 0), by simp [hnone], by simp, by simp, by simp⟩
    · by_cases hlt : best.1 < payoff
      · exact ⟨(payoff, payoffs.length), by simp [hbest, hlt], hfirst.concat_lt hlt⟩
      · exact ⟨best, by simp [hbest, hlt], hfirst.concat_le (not_lt.1 hlt)⟩

theorem peak_spec {payoffs : List Rat} (h : payoffs ≠ []) :
    FirstGreatest payoffs (peak payoffs) := by
  rcases peak?_spec payoffs with ⟨hnil, -⟩ | ⟨best, hbest, hfirst⟩
  · exact absurd hnil h
  · simpa [peak, hbest] using hfirst

private theorem foldl_beats_some (entries : List (Rat × Nat)) (start : Rat × Nat) :
    entries.foldl
        (fun best entry => if beats (best.map Prod.fst) entry.1 then some entry else best)
        (some start) =
      some (entries.foldl (fun best entry => if less best.1 entry.1 then entry else best)
        start) := by
  induction entries generalizing start with
  | nil => rfl
  | cons entry entries ih =>
    by_cases hlt : start.1 < entry.1
    · simpa [hlt] using ih entry
    · simpa [hlt] using ih start

private theorem leader_eq_peak (payoffs : List Rat) : leader payoffs = (peak payoffs).2 := by
  cases payoffs with
  | nil => rfl
  | cons payoff payoffs =>
    have hfold := foldl_beats_some (payoffs.zipIdx 1) (payoff, 0)
    have hpeak : peak? (payoff :: payoffs) = some
        ((payoffs.zipIdx 1).foldl
          (fun best entry => if less best.1 entry.1 then entry else best) (payoff, 0)) := by
      rw [← hfold]
      simp [peak?]
    simp [peak, hpeak, leader]

/-- The leader is a position of the list, whatever the comparisons say. -/
theorem leader_lt {α : Type} [Payoff α] {payoffs : List α} (h : 0 < payoffs.length) :
    leader payoffs < payoffs.length := by
  cases payoffs with
  | nil => cases h
  | cons first rest =>
    refine List.foldlRecOn (motive := fun best : α × Nat => best.2 < (first :: rest).length)
      (rest.zipIdx 1) _ h fun best hbest entry hentry => ?_
    have hlt := List.snd_lt_add_of_mem_zipIdx hentry
    split
    · rw [List.length_cons]
      omega
    · exact hbest

theorem leader_spec {payoffs : List Rat} (h : payoffs ≠ []) :
    ∃ greatest, FirstGreatest payoffs (greatest, leader payoffs) := by
  refine ⟨(peak payoffs).1, ?_⟩
  rw [leader_eq_peak]
  exact peak_spec h

end JointDecision.Payoff

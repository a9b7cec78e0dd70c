import JointDecision.Proofs.Elimination.Response
import Mathlib.Data.List.Lex

/-! # What the rules of a run stand for

At every point of a run, and in every valuation, the rules that are left earn the best that the
removed variables can add to it. Their tags name the choices of these variables, of all best ones
the least when the variable removed last counts most. -/

namespace JointDecision.Elimination

/-- The valuation `y` completes `x` at the removed variables: it is the best completion for the
rules the run began with, the least of the best, and the one that the tags of the rules left spell
out. -/
structure Resolves (space : Space) (start left : List (Rule Rat)) (removed : List Nat)
    (x y : Valuation) : Prop where
  respects : space.Respects y
  agrees : ∀ key ∉ removed, y key = x key
  objective_eq : objective left x = objective start y
  greatest : ∀ z, space.Respects z → (∀ key ∉ removed, z key = x key) →
    objective start z ≤ objective start y
  least : ∀ z, space.Respects z → (∀ key ∉ removed, z key = x key) →
    objective start z = objective start y → removed.reverse.map y ≤ removed.reverse.map z
  known : ∀ tag ∈ tagsAt left x, tag.1 ∈ removed ∧ tag.2 = y tag.1
  chosen : ∀ key ∈ removed, (key, y key) ∈ tagsAt left x ∨ y key = 0

variable {space : Space} {start before after : List (Rule Rat)} {removed : List Nat}

theorem resolves_start (htags : ∀ rule ∈ start, rule.tags = []) {x : Valuation}
    (hx : space.Respects x) : Resolves space start start [] x x where
  respects := hx
  agrees _ _ := rfl
  objective_eq := rfl
  greatest z _ hz := by
    have heq : z = x := funext fun key => hz key (List.not_mem_nil)
    rw [heq]
  least _ _ _ _ := le_rfl
  known tag htag := by
    obtain ⟨rule, hrule, hin⟩ := List.mem_flatMap.1 htag
    rw [htags rule (mem_earned.1 hrule).1] at hin
    cases hin
  chosen _ h := by cases h

theorem Resolves.fold {key choice : Nat} {x : Valuation} (hx : space.Respects x)
    (hkey : key < space.length) (hnew : key ∉ removed)
    (h : ∀ x, space.Respects x → ∃ y, Resolves space start before removed x y)
    (hfolds : Folds space key before after x choice) :
    ∃ y, Resolves space start after (removed ++ [key]) x y := by
  obtain ⟨y, hy⟩ := h _ (hx.update hfolds.choice_lt)
  have hykey : y key = choice := by
    rw [hy.agrees key hnew, Function.update_self]
  have hvalue : objective after x = objective start y := by
    rw [hfolds.objective_eq, hy.objective_eq]
  -- A completion of `x` is one of `x` with the completion's own value at the variable.
  have hoff : ∀ z : Valuation, (∀ other ∉ removed ++ [key], z other = x other) →
      ∀ other ∉ removed, z other = Function.update x key (z key) other := by
    intro z hz other hother
    by_cases heq : other = key
    · rw [heq, Function.update_self]
    · rw [Function.update_of_ne heq, hz other (by simp [hother, heq])]
  have hbound : ∀ z, space.Respects z → (∀ other ∉ removed ++ [key], z other = x other) →
      objective start z ≤ objective before (Function.update x key (z key)) := by
    intro z hz hagrees
    obtain ⟨w, hw⟩ := h _ (hx.update (hz key hkey))
    rw [hw.objective_eq]
    exact hw.greatest z hz (hoff z hagrees)
  refine ⟨y, hy.respects, ?_, hvalue, ?_, ?_, ?_, ?_⟩
  · intro other hother
    rw [List.mem_append, List.mem_singleton, not_or] at hother
    rw [hy.agrees other hother.1, Function.update_of_ne hother.2]
  · intro z hz hagrees
    rw [← hvalue]
    exact (hbound z hz hagrees).trans (hfolds.greatest _ (hz key hkey))
  · intro z hz hagrees hequal
    simp only [List.reverse_append, List.reverse_singleton, List.singleton_append, List.map_cons,
      hykey]
    rcases Nat.lt_trichotomy choice (z key) with hlt | heq | hgt
    · exact le_of_lt (List.Lex.rel hlt)
    · rw [← heq]
      refine List.cons_le_cons choice (hy.least z hz ?_ hequal)
      rw [heq]
      exact hoff z hagrees
    · have hless := hfolds.first (z key) hgt
      rw [hvalue, ← hequal] at hless
      exact absurd (hbound z hz hagrees) (not_le_of_gt hless)
  · intro tag htag
    rcases hfolds.known tag htag with htag | rfl
    · obtain ⟨hin, heq⟩ := hy.known tag htag
      exact ⟨List.mem_append_left _ hin, heq⟩
    · exact ⟨by simp, hykey.symm⟩
  · intro other hother
    rcases List.mem_append.1 hother with hother | hother
    · exact (hy.chosen other hother).imp_left (hfolds.kept _)
    · obtain rfl := List.mem_singleton.1 hother
      rw [hykey]
      exact hfolds.chosen

end JointDecision.Elimination

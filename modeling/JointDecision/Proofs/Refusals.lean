import JointDecision.Proofs.Elimination.Progress
import JointDecision.Proofs.MaxPlus.Anytime

/-! # What the solvers refuse

Both solvers refuse a problem for what is wrong with its space or its rules, and for the same thing.
The graph that they build of a problem is never refused. -/

namespace JointDecision

variable {α : Type} {space : Space} {rules : List (Rule α)}

/-- Why a problem is refused: for the first variable without a value, or else for the first rule
whose keys and values make no assignment over the space. -/
inductive Refusal (space : Space) (rules : List (Rule α)) : Failure → Prop
  | space {key : Nat} : space.FirstEmpty key → Refusal space rules (.emptyDomain key)
  | rule {before later : List (Rule α)} {rule : Rule α} {failure : Failure} :
      space.Inhabited → rules = before ++ rule :: later →
      (∀ other ∈ before, ∃ a,
        Assignment.ofLists space other.assignment.keys other.assignment.values = .ok a) →
      Assignment.ofLists space rule.assignment.keys rule.assignment.values = .error failure →
      Refusal space rules failure

private theorem check_eq_ok_iff {a : Assignment} :
    a.check space = .ok () ↔ ∃ b, Assignment.ofLists space a.keys a.values = .ok b := by
  rw [Assignment.ofLists_eq_check]
  cases a.check space with
  | error failure => simp [Except.map]
  | ok _ => simp [Except.map]

private theorem check_eq_error_iff {a : Assignment} {failure : Failure} :
    a.check space = .error failure ↔
      Assignment.ofLists space a.keys a.values = .error failure := by
  rw [Assignment.ofLists_eq_check]
  cases a.check space with
  | error failure => simp [Except.map]
  | ok _ => simp [Except.map]

/-- The checks before a graph is built find what a problem is refused for. -/
theorem refusal_iff {failure : Failure} : Refusal space rules failure ↔
    (space.validate >>= fun _ => checkRules space rules) = .error failure := by
  constructor
  · intro h
    cases h with
    | space hkey =>
      rw [hkey.validate_eq]
      rfl
    | rule hspace hrules hbefore hrule =>
      rw [Space.validate_eq_ok hspace]
      exact checkRules_eq_error_iff.2 ⟨_, _, _, hrules,
        fun other hother => check_eq_ok_iff.2 (hbefore other hother), check_eq_error_iff.2 hrule⟩
  · intro h
    by_cases hspace : space.Inhabited
    · rw [Space.validate_eq_ok hspace] at h
      obtain ⟨before, rule, later, hrules, hbefore, hrule⟩ := checkRules_eq_error_iff.1 h
      exact .rule hspace hrules (fun other hother => check_eq_ok_iff.1 (hbefore other hother))
        (check_eq_error_iff.1 hrule)
    · obtain ⟨key, hkey⟩ := Space.exists_firstEmpty hspace
      rw [hkey.validate_eq] at h
      cases h
      exact .space hkey

private theorem accepted_of_not_refusal (h : ∀ failure, ¬ Refusal space rules failure) :
    space.Inhabited ∧ checkRules space rules = .ok () := by
  cases haccept : (space.validate >>= fun _ => checkRules space rules) with
  | error failure => exact absurd (refusal_iff.2 haccept) (h failure)
  | ok _ => exact accepted_of_ok haccept

/-- A solver that reports refusals, and solves what is not refused, fails for refusals alone. -/
theorem refusal_iff_of_solved {β : Type} {outcome : Except Failure β}
    (hrefused : ∀ failure, Refusal space rules failure → outcome = .error failure)
    (hsolved : (∀ failure, ¬ Refusal space rules failure) → ∃ result, outcome = .ok result)
    (failure : Failure) : Refusal space rules failure ↔ outcome = .error failure := by
  refine ⟨hrefused failure, fun h => ?_⟩
  by_contra hnot
  obtain ⟨result, hresult⟩ := hsolved fun other hother => by
    rw [hrefused other hother] at h
    cases h
    exact hnot hother
  rw [hresult] at h
  cases h

section Solvers

variable [Payoff α]

private theorem elimination_of_not_refusal (h : ∀ failure, ¬ Refusal space rules failure)
    (htags : ∀ rule ∈ rules, rule.tags = []) (order : Elimination.Order) :
    ∃ graph result, Elimination.buildGraph space rules = .ok graph ∧
      Elimination.solveGraph order space graph = .ok result ∧
      Elimination.solve order space rules = .ok result := by
  obtain ⟨hspace, hrules⟩ := accepted_of_not_refusal h
  obtain ⟨solution, report, hsolve⟩ :=
    Elimination.solve_of_range hspace order hrules fun rule hrule tag htag => by
      rw [htags rule hrule] at htag
      cases htag
  have hsame := hsolve
  cases hgraph : Elimination.buildGraph space rules with
  | error failure =>
    rw [Elimination.solve, hgraph] at hsame
    cases hsame
  | ok graph =>
    rw [Elimination.solve, hgraph] at hsame
    exact ⟨graph, _, rfl, hsame, hsolve⟩

private theorem maxPlus_of_not_refusal (h : ∀ failure, ¬ Refusal space rules failure)
    (hwords : ∀ rule ∈ rules, space.FitsWord rule.assignment.keys) (iterations : Nat) :
    ∃ graph result, MaxPlus.buildGraph space rules = .ok graph ∧
      MaxPlus.solveGraph iterations space graph = .ok result ∧
      MaxPlus.solve iterations space rules = .ok result := by
  obtain ⟨hspace, hrules⟩ := accepted_of_not_refusal h
  obtain ⟨graph, hgraph, -, hsolve⟩ := MaxPlus.solve_of_fitsWord hspace hrules hwords
  obtain ⟨hbuilt, hrun⟩ := hsolve iterations
  exact ⟨graph, _, hgraph, hrun, hbuilt.trans hrun⟩

/-- Elimination refuses a problem for an empty domain, or else for the first rule that could not have
been made over the space, and where words can count the joint values of every rule's keys max-plus
refuses the same problems for the same reason. What they do not refuse they solve, so the graph that
was built of it is not refused either. -/
theorem solvers_refuse_alike (space : Space) (htags : ∀ rule ∈ rules, rule.tags = [])
    (order : Elimination.Order) (iterations : Nat) :
    (∀ failure, Refusal space rules failure ↔
      Elimination.solve order space rules = .error failure) ∧
    ((∀ failure, ¬ Refusal space rules failure) →
      ∃ graph result, Elimination.buildGraph space rules = .ok graph ∧
        Elimination.solveGraph order space graph = .ok result ∧
        Elimination.solve order space rules = .ok result) ∧
    ((∀ rule ∈ rules, space.FitsWord rule.assignment.keys) →
      (∀ failure, Refusal space rules failure ↔
        MaxPlus.solve iterations space rules = .error failure) ∧
      ((∀ failure, ¬ Refusal space rules failure) →
        ∃ graph result, MaxPlus.buildGraph space rules = .ok graph ∧
          MaxPlus.solveGraph iterations space graph = .ok result ∧
          MaxPlus.solve iterations space rules = .ok result)) := by
  have helimination := fun h => @elimination_of_not_refusal α space rules _ h htags order
  refine ⟨refusal_iff_of_solved (fun failure h => ?_) fun h => ?_, helimination,
    fun hwords => ?_⟩
  · exact Elimination.solve_of_rejected (refusal_iff.1 h) order
  · obtain ⟨_, result, -, -, hsolve⟩ := helimination h
    exact ⟨result, hsolve⟩
  have hmaxPlus := fun h => @maxPlus_of_not_refusal α space rules _ h hwords iterations
  refine ⟨refusal_iff_of_solved (fun failure h => ?_) fun h => ?_, hmaxPlus⟩
  · rw [MaxPlus.solve, MaxPlus.buildGraph, FactorGraph.ofRules_of_rejected (refusal_iff.1 h)]
    rfl
  · obtain ⟨_, result, -, -, hsolve⟩ := hmaxPlus h
    exact ⟨result, hsolve⟩

/-- The pair of rules over three spaces: one with an empty domain, one in which the second rule's
second value does not exist, and one that they fit. -/
theorem solvers_refuse_alike_pair :
    (Elimination.solve .lastFirst [2, 0, 2] Elimination.pairRules = .error (.emptyDomain 1) ∧
      MaxPlus.solve 3 [2, 0, 2] Elimination.pairRules = .error (.emptyDomain 1)) ∧
    (Elimination.solve .lastFirst [2, 1, 2] Elimination.pairRules =
        .error (.valueOutOfRange 1 1 1) ∧
      MaxPlus.solve 3 [2, 1, 2] Elimination.pairRules = .error (.valueOutOfRange 1 1 1)) ∧
    (∃ result, Elimination.solve .lastFirst [2, 3, 2] Elimination.pairRules = .ok result) ∧
    ∃ result, MaxPlus.solve 3 [2, 3, 2] Elimination.pairRules = .ok result := by
  have halike := fun space =>
    solvers_refuse_alike space (by decide : ∀ rule ∈ Elimination.pairRules, _) .lastFirst 3
  have hempty : Refusal [2, 0, 2] Elimination.pairRules (.emptyDomain 1) :=
    .space ⟨rfl, by decide⟩
  have hrules : Elimination.pairRules =
      [⟨⟨[(0, 1)], by simp⟩, 1, []⟩] ++ [⟨⟨[(0, 1), (1, 1)], by simp⟩, 2, []⟩] := rfl
  have hvalue : Refusal [2, 1, 2] Elimination.pairRules (.valueOutOfRange 1 1 1) :=
    .rule (by decide) hrules (List.forall_mem_singleton.2 ⟨_, rfl⟩) rfl
  have hnone : ∀ failure, ¬ Refusal [2, 3, 2] Elimination.pairRules failure :=
    fun failure h => nomatch refusal_iff.1 h
  obtain ⟨hfirst, -, hfirst'⟩ := halike [2, 0, 2]
  obtain ⟨hsecond, -, hsecond'⟩ := halike [2, 1, 2]
  obtain ⟨-, hthird, hthird'⟩ := halike [2, 3, 2]
  obtain ⟨_, result, -, -, hsolve⟩ := hthird hnone
  obtain ⟨_, result', -, -, hsolve'⟩ := (hthird' (by decide)).2 hnone
  exact ⟨⟨(hfirst _).1 hempty, ((hfirst' (by decide)).1 _).1 hempty⟩,
    ⟨(hsecond _).1 hvalue, ((hsecond' (by decide)).1 _).1 hvalue⟩, ⟨result, hsolve⟩, result',
    hsolve'⟩

end Solvers

end JointDecision

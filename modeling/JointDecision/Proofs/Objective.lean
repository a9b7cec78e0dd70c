import JointDecision.Problem
import JointDecision.Proofs.Assignment
import JointDecision.Proofs.Payoff
import Mathlib.Algebra.BigOperators.Group.List.Lemmas

/-! # The objective of a problem

The score of a valuation is the sum of the payoffs of the rules that hold in it, and the walk that
scores a full assignment computes this sum. -/

namespace JointDecision

variable {α : Type}

def earned (rules : List (Rule α)) (x : Valuation) : List (Rule α) :=
  rules.filter fun rule => rule.assignment.holds x

@[simp] theorem earned_nil (x : Valuation) : earned ([] : List (Rule α)) x = [] := rfl

@[simp] theorem earned_append (rules others : List (Rule α)) (x : Valuation) :
    earned (rules ++ others) x = earned rules x ++ earned others x :=
  List.filter_append ..

theorem mem_earned {rules : List (Rule α)} {x : Valuation} {rule : Rule α} :
    rule ∈ earned rules x ↔ rule ∈ rules ∧ rule.assignment.holds x = true :=
  List.mem_filter

theorem earned_congr {rules : List (Rule α)} {x y : Valuation}
    (h : ∀ rule ∈ rules, ∀ entry ∈ rule.assignment.entries, x entry.1 = y entry.1) :
    earned rules x = earned rules y :=
  List.filter_congr fun rule hrule => Assignment.holds_congr (h rule hrule)

def objective (rules : List (Rule Rat)) (x : Valuation) : Rat :=
  ((earned rules x).map Rule.payoff).sum

@[simp] theorem objective_nil (x : Valuation) : objective [] x = 0 := rfl

@[simp] theorem objective_append (rules others : List (Rule Rat)) (x : Valuation) :
    objective (rules ++ others) x = objective rules x + objective others x := by
  simp [objective]

theorem objective_flatMap {β : Type} (list : List β) (rulesOf : β → List (Rule Rat))
    (x : Valuation) :
    objective (list.flatMap rulesOf) x = (list.map fun b => objective (rulesOf b) x).sum := by
  induction list with
  | nil => rfl
  | cons b list ih =>
    rw [List.flatMap_cons, objective_append, ih, List.map_cons, List.sum_cons]

theorem objective_perm {rules others : List (Rule Rat)} (h : rules.Perm others) (x : Valuation) :
    objective rules x = objective others x :=
  ((h.filter _).map _).sum_eq

theorem objective_congr {rules : List (Rule Rat)} {x y : Valuation}
    (h : ∀ rule ∈ rules, ∀ entry ∈ rule.assignment.entries, x entry.1 = y entry.1) :
    objective rules x = objective rules y := by
  rw [objective, objective, earned_congr h]

def OverSpace (space : Space) (rules : List (Rule α)) : Prop :=
  ∀ rule ∈ rules, ∀ entry ∈ rule.assignment.entries, entry.1 < space.length

private theorem applicable?_eq {full : List Nat} {rules : List (Rule α)}
    (h : ∀ rule ∈ rules, ∀ entry ∈ rule.assignment.entries, entry.1 < full.length) :
    applicable? full rules = some (earned rules (valuation full)) := by
  induction rules with
  | nil => rfl
  | cons rule rules ih =>
    have hrule : rule.assignment.agrees? full = some (rule.assignment.holds (valuation full)) :=
      agrees?_eq (h rule List.mem_cons_self)
    have hrest := ih fun r hr => h r (List.mem_cons_of_mem _ hr)
    cases hholds : rule.assignment.holds (valuation full) with
    | true => simp [applicable?, hrule, hrest, hholds, earned]
    | false => simp [applicable?, hrule, hrest, hholds, earned]

theorem score?_eq {space : Space} {rules : List (Rule Rat)} {full : List Nat}
    (h : OverSpace space rules) (hfull : full.length = space.length) :
    score? rules full = some (objective rules (valuation full)) := by
  have hkeys : ∀ rule ∈ rules, ∀ entry ∈ rule.assignment.entries, entry.1 < full.length := by
    rw [hfull]
    exact h
  simp [score?, applicable?_eq hkeys, objective]

theorem checkRules_eq_ok_iff {space : Space} {rules : List (Rule α)} :
    checkRules space rules = .ok () ↔ ∀ rule ∈ rules, rule.assignment.check space = .ok () := by
  induction rules with
  | nil => simp [checkRules]
  | cons rule rules ih =>
    rw [List.forall_mem_cons, ← ih, checkRules]
    cases hcheck : rule.assignment.check space with
    | error failure => simp
    | ok _ => simp

/-- The first rule that is not over the space decides. -/
theorem checkRules_eq_error_iff {space : Space} {rules : List (Rule α)} {failure : Failure} :
    checkRules space rules = .error failure ↔ ∃ before rule later,
      rules = before ++ rule :: later ∧
      (∀ other ∈ before, other.assignment.check space = .ok ()) ∧
      rule.assignment.check space = .error failure := by
  constructor
  · intro h
    induction rules with
    | nil => cases h
    | cons rule rules ih =>
      rw [checkRules] at h
      cases hcheck : rule.assignment.check space with
      | error found =>
        rw [hcheck] at h
        cases h
        exact ⟨[], rule, rules, rfl, by simp, hcheck⟩
      | ok _ =>
        rw [hcheck] at h
        obtain ⟨before, first, later, rfl, hbefore, hfirst⟩ := ih h
        exact ⟨rule :: before, first, later, rfl, List.forall_mem_cons.2 ⟨hcheck, hbefore⟩, hfirst⟩
  · rintro ⟨before, rule, later, rfl, hbefore, hrule⟩
    induction before with
    | nil => simp [checkRules, hrule]
    | cons other before ih =>
      obtain ⟨hother, hbefore⟩ := List.forall_mem_cons.1 hbefore
      simp [checkRules, hother, ih hbefore]

/-- What is accepted before a problem is built. -/
theorem accepted_of_ok {space : Space} {rules : List (Rule α)}
    (h : (space.validate >>= fun _ => checkRules space rules) = .ok ()) :
    space.Inhabited ∧ checkRules space rules = .ok () := by
  cases hvalid : space.validate with
  | error failure =>
    rw [hvalid] at h
    cases h
  | ok _ =>
    rw [hvalid] at h
    exact ⟨Space.inhabited_of_validate hvalid, h⟩

theorem FactorGraph.checkSpace_eq_ok {δ : Type} {space : Space} (hspace : space.Inhabited)
    {graph : FactorGraph δ} (hcount : graph.varCount = space.length) :
    graph.checkSpace space = .ok () := by
  rw [checkSpace, Space.validate_eq_ok hspace]
  exact if_pos hcount

theorem over_of_checkRules {space : Space} {rules : List (Rule α)}
    (h : checkRules space rules = .ok ()) : ∀ rule ∈ rules, rule.assignment.Over space :=
  fun rule hrule => Assignment.over_of_check (checkRules_eq_ok_iff.1 h rule hrule)

theorem overSpace_of_checkRules {space : Space} {rules : List (Rule α)}
    (h : checkRules space rules = .ok ()) : OverSpace space rules :=
  fun rule hrule => (over_of_checkRules h rule hrule).key_lt

private theorem objective_tabulate {space : Space} {rules : List (Rule Rat)}
    (h : OverSpace space rules)
    (x : Valuation) : objective rules (valuation (space.tabulate x)) = objective rules x :=
  objective_congr fun rule hrule entry hentry =>
    Space.valuation_tabulate (h rule hrule entry hentry)

theorem score?_tabulate {space : Space} {rules : List (Rule Rat)} (h : OverSpace space rules)
    (x : Valuation) : score? rules (space.tabulate x) = some (objective rules x) := by
  rw [score?_eq h (by simp [Space.tabulate]), objective_tabulate h]

/-- Solutions are told apart by their payoffs and by the values of the variables. -/
theorem Solution.eq_of_valuation {space : Space} {solution solution' : Solution α}
    (hlength : solution.assignment.length = space.length)
    (hlength' : solution'.assignment.length = space.length)
    (hpayoff : solution'.payoff = solution.payoff)
    (hvalues : ∀ key, valuation solution'.assignment key = valuation solution.assignment key) :
    solution' = solution := by
  obtain ⟨full, payoff⟩ := solution
  obtain ⟨full', payoff'⟩ := solution'
  have hfull : full' = full :=
    calc
      full' = space.tabulate (valuation full') := (Space.tabulate_valuation hlength').symm
      _ = space.tabulate (valuation full) := congrArg space.tabulate (funext hvalues)
      _ = full := Space.tabulate_valuation hlength
  rw [hfull, show payoff' = payoff from hpayoff]

/-- A full assignment with its score, such that no full assignment scores higher. -/
structure Optimal (space : Space) (rules : List (Rule Rat)) (solution : Solution Rat) : Prop where
  admits : space.Admits solution.assignment
  score : score? rules solution.assignment = some solution.payoff
  greatest : ∀ full, space.Admits full →
    ∃ payoff, score? rules full = some payoff ∧ payoff ≤ solution.payoff

theorem optimal_tabulate {space : Space} {rules : List (Rule Rat)} (h : OverSpace space rules)
    {y : Valuation} (hy : space.Respects y)
    (hgreatest : ∀ z, space.Respects z → objective rules z ≤ objective rules y) :
    Optimal space rules ⟨space.tabulate y, objective rules y⟩ where
  admits := hy.admits_tabulate
  score := score?_tabulate h y
  greatest _ hfull :=
    ⟨_, score?_eq h hfull.length_eq, hgreatest _ (Space.admits_iff.1 hfull).2⟩

end JointDecision

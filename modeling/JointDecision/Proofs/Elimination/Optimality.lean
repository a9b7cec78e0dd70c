import JointDecision.Proofs.Elimination.Outcome
import JointDecision.Proofs.Problem

/-! # Elimination is exact

Without rounding, elimination finds a full assignment of highest score in every problem without
tags, given as rules or as a graph. Of several it finds the least when variables count by the time
of their removal, the last removed most. -/

namespace JointDecision

open FactorGraph

namespace FactorGraph

theorem foldl_concat {α : Type} (rules start : List (Rule α)) :
    rules.foldl (fun data rule => data ++ [rule]) start = start ++ rules := by
  induction rules generalizing start with
  | nil => simp
  | cons rule rules ih => rw [List.foldl_cons, ih, List.append_assoc, List.singleton_append]

variable {α : Type} {space : Space} {rules : List (Rule α)} {graph : FactorGraph (List (Rule α))}

theorem Filed.data_eq (h : Filed space (fun rule data => data ++ [rule]) rules graph)
    {handle : Handle} {factor : Factor (List (Rule α))}
    (hfactor : graph.factor? handle = some factor) : factor.data = rulesOver rules factor.scope := by
  rw [h.data hfactor, foldl_concat]
  rfl

theorem Filed.fits (h : Filed space (fun rule data => data ++ [rule]) rules graph)
    (hrules : ∀ rule ∈ rules, rule.assignment.Over space) : graph.Fits space := by
  rintro ⟨handle, factor⟩ hentry rule hrule entry hin
  rw [h.data_eq (mem_factors.1 hentry)] at hrule
  obtain ⟨hrule, hscope⟩ := List.mem_filter.1 hrule
  have hscope : rule.assignment.scope = factor.scope := by simpa using hscope
  refine ⟨?_, (hrules rule hrule).value_lt entry hin⟩
  rw [← hscope]
  exact List.mem_map_of_mem hin

/-- The factors of the graph of a problem hold its rules, each once. -/
theorem Filed.rules_perm (h : Filed space (fun rule data => data ++ [rule]) rules graph) :
    graph.rules.Perm rules := by
  have hsame : graph.rules = graph.factors.flatMap fun entry => rulesOver rules entry.2.scope :=
    List.flatMap_congr fun entry hentry => h.data_eq (mem_factors.1 hentry)
  rw [hsame]
  exact h.perm.symm

end FactorGraph

namespace Elimination

theorem buildGraph_spec {α : Type} [Payoff α] {space : Space} (hspace : space.Inhabited)
    {rules : List (Rule α)} (hrules : checkRules space rules = .ok ()) :
    ∃ graph, buildGraph space rules = .ok graph ∧
      Filed space (fun rule data => data ++ [rule]) rules graph := by
  have hedit : ∀ rule ∈ rules, (fun rule : Rule α => some fun data : List (Rule α) =>
      data ++ [rule]) rule = some ((fun rule data => data ++ [rule]) rule) := fun _ _ => rfl
  exact ofRules_spec hspace hrules hedit

variable {space : Space} {rules : List (Rule Rat)} {graph : FactorGraph (List (Rule Rat))}

theorem LeastBest.perm {others : List (Rule Rat)} {removed : List Nat} {y : Valuation}
    (hperm : rules.Perm others) (h : LeastBest space rules removed y) :
    LeastBest space others removed y := by
  have hsame : ∀ x, objective others x = objective rules x :=
    fun x => (objective_perm hperm x).symm
  refine ⟨h.respects, fun z hz => ?_, fun z hz hequal => h.least z hz ?_⟩
  · rw [hsame, hsame]
    exact h.greatest z hz
  · rwa [hsame, hsame] at hequal

theorem solveGraph_spec (hspace : space.Inhabited) (order : Order)
    (hgraph : Reachable space.length graph) (hfits : graph.Fits space)
    (htags : ∀ rule ∈ graph.rules, rule.tags = []) :
    ∃ final y, eliminateAll? space order graph = some final ∧
      solveGraph order space graph =
        .ok (⟨space.tabulate y, objective graph.rules y⟩, .ofSteps final.steps) ∧
      LeastBest space graph.rules final.removed y ∧
      final.removed.Perm graph.liveVariables ∧
      (order = .lastFirst → final.removed = graph.liveVariables.reverse) := by
  obtain ⟨final, y, hrun, hassemble, hbest, hperm, hlast⟩ :=
    eliminateAll?_spec hspace order hgraph.sound hgraph.varCount_eq hfits htags
  refine ⟨final, y, hrun, ?_, hbest, hperm, hlast⟩
  rw [solveGraph_eq hspace hgraph.varCount_eq hrun, hassemble]
  rfl

theorem solve_spec (hspace : space.Inhabited) (order : Order)
    (hrules : checkRules space rules = .ok ()) (htags : ∀ rule ∈ rules, rule.tags = []) :
    ∃ graph final y, buildGraph space rules = .ok graph ∧
      eliminateAll? space order graph = some final ∧
      solve order space rules =
        .ok (⟨space.tabulate y, objective rules y⟩, .ofSteps final.steps) ∧
      LeastBest space rules final.removed y ∧
      final.removed.Perm (List.range space.length) ∧
      (order = .lastFirst → final.removed = (List.range space.length).reverse) := by
  obtain ⟨graph, hgraph, hfiled⟩ := buildGraph_spec hspace hrules
  have hperm := hfiled.rules_perm
  obtain ⟨final, y, hrun, hsolve, hbest, hremoved, hlast⟩ :=
    solveGraph_spec hspace order hfiled.reachable (hfiled.fits (over_of_checkRules hrules))
      fun rule hrule => htags rule (hperm.mem_iff.1 hrule)
  rw [hfiled.liveVariables_eq] at hremoved hlast
  refine ⟨graph, final, y, hgraph, hrun, ?_, hbest.perm hperm, hremoved, hlast⟩
  rw [objective_perm hperm] at hsolve
  rw [solve, hgraph]
  exact hsolve

theorem overSpace_of_fits {α : Type} {graph : FactorGraph (List (Rule α))} (hsound : graph.Sound)
    (hcount : graph.varCount = space.length) (hfits : graph.Fits space) :
    OverSpace space graph.rules := by
  intro rule hrule entry hentry
  obtain ⟨handle, factor, hfactor, hin⟩ := mem_rules.1 hrule
  have hkey := (hfits _ (mem_factors.2 hfactor) rule hin entry hentry).1
  exact hcount ▸ ((hsound.scope hfactor).2 _ hkey).1

/-- Elimination solves every accepted problem without tags, and finds a full assignment of highest
score. -/
theorem elimination_exact (hspace : space.Inhabited) (order : Order) :
    (∀ rules : List (Rule Rat), checkRules space rules = .ok () →
      (∀ rule ∈ rules, rule.tags = []) →
      ∃ solution report, solve order space rules = .ok (solution, report) ∧
        Optimal space rules solution) ∧
    (∀ graph : FactorGraph (List (Rule Rat)), Reachable space.length graph →
      graph.Fits space → (∀ rule ∈ graph.rules, rule.tags = []) →
      ∃ solution report, solveGraph order space graph = .ok (solution, report) ∧
        Optimal space graph.rules solution) := by
  constructor
  · intro rules hrules htags
    obtain ⟨-, final, y, -, -, hsolve, hbest, -⟩ := solve_spec hspace order hrules htags
    exact ⟨_, _, hsolve,
      optimal_tabulate (overSpace_of_checkRules hrules) hbest.respects hbest.greatest⟩
  · intro graph hgraph hfits htags
    obtain ⟨final, y, -, hsolve, hbest, -⟩ := solveGraph_spec hspace order hgraph hfits htags
    have hover := overSpace_of_fits hgraph.sound hgraph.varCount_eq hfits
    exact ⟨_, _, hsolve, optimal_tabulate hover hbest.respects hbest.greatest⟩

def pairRules : List (Rule Rat) :=
  [⟨⟨[(0, 1)], by simp⟩, 1, []⟩, ⟨⟨[(0, 1), (1, 1)], by simp⟩, 2, []⟩]

def pairScope : Scope := ⟨[0, 1], by simp⟩

def pairGraph : FactorGraph (List (Rule Rat)) :=
  ((FactorGraph.new 3).create pairScope).2.modifyData ⟨0, 3⟩ (· ++ pairRules)

private theorem pairGraph_factors : pairGraph.factors = [(⟨0, 3⟩, ⟨pairScope, 0, pairRules⟩)] := rfl

private theorem reachable_pairGraph : Reachable 3 pairGraph := by
  have hensure : (FactorGraph.new 3 : FactorGraph (List (Rule Rat))).ensure? pairScope =
      some ((FactorGraph.new 3).create pairScope) := rfl
  refine .modifyData _ _ (.ensure .new ⟨by decide, fun key hkey => ?_⟩ hensure)
  obtain rfl | rfl : key = 0 ∨ key = 1 := by simpa [pairScope] using hkey
  · exact ⟨by decide, rfl⟩
  · exact ⟨by decide, rfl⟩

private theorem fits_pairGraph : pairGraph.Fits [2, 3, 2] := by
  intro entry hentry
  rw [pairGraph_factors, List.mem_singleton] at hentry
  subst hentry
  have hwithin : ∀ rule ∈ pairRules, ∀ entry ∈ rule.assignment.entries,
      entry.1 ∈ pairScope.keys ∧ entry.2 < Space.domain [2, 3, 2] entry.1 := by decide
  exact hwithin

theorem elimination_exact_pair :
    (∃ solution report, solve .minDegree [2, 3, 2] pairRules = .ok (solution, report) ∧
      Optimal [2, 3, 2] pairRules solution) ∧
    (∃ solution report, solveGraph .minDegree [2, 3, 2] pairGraph = .ok (solution, report) ∧
      Optimal [2, 3, 2] pairGraph.rules solution) := by
  have hexact := @elimination_exact [2, 3, 2] (by decide) .minDegree
  have htags : ∀ rule ∈ pairRules, rule.tags = [] := by decide
  refine ⟨hexact.1 pairRules rfl htags, hexact.2 pairGraph reachable_pairGraph fits_pairGraph ?_⟩
  rw [FactorGraph.rules, pairGraph_factors]
  simpa using htags

/-- Of the full assignments with the score of a solution, its own is the least when the variables
are compared in the order of `keys`. -/
def Least (space : Space) (rules : List (Rule Rat)) (keys : List Nat) (solution : Solution Rat) :
    Prop :=
  ∀ full, space.Admits full → score? rules full = some solution.payoff →
    keys.map (valuation solution.assignment) ≤ keys.map (valuation full)

def worth (rules : List (Rule Rat)) (a : Assignment) : Rat :=
  ((rules.filter fun rule => rule.assignment = a).map Rule.payoff).sum

private theorem objective_eq_sum_worth {assignments : List Assignment} (hnodup : assignments.Nodup)
    (h : ∀ rule ∈ rules, rule.assignment ∈ assignments) (x : Valuation) :
    objective rules x =
      (assignments.map fun a => if a.holds x then worth rules a else 0).sum := by
  rw [objective_perm (perm_sorted Rule.assignment hnodup h)]
  clear hnodup h
  induction assignments with
  | nil => rfl
  | cons a assignments ih =>
    rw [List.flatMap_cons, objective_append, ih, List.map_cons, List.sum_cons]
    congr 1
    have hsame : earned (rules.filter fun rule => rule.assignment = a) x =
        if a.holds x then rules.filter fun rule => rule.assignment = a else [] := by
      rw [earned, List.filter_filter]
      split
      · rename_i hholds
        refine List.filter_congr fun rule _ => ?_
        by_cases heq : rule.assignment = a
        · simp [heq, hholds]
        · simp [heq]
      · rename_i hholds
        refine List.filter_eq_nil_iff.2 fun rule _ => ?_
        by_cases heq : rule.assignment = a
        · simp [heq, hholds]
        · simp [heq]
    rw [objective, hsame, worth]
    split
    · rfl
    · rfl

/-- Rules that give every assignment the same total have the same objective. -/
theorem objective_eq_of_worth {others : List (Rule Rat)} (h : ∀ a, worth others a = worth rules a)
    (x : Valuation) : objective others x = objective rules x := by
  have hmem : ∀ rule ∈ rules ++ others,
      rule.assignment ∈ ((rules ++ others).map Rule.assignment).dedup :=
    fun rule hrule => List.mem_dedup.2 (List.mem_map_of_mem hrule)
  have hnodup := List.nodup_dedup ((rules ++ others).map Rule.assignment)
  rw [objective_eq_sum_worth hnodup fun rule hrule => hmem rule (List.mem_append_left _ hrule),
    objective_eq_sum_worth hnodup fun rule hrule => hmem rule (List.mem_append_right _ hrule)]
  simp only [h]

private theorem LeastBest.least_solution {removed : List Nat} {y : Valuation}
    (hover : OverSpace space rules) (hremoved : ∀ key ∈ removed, key < space.length)
    (h : LeastBest space rules removed y) :
    Least space rules removed.reverse ⟨space.tabulate y, objective rules y⟩ := by
  intro full hfull hscore
  rw [score?_eq hover hfull.length_eq] at hscore
  have hread : removed.reverse.map (valuation (space.tabulate y)) = removed.reverse.map y :=
    List.map_congr_left fun key hkey =>
      Space.valuation_tabulate (hremoved key (List.mem_reverse.1 hkey))
  rw [hread]
  exact h.least _ (Space.admits_iff.1 hfull).2 (Option.some.inj hscore)

/-- With the highest variable first, problems with the same objective have the same solution. -/
theorem LeastBest.eq_of_objective_eq {others : List (Rule Rat)} {removed : List Nat}
    {y z : Valuation} (hremoved : removed = (List.range space.length).reverse)
    (hy : LeastBest space rules removed y) (hz : LeastBest space others removed z)
    (hsame : ∀ x, space.Respects x → objective others x = objective rules x) :
    (⟨space.tabulate y, objective rules y⟩ : Solution Rat) =
      ⟨space.tabulate z, objective others z⟩ := by
  have hequal : objective rules y = objective others z := by
    refine le_antisymm ?_ ?_
    · rw [← hsame y hy.respects]
      exact hz.greatest y hy.respects
    · rw [hsame z hz.respects]
      exact hy.greatest z hz.respects
  have hforth := hy.least z hz.respects (by rw [← hsame z hz.respects, hequal])
  have hback := hz.least y hy.respects (by rw [hsame y hy.respects, hequal])
  rw [hremoved, List.reverse_reverse] at hforth hback
  have htabulate : space.tabulate y = space.tabulate z := le_antisymm hforth hback
  rw [htabulate, hequal]

theorem solve_lastFirst_congr {others : List (Rule Rat)} (hspace : space.Inhabited)
    (hrules : checkRules space rules = .ok ()) (htags : ∀ rule ∈ rules, rule.tags = [])
    (hothers : checkRules space others = .ok ()) (hclean : ∀ rule ∈ others, rule.tags = [])
    (hsame : ∀ x, space.Respects x → objective others x = objective rules x) :
    (solve .lastFirst space others).map Prod.fst = (solve .lastFirst space rules).map Prod.fst := by
  obtain ⟨-, final, y, -, -, hsolve, hy, -, hlast⟩ := solve_spec hspace .lastFirst hrules htags
  obtain ⟨-, last, z, -, -, hfound, hz, -, hsecond⟩ := solve_spec hspace .lastFirst hothers hclean
  rw [hsecond rfl, ← hlast rfl] at hz
  rw [hsolve, hfound, Except.map, Except.map, hy.eq_of_objective_eq (hlast rfl) hz hsame]

/-- Elimination returns the least of the best full assignments, the variable removed last counting
most. With the highest variable first this is the least in the order of the variables, and rules
matter only through the objective they add up to. -/
theorem elimination_returns_least (hspace : space.Inhabited)
    (hrules : checkRules space rules = .ok ()) (htags : ∀ rule ∈ rules, rule.tags = []) :
    (∀ order, ∃ graph final solution, buildGraph space rules = .ok graph ∧
      eliminateAll? space order graph = some final ∧
      solve order space rules = .ok (solution, .ofSteps final.steps) ∧
      final.removed.Perm (List.range space.length) ∧ Optimal space rules solution ∧
      Least space rules final.removed.reverse solution ∧
      (order = .lastFirst → ∀ full, space.Admits full →
        score? rules full = some solution.payoff → solution.assignment ≤ full)) ∧
    (∀ others, checkRules space others = .ok () → (∀ rule ∈ others, rule.tags = []) →
      (∀ full, space.Admits full → score? others full = score? rules full) →
      (solve .lastFirst space others).map Prod.fst =
        (solve .lastFirst space rules).map Prod.fst) ∧
    (∀ others, rules.Perm others →
      (solve .lastFirst space others).map Prod.fst =
        (solve .lastFirst space rules).map Prod.fst) ∧
    (∀ others, checkRules space others = .ok () → (∀ rule ∈ others, rule.tags = []) →
      (∀ a, worth others a = worth rules a) →
      (solve .lastFirst space others).map Prod.fst =
        (solve .lastFirst space rules).map Prod.fst) := by
  have hover := overSpace_of_checkRules hrules
  refine ⟨?_, ?_, ?_, ?_⟩
  · intro order
    obtain ⟨graph, final, y, hgraph, hrun, hsolve, hbest, hperm, hlast⟩ :=
      solve_spec hspace order hrules htags
    have hleast := hbest.least_solution hover fun key hkey =>
      List.mem_range.1 (hperm.mem_iff.1 hkey)
    refine ⟨graph, final, _, hgraph, hrun, hsolve, hperm,
      optimal_tabulate hover hbest.respects hbest.greatest, hleast, ?_⟩
    rintro rfl full hfull hscore
    have hle := hleast full hfull hscore
    rw [hlast rfl, List.reverse_reverse] at hle
    have hfirst : space.tabulate (valuation (space.tabulate y)) = space.tabulate y :=
      Space.tabulate_valuation hbest.respects.admits_tabulate.length_eq
    have hsecond : space.tabulate (valuation full) = full :=
      Space.tabulate_valuation hfull.length_eq
    rwa [← Space.tabulate, ← Space.tabulate, hfirst, hsecond] at hle
  · intro others hothers hclean hscores
    refine solve_lastFirst_congr hspace hrules htags hothers hclean fun x hx => ?_
    have hscore := hscores _ hx.admits_tabulate
    rw [score?_tabulate hover, score?_tabulate (overSpace_of_checkRules hothers)] at hscore
    exact Option.some.inj hscore
  · intro others hperm
    have hothers : checkRules space others = .ok () := checkRules_eq_ok_iff.2 fun rule hrule =>
      checkRules_eq_ok_iff.1 hrules rule (hperm.mem_iff.2 hrule)
    exact solve_lastFirst_congr hspace hrules htags hothers
      (fun rule hrule => htags rule (hperm.mem_iff.2 hrule))
      fun x _ => objective_perm hperm.symm x
  · intro others hothers hclean hworth
    exact solve_lastFirst_congr hspace hrules htags hothers hclean
      fun x _ => objective_eq_of_worth hworth x

/-- No rule looks at the last variable, and the solution gives it its first value. -/
theorem elimination_returns_least_pair :
    (∃ solution report, solve .lastFirst [2, 3, 2] pairRules = .ok (solution, report) ∧
      ∀ full, Space.Admits [2, 3, 2] full → score? pairRules full = some solution.payoff →
        solution.assignment ≤ full) ∧
    (solve .lastFirst [2, 3, 2] pairRules.reverse).map Prod.fst =
      (solve .lastFirst [2, 3, 2] pairRules).map Prod.fst := by
  obtain ⟨hleast, -, hperm, -⟩ :=
    @elimination_returns_least [2, 3, 2] pairRules (by decide) rfl (by decide)
  obtain ⟨-, final, solution, -, -, hsolve, -, -, -, hlast⟩ := hleast .lastFirst
  exact ⟨⟨solution, _, hsolve, hlast rfl⟩, hperm _ (List.reverse_perm _).symm⟩

end Elimination

end JointDecision

import JointDecision.Proofs.Elimination.Optimality

/-! # Elimination goes through

Whatever the payoffs and the tags are, a run over rules that fit the space goes through. The tags it
ends with are tags of the rules that it began with, or choices of its own, which are in the domains.
-/

namespace JointDecision.Elimination

open FactorGraph

variable {α : Type} [Payoff α] {space : Space} {P : Nat × Nat → Prop}

def OfChoices (space : Space) (P : Nat × Nat → Prop) : Prop :=
  ∀ key < space.length, ∀ choice < space.domain key, P (key, choice)

/-- What holds between the steps of a run whose tags have a property. -/
structure Run.Safe (space : Space) (P : Nat × Nat → Prop) (run : Run α) : Prop where
  intact : run.Intact space
  tags : ∀ rule ∈ run.rules, ∀ tag ∈ rule.tags, P tag

theorem eliminate?_safe (hspace : space.Inhabited) (hown : OfChoices space P) {run : Run α}
    (hrun : run.Safe space P) {key : Nat} (hkey : key < space.length) :
    ∃ after, run.eliminate? space key = some after ∧ after.Safe space P ∧
      after.graph.liveVariables = run.graph.liveVariables.erase key ∧
      after.removed = run.removed ++ [key] := by
  obtain ⟨hintact, htags⟩ := hrun
  obtain ⟨after, heliminate, hafter, hlive, hremoved, hcases⟩ :=
    eliminate?_cases hspace hintact hkey
  refine ⟨after, heliminate, ⟨hafter, ?_⟩, ?_, hremoved⟩
  · intro rule hrule tag htag
    obtain ⟨-, -, -, hsame⟩ |
      ⟨_, _, _, groups, _, _, _, -, -, hresponds, -, -, hbefore, hbehind⟩ := hcases
    · exact htags rule (hsame.mem_iff.1 hrule) tag htag
    · rcases List.mem_append.1 (hbehind.mem_iff.1 hrule) with hnew | hold
      · obtain ⟨x, choice, hchoice, heq⟩ := hresponds.chosen rule hnew
        rw [heq] at htag
        rcases List.mem_append.1 htag with htag | htag
        · obtain ⟨earlier, hearlier, htag⟩ := List.mem_flatMap.1 htag
          have hwas := hbefore.mem_iff.2 (List.mem_append_left _ (List.mem_filter.1 hearlier).1)
          exact htags earlier hwas tag htag
        · rw [List.mem_singleton.1 htag]
          exact hown key hkey choice hchoice
      · exact htags rule (hbefore.mem_iff.2 (List.mem_append_right _ hold)) tag htag
  · exact liveVariables_erase (hafter.varCount.trans hintact.varCount.symm) fun other hother =>
      hlive other (hintact.varCount ▸ hother)

theorem Run.Safe.steps (hspace : space.Inhabited) (hown : OfChoices space P) :
    StepsKeep space fun run : Run α => run.Safe space P :=
  fun hrun hkey => eliminate?_safe hspace hown hrun
    (hrun.intact.varCount ▸ (mem_liveVariables.1 hkey).1)

theorem solve_of_rejected {rules : List (Rule α)} {failure : Failure}
    (h : (space.validate >>= fun _ => checkRules space rules) = .error failure) (order : Order) :
    solve order space rules = .error failure := by
  rw [solve, buildGraph, ofRules_of_rejected h]
  rfl

theorem accepted_of_solve {rules : List (Rule α)} {order : Order} {outcome : Solution α × Report}
    (h : solve order space rules = .ok outcome) :
    space.Inhabited ∧ checkRules space rules = .ok () := by
  cases haccept : (space.validate >>= fun _ => checkRules space rules) with
  | error failure =>
    rw [solve_of_rejected haccept] at h
    cases h
  | ok _ => exact accepted_of_ok haccept

/-- Solving accepted rules fails at most when the tags that are left are written. -/
theorem solve_of_accepted (hspace : space.Inhabited) (hown : OfChoices space P) (order : Order)
    {rules : List (Rule α)} (hrules : checkRules space rules = .ok ())
    (htags : ∀ rule ∈ rules, ∀ tag ∈ rule.tags, P tag) :
    ∃ graph final, file? (fun rule => some (· ++ [rule])) rules (.new space.length) = some graph ∧
      eliminateAll? space order graph = some final ∧
      (∀ tag ∈ final.finals.flatMap Rule.tags, P tag) ∧
      solve order space rules = (Failure.unlessOutOfBounds (assemble? space final.finals)).map
        fun solution => (solution, Report.ofSteps final.steps) := by
  have hover := over_of_checkRules hrules
  obtain ⟨graph, hgraph, hfiled⟩ := file?_spec (filed_new space fun rule data => data ++ [rule])
    hover fun rule _ => rfl
  rw [List.nil_append] at hfiled
  have hcount := hfiled.reachable.varCount_eq
  have hsafe : (Run.start graph).Safe space P := by
    refine ⟨intact_start hfiled.reachable.sound hcount (hfiled.fits hover), ?_⟩
    intro rule hrule
    exact htags rule (hfiled.rules_perm.mem_iff.1 hrule)
  obtain ⟨final, hfinal, hdone, -⟩ :=
    eliminateAll?_of_steps (Run.Safe.steps hspace hown) order hsafe
  refine ⟨graph, final, hgraph, hfinal, ?_, ?_⟩
  · intro tag htag
    obtain ⟨rule, hrule, htag⟩ := List.mem_flatMap.1 htag
    exact hdone.tags rule (List.mem_append_left _ hrule) tag htag
  · have hbuild : buildGraph space rules = .ok graph := by
      rw [buildGraph, ofRules_eq hspace hrules, hgraph]
      rfl
    rw [solve, hbuild]
    exact solveGraph_eq hspace hcount hfinal

theorem run_of_solve {rules : List (Rule α)} {order : Order} {solution : Solution α}
    {report : Report} (h : solve order space rules = .ok (solution, report)) :
    ∃ graph final, file? (fun rule => some (· ++ [rule])) rules (.new space.length) = some graph ∧
      eliminateAll? space order graph = some final ∧
      assemble? space final.finals = some solution ∧ report = Report.ofSteps final.steps := by
  obtain ⟨hspace, hrules⟩ := accepted_of_solve h
  have hown : OfChoices space fun _ => True := fun _ _ _ _ => trivial
  obtain ⟨graph, final, hgraph, hfinal, -, hsolve⟩ :=
    solve_of_accepted hspace hown order hrules fun _ _ _ _ => trivial
  refine ⟨graph, final, hgraph, hfinal, ?_⟩
  rw [hsolve] at h
  cases hfound : assemble? space final.finals with
  | none =>
    rw [hfound] at h
    cases h
  | some found =>
    rw [hfound] at h
    cases h
    exact ⟨rfl, rfl⟩

theorem report_of_solve {rules : List (Rule α)} {graph : FactorGraph (List (Rule α))}
    {order : Order} {final : Run α} (hgraph : buildGraph space rules = .ok graph)
    (hrun : eliminateAll? space order graph = some final) {solution : Solution α} {report : Report}
    (h : solve order space rules = .ok (solution, report)) :
    report = .ofSteps final.steps := by
  obtain ⟨hspace, hrules⟩ := accepted_of_solve h
  obtain ⟨found, last, hfound, hlast, -, hreport⟩ := run_of_solve h
  rw [buildGraph, ofRules_eq hspace hrules, hfound] at hgraph
  cases hgraph
  obtain rfl := Option.some.inj (hlast.symm.trans hrun)
  exact hreport

theorem length_of_solve {rules : List (Rule α)} {order : Order} {solution : Solution α}
    {report : Report} (h : solve order space rules = .ok (solution, report)) :
    solution.assignment.length = space.length := by
  obtain ⟨_, _, -, -, hsolution, -⟩ := run_of_solve h
  exact (assemble?_spec hsolution).1

/-- Accepted rules are not refused for anything else than an index. -/
theorem eq_outOfBounds_of_solve (hspace : space.Inhabited) {rules : List (Rule α)}
    (hrules : checkRules space rules = .ok ()) {order : Order} {failure : Failure}
    (h : solve order space rules = .error failure) : failure = .outOfBounds := by
  have hown : OfChoices space fun _ => True := fun _ _ _ _ => trivial
  obtain ⟨_, final, -, -, -, hsolve⟩ :=
    solve_of_accepted hspace hown order hrules fun _ _ _ _ => trivial
  rw [hsolve] at h
  cases hfound : assemble? space final.finals with
  | none =>
    rw [hfound] at h
    exact (Except.error.inj h).symm
  | some found =>
    rw [hfound] at h
    cases h

/-- As long as tags name variables, accepted rules are solved. -/
theorem solve_of_range (hspace : space.Inhabited) (order : Order) {rules : List (Rule α)}
    (hrules : checkRules space rules = .ok ())
    (htags : ∀ rule ∈ rules, ∀ tag ∈ rule.tags, tag.1 < space.length) :
    ∃ solution report, solve order space rules = .ok (solution, report) := by
  have hown : OfChoices space fun tag => tag.1 < space.length := fun _ hkey _ _ => hkey
  obtain ⟨graph, final, -, -, hfinals, hsolve⟩ := solve_of_accepted hspace hown order hrules htags
  obtain ⟨solution, hsolution⟩ := exists_assemble? hfinals
  exact ⟨solution, _, by rw [hsolve, hsolution]; rfl⟩

theorem solve_of_domains (hspace : space.Inhabited) (order : Order) {rules : List (Rule α)}
    (hrules : checkRules space rules = .ok ())
    (htags : ∀ rule ∈ rules, ∀ tag ∈ rule.tags, tag.1 < space.length ∧ tag.2 < space.domain tag.1) :
    ∃ solution report, solve order space rules = .ok (solution, report) ∧
      space.Admits solution.assignment := by
  have hown : OfChoices space fun tag => tag.1 < space.length ∧ tag.2 < space.domain tag.1 :=
    fun _ hkey _ hchoice => ⟨hkey, hchoice⟩
  obtain ⟨graph, final, -, -, hfinals, hsolve⟩ := solve_of_accepted hspace hown order hrules htags
  obtain ⟨solution, hsolution⟩ := exists_assemble? fun tag htag => (hfinals tag htag).1
  obtain ⟨hlength, -, hread⟩ := assemble?_spec hsolution
  refine ⟨solution, _, by rw [hsolve, hsolution]; rfl, Space.admits_iff.2 ⟨hlength, ?_⟩⟩
  intro key hkey
  rw [hread]
  cases hlast : lastChoice (final.finals.flatMap Rule.tags) key with
  | none => exact hspace.domain_pos hkey
  | some choice => exact (hfinals _ (mem_of_lastChoice hlast)).2

end JointDecision.Elimination

import JointDecision.Proofs.Elimination.Alike
import Mathlib

/-! # Tags of the rules of a problem

A run looks at no tag until it is over; it only puts the tags of rules together. The tag of a rule
for a variable that the rule mentions is overwritten, since the variable is eliminated only after
the rule was consumed. Any other tag may overwrite the choice that was made. -/

namespace JointDecision.Elimination

open FactorGraph

variable {α : Type} {foreign : Nat → Prop}

def DifferInTags (rule other : Rule α) : Prop :=
  other.assignment = rule.assignment ∧ other.payoff = rule.payoff

theorem DifferInTags.symm {rule other : Rule α} (h : DifferInTags rule other) :
    DifferInTags other rule :=
  ⟨h.1.symm, h.2.symm⟩

/-- Whether one of the rules has a tag for a variable that it does not mention. -/
def TagsForeign (rules : List (Rule α)) (key : Nat) : Prop :=
  ∃ rule ∈ rules, key ∈ rule.tags.map Prod.fst ∧ key ∉ rule.assignment.keys

private theorem ruleAlike_of_differ (space : Space) {rules : List (Rule α)} {rule other : Rule α}
    (h : DifferInTags rule other) (hrule : rule ∈ rules) (hother : other ∈ rules) :
    RuleAlike space (TagsForeign rules) rule.assignment.scope rule other := by
  have hnone : ∀ held ∈ rules, held.assignment = rule.assignment → ∀ key,
      key ∉ rule.assignment.scope.keys → ¬TagsForeign rules key →
        lastChoice held.tags key = none := by
    intro held hheld heq key hkey hown
    refine lastChoice_eq_none_iff.2 fun hin => hown ⟨held, hheld, hin, ?_⟩
    rw [heq]
    exact hkey
  refine ⟨by rw [h.1], h.2, fun key hkey hown => ?_⟩
  rw [hnone rule hrule rfl key hkey hown, hnone other hother h.1 key hkey hown]

theorem checkRules_congr {rules others : List (Rule α)} (h : List.Forall₂ DifferInTags rules others)
    (space : Space) : checkRules space others = checkRules space rules := by
  induction h with
  | nil => rfl
  | cons hdiffer _ ih => rw [checkRules, checkRules, hdiffer.1, ih]

private theorem fileRules_alike {space : Space} {rules others : List (Rule α)}
    (h : List.Forall₂ (fun rule other => other.assignment = rule.assignment ∧
      RuleAlike space foreign rule.assignment.scope rule other) rules others)
    (hrules : ∀ rule ∈ rules, rule.assignment.Over space) {filed : List (Rule α)}
    {graph other : FactorGraph (List (Rule α))}
    (hfiled : Filed space (fun rule data => data ++ [rule]) filed graph)
    (halike : graph.Alike (RulesAlike space foreign) other) :
    Option.Rel (Alike (RulesAlike space foreign))
      (FactorGraph.file? (fun rule => some (· ++ [rule])) rules graph)
      (FactorGraph.file? (fun rule => some (· ++ [rule])) others other) := by
  induction h generalizing filed graph other with
  | nil => exact .some halike
  | @cons rule rule' _ _ hpair _ ih =>
    obtain ⟨hassignment, hrule⟩ := hpair
    have hover := hrules rule List.mem_cons_self
    have hasked := hover.asked hfiled.reachable.varCount_eq hfiled.live
    have hsound := hfiled.reachable.sound
    obtain ⟨handle, middle, hensure, hmiddle⟩ := hfiled.file hover
    obtain ⟨held, after, after', hensure', hother, hafter⟩ :=
      halike.ensure? hsound hasked .nil
    obtain ⟨rfl, rfl⟩ := Prod.mk.inj (Option.some.inj (hensure.symm.trans hensure'))
    obtain ⟨factor, hfactor, hscope, -⟩ := hsound.factor?_ensure? hasked hensure
    have hedited : (middle.modifyData handle (· ++ [rule])).Alike (RulesAlike space foreign)
        (after'.modifyData handle (· ++ [rule'])) := by
      refine hafter.modifyData fun found hfound data data' hdata => ?_
      obtain rfl := Option.some.inj (hfactor.symm.trans hfound)
      exact hdata.append (.cons (hscope ▸ hrule) .nil)
    simp only [FactorGraph.file?, hassignment, hensure, hother, Option.bind_eq_bind,
      Option.bind_some]
    exact ih (fun other hother => hrules other (List.mem_cons_of_mem _ hother)) hmiddle hedited

section Problems

variable [Payoff α] {space : Space} {rules others : List (Rule α)}

theorem runs_alike (hspace : space.Inhabited) (order : Order)
    (h : List.Forall₂ DifferInTags rules others) (hrules : checkRules space rules = .ok ())
    {graph graph' : FactorGraph (List (Rule α))} {final final' : Run α}
    (hgraph : FactorGraph.file? (fun rule => some (· ++ [rule])) rules (.new space.length) =
      some graph)
    (hgraph' : FactorGraph.file? (fun rule => some (· ++ [rule])) others (.new space.length) =
      some graph')
    (hfinal : eliminateAll? space order graph = some final)
    (hfinal' : eliminateAll? space order graph' = some final') :
    RunAlike space (TagsForeign (rules ++ others)) final final' := by
  have hover := over_of_checkRules hrules
  have halike : List.Forall₂ (fun rule other => other.assignment = rule.assignment ∧
      RuleAlike space (TagsForeign (rules ++ others)) rule.assignment.scope rule other) rules
        others := by
    refine List.forall₂_iff_get.2 ⟨h.length_eq, fun position hleft hright => ?_⟩
    have hdiffer := (List.forall₂_iff_get.1 h).2 position hleft hright
    exact ⟨hdiffer.1, ruleAlike_of_differ space hdiffer
      (List.mem_append_left _ (List.get_mem ..)) (List.mem_append_right _ (List.get_mem ..))⟩
  have hfiled := fileRules_alike halike hover (filed_new space _) (.new space.length)
  rw [hgraph, hgraph', Option.rel_some_some] at hfiled
  obtain ⟨found, hfound, hdone⟩ := file?_spec (filed_new space fun rule data => data ++ [rule])
    hover fun rule _ => rfl
  obtain rfl := Option.some.inj (hgraph.symm.trans hfound)
  rw [List.nil_append] at hdone
  have hintact := intact_start hdone.reachable.sound hdone.reachable.varCount_eq (hdone.fits hover)
  have hruns := eliminateAll?_alike hspace order hintact hfiled
  rw [hfinal, hfinal', Option.rel_some_some] at hruns
  exact hruns

theorem solve_alike (order : Order) (h : List.Forall₂ DifferInTags rules others)
    {solution solution' : Solution α} {report report' : Report}
    (hsolve : solve order space rules = .ok (solution, report))
    (hsolve' : solve order space others = .ok (solution', report')) :
    solution'.payoff = solution.payoff ∧ report' = report ∧
      ∀ key, ¬TagsForeign (rules ++ others) key →
        valuation solution'.assignment key = valuation solution.assignment key := by
  obtain ⟨hspace, hrules⟩ := accepted_of_solve hsolve
  obtain ⟨graph, final, hgraph, hfinal, hsolution, rfl⟩ := run_of_solve hsolve
  obtain ⟨graph', final', hgraph', hfinal', hsolution', rfl⟩ := run_of_solve hsolve'
  have halike := runs_alike hspace order h hrules hgraph hgraph' hfinal hfinal'
  obtain ⟨hpayoff, hvalues⟩ := assemble?_alike halike.finals hsolution hsolution'
  exact ⟨hpayoff, by rw [halike.steps], hvalues⟩

/-- A refusal, unless of an index, is over before any tag is looked at. -/
theorem refused_of_differ {order : Order} (h : List.Forall₂ DifferInTags rules others)
    {failure : Failure} (hfailure : failure ≠ .outOfBounds)
    (hsolve : solve order space rules = .error failure) :
    solve order space others = .error failure := by
  cases haccept : (space.validate >>= fun _ => checkRules space rules) with
  | error refusal =>
    have hothers := haccept
    rw [← checkRules_congr h space] at hothers
    rw [solve_of_rejected haccept] at hsolve
    rw [solve_of_rejected hothers, hsolve]
  | ok _ =>
    obtain ⟨hspace, hrules⟩ := accepted_of_ok haccept
    exact absurd (eq_outOfBounds_of_solve hspace hrules hsolve) hfailure

private theorem solve_of_own (hspace : space.Inhabited) (order : Order) {rules : List (Rule α)}
    (hrules : checkRules space rules = .ok ()) (hown : ∀ key, ¬TagsForeign rules key) :
    ∃ solution report, solve order space rules = .ok (solution, report) := by
  refine solve_of_range hspace order hrules fun rule hrule tag htag => ?_
  have hkey : tag.1 ∈ rule.assignment.keys := by
    by_contra hout
    exact hown tag.1 ⟨rule, hrule, List.mem_map_of_mem htag, hout⟩
  exact (over_of_checkRules hrules rule hrule).keys_lt _ hkey

/-- Without foreign tags the outcomes are one. -/
theorem solve_eq_of_own (order : Order) (h : List.Forall₂ DifferInTags rules others)
    (hown : ∀ key, ¬TagsForeign (rules ++ others) key) :
    solve order space others = solve order space rules := by
  cases haccept : (space.validate >>= fun _ => checkRules space rules) with
  | error failure =>
    have hothers := haccept
    rw [← checkRules_congr h space] at hothers
    rw [solve_of_rejected haccept, solve_of_rejected hothers]
  | ok _ =>
    obtain ⟨hspace, hrules⟩ := accepted_of_ok haccept
    have hothers : checkRules space others = .ok () := (checkRules_congr h space).trans hrules
    obtain ⟨solution, report, hsolve⟩ := solve_of_own hspace order hrules
      fun key ⟨rule, hrule, hforeign⟩ => hown key ⟨rule, List.mem_append_left _ hrule, hforeign⟩
    obtain ⟨solution', report', hsolve'⟩ := solve_of_own hspace order hothers
      fun key ⟨rule, hrule, hforeign⟩ => hown key ⟨rule, List.mem_append_right _ hrule, hforeign⟩
    obtain ⟨hpayoff, hreport, hvalues⟩ := solve_alike order h hsolve hsolve'
    have hsame := Solution.eq_of_valuation (length_of_solve hsolve) (length_of_solve hsolve')
      hpayoff fun key => hvalues key (hown key)
    rw [hsolve, hsolve', hsame, hreport]

/-- What the tags of a problem can change. Problems that differ in their tags are rejected alike. If
both are solved, then with the same payoff in the same steps, and the solutions agree on every
variable that no rule has a tag for without mentioning it; where there is no such variable, the
outcomes are the same. And as long as every tag names a value of a variable, accepted rules are
solved by a full assignment. -/
theorem solve_differ_in_tags (order : Order) (h : List.Forall₂ DifferInTags rules others) :
    (∀ failure, failure ≠ .outOfBounds →
      (solve order space rules = .error failure ↔ solve order space others = .error failure)) ∧
    (∀ solution report solution' report', solve order space rules = .ok (solution, report) →
      solve order space others = .ok (solution', report') →
      solution'.payoff = solution.payoff ∧ report' = report ∧
        ∀ key, ¬TagsForeign (rules ++ others) key →
          valuation solution'.assignment key = valuation solution.assignment key) ∧
    ((∀ key, ¬TagsForeign (rules ++ others) key) →
      solve order space others = solve order space rules) ∧
    (space.Inhabited → checkRules space rules = .ok () →
      (∀ rule ∈ rules, ∀ tag ∈ rule.tags,
        tag.1 < space.length ∧ tag.2 < space.domain tag.1) →
      ∃ solution report, solve order space rules = .ok (solution, report) ∧
        space.Admits solution.assignment) := by
  have hflip : List.Forall₂ DifferInTags others rules := h.flip.imp fun _ _ => DifferInTags.symm
  exact ⟨fun _ hfailure => ⟨refused_of_differ h hfailure, refused_of_differ hflip hfailure⟩,
    fun _ _ _ _ => solve_alike order h, solve_eq_of_own order h,
    fun hspace hrules htags => solve_of_domains hspace order hrules htags⟩

end Problems

def taggedRules (tags : List (Nat × Nat)) : List (Rule Rat) :=
  [⟨⟨[(0, 0)], by simp⟩, 1, tags⟩, ⟨⟨[(1, 1)], by simp⟩, 5, []⟩]

/-- A tag of a rule for its own variable is overwritten. -/
theorem solve_differ_in_tags_own :
    List.Forall₂ DifferInTags (taggedRules []) (taggedRules [(0, 1)]) ∧
      Space.Inhabited [2, 2] ∧ checkRules [2, 2] (taggedRules [(0, 1)]) = .ok () ∧
      (∀ key, ¬TagsForeign (taggedRules [] ++ taggedRules [(0, 1)]) key) ∧
      solve .lastFirst [2, 2] (taggedRules [(0, 1)]) =
        solve .lastFirst [2, 2] (taggedRules []) ∧
      solve .lastFirst [2, 2] (taggedRules [(0, 1)]) = .ok (⟨[0, 1], 6⟩, ⟨2, 0, 1, 2⟩) := by
  have hdiffer : List.Forall₂ DifferInTags (taggedRules []) (taggedRules [(0, 1)]) :=
    .cons ⟨rfl, rfl⟩ (.cons ⟨rfl, rfl⟩ .nil)
  have hown : ∀ key, ¬TagsForeign (taggedRules [] ++ taggedRules [(0, 1)]) key := by
    rintro key ⟨rule, hrule, hin, hout⟩
    simp only [taggedRules, List.cons_append, List.nil_append, List.mem_cons, List.not_mem_nil,
      or_false] at hrule
    rcases hrule with rfl | rfl | rfl | rfl <;> simp_all [Assignment.keys]
  obtain ⟨-, -, hsame, -⟩ := @solve_differ_in_tags Rat _ [2, 2] _ _ .lastFirst hdiffer
  exact ⟨hdiffer, by decide, by cbv, hown, hsame hown, by cbv⟩

/-- A foreign tag that is accepted overwrites a choice: the solution scores less than its payoff,
leaves the domains, or cannot be written. -/
theorem solve_foreign_tag :
    List.Forall₂ DifferInTags (taggedRules []) (taggedRules [(1, 0)]) ∧
      checkRules [2, 2] (taggedRules [(1, 0)]) = .ok () ∧
      solve .lastFirst [2, 2] (taggedRules []) = .ok (⟨[0, 1], 6⟩, ⟨2, 0, 1, 2⟩) ∧
      solve .lastFirst [2, 2] (taggedRules [(1, 0)]) = .ok (⟨[0, 0], 6⟩, ⟨2, 0, 1, 2⟩) ∧
      score? (taggedRules [(1, 0)]) [0, 0] = some 1 ∧
      solve .lastFirst [2, 2] (taggedRules [(1, 7)]) = .ok (⟨[0, 7], 6⟩, ⟨2, 0, 1, 2⟩) ∧
      solve .lastFirst [2, 2] (taggedRules [(2, 0)]) = .error .outOfBounds := by
  refine ⟨.cons ⟨rfl, rfl⟩ (.cons ⟨rfl, rfl⟩ .nil), ?_⟩
  refine ⟨?_, ?_, ?_, ?_, ?_, ?_⟩ <;> cbv

end JointDecision.Elimination

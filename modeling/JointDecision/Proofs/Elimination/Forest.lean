import JointDecision.Proofs.Elimination.Provenance
import JointDecision.Proofs.FactorGraph.Incidence

/-! # Min-degree on forests

A variable with at most one neighbor leaves nothing to join when it goes, so eliminating it keeps a
forest a forest. A forest always has such a variable, and the narrowest one is no wider. So
min-degree takes a forest apart from its leaves, wherever the hubs are, and no order does it with
smaller cliques. -/

namespace JointDecision

variable {α : Type}

namespace PrimalGraph

private theorem toSimpleGraph_eliminate_le {graph : PrimalGraph} {key : Nat}
    (hleaf : (graph.near key).card ≤ 1) :
    (graph.eliminate key).toSimpleGraph ≤ graph.toSimpleGraph := by
  intro other third h
  obtain ⟨-, -, hne, hnear | ⟨hother, hthird⟩⟩ := mem_fill.1 h
  · exact hnear
  · exact absurd (Finset.card_le_one.1 hleaf third hthird other hother) hne

/-- What is joined after some eliminations is still there, and was joined to something before. -/
theorem remains_of_near_after {graph : PrimalGraph} (order : List Nat) {key other : Nat}
    (h : other ∈ (graph.after order).near key) :
    other ∉ order ∧ ∃ third, other ∈ graph.near third := by
  induction order using List.reverseRecOn generalizing key other with
  | nil => exact ⟨List.not_mem_nil, key, h⟩
  | append_singleton order last ih =>
    rw [after_concat] at h
    obtain ⟨-, hlast, -, hjoined⟩ := mem_fill.1 h
    have hbefore : other ∉ order ∧ ∃ third, other ∈ graph.near third := by
      rcases hjoined with hnear | ⟨-, hnear⟩
      · exact ih hnear
      · exact ih hnear
    rw [List.mem_append, List.mem_singleton, not_or]
    exact ⟨⟨hbefore.1, hlast⟩, hbefore.2⟩

private theorem exists_near_of_mem_removals {graph : PrimalGraph} {order : List Nat}
    {removal : Nat × Finset Nat} (h : removal ∈ graph.removals order) {key : Nat}
    (hkey : key ∈ removal.2) : ∃ other, key ∈ graph.near other := by
  induction order using List.reverseRecOn with
  | nil => cases h
  | append_singleton order last ih =>
    rw [removals_concat, List.mem_append, List.mem_singleton] at h
    rcases h with hbefore | rfl
    · exact ih hbefore
    · exact (remains_of_near_after order hkey).2

/-- An order that removes one of two joined variables finds a neighbor beside the one that goes
first. -/
theorem exists_removal_of_near {graph : PrimalGraph} {order : List Nat} {key other : Nat}
    (h : other ∈ graph.near key) (hkey : key ∈ order) :
    ∃ removal ∈ graph.removals order,
      (removal.1 = key ∨ removal.1 = other) ∧ removal.2.Nonempty := by
  induction order generalizing graph with
  | nil => cases hkey
  | cons first order ih =>
    by_cases hfirst : key = first
    · subst hfirst
      exact ⟨_, List.mem_cons_self, .inl rfl, other, h⟩
    by_cases hother : other = first
    · subst hother
      exact ⟨_, List.mem_cons_self, .inr rfl, key, graph.symm h⟩
    have hne : other ≠ key := fun heq => graph.loopless key (heq ▸ h)
    have hnear : other ∈ (graph.eliminate first).near key :=
      mem_fill.2 ⟨hfirst, hother, hne, .inl h⟩
    obtain ⟨removal, hin, hends⟩ := ih hnear ((List.mem_cons.1 hkey).resolve_left hfirst)
    exact ⟨removal, List.mem_cons_of_mem _ hin, hends⟩

/-- Among finitely many variables of a forest that have their neighbors among them, one has at most
one neighbor: in a component, whichever is farthest from some root. -/
theorem exists_leaf {graph : PrimalGraph} (hforest : graph.toSimpleGraph.IsAcyclic)
    {keys : Finset Nat} (hne : keys.Nonempty)
    (hclosed : ∀ key ∈ keys, ∀ other ∈ graph.near key, other ∈ keys) :
    ∃ leaf ∈ keys, (graph.near leaf).card ≤ 1 := by
  classical
  obtain ⟨root, hroot⟩ := hne
  obtain ⟨leaf, hleaf, hfarthest⟩ := (keys.filter (graph.Linked root)).exists_max_image
    (graph.toSimpleGraph.dist root) ⟨root, Finset.mem_filter.2 ⟨hroot, .refl root⟩⟩
  obtain ⟨hin, hlinked⟩ := Finset.mem_filter.1 hleaf
  have hcloser : ∀ other ∈ graph.near leaf,
      graph.toSimpleGraph.dist root other + 1 = graph.toSimpleGraph.dist root leaf := by
    intro other hother
    have hreached := hlinked.trans (linked_of_near hother)
    have hbound := hfarthest other (Finset.mem_filter.2 ⟨hclosed leaf hin other hother, hreached⟩)
    have hadj : graph.toSimpleGraph.Adj leaf other := hother
    rcases hforest.dist_eq_dist_add_one_of_adj_of_reachable root hadj hlinked with h | h
    · exact h.symm
    · omega
  refine ⟨leaf, hin, Finset.card_le_one.2 fun first hfirst second hsecond => ?_⟩
  exact FactorGraph.closer_unique hforest hlinked (graph.symm hfirst) (graph.symm hsecond)
    (hcloser first hfirst) (hcloser second hsecond)

end PrimalGraph

namespace Elimination

open FactorGraph PrimalGraph

variable {space : Space} {rules : List (Rule α)}

private theorem occurs_of_near_after (order : List Nat) {key other : Nat}
    (h : other ∈ ((ofRules rules).after order).near key) : Occurs rules other := by
  obtain ⟨-, third, hnear⟩ := remains_of_near_after order h
  exact (occurs_of_near hnear).2

/-- In what is left of a forest, the narrowest variable is a leaf. -/
theorem leaf_of_precedes (hrules : ∀ rule ∈ rules, rule.assignment.Over space)
    {order : List Nat} (hforest : ((ofRules rules).after order).toSimpleGraph.IsAcyclic) {key : Nat}
    (hkey : key < space.length) (hnew : key ∉ order)
    (hleast : ∀ other < space.length, other ∉ order →
      Precedes (PrimalGraph.width rules ((ofRules rules).after order)) key other) :
    (((ofRules rules).after order).near key).card ≤ 1 := by
  by_cases hoccurs : Occurs rules key
  · let left := (Finset.range space.length).filter (· ∉ order)
    have hin : key ∈ left := Finset.mem_filter.2 ⟨Finset.mem_range.2 hkey, hnew⟩
    have hclosed : ∀ key ∈ left, ∀ other ∈ ((ofRules rules).after order).near key, other ∈ left :=
      fun _ _ other h => Finset.mem_filter.2
        ⟨Finset.mem_range.2 ((occurs_of_near_after order h).lt_length hrules),
          (remains_of_near_after order h).1⟩
    obtain ⟨leaf, hleaf, hcard⟩ := exists_leaf hforest ⟨key, hin⟩ hclosed
    obtain ⟨hlt, hthere⟩ := Finset.mem_filter.1 hleaf
    have hwidth := hleast leaf (Finset.mem_range.1 hlt) hthere
    rw [Precedes, PrimalGraph.width, PrimalGraph.width, if_pos hoccurs] at hwidth
    split at hwidth <;> omega
  · have hempty : ((ofRules rules).after order).near key = ∅ :=
      Finset.eq_empty_of_forall_notMem fun other h =>
        hoccurs (occurs_of_near_after order (PrimalGraph.symm _ h))
    rw [hempty]
    exact Nat.zero_le 1

/-- What holds between the steps of min-degree on a forest. -/
structure Forested (space : Space) (rules : List (Rule α)) (run : Run α) : Prop where
  diagnosed : Diagnosed space .minDegree rules run
  forest : ((ofRules rules).after run.removed).toSimpleGraph.IsAcyclic
  leaves : ∀ removal ∈ (ofRules rules).removals run.removed, removal.2.card ≤ 1

private theorem forested_start {graph : FactorGraph (List (Rule α))}
    (hfiled : Filed space (fun rule data => data ++ [rule]) rules graph)
    (hrules : ∀ rule ∈ rules, rule.assignment.Over space)
    (hforest : (ofRules rules).toSimpleGraph.IsAcyclic) :
    Forested space rules (Run.start graph) where
  diagnosed := diagnosed_start .minDegree hfiled hrules
  forest := hforest
  leaves removal h := by cases h

section Steps

variable [Payoff α]

/-- Min-degree picks a leaf. -/
theorem Forested.leaf_of_next? (hspace : space.Inhabited)
    (hrules : ∀ rule ∈ rules, rule.assignment.Over space) {run : Run α}
    (h : Forested space rules run) {key : Nat} (hkey : key ∈ run.graph.liveVariables)
    (hnext : Order.minDegree.next? run.graph = some key) :
    (((ofRules rules).after run.removed).near key).card ≤ 1 := by
  obtain ⟨hlt, hnew⟩ := (h.diagnosed.live key).1 hkey
  obtain ⟨after, -, hafter, -, hremoved⟩ :=
    Diagnosed.picks hspace .minDegree rules h.diagnosed hkey hnext
  exact leaf_of_precedes hrules h.forest hlt hnew (hafter.narrowest rfl run.removed key [] hremoved)

theorem Forested.picks (hspace : space.Inhabited)
    (hrules : ∀ rule ∈ rules, rule.assignment.Over space) :
    PicksKeep space .minDegree fun run : Run α => Forested space rules run := by
  intro run key h hkey hnext
  have hleaf := h.leaf_of_next? hspace hrules hkey hnext
  obtain ⟨after, heliminate, hafter, hlive, hremoved⟩ :=
    Diagnosed.picks hspace .minDegree rules h.diagnosed hkey hnext
  refine ⟨after, heliminate, ⟨hafter, ?_, ?_⟩, hlive, hremoved⟩
  · rw [hremoved, after_concat]
    exact h.forest.anti (toSimpleGraph_eliminate_le hleaf)
  · rw [hremoved, removals_concat, List.forall_mem_append]
    exact ⟨h.leaves, by simpa using hleaf⟩

private theorem Forested.keys_le_one (hspace : space.Inhabited)
    (hrules : ∀ rule ∈ rules, rule.assignment.Over space) {run : Run α}
    (h : Forested space rules run) {key : Nat} (hkey : key ∈ run.graph.liveVariables)
    (hnext : Order.minDegree.next? run.graph = some key) {generated : List (Rule α)}
    (hgenerated : run.responses? space key = some generated) :
    ∀ rule ∈ generated, rule.assignment.keys.length ≤ 1 := by
  have hleaf := h.leaf_of_next? hspace hrules hkey hnext
  have hlt := ((h.diagnosed.live key).1 hkey).1
  obtain ⟨after, heliminate, -⟩ := Diagnosed.picks hspace .minDegree rules h.diagnosed hkey hnext
  obtain ⟨found, hfound, -, ⟨-, rfl, -⟩ | ⟨_, _, _, _, _, _, rfl, hclear, hresponds, -⟩⟩ :=
    eliminate?_exchange hspace h.diagnosed.intact hlt heliminate
  · obtain rfl := Option.some.inj (hfound.symm.trans hgenerated)
    simp
  · obtain rfl := Option.some.inj (hfound.symm.trans hgenerated)
    intro rule hrule
    have hneighborhood := h.diagnosed.mirrors.neighborhood_eq h.diagnosed.intact.sound hkey
    have hoccurs : Occurs rules key := by
      by_contra hnot
      rw [if_neg hnot, List.toFinset_eq_empty_iff] at hneighborhood
      simpa [hneighborhood] using hclear.pivot
    rw [if_pos hoccurs] at hneighborhood
    rw [hresponds.keys_eq rule hrule, ← List.toFinset_card_of_nodup (Scope.nodup _),
      toFinset_erase hneighborhood (PrimalGraph.loopless _ key)]
    exact hleaf

end Steps

theorem inducedWidth_le_iff {order : List Nat} {bound : Nat} :
    (Report.ofOrder space rules order).inducedWidth ≤ bound ↔
      ∀ removal ∈ (ofRules rules).removals order, Occurs rules removal.1 →
        removal.2.card + 1 ≤ bound := by
  have hmax : ∀ sizes : List Nat, sizes.foldr max 0 ≤ bound ↔ ∀ size ∈ sizes, size ≤ bound := by
    intro sizes
    induction sizes with
    | nil => simp
    | cons size sizes ih => rw [List.foldr_cons, max_le_iff, ih, List.forall_mem_cons]
  simp only [Report.ofOrder, hmax, List.forall_mem_map, List.mem_filter, decide_eq_true_eq, and_imp]

/-- An order that removes leaves only makes no larger cliques than any other. -/
theorem inducedWidth_le_of_leaves (hrules : ∀ rule ∈ rules, rule.assignment.Over space)
    {order other : List Nat} (hleaves : ∀ removal ∈ (ofRules rules).removals order,
      removal.2.card ≤ 1) (hother : other.Perm (List.range space.length)) :
    (Report.ofOrder space rules order).inducedWidth ≤
      (Report.ofOrder space rules other).inducedWidth := by
  have hwide := inducedWidth_le_iff.1 (le_refl (Report.ofOrder space rules other).inducedWidth)
  have hin : ∀ {key}, Occurs rules key → key ∈ other := fun hoccurs =>
    hother.mem_iff.2 (List.mem_range.2 (hoccurs.lt_length hrules))
  refine inducedWidth_le_iff.2 fun removal hremoval hoccurs => ?_
  have hcard := hleaves removal hremoval
  obtain hnone | ⟨key, hkey⟩ := removal.2.eq_empty_or_nonempty
  · have hremoved := hin hoccurs
    rw [← (ofRules rules).map_fst_removals other] at hremoved
    obtain ⟨found, hfound, heq⟩ := List.mem_map.1 hremoved
    have hone := hwide found hfound (heq ▸ hoccurs)
    rw [hnone, Finset.card_empty]
    omega
  · -- the neighbor was joined to something from the start, which no order can avoid
    obtain ⟨third, hnear⟩ := exists_near_of_mem_removals hremoval hkey
    obtain ⟨hthird, hoccurs'⟩ := occurs_of_near hnear
    obtain ⟨found, hfound, hends, hsome⟩ := exists_removal_of_near hnear (hin hthird)
    have htwo := hwide found hfound (by rcases hends with h | h <;> rwa [h])
    have hpos := hsome.card_pos
    omega

theorem inducedWidth_le_two {order : List Nat}
    (hleaves : ∀ removal ∈ (ofRules rules).removals order, removal.2.card ≤ 1) :
    (Report.ofOrder space rules order).inducedWidth ≤ 2 :=
  inducedWidth_le_iff.2 fun removal hremoval _ => Nat.succ_le_succ (hleaves removal hremoval)

/-- Min-degree is optimal on forests. If the primal graph of an accepted problem is a forest, then a
run of min-degree meets cliques of at most two variables, and generates only rules over at most one.
No order of all variables makes smaller cliques. The problem is solved with such a report, as far as
it is solved. -/
theorem minDegree_width_of_forest [Payoff α] {space : Space} (hspace : space.Inhabited)
    {rules : List (Rule α)} (hrules : checkRules space rules = .ok ())
    (hforest : (PrimalGraph.ofRules rules).toSimpleGraph.IsAcyclic) :
    ∃ graph final log, buildGraph space rules = .ok graph ∧
      eliminateAll? space .minDegree graph = some final ∧
      (Run.start graph).exchanges? space .minDegree graph.varCount = some log ∧
      log.map Exchange.removed = final.removed ∧
      final.removed.Perm (List.range space.length) ∧
      (Report.ofSteps final.steps).inducedWidth ≤ 2 ∧
      (∀ exchange ∈ log, ∀ rule ∈ exchange.generated, rule.assignment.keys.length ≤ 1) ∧
      (∀ order : List Nat, order.Perm (List.range space.length) →
        (Report.ofSteps final.steps).inducedWidth ≤
          (Report.ofOrder space rules order).inducedWidth) ∧
      (∀ solution report, solve .minDegree space rules = .ok (solution, report) →
        report = .ofSteps final.steps) ∧
      ((∀ rule ∈ rules, ∀ tag ∈ rule.tags, tag.1 < space.length) →
        ∃ solution, solve .minDegree space rules = .ok (solution, .ofSteps final.steps)) := by
  have hover := over_of_checkRules hrules
  obtain ⟨graph, hgraph, hfiled⟩ := buildGraph_spec hspace hrules
  have hstart := forested_start hfiled hover hforest
  obtain ⟨final, hrun, hfinal, -, hperm, -⟩ :=
    eliminateAll?_of_picks (Forested.picks hspace hover) hstart
  rw [hfiled.liveVariables_eq] at hperm
  obtain ⟨log, last, hlog, hlast, -, hremoved⟩ :=
    exchanges?_spec hspace (Forested.picks hspace hover) (fun _ h => h.diagnosed.intact)
      graph.varCount hstart
  obtain rfl := Option.some.inj (hrun.symm.trans hlast)
  have hreport := ofSteps_eq_ofOrder hperm hfinal.diagnosed.steps
  refine ⟨graph, final, log, hgraph, hrun, hlog, hremoved.symm, hperm, ?_, ?_, ?_,
    fun _ _ => report_of_solve hgraph hrun, fun htags => ?_⟩
  · rw [hreport]
    exact inducedWidth_le_two hfinal.leaves
  · intro exchange hexchange
    obtain ⟨before, hbefore, hkey, hnext, hgenerated⟩ :=
      mem_exchanges? (Forested.picks hspace hover) graph.varCount hstart hlog exchange hexchange
    exact hbefore.keys_le_one hspace hover hkey hnext hgenerated
  · intro order horder
    rw [hreport]
    exact inducedWidth_le_of_leaves hover hfinal.leaves horder
  · obtain ⟨solution, report, hsolve⟩ := solve_of_range hspace .minDegree hrules htags
    obtain rfl := report_of_solve hgraph hrun hsolve
    exact ⟨solution, hsolve⟩

def hubRules : List (Rule Rat) :=
  [⟨⟨[(0, 0), (1, 2)], by simp⟩, 1, []⟩, ⟨⟨[(0, 0), (2, 1)], by simp⟩, 2, []⟩,
    ⟨⟨[(0, 1), (3, 0)], by simp⟩, 3, []⟩, ⟨⟨[(3, 1), (4, 1)], by simp⟩, 4, []⟩]

private theorem isAcyclic_hubRules : (PrimalGraph.ofRules hubRules).toSimpleGraph.IsAcyclic := by
  have hedge : ∀ {key other}, (PrimalGraph.ofRules hubRules).toSimpleGraph.Adj key other →
      key < other → (key = 0 ∧ other < 4) ∨ (key = 3 ∧ other = 4) := by
    intro key other hadj hlt
    obtain ⟨-, rule, hrule, hkey, hother⟩ := mem_beside.1 hadj
    simp only [hubRules, List.mem_cons, List.not_mem_nil, or_false] at hrule
    rcases hrule with rfl | rfl | rfl | rfl <;> simp [Assignment.keys] at hkey hother <;> omega
  refine isAcyclic_of_rank id (fun _ _ hadj => hadj.ne) fun a b c ha hb hac hbc => ?_
  have hfirst := hedge ha hac
  have hsecond := hedge hb hbc
  omega

/-- Min-degree leaves the hub for later. The hub first would join all its neighbors. -/
theorem minDegree_width_of_hub :
    (∃ solution report, solve .minDegree [2, 3, 2, 2, 2] hubRules = .ok (solution, report) ∧
      report.inducedWidth ≤ 2) ∧
    (Report.ofOrder [2, 3, 2, 2, 2] hubRules [0, 1, 2, 3, 4]).inducedWidth = 4 := by
  obtain ⟨-, final, -, -, -, -, -, -, hwidth, -, -, -, hsolve⟩ :=
    @minDegree_width_of_forest Rat _ [2, 3, 2, 2, 2] (by decide) hubRules rfl isAcyclic_hubRules
  obtain ⟨solution, hsolution⟩ := hsolve (by decide)
  exact ⟨⟨solution, _, hsolution, hwidth⟩, by decide⟩

end Elimination

end JointDecision

import JointDecision.Proofs.Elimination.PrimalGraph
import JointDecision.Proofs.Elimination.Progress

/-! # The diagnostics of elimination

Two variables that are still live are in one scope if and only if the primal graph joins them, and
this stays so when both are eliminated from. So a run reports what vertex elimination in its order
counts, whatever the payoffs are. -/

namespace JointDecision

open FactorGraph

variable {α δ : Type}

namespace FactorGraph

def Together (graph : FactorGraph δ) (key other : Nat) : Prop :=
  ∃ scope, graph.HasScope scope ∧ key ∈ scope.keys ∧ other ∈ scope.keys

theorem Together.symm {graph : FactorGraph δ} {key other : Nat} (h : graph.Together key other) :
    graph.Together other key := by
  obtain ⟨scope, hscope, hkey, hother⟩ := h
  exact ⟨scope, hscope, hother, hkey⟩

theorem Together.left {graph : FactorGraph δ} {key other : Nat} (h : graph.Together key other) :
    graph.Together key key := by
  obtain ⟨scope, hscope, hkey, -⟩ := h
  exact ⟨scope, hscope, hkey, hkey⟩

/-- Whether two variables are to be together without a third: apart from it they are, or both are
together with it. -/
def TogetherWithout (graph : FactorGraph δ) (key other third : Nat) : Prop :=
  (∃ scope, graph.HasScope scope ∧ key ∉ scope.keys ∧ other ∈ scope.keys ∧ third ∈ scope.keys) ∨
    (other ≠ key ∧ third ≠ key ∧ graph.Together key other ∧ graph.Together key third)

private theorem Together.without {graph : FactorGraph δ} {key other third : Nat}
    (h : graph.Together other third) (hother : other ≠ key) (hthird : third ≠ key) :
    graph.TogetherWithout key other third := by
  obtain ⟨scope, hscope, hin, hin'⟩ := h
  by_cases hout : key ∈ scope.keys
  · exact .inr ⟨hother, hthird, ⟨scope, hscope, hout, hin⟩, ⟨scope, hscope, hout, hin'⟩⟩
  · exact .inl ⟨scope, hscope, hout, hin, hin'⟩

/-- A variable in no scope can go with the scopes as they are. -/
theorem together_skip {graph after : FactorGraph δ} {key : Nat} (hout : ¬ graph.Together key key)
    (hscopes : ∀ scope, after.HasScope scope ↔ graph.HasScope scope) (other third : Nat) :
    after.Together other third ↔ graph.TogetherWithout key other third := by
  simp only [Together, hscopes]
  constructor
  · intro h
    obtain ⟨scope, hscope, hin, hin'⟩ := h
    exact .inl ⟨scope, hscope, fun hkey => hout ⟨scope, hscope, hkey, hkey⟩, hin, hin'⟩
  · rintro (⟨scope, hscope, -, hin, hin'⟩ | ⟨-, -, hjoined, -⟩)
    · exact ⟨scope, hscope, hin, hin'⟩
    · exact absurd hjoined.left hout

/-- One scope over all that a variable is together with takes the place of the scopes around it. -/
theorem together_merge {graph after : FactorGraph δ} {key : Nat} {neighborhood : Scope}
    (hnear : ∀ other, other ∈ neighborhood.keys ↔ graph.Together key other)
    (hscopes : ∀ scope, after.HasScope scope ↔ (graph.HasScope scope ∧ key ∉ scope.keys) ∨
      (neighborhood.erase key ≠ .empty ∧ scope = neighborhood.erase key)) (other third : Nat) :
    after.Together other third ↔ graph.TogetherWithout key other third := by
  have hrest : ∀ {fourth}, fourth ∈ (neighborhood.erase key).keys ↔
      graph.Together key fourth ∧ fourth ≠ key := by
    intro fourth
    rw [← hnear]
    exact Elimination.mem_eraseKey
  simp only [Together, hscopes]
  constructor
  · rintro ⟨scope, ⟨hscope, hout⟩ | ⟨-, rfl⟩, hin, hin'⟩
    · exact .inl ⟨scope, hscope, hout, hin, hin'⟩
    · obtain ⟨hother, hne⟩ := hrest.1 hin
      obtain ⟨hthird, hne'⟩ := hrest.1 hin'
      exact .inr ⟨hne, hne', hother, hthird⟩
  · rintro (⟨scope, hscope, hout, hin, hin'⟩ | ⟨hne, hne', hother, hthird⟩)
    · exact ⟨scope, .inl ⟨hscope, hout⟩, hin, hin'⟩
    · have hin := hrest.2 ⟨hother, hne⟩
      refine ⟨_, .inr ⟨?_, rfl⟩, hin, hrest.2 ⟨hthird, hne'⟩⟩
      intro hempty
      rw [hempty] at hin
      cases hin

theorem Sound.mem_neighborhood {graph : FactorGraph δ} (hsound : graph.Sound) {key : Nat}
    (hkey : key < graph.varCount) {other : Nat} :
    other ∈ (graph.unionScope (graph.neighbors key)).keys ↔ graph.Together key other := by
  rw [mem_unionScope]
  constructor
  · intro h
    obtain ⟨handle, hhandle, factor, hfactor, hother⟩ := h
    obtain ⟨found, hfound, hin⟩ := (hsound.adjacent key hkey handle).1 hhandle
    obtain rfl := Option.some.inj (hfactor.symm.trans hfound)
    exact ⟨_, ⟨handle, factor, hfactor, rfl⟩, hin, hother⟩
  · intro h
    obtain ⟨_, ⟨handle, factor, hfactor, rfl⟩, hin, hother⟩ := h
    exact ⟨handle, (hsound.adjacent key hkey handle).2 ⟨factor, hfactor, hin⟩, factor, hfactor,
      hother⟩

theorem Sound.neighbors_eq_nil_iff {graph : FactorGraph δ} (hsound : graph.Sound) {key : Nat}
    (hkey : key < graph.varCount) : graph.neighbors key = [] ↔ ¬ graph.Together key key := by
  rw [← hsound.mem_neighborhood hkey, List.eq_nil_iff_forall_not_mem]
  constructor
  · intro h hin
    obtain ⟨handle, hhandle, -⟩ := mem_unionScope.1 hin
    exact h handle hhandle
  · intro h handle hhandle
    obtain ⟨factor, hfactor, hin⟩ := (hsound.adjacent key hkey handle).1 hhandle
    exact h (mem_unionScope.2 ⟨handle, hhandle, factor, hfactor, hin⟩)

end FactorGraph

namespace Elimination

/-- Whether a primal graph says which live variables are together: those that it joins, and a
variable that a rule mentions with itself. -/
def Mirrors (rules : List (Rule α)) (primal : PrimalGraph) (graph : FactorGraph δ) : Prop :=
  ∀ key ∈ graph.liveVariables, ∀ other,
    graph.Together key other ↔ (key = other ∧ Occurs rules key) ∨ other ∈ primal.near key

section Mirrored

variable {rules : List (Rule α)} {primal : PrimalGraph} {graph : FactorGraph δ} {key : Nat}

/-- As long as it is live, a variable is touched if and only if a rule mentions it. -/
theorem Mirrors.together_self (h : Mirrors rules primal graph) (hkey : key ∈ graph.liveVariables) :
    graph.Together key key ↔ Occurs rules key := by
  rw [h key hkey]
  simp [primal.loopless key]

theorem Mirrors.occurs_of_near (h : Mirrors rules primal graph) (hkey : key ∈ graph.liveVariables)
    {other : Nat} (hother : other ∈ primal.near key) : Occurs rules key :=
  (h.together_self hkey).1 ((h key hkey other).2 (.inr hother)).left

theorem Mirrors.neighborhood_eq (h : Mirrors rules primal graph) (hsound : graph.Sound)
    (hkey : key ∈ graph.liveVariables) :
    (graph.unionScope (graph.neighbors key)).keys.toFinset =
      if Occurs rules key then insert key (primal.near key) else ∅ := by
  ext other
  rw [List.mem_toFinset, hsound.mem_neighborhood (mem_liveVariables.1 hkey).1, h key hkey]
  split
  · rename_i hoccurs
    simp [hoccurs, eq_comm]
  · rename_i hnot
    have hnear : other ∉ primal.near key := fun hother => hnot (h.occurs_of_near hkey hother)
    simp [hnot, hnear]

private theorem Mirrors.width_eq (h : Mirrors rules primal graph) (hsound : graph.Sound)
    (hkey : key ∈ graph.liveVariables) :
    width graph key = primal.width rules key := by
  have hcard : width graph key =
      (graph.unionScope (graph.neighbors key)).keys.toFinset.card :=
    (List.toFinset_card_of_nodup (Scope.nodup _)).symm
  rw [hcard, h.neighborhood_eq hsound hkey, PrimalGraph.width]
  split
  · exact Finset.card_insert_of_notMem (primal.loopless key)
  · rfl

/-- One elimination in both graphs. The scope that is new joins the neighbors of the variable, which
it was together with. -/
theorem Mirrors.eliminate {after : FactorGraph δ} (h : Mirrors rules primal graph)
    (hkey : key ∈ graph.liveVariables)
    (hlive : ∀ other ∈ after.liveVariables, other ∈ graph.liveVariables ∧ other ≠ key)
    (htogether : ∀ other third,
      after.Together other third ↔ graph.TogetherWithout key other third) :
    Mirrors rules (primal.eliminate key) after := by
  intro other hother third
  obtain ⟨hbefore, hne⟩ := hlive other hother
  have hnear : ∀ {fourth}, fourth ≠ key →
      (graph.Together key fourth ↔ fourth ∈ primal.near key) := by
    intro fourth hfourth
    rw [h key hkey]
    simp [hfourth.symm]
  have hfill : third ∈ (primal.eliminate key).near other ↔ other ≠ key ∧ third ≠ key ∧
      third ≠ other ∧ (third ∈ primal.near other ∨
        (other ∈ primal.near key ∧ third ∈ primal.near key)) := PrimalGraph.mem_fill
  rw [htogether, hfill]
  constructor
  · rintro (⟨scope, hscope, hout, hin, hin'⟩ | ⟨-, hthird, hfirst, hsecond⟩)
    · rcases (h other hbefore third).1 ⟨scope, hscope, hin, hin'⟩ with hself | hjoined
      · exact .inl hself
      · refine .inr ⟨hne, fun heq => hout (heq ▸ hin'), ?_, .inl hjoined⟩
        rintro rfl
        exact primal.loopless _ hjoined
    · by_cases heq : other = third
      · exact .inl ⟨heq, (h.together_self hbefore).1 hfirst.symm.left⟩
      · exact .inr ⟨hne, hthird, Ne.symm heq, .inr ⟨(hnear hne).1 hfirst, (hnear hthird).1 hsecond⟩⟩
  · rintro (⟨rfl, hoccurs⟩ | ⟨-, hthird, -, hjoined | ⟨hfirst, hsecond⟩⟩)
    · exact ((h.together_self hbefore).2 hoccurs).without hne hne
    · exact ((h other hbefore third).2 (.inr hjoined)).without hne hthird
    · exact .inr ⟨hne, hthird, (hnear hne).2 hfirst, (hnear hthird).2 hsecond⟩

end Mirrored

/-- The primal graph of some rules says which variables their graph has together. -/
theorem mirrors_ofRules {space : Space} {rules : List (Rule α)} {edit : Rule α → δ → δ}
    [EmptyCollection δ] {graph : FactorGraph δ} (h : Filed space edit rules graph) :
    Mirrors rules (.ofRules rules) graph := by
  have hscopes : ∀ scope, graph.HasScope scope ↔ ∃ rule ∈ rules, rule.assignment.scope = scope := by
    intro scope
    constructor
    · intro hhas
      obtain ⟨handle, factor, hfactor, rfl⟩ := hhas
      obtain ⟨rule, hrule⟩ := List.exists_mem_of_ne_nil _ (h.used hfactor)
      obtain ⟨hin, hscope⟩ := List.mem_filter.1 hrule
      exact ⟨rule, hin, by simpa using hscope⟩
    · intro hrule
      obtain ⟨rule, hin, rfl⟩ := hrule
      exact h.found rule hin
  intro key _ other
  have hnear : other ∈ (PrimalGraph.ofRules rules).near key ↔ other ≠ key ∧ ∃ rule ∈ rules,
      key ∈ rule.assignment.keys ∧ other ∈ rule.assignment.keys := PrimalGraph.mem_beside
  have htogether : graph.Together key other ↔ ∃ rule ∈ rules,
      key ∈ rule.assignment.keys ∧ other ∈ rule.assignment.keys := by
    simp only [Together, hscopes]
    constructor
    · intro hscope
      obtain ⟨_, ⟨rule, hrule, rfl⟩, hkey, hother⟩ := hscope
      exact ⟨rule, hrule, hkey, hother⟩
    · intro hmentions
      obtain ⟨rule, hrule, hkey, hother⟩ := hmentions
      exact ⟨_, ⟨rule, hrule, rfl⟩, hkey, hother⟩
  rw [htogether, hnear]
  by_cases heq : key = other
  · subst heq
    simp [Occurs]
  · simp [heq, Ne.symm heq]

/-- What holds between the steps of a run over the graph of some rules. -/
structure Diagnosed (space : Space) (order : Order) (rules : List (Rule α)) (run : Run α) :
    Prop where
  intact : run.Intact space
  live : ∀ key, key ∈ run.graph.liveVariables ↔ key < space.length ∧ key ∉ run.removed
  mirrors : Mirrors rules ((PrimalGraph.ofRules rules).after run.removed) run.graph
  steps : List.Forall₂ (Agrees space rules) ((PrimalGraph.ofRules rules).removals run.removed)
    run.steps
  narrowest : order = .minDegree → Narrowest space rules run.removed

private theorem narrowest_concat {space : Space} {rules : List (Rule α)} {order : List Nat}
    {key : Nat} (h : Narrowest space rules order)
    (hkey : ∀ other < space.length, other ∉ order →
      Precedes (PrimalGraph.width rules ((PrimalGraph.ofRules rules).after order)) key other) :
    Narrowest space rules (order ++ [key]) := by
  intro before picked later hsplit
  obtain rfl | ⟨rest, last, rfl⟩ := later.eq_nil_or_concat'
  · obtain ⟨rfl, heq⟩ := List.append_inj' hsplit rfl
    obtain rfl := List.singleton_inj.1 heq
    exact hkey
  · rw [← List.cons_append, ← List.append_assoc] at hsplit
    obtain ⟨rfl, -⟩ := List.append_inj' hsplit rfl
    exact h before picked rest rfl

theorem toFinset_erase {neighborhood : Scope} {key : Nat} {near : Finset Nat}
    (hneighborhood : neighborhood.keys.toFinset = insert key near) (hnear : key ∉ near) :
    (neighborhood.erase key).keys.toFinset = near := by
  ext other
  rw [List.mem_toFinset, Scope.erase, mem_eraseKey, ← List.mem_toFinset, hneighborhood,
    Finset.mem_insert]
  constructor
  · intro h
    exact h.1.resolve_left h.2
  · intro h
    exact ⟨.inr h, fun heq => hnear (heq ▸ h)⟩

private theorem volume_erase {space : Space} {neighborhood : Scope} {key : Nat} {near : Finset Nat}
    (hneighborhood : neighborhood.keys.toFinset = insert key near) (hnear : key ∉ near) :
    MixedRadix.volume ((neighborhood.erase key).keys.map space.domain) =
      ∏ other ∈ near, space.domain other := by
  rw [← toFinset_erase hneighborhood hnear, List.prod_toFinset _ (Scope.nodup _)]
  induction (neighborhood.erase key).keys.map space.domain with
  | nil => rfl
  | cons size sizes ih => rw [MixedRadix.volume, List.prod_cons, ih]

theorem diagnosed_start {space : Space} (order : Order) {rules : List (Rule α)}
    {graph : FactorGraph (List (Rule α))}
    (hfiled : Filed space (fun rule data => data ++ [rule]) rules graph)
    (hrules : ∀ rule ∈ rules, rule.assignment.Over space) :
    Diagnosed space order rules (Run.start graph) where
  intact := intact_start hfiled.reachable.sound hfiled.reachable.varCount_eq (hfiled.fits hrules)
  live key := by
    rw [show (Run.start graph).graph = graph from rfl, hfiled.liveVariables_eq]
    simp [Run.removed, Run.start]
  mirrors := mirrors_ofRules hfiled
  steps := .nil
  narrowest _ before key later hsplit := by simp [Run.removed, Run.start] at hsplit

/-- The variable that is picked is eliminated in both graphs. -/
theorem Diagnosed.picks [Payoff α] {space : Space} (hspace : space.Inhabited) (order : Order)
    (rules : List (Rule α)) :
    PicksKeep space order fun run : Run α => Diagnosed space order rules run := by
  intro run key h hkey hnext
  have hsound := h.intact.sound
  obtain ⟨hlt, hnew⟩ := (h.live key).1 hkey
  have hcount := h.intact.varCount
  obtain ⟨after, heliminate, hafter, hlive, hremoved, hcases⟩ :=
    eliminate?_cases hspace h.intact hlt
  have hremoved : after.removed = run.removed ++ [key] := hremoved
  have herased : after.graph.liveVariables = run.graph.liveVariables.erase key :=
    liveVariables_erase (hafter.varCount.trans hcount.symm) fun other hother =>
      hlive other (hcount ▸ hother)
  have hleft : ∀ other, other ∈ after.graph.liveVariables ↔
      other ≠ key ∧ other ∈ run.graph.liveVariables := by
    intro other
    rw [herased, (nodup_liveVariables _).mem_erase_iff]
  have hoccurs := h.mirrors.together_self hkey
  refine ⟨after, heliminate, ⟨hafter, ?_, ?_, ?_, ?_⟩, herased, hremoved⟩
  · intro other
    rw [hleft, h.live, hremoved, List.mem_append, List.mem_singleton, not_or]
    tauto
  · rw [hremoved, PrimalGraph.after_concat]
    refine h.mirrors.eliminate hkey (fun other hother => ((hleft other).1 hother).symm) ?_
    obtain ⟨hfree, -, hscopes, -⟩ | ⟨_, _, _, _, _, _, _, rfl, -, -, -, hscopes, -⟩ := hcases
    · exact together_skip ((hsound.neighbors_eq_nil_iff (hcount ▸ hlt)).1 hfree) hscopes
    · exact together_merge (fun _ => hsound.mem_neighborhood (hcount ▸ hlt)) hscopes
  · rw [hremoved, PrimalGraph.removals_concat]
    obtain ⟨hfree, hsteps, -⟩ | ⟨_, _, _, _, _, _, _, rfl, hclear, hresponds, hsteps, -⟩ := hcases
    · rw [hsteps]
      refine List.rel_append h.steps (.cons ⟨rfl, ?_⟩ .nil)
      rw [← hoccurs]
      exact (hsound.neighbors_eq_nil_iff (hcount ▸ hlt)).1 hfree
    · have htouched := hoccurs.1 ((hsound.mem_neighborhood (hcount ▸ hlt)).1 hclear.pivot)
      have hneighborhood := h.mirrors.neighborhood_eq hsound hkey
      rw [if_pos htouched] at hneighborhood
      rw [hsteps]
      refine List.rel_append h.steps (.cons ⟨rfl, htouched, hneighborhood, ?_⟩ .nil)
      rw [length_of_mapM hresponds.rules_eq, hresponds.enumerates.length_eq]
      exact volume_erase hneighborhood (PrimalGraph.loopless _ key)
  · rintro rfl
    rw [hremoved]
    refine narrowest_concat (h.narrowest rfl) fun other hother hout => ?_
    obtain ⟨hnone, -⟩ | ⟨picked, -, hpicked, hleast⟩ := next?_minDegree run.graph
    · rw [hnone] at hnext
      cases hnext
    · obtain rfl := Option.some.inj (hpicked.symm.trans hnext)
      have hlive := (h.live other).2 ⟨hother, hout⟩
      have hprecedes := hleast other hlive
      rw [Precedes, h.mirrors.width_eq hsound hkey, h.mirrors.width_eq hsound hlive] at hprecedes
      exact hprecedes

section Reports

variable {space : Space} {rules : List (Rule α)}

private theorem size_of_toFinset {neighborhood : Scope} {key : Nat} {near : Finset Nat}
    (h : neighborhood.keys.toFinset = insert key near) (hnear : key ∉ near) :
    neighborhood.size = near.card + 1 := by
  rw [← Finset.card_insert_of_notMem hnear, ← h, List.toFinset_card_of_nodup neighborhood.nodup]
  rfl

private theorem foldl_add_of_agrees {removals : List (Nat × Finset Nat)} {steps : List Step}
    (h : List.Forall₂ (Agrees space rules) removals steps)
    (hloopless : ∀ removal ∈ removals, removal.1 ∉ removal.2) (report : Report) :
    steps.foldl Report.add report =
      let cliques := removals.filter (Occurs rules ·.1)
      { eliminated := report.eliminated + cliques.length
        skipped := report.skipped + (removals.filter (¬ Occurs rules ·.1)).length
        inducedWidth := max report.inducedWidth
          ((cliques.map fun (_, near) => near.card + 1).foldr max 0)
        rulesGenerated := report.rulesGenerated +
          (cliques.map fun (_, near) => ∏ key ∈ near, space.domain key).sum } := by
  induction h generalizing report with
  | nil => simp
  | @cons removal step removals steps hagrees _ ih =>
    obtain ⟨hfirst, hrest⟩ := List.forall_mem_cons.1 hloopless
    rw [List.foldl_cons, ih hrest]
    obtain ⟨key, near⟩ := removal
    cases step with
    | skipped removed =>
      obtain ⟨rfl, hnot⟩ := hagrees
      simp [Report.add, hnot]
      omega
    | eliminated removed neighborhood generated =>
      obtain ⟨rfl, hoccurs, hneighborhood, rfl⟩ := hagrees
      simp [Report.add, hoccurs, size_of_toFinset hneighborhood hfirst]
      omega

private theorem length_filter_removals (graph : PrimalGraph) {order : List Nat}
    (hperm : order.Perm (List.range space.length)) (p : Nat → Bool) :
    ((graph.removals order).filter fun removal => p removal.1).length =
      ((List.range space.length).filter p).length := by
  have hkeys := congrArg (fun keys => (keys.filter p).length) (graph.map_fst_removals order)
  simp only [List.filter_map, List.length_map] at hkeys
  exact hkeys.trans (hperm.filter p).length_eq

/-- A run whose steps are the removals of vertex elimination reports what this counts. -/
theorem ofSteps_eq_ofOrder {order : List Nat} {steps : List Step}
    (hperm : order.Perm (List.range space.length))
    (h : List.Forall₂ (Agrees space rules) ((PrimalGraph.ofRules rules).removals order) steps) :
    Report.ofSteps steps = .ofOrder space rules order := by
  rw [Report.ofSteps, foldl_add_of_agrees h (PrimalGraph.notMem_of_mem_removals _ _)]
  simp only [Report.start, Report.ofOrder, Nat.zero_add, Nat.zero_max]
  rw [length_filter_removals _ hperm fun key => decide (Occurs rules key),
    length_filter_removals _ hperm fun key => decide (¬ Occurs rules key)]

private theorem eliminated_add_skipped (order : List Nat) :
    (Report.ofOrder space rules order).eliminated + (Report.ofOrder space rules order).skipped =
      space.length := by
  have hsplit := (List.range space.length).length_eq_length_filter_add
    fun key => decide (Occurs rules key)
  rw [List.length_range] at hsplit
  simp only [Report.ofOrder, decide_not]
  exact hsplit.symm

end Reports

/-- The diagnostics of elimination are those of vertex elimination. Every accepted problem has a run
whose steps are the removals of all variables from the primal graph in the order of the run, which
under min-degree is narrowest first, and the problem is solved with the report that counts these
removals, as far as it is solved. -/
theorem diagnostics_of_primal [Payoff α] {space : Space} (hspace : space.Inhabited) (order : Order)
    {rules : List (Rule α)} (hrules : checkRules space rules = .ok ()) :
    ∃ graph final, buildGraph space rules = .ok graph ∧
      eliminateAll? space order graph = some final ∧
      final.removed.Perm (List.range space.length) ∧
      (order = .lastFirst → final.removed = (List.range space.length).reverse) ∧
      (order = .minDegree → Narrowest space rules final.removed) ∧
      List.Forall₂ (Agrees space rules) ((PrimalGraph.ofRules rules).removals final.removed)
        final.steps ∧
      (Report.ofOrder space rules final.removed).eliminated +
        (Report.ofOrder space rules final.removed).skipped = space.length ∧
      (∀ solution report, solve order space rules = .ok (solution, report) →
        report = .ofOrder space rules final.removed) ∧
      ((∀ rule ∈ rules, ∀ tag ∈ rule.tags, tag.1 < space.length) →
        ∃ solution, solve order space rules =
          .ok (solution, .ofOrder space rules final.removed)) := by
  obtain ⟨graph, hgraph, hfiled⟩ := buildGraph_spec hspace hrules
  have hcount := hfiled.reachable.varCount_eq
  obtain ⟨final, hrun, hfinal, -, hperm, hlast⟩ :=
    eliminateAll?_of_picks (Diagnosed.picks hspace order rules)
      (diagnosed_start order hfiled (over_of_checkRules hrules))
  rw [hfiled.liveVariables_eq] at hperm hlast
  have hreport : ∀ solution report, solve order space rules = .ok (solution, report) →
      report = .ofOrder space rules final.removed := by
    intro solution report hsolve
    rw [solve, hgraph] at hsolve
    have hsame := (solveGraph_eq hspace hcount hrun).symm.trans hsolve
    rw [ofSteps_eq_ofOrder hperm hfinal.steps] at hsame
    cases hfound : assemble? space final.finals with
    | none =>
      rw [hfound] at hsame
      cases hsame
    | some found =>
      rw [hfound] at hsame
      cases hsame
      rfl
  refine ⟨graph, final, hgraph, hrun, hperm, hlast, hfinal.narrowest, hfinal.steps,
    eliminated_add_skipped _, hreport, fun htags => ?_⟩
  obtain ⟨solution, report, hsolve⟩ := solve_of_range hspace order hrules htags
  exact ⟨solution, by rw [hsolve, hreport solution report hsolve]⟩

def cycleRules : List (Rule Rat) :=
  [⟨⟨[(0, 1), (1, 2)], by simp⟩, 1, []⟩, ⟨⟨[(1, 1), (2, 1)], by simp⟩, 2, []⟩,
    ⟨⟨[(2, 1), (3, 1)], by simp⟩, 3, []⟩, ⟨⟨[(0, 0), (3, 1)], by simp⟩, 4, []⟩]

private theorem ofOrder_cycle : Report.ofOrder [2, 3, 2, 2, 4] cycleRules [4, 3, 2, 1, 0] =
    ⟨4, 1, 3, 13⟩ := by
  decide

/-- On a cycle beside a variable that no rule mentions, the first removal adds the one chord. -/
theorem diagnostics_of_cycle :
    (∃ solution, solve .lastFirst [2, 3, 2, 2, 4] cycleRules = .ok (solution, ⟨4, 1, 3, 13⟩)) ∧
    ∃ removed solution, removed.Perm (List.range 5) ∧
      Narrowest [2, 3, 2, 2, 4] cycleRules removed ∧
      solve .minDegree [2, 3, 2, 2, 4] cycleRules =
        .ok (solution, .ofOrder [2, 3, 2, 2, 4] cycleRules removed) := by
  have hall := fun order => @diagnostics_of_primal Rat _ [2, 3, 2, 2, 4] (by decide) order
    cycleRules rfl
  have htags : ∀ rule ∈ cycleRules, ∀ tag ∈ rule.tags, tag.1 < 5 := by decide
  constructor
  · obtain ⟨-, final, -, -, -, hlast, -, -, -, -, hsolve⟩ := hall .lastFirst
    obtain ⟨solution, hsolution⟩ := hsolve htags
    rw [show final.removed = [4, 3, 2, 1, 0] from hlast rfl, ofOrder_cycle] at hsolution
    exact ⟨solution, hsolution⟩
  · obtain ⟨-, final, -, -, hperm, -, hnarrowest, -, -, -, hsolve⟩ := hall .minDegree
    obtain ⟨solution, hsolution⟩ := hsolve htags
    exact ⟨final.removed, solution, hperm, hnarrowest rfl, hsolution⟩

end Elimination

end JointDecision

import JointDecision.Proofs.Elimination.Run
import JointDecision.Proofs.Objective

/-! # The outcome of elimination

When no variable is live, only rules over no variables are left. Their tags write a best assignment
over the origin, the least of the best when the variable removed last counts most. -/

namespace JointDecision.Elimination

open FactorGraph

/-- The valuation `y` is best, and the least of the best if the variable removed last counts most. -/
structure LeastBest (space : Space) (rules : List (Rule Rat)) (removed : List Nat)
    (y : Valuation) : Prop where
  respects : space.Respects y
  greatest : ∀ z, space.Respects z → objective rules z ≤ objective rules y
  least : ∀ z, space.Respects z → objective rules z = objective rules y →
    removed.reverse.map y ≤ removed.reverse.map z

section Tags

variable {α : Type} [Payoff α] {space : Space}

def lastChoice (tags : List (Nat × Nat)) (key : Nat) : Option Nat :=
  tags.reverse.lookup key

theorem lastChoice_append (tags others : List (Nat × Nat)) (key : Nat) :
    lastChoice (tags ++ others) key = (lastChoice others key).or (lastChoice tags key) := by
  rw [lastChoice, List.reverse_append, List.lookup_append]
  rfl

theorem lastChoice_singleton (key choice other : Nat) :
    lastChoice [(key, choice)] other = if other = key then some choice else none := by
  by_cases heq : other = key
  · simp [lastChoice, heq]
  · simp [lastChoice, heq]

theorem mem_of_lastChoice {tags : List (Nat × Nat)} {key choice : Nat}
    (h : lastChoice tags key = some choice) : (key, choice) ∈ tags :=
  List.mem_reverse.1 (mem_of_lookup h)

theorem lastChoice_eq_none_iff {tags : List (Nat × Nat)} {key : Nat} :
    lastChoice tags key = none ↔ key ∉ tags.map Prod.fst := by
  constructor
  · intro hnone hkey
    obtain ⟨tag, htag, rfl⟩ := List.mem_map.1 hkey
    have hout := List.lookup_eq_none_iff.1 hnone tag (List.mem_reverse.2 htag)
    simp at hout
  · intro hkey
    rw [Option.eq_none_iff_forall_ne_some]
    intro choice hchoice
    exact hkey (List.mem_map_of_mem (mem_of_lastChoice hchoice))

/-- Tags that do not contradict each other can be written in any order. -/
theorem lastChoice_of_agree {tags : List (Nat × Nat)} {y : Valuation}
    (h : ∀ tag ∈ tags, tag.2 = y tag.1) {key : Nat} (hkey : key ∈ tags.map Prod.fst) :
    lastChoice tags key = some (y key) := by
  cases hlast : lastChoice tags key with
  | some choice => exact congrArg some (h _ (mem_of_lastChoice hlast))
  | none => exact absurd hkey (lastChoice_eq_none_iff.1 hlast)

/-- Tags are written when all their variables are there, and the last one for a variable counts. -/
theorem assign?_lastChoice {full : List Nat} {tags : List (Nat × Nat)}
    (h : ∀ tag ∈ tags, tag.1 < full.length) :
    ∃ result, assign? full tags = some result ∧ result.length = full.length ∧
      ∀ key, valuation result key = (lastChoice tags key).getD (valuation full key) := by
  induction tags generalizing full with
  | nil => exact ⟨full, rfl, rfl, fun _ => rfl⟩
  | cons tag tags ih =>
    obtain ⟨key, choice⟩ := tag
    have hkey : key < full.length := h _ List.mem_cons_self
    obtain ⟨result, hresult, hlength, hread⟩ := @ih (full.set key choice) fun tag htag => by
      rw [List.length_set]
      exact h tag (List.mem_cons_of_mem _ htag)
    refine ⟨result, by rw [assign?, if_pos hkey, hresult], hlength.trans List.length_set, ?_⟩
    intro other
    have hlast := lastChoice_append [(key, choice)] tags other
    rw [List.singleton_append, lastChoice_singleton] at hlast
    rw [hread, hlast]
    cases lastChoice tags other with
    | some last => rfl
    | none =>
      by_cases heq : other = key
      · simp [heq, valuation, hkey]
      · simp [heq, valuation, Ne.symm heq]

theorem lt_of_assign? {full result : List Nat} {tags : List (Nat × Nat)}
    (h : assign? full tags = some result) : ∀ tag ∈ tags, tag.1 < full.length := by
  induction tags generalizing full with
  | nil => simp
  | cons tag tags ih =>
    rw [assign?] at h
    split at h
    · rename_i hkey
      refine List.forall_mem_cons.2 ⟨hkey, fun other hother => ?_⟩
      have hlt := ih h other hother
      rwa [List.length_set] at hlt
    · cases h

theorem assemble?_spec {finals : List (Rule α)} {solution : Solution α}
    (h : assemble? space finals = some solution) :
    solution.assignment.length = space.length ∧
      solution.payoff = (finals.map Rule.payoff).foldl (· + ·) Payoff.zero ∧
      ∀ key, valuation solution.assignment key =
        (lastChoice (finals.flatMap Rule.tags) key).getD 0 := by
  obtain ⟨full, hfull, rfl⟩ := Option.map_eq_some_iff.1 h
  obtain ⟨result, hresult, hlength, hread⟩ := assign?_lastChoice (lt_of_assign? hfull)
  obtain rfl := Option.some.inj (hfull.symm.trans hresult)
  refine ⟨hlength.trans List.length_replicate, List.foldl_map.symm, fun key => ?_⟩
  rw [hread, Space.valuation_origin]

theorem exists_assemble? {finals : List (Rule α)}
    (h : ∀ tag ∈ finals.flatMap Rule.tags, tag.1 < space.length) :
    ∃ solution, assemble? space finals = some solution := by
  have hrange : ∀ tag ∈ finals.flatMap Rule.tags, tag.1 < space.origin.length := by
    intro tag htag
    rw [Space.origin, List.length_replicate]
    exact h tag htag
  obtain ⟨result, hresult, -⟩ := assign?_lastChoice hrange
  rw [assemble?, hresult]
  exact ⟨_, rfl⟩

end Tags

theorem factors_eq_nil {δ : Type} {graph : FactorGraph δ} (hsound : graph.Sound)
    (hnone : graph.liveVariables = []) : graph.factors = [] := by
  refine List.eq_nil_iff_forall_not_mem.2 fun entry hentry => ?_
  obtain ⟨hscope, hlive⟩ := hsound.scope (mem_factors.1 hentry)
  cases hkeys : entry.2.scope.keys with
  | nil =>
    apply hscope
    cases hscope' : entry.2.scope
    rw [hscope'] at hkeys
    cases hkeys
    rfl
  | cons key rest =>
    have hmem := mem_liveVariables.2 (hlive key (by simp [hkeys]))
    rw [hnone] at hmem
    cases hmem

theorem rules_eq_nil {α : Type} {graph : FactorGraph (List (Rule α))} (hsound : graph.Sound)
    (hnone : graph.liveVariables = []) : graph.rules = [] := by
  rw [rules, factors_eq_nil hsound hnone, List.flatMap_nil]

theorem earned_of_entries_eq_nil {α : Type} {rules : List (Rule α)}
    (h : ∀ rule ∈ rules, rule.assignment.entries = []) (x : Valuation) : earned rules x = rules := by
  refine List.filter_eq_self.2 fun rule hrule => ?_
  rw [Assignment.holds_iff, h rule hrule]
  intro entry hentry
  cases hentry

private theorem assemble?_eq {space : Space} {start finals : List (Rule Rat)} {removed : List Nat}
    {y : Valuation} (hfinals : ∀ rule ∈ finals, rule.assignment.entries = [])
    (hremoved : ∀ key ∈ removed, key < space.length)
    (h : Resolves space start finals removed (fun _ => 0) y) :
    assemble? space finals = some ⟨space.tabulate y, objective start y⟩ := by
  have htags : tagsAt finals (fun _ => 0) = finals.flatMap Rule.tags := by
    rw [tagsAt, earned_of_entries_eq_nil hfinals]
  have hpayoff : objective finals (fun _ => 0) = (finals.map Rule.payoff).sum := by
    rw [objective, earned_of_entries_eq_nil hfinals]
  obtain ⟨solution, hsolution⟩ : ∃ solution, assemble? space finals = some solution :=
    exists_assemble? fun tag htag => hremoved _ (h.known tag (htags ▸ htag)).1
  obtain ⟨hlength, hworth, hvalues⟩ := assemble?_spec hsolution
  have hread : ∀ key, valuation solution.assignment key = y key := by
    intro key
    rw [hvalues]
    by_cases htag : key ∈ (finals.flatMap Rule.tags).map Prod.fst
    · rw [lastChoice_of_agree (fun tag htag => (h.known tag (htags ▸ htag)).2) htag]
      rfl
    · rw [lastChoice_eq_none_iff.2 htag]
      by_cases hin : key ∈ removed
      · rcases h.chosen key hin with hchosen | hzero
        · exact absurd (List.mem_map_of_mem (htags ▸ hchosen)) htag
        · exact hzero.symm
      · exact (h.agrees key hin).symm
  rw [hsolution]
  obtain ⟨full, payoff⟩ := solution
  have hfull : full = space.tabulate y :=
    (Space.tabulate_valuation hlength).symm.trans (congrArg space.tabulate (funext hread))
  have hobjective : payoff = objective start y := by
    rw [← h.objective_eq, hpayoff]
    refine hworth.trans ?_
    rw [Payoff.foldl_add_rat, Payoff.zero_rat, zero_add]
  rw [hfull, hobjective]

/-- Solving a graph fails at most when the tags that are left are written. -/
theorem solveGraph_eq {α : Type} [Payoff α] {space : Space} (hspace : space.Inhabited)
    {order : Order} {graph : FactorGraph (List (Rule α))} (hcount : graph.varCount = space.length)
    {final : Run α} (hrun : eliminateAll? space order graph = some final) :
    solveGraph order space graph = (Failure.unlessOutOfBounds (assemble? space final.finals)).map
      fun solution => (solution, Report.ofSteps final.steps) := by
  simp only [solveGraph, checkSpace_eq_ok hspace hcount, hrun, Failure.unlessOutOfBounds, bind,
    Except.bind]
  cases assemble? space final.finals <;> rfl

theorem solveGraph_eq_error {α : Type} [Payoff α] {space : Space} (hspace : space.Inhabited)
    {order : Order} {graph : FactorGraph (List (Rule α))} (hcount : graph.varCount = space.length)
    (hrun : eliminateAll? space order graph = none) :
    solveGraph order space graph = .error .outOfBounds := by
  simp only [solveGraph, checkSpace_eq_ok hspace hcount, hrun, Failure.unlessOutOfBounds, bind,
    Except.bind]

/-- Elimination goes through on every sound graph without tags, and what it assembles is the least
of the best assignments. -/
theorem eliminateAll?_spec {space : Space} (hspace : space.Inhabited) (order : Order)
    {graph : FactorGraph (List (Rule Rat))} (hsound : graph.Sound)
    (hcount : graph.varCount = space.length) (hfits : graph.Fits space)
    (htags : ∀ rule ∈ graph.rules, rule.tags = []) :
    ∃ final y, eliminateAll? space order graph = some final ∧
      assemble? space final.finals = some ⟨space.tabulate y, objective graph.rules y⟩ ∧
      LeastBest space graph.rules final.removed y ∧
      final.removed.Perm graph.liveVariables ∧
      (order = .lastFirst → final.removed = graph.liveVariables.reverse) := by
  obtain ⟨final, hrun, hfinal, hnone, hperm, hlast⟩ := eliminateAll?_of_steps
    (Invariant.steps hspace) order (invariant_start hsound hcount hfits htags)
  obtain ⟨y, hy⟩ := hfinal.resolves _ hspace.respects_zero
  rw [Run.rules, rules_eq_nil hfinal.intact.sound hnone, List.append_nil] at hy
  -- Rules look at live variables only, and these were all removed.
  have hlook : ∀ rule ∈ graph.rules, ∀ entry ∈ rule.assignment.entries,
      entry.1 ∈ final.removed := by
    intro rule hrule entry hentry
    obtain ⟨handle, factor, hfactor, hin⟩ := mem_rules.1 hrule
    have hkey := (hfits _ (mem_factors.2 hfactor) rule hin entry hentry).1
    exact hperm.mem_iff.2 (mem_liveVariables.2 ((hsound.scope hfactor).2 _ hkey))
  have hclip : ∀ z, space.Respects z → ∃ w, space.Respects w ∧
      (∀ key ∉ final.removed, w key = 0) ∧ objective graph.rules z = objective graph.rules w ∧
      final.removed.reverse.map z = final.removed.reverse.map w := by
    intro z hz
    refine ⟨fun key => if key ∈ final.removed then z key else 0, ?_, ?_, ?_, ?_⟩
    · intro key hkey
      dsimp only
      split
      · exact hz key hkey
      · exact hspace.domain_pos hkey
    · intro key hkey
      exact if_neg hkey
    · exact objective_congr fun rule hrule entry hentry =>
        (if_pos (hlook rule hrule entry hentry)).symm
    · exact List.map_congr_left fun key hkey => (if_pos (List.mem_reverse.1 hkey)).symm
  refine ⟨final, y, hrun, ?_, ⟨hy.respects, ?_, ?_⟩, hperm, hlast⟩
  · exact assemble?_eq hfinal.intact.finals (fun key hkey => (hfinal.gone key hkey).1) hy
  · intro z hz
    obtain ⟨w, hw, hoff, hobjective, -⟩ := hclip z hz
    rw [hobjective]
    exact hy.greatest w hw hoff
  · intro z hz hequal
    obtain ⟨w, hw, hoff, hobjective, hmap⟩ := hclip z hz
    rw [hmap]
    exact hy.least w hw hoff (hobjective.symm.trans hequal)

end JointDecision.Elimination

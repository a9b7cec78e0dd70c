import JointDecision.Proofs.Elimination.Alike
import Mathlib

/-! # Values outside the domains

Rules are checked against the space, the rules of a graph are not. A value that is the size of its
domain is filed in the wildcard list, so a run takes the rule for one that does not mention the
variable, and a value above that has no list. -/

namespace JointDecision

variable {α : Type}

/-- The assignment without the values that are filed in wildcard lists. -/
def Assignment.clipped (space : Space) (a : Assignment) : Assignment :=
  ⟨a.entries.filter fun entry => entry.2 ≠ space.domain entry.1,
    a.increasing.sublist (List.filter_sublist.map Prod.fst)⟩

def Rule.clipped (space : Space) (rule : Rule α) : Rule α :=
  { rule with assignment := rule.assignment.clipped space }

theorem Assignment.mem_clipped {space : Space} {a : Assignment} {entry : Nat × Nat} :
    entry ∈ (a.clipped space).entries ↔ entry ∈ a.entries ∧ entry.2 ≠ space.domain entry.1 := by
  simp [clipped]

theorem Assignment.clipped_eq_self {space : Space} {a : Assignment}
    (h : ∀ entry ∈ a.entries, entry.2 ≠ space.domain entry.1) : a.clipped space = a := by
  have hentries : (a.clipped space).entries = a.entries :=
    List.filter_eq_self.2 fun entry hentry => by simpa using h entry hentry
  cases a
  cases hclipped : Assignment.clipped space _
  rw [hclipped] at hentries
  cases hentries
  rfl

theorem Rule.clipped_eq_self {space : Space} {rule : Rule α}
    (h : ∀ entry ∈ rule.assignment.entries, entry.2 ≠ space.domain entry.1) :
    rule.clipped space = rule := by
  rw [clipped, Assignment.clipped_eq_self h]

private theorem Assignment.listOf_clipped (space : Space) (a : Assignment) :
    (a.clipped space).listOf space = a.listOf space := by
  funext key
  cases hvalue : a.valueOf? key with
  | none =>
    have hnone : (a.clipped space).valueOf? key = none := by
      rw [Option.eq_none_iff_forall_ne_some]
      intro value hclipped
      have hmem := (mem_clipped.1 (valueOf?_eq_some_iff.1 hclipped)).1
      rw [valueOf?_eq_some_iff.2 hmem] at hvalue
      cases hvalue
    rw [listOf, listOf, hvalue, hnone]
  | some value =>
    have hmem := valueOf?_eq_some_iff.1 hvalue
    by_cases hsize : value = space.domain key
    · have hnone : (a.clipped space).valueOf? key = none := by
        rw [Option.eq_none_iff_forall_ne_some]
        intro other hclipped
        obtain ⟨hother, hne⟩ := mem_clipped.1 (valueOf?_eq_some_iff.1 hclipped)
        rw [← valueOf?_eq_some_iff, hvalue] at hother
        exact hne (Option.some.inj hother ▸ hsize)
      rw [listOf, listOf, hvalue, hnone, hsize]
      rfl
    · rw [listOf, listOf, hvalue, valueOf?_eq_some_iff.2 (mem_clipped.2 ⟨hmem, hsize⟩)]

namespace FactorGraph

variable {space : Space} {graph : FactorGraph (List (Rule α))}

/-- Whether every rule of a factor mentions only variables of the factor's scope. -/
def Scoped (graph : FactorGraph (List (Rule α))) : Prop :=
  ∀ entry ∈ graph.factors, ∀ rule ∈ entry.2.data, ∀ item ∈ rule.assignment.entries,
    item.1 ∈ entry.2.scope.keys

def clipped (space : Space) (graph : FactorGraph (List (Rule α))) : FactorGraph (List (Rule α)) :=
  graph.mapData (List.map (Rule.clipped space))

private theorem rules_clipped (space : Space) (graph : FactorGraph (List (Rule α))) :
    (graph.clipped space).rules = graph.rules.map (Rule.clipped space) := by
  rw [rules, rules, clipped, factors_mapData, List.flatMap_map, List.map_flatMap]

private theorem fits_clipped (hscoped : graph.Scoped)
    (hbelow : ∀ rule ∈ graph.rules, ∀ entry ∈ rule.assignment.entries,
      entry.2 ≤ space.domain entry.1) : (graph.clipped space).Fits space := by
  intro entry hentry rule hrule item hitem
  rw [clipped, factors_mapData] at hentry
  obtain ⟨old, hold, rfl⟩ := List.mem_map.1 hentry
  obtain ⟨before, hbefore, rfl⟩ := List.mem_map.1 hrule
  obtain ⟨hin, hne⟩ := Assignment.mem_clipped.1 hitem
  have hle := hbelow before (List.mem_flatMap.2 ⟨old, hold, hbefore⟩) item hin
  exact ⟨hscoped old hold before hbefore item hin, by omega⟩

end FactorGraph

namespace Elimination

open FactorGraph

variable {space : Space}

/-- A run cannot tell the clipped rules from the rules. -/
theorem clipped_alike (space : Space) (foreign : Nat → Prop)
    (graph : FactorGraph (List (Rule α))) :
    (graph.clipped space).Alike (RulesAlike space foreign) graph := by
  have hrules : ∀ scope (rules : List (Rule α)),
      RulesAlike space foreign scope (rules.map (Rule.clipped space)) rules := by
    intro scope rules
    refine List.forall₂_map_left_iff.2 (List.forall₂_same.2 fun rule _ => ?_)
    exact ⟨(Assignment.listOf_clipped space rule.assignment).symm, rfl, fun _ _ _ => rfl⟩
  have hflip : graph.Alike (fun scope data data' => RulesAlike space foreign scope data' data)
      (graph.clipped space) :=
    mapData_alike fun {_ factor} _ => hrules factor.scope factor.data
  exact hflip.symm

private theorem listOf_le_of_file? {scope : Scope} {map filed : TrieMap (Rule α)}
    {rules : List (Rule α)} (hover : FiledOver space scope map.trie)
    (h : ConsumedFactor.file? scope map rules = some filed) :
    ∀ rule ∈ rules, ∀ key ∈ scope.keys, rule.assignment.listOf space key ≤ space.domain key := by
  induction rules generalizing map with
  | nil => simp
  | cons rule rules ih =>
    simp only [ConsumedFactor.file?, TrieMap.insert?] at h
    cases hinsert : map.trie.insert? (rule.assignment.localTo scope) with
    | none =>
      rw [hinsert] at h
      cases h
    | some inserted =>
      rw [hinsert] at h
      refine List.forall_mem_cons.2 ⟨fun key hkey => hover.listOf_le ?_ hkey,
        ih (hover.insert? hinsert) h⟩
      rw [Trie.insert?] at hinsert
      split at hinsert
      · assumption
      · cases hinsert

private theorem le_of_ofRules? {neighborhood scope : Scope} {rules : List (Rule α)}
    {consumed : ConsumedFactor α}
    (h : ConsumedFactor.ofRules? space neighborhood scope rules = some consumed) :
    ∀ rule ∈ rules, ∀ entry ∈ rule.assignment.entries, entry.1 ∈ scope.keys →
      entry.2 ≤ space.domain entry.1 := by
  intro rule hrule entry hentry hkey
  simp only [ConsumedFactor.ofRules?, Option.bind_eq_bind, Option.bind_eq_some_iff] at h
  obtain ⟨radix, hradix, filed, hfiled, -⟩ := h
  obtain rfl := Space.eq_of_radix? hradix
  have hle := listOf_le_of_file? (filedOver_empty space scope) hfiled rule hrule entry.1 hkey
  rwa [Assignment.listOf, Assignment.valueOf?_eq_some_iff.2 hentry] at hle

def Jammed (space : Space) (graph : FactorGraph (List (Rule α))) : Prop :=
  ∃ handle factor, graph.factor? handle = some factor ∧
    ∃ rule ∈ factor.data, ∃ entry ∈ rule.assignment.entries,
      entry.1 ∈ factor.scope.keys ∧ space.domain entry.1 < entry.2

variable [Payoff α]

/-- A step consumes no such factor, and other factors keep their rules. -/
theorem Jammed.eliminate? {run after : Run α} (h : Jammed space run.graph)
    (hsound : run.graph.Sound) {key : Nat} (hkey : key < run.graph.varCount)
    (hstep : run.eliminate? space key = some after) : Jammed space after.graph := by
  obtain ⟨handle, factor, hfactor, rule, hrule, entry, hentry, hin, hlt⟩ := h
  obtain ⟨-, -, -, hfactors⟩ := eliminate?_graph hsound hkey hstep
  obtain ⟨_, _, hread⟩ | ⟨found, hfound, hscope, hdata⟩ := hfactors handle factor hfactor
  · exact absurd (le_of_ofRules? hread rule hrule entry hentry hin) (Nat.not_le.2 hlt)
  · exact ⟨handle, found, hfound, rule, hdata hrule, entry, hentry, hscope ▸ hin, hlt⟩

/-- A run goes on until no factor is left, so it does not go through. -/
theorem Jammed.eliminateAll? {graph : FactorGraph (List (Rule α))} (h : Jammed space graph)
    (hsound : graph.Sound) (order : Order) : eliminateAll? space order graph = none := by
  rw [Option.eq_none_iff_forall_ne_some]
  intro final hfinal
  have hsteps : ∀ {run after : Run α} {key : Nat}, run.graph.Sound ∧ Jammed space run.graph →
      key ∈ run.graph.liveVariables → run.eliminate? space key = some after →
      (after.graph.Sound ∧ Jammed space after.graph) ∧
        after.graph.liveVariables = run.graph.liveVariables.erase key := by
    rintro run after key ⟨hsound, hjammed⟩ hkey hstep
    have hlt := (mem_liveVariables.1 hkey).1
    obtain ⟨hafter, hcount, hlive, -⟩ := eliminate?_graph hsound hlt hstep
    exact ⟨⟨hafter, hjammed.eliminate? hsound hlt hstep⟩, liveVariables_erase hcount hlive⟩
  obtain ⟨⟨hkept, handle, factor, hfactor, rule, hrule, -⟩, hnone⟩ :=
    advance?_of_some (P := fun run : Run α => run.graph.Sound ∧ Jammed space run.graph) hsteps
      order graph.varCount ⟨hsound, h⟩ (length_liveVariables_le graph) hfinal
  have hmem := mem_rules.2 ⟨handle, factor, hfactor, hrule⟩
  rw [rules_eq_nil hkept hnone] at hmem
  cases hmem

/-- With no value above a domain, a run solves the problem of the clipped rules. -/
theorem solveGraph_clipped {graph : FactorGraph (List (Rule Rat))} (hspace : space.Inhabited)
    (order : Order) (hgraph : Reachable space.length graph) (hscoped : graph.Scoped)
    (htags : ∀ rule ∈ graph.rules, rule.tags = [])
    (hbelow : ∀ rule ∈ graph.rules, ∀ entry ∈ rule.assignment.entries,
      entry.2 ≤ space.domain entry.1) :
    ∃ solution report, solveGraph order space graph = .ok (solution, report) ∧
      Optimal space (graph.rules.map (Rule.clipped space)) solution := by
  have halike := clipped_alike space (fun _ => False) graph
  have hsound : (graph.clipped space).Sound := halike.symm.sound hgraph.sound
  have hcount : (graph.clipped space).varCount = space.length :=
    halike.varCount.symm.trans hgraph.varCount_eq
  have hfits := fits_clipped hscoped hbelow
  have hclean : ∀ rule ∈ (graph.clipped space).rules, rule.tags = [] := by
    intro rule hrule
    rw [rules_clipped] at hrule
    obtain ⟨before, hbefore, rfl⟩ := List.mem_map.1 hrule
    exact htags before hbefore
  obtain ⟨final, y, hfinal, hassemble, hbest, -⟩ :=
    eliminateAll?_spec hspace order hsound hcount hfits hclean
  have hruns := eliminateAll?_alike hspace order (intact_start hsound hcount hfits) halike
  rw [hfinal] at hruns
  generalize hfinal' : eliminateAll? space order graph = found at hruns
  cases hruns with
  | @some _ final' hends =>
    have hassemble' := assemble?_of_alike hends.finals hassemble
    have hsolve := solveGraph_eq hspace hgraph.varCount_eq hfinal'
    rw [hassemble'] at hsolve
    refine ⟨_, _, hsolve, ?_⟩
    rw [← rules_clipped]
    exact optimal_tabulate (overSpace_of_fits hsound hcount hfits) hbest.respects hbest.greatest

/-- What solving a graph amounts to when the values of its rules are not checked. A value above its
domain is an index out of bounds. Otherwise the solution is best for the rules without the values
that are the sizes of their domains, so as long as there is no such value, a solution is best for
the rules themselves. -/
theorem solveGraph_of_scoped {graph : FactorGraph (List (Rule Rat))} (hspace : space.Inhabited)
    (order : Order) (hgraph : Reachable space.length graph) (hscoped : graph.Scoped)
    (htags : ∀ rule ∈ graph.rules, rule.tags = []) :
    ((∃ rule ∈ graph.rules, ∃ entry ∈ rule.assignment.entries, space.domain entry.1 < entry.2) →
      solveGraph order space graph = .error .outOfBounds) ∧
    ((∀ rule ∈ graph.rules, ∀ entry ∈ rule.assignment.entries, entry.2 ≤ space.domain entry.1) →
      ∃ solution report, solveGraph order space graph = .ok (solution, report) ∧
        Optimal space (graph.rules.map (Rule.clipped space)) solution) ∧
    ((∀ rule ∈ graph.rules, ∀ entry ∈ rule.assignment.entries, entry.2 ≠ space.domain entry.1) →
      solveGraph order space graph = .error .outOfBounds ∨
        ∃ solution report, solveGraph order space graph = .ok (solution, report) ∧
          Optimal space graph.rules solution) := by
  have habove : (∃ rule ∈ graph.rules, ∃ entry ∈ rule.assignment.entries,
      space.domain entry.1 < entry.2) → solveGraph order space graph = .error .outOfBounds := by
    rintro ⟨rule, hrule, entry, hentry, hlt⟩
    obtain ⟨handle, factor, hfactor, hin⟩ := mem_rules.1 hrule
    have hkey := hscoped _ (mem_factors.2 hfactor) rule hin entry hentry
    have hjammed : Jammed space graph :=
      ⟨handle, factor, hfactor, rule, hin, entry, hentry, hkey, hlt⟩
    exact solveGraph_eq_error hspace hgraph.varCount_eq (hjammed.eliminateAll? hgraph.sound order)
  have hbelow := solveGraph_clipped hspace order hgraph hscoped htags
  refine ⟨habove, hbelow, fun hsize => ?_⟩
  by_cases hjammed : ∃ rule ∈ graph.rules, ∃ entry ∈ rule.assignment.entries,
      space.domain entry.1 < entry.2
  · exact .inl (habove hjammed)
  · have hle : ∀ rule ∈ graph.rules, ∀ entry ∈ rule.assignment.entries,
        entry.2 ≤ space.domain entry.1 := by
      intro rule hrule entry hentry
      by_contra hlt
      exact hjammed ⟨rule, hrule, entry, hentry, Nat.lt_of_not_le hlt⟩
    obtain ⟨solution, report, hsolve, hoptimal⟩ := hbelow hle
    refine .inr ⟨solution, report, hsolve, ?_⟩
    have hsame : graph.rules.map (Rule.clipped space) = graph.rules :=
      calc
        graph.rules.map (Rule.clipped space) = graph.rules.map id :=
          List.map_congr_left fun rule hrule => Rule.clipped_eq_self (hsize rule hrule)
        _ = graph.rules := List.map_id _
    rwa [hsame] at hoptimal

def valueRule (value : Nat) (payoff : Rat) : Rule Rat :=
  ⟨⟨[(0, value)], by simp⟩, payoff, []⟩

def valueRules (value : Nat) : List (Rule Rat) :=
  [valueRule value 5, valueRule 1 1]

def valueScope : Scope := ⟨[0], by simp⟩

def valueGraph (value : Nat) : FactorGraph (List (Rule Rat)) :=
  ((FactorGraph.new 1).create valueScope).2.modifyData ⟨0, 1⟩ (· ++ valueRules value)

private theorem valueGraph_factors (value : Nat) :
    (valueGraph value).factors = [(⟨0, 1⟩, ⟨valueScope, 0, valueRules value⟩)] := rfl

private theorem valueGraph_rules (value : Nat) : (valueGraph value).rules = valueRules value := rfl

private theorem reachable_valueGraph (value : Nat) : Reachable 1 (valueGraph value) := by
  have hensure : (FactorGraph.new 1 : FactorGraph (List (Rule Rat))).ensure? valueScope =
      some ((FactorGraph.new 1).create valueScope) := rfl
  refine .modifyData _ _ (.ensure .new ⟨by decide, fun key hkey => ?_⟩ hensure)
  obtain rfl : key = 0 := by simpa [valueScope] using hkey
  exact ⟨by decide, rfl⟩

private theorem scoped_valueGraph (value : Nat) : (valueGraph value).Scoped := by
  intro entry hentry
  rw [valueGraph_factors, List.mem_singleton] at hentry
  subst hentry
  simp [valueRules, valueRule, valueScope]

private theorem tags_valueGraph (value : Nat) :
    ∀ rule ∈ (valueGraph value).rules, rule.tags = [] := by
  simp [valueGraph_rules, valueRules, valueRule]

/-- A value above the domain, one that is its size, and one of its values. -/
theorem solveGraph_of_scoped_values :
    solveGraph .lastFirst [2] (valueGraph 3) = .error .outOfBounds ∧
      (∃ solution report, solveGraph .minDegree [2] (valueGraph 2) = .ok (solution, report) ∧
        Optimal [2] ((valueRules 2).map (Rule.clipped [2])) solution) ∧
      (∃ solution report, solveGraph .minDegree [2] (valueGraph 0) = .ok (solution, report) ∧
        Optimal [2] (valueRules 0) solution) := by
  have hspec := fun order value => @solveGraph_of_scoped [2] (valueGraph value) (by decide) order
    (reachable_valueGraph value) (scoped_valueGraph value) (tags_valueGraph value)
  refine ⟨(hspec .lastFirst 3).1 (by decide), (hspec .minDegree 2).2.1 (by decide), ?_⟩
  obtain hfails | hsolves := (hspec .minDegree 0).2.2 (by decide)
  · have hruns : (solveGraph .minDegree [2] (valueGraph 0)).isOk = true := by cbv
    rw [hfails] at hruns
    cases hruns
  · exact hsolves

/-- A value that is the size of its domain earns its payoff in every full assignment. -/
theorem solveGraph_counts_wild :
    Reachable 1 (valueGraph 2) ∧ (valueGraph 2).Scoped ∧
      (∀ rule ∈ (valueGraph 2).rules, rule.tags = []) ∧
      solveGraph .lastFirst [2] (valueGraph 2) = .ok (⟨[1], 6⟩, ⟨1, 0, 1, 1⟩) ∧
      Optimal [2] (valueGraph 2).rules ⟨[1], 1⟩ := by
  refine ⟨reachable_valueGraph 2, scoped_valueGraph 2, tags_valueGraph 2, by cbv, ?_, by cbv, ?_⟩
  · decide
  · intro full hfull
    obtain ⟨value, rfl⟩ := List.length_eq_one_iff.1 hfull.length_eq
    have hvalue : value < 2 := (Space.admits_iff.1 hfull).2 0 (by decide)
    obtain rfl | rfl : value = 0 ∨ value = 1 := by omega
    · exact ⟨0, by cbv, by decide⟩
    · exact ⟨1, by cbv, le_refl _⟩

end Elimination

end JointDecision

import JointDecision.Proofs.Elimination.Optimality
import JointDecision.Proofs.MaxPlus.Network

/-! # The two graphs of a problem

Both solvers file the rules of a problem into a graph, one as lists of rules and one as tables of
payoffs. The two graphs have the same factors under the same handles, one for each scope of a rule
in the order of first appearance, and every full assignment earns from a table what it earns from
the list. -/

namespace JointDecision

open FactorGraph MixedRadix

variable {α δ : Type}

/-- The scopes of some rules, each where it appears first. -/
def scopesOf (rules : List (Rule α)) : List Scope :=
  (rules.map fun rule => rule.assignment.scope).eraseDups

private theorem scopesOf_concat (rules : List (Rule α)) (rule : Rule α) :
    scopesOf (rules ++ [rule]) =
      if rule.assignment.scope ∈ scopesOf rules then scopesOf rules
      else scopesOf rules ++ [rule.assignment.scope] := by
  rw [scopesOf, List.map_append, List.map_singleton, eraseDups_concat]
  rfl

theorem mem_scopesOf {rules : List (Rule α)} {scope : Scope} :
    scope ∈ scopesOf rules ↔ ∃ rule ∈ rules, rule.assignment.scope = scope := by
  rw [scopesOf, List.mem_eraseDups, List.mem_map]

private theorem nodup_scopesOf (rules : List (Rule α)) : (scopesOf rules).Nodup := by
  induction rules using List.reverseRecOn with
  | nil => exact List.nodup_nil
  | append_singleton rules rule ih =>
    rw [scopesOf_concat]
    split
    · exact ih
    · rename_i hnew
      refine List.nodup_append.2 ⟨ih, List.nodup_singleton _, ?_⟩
      rintro scope hscope _ hlast rfl
      exact hnew (List.mem_singleton.1 hlast ▸ hscope)

namespace FactorGraph

/-- Whether the factors of a graph are over the given scopes and were made in this order, each in
the next slot behind the variables, and none was erased. -/
structure Lined (scopes : List Scope) (graph : FactorGraph δ) : Prop where
  vacant : graph.vacant = []
  size : graph.slots.size = graph.varCount + scopes.length
  serial : graph.nextSerial = scopes.length
  placed : ∀ {handle factor}, graph.factor? handle = some factor →
    handle.slot = graph.varCount + handle.serial ∧ scopes[handle.serial]? = some factor.scope

def lineup (varCount : Nat) (payload : Scope → δ) (scopes : List Scope) :
    List (Handle × Factor δ) :=
  scopes.zipIdx.map fun (scope, rank) => (⟨rank, varCount + rank⟩, ⟨scope, rank, payload scope⟩)

section Lineup

variable {varCount : Nat} {payload : Scope → δ} {scopes : List Scope}

private theorem mem_lineup {handle : Handle} {factor : Factor δ} :
    (handle, factor) ∈ lineup varCount payload scopes ↔
      handle.slot = varCount + handle.serial ∧ scopes[handle.serial]? = some factor.scope ∧
        factor.serial = handle.serial ∧ factor.data = payload factor.scope := by
  obtain ⟨serial, slot⟩ := handle
  obtain ⟨scope, rank, data⟩ := factor
  simp only [lineup, List.mem_map, List.mem_zipIdx_iff_getElem?]
  constructor
  · rintro ⟨⟨found, place⟩, hget, heq⟩
    cases heq
    exact ⟨rfl, hget, rfl, rfl⟩
  · rintro ⟨rfl, hget, rfl, rfl⟩
    exact ⟨(scope, rank), hget, rfl⟩

private theorem pairwise_lineup (varCount : Nat) (payload : Scope → δ) (scopes : List Scope) :
    (lineup varCount payload scopes).Pairwise fun a b => a.1.slot < b.1.slot := by
  have hranks : scopes.zipIdx.Pairwise fun a b => a.2 < b.2 := by
    rw [← List.pairwise_map (f := Prod.snd) (R := (· < ·)), List.zipIdx_map_snd]
    exact List.pairwise_lt_range'
  exact List.pairwise_map.2 (hranks.imp fun hlt => Nat.add_lt_add_left hlt _)

private theorem map_scope_lineup (varCount : Nat) (payload : Scope → δ) (scopes : List Scope) :
    (lineup varCount payload scopes).map (fun entry => entry.2.scope) = scopes := by
  rw [lineup, List.map_map]
  exact List.zipIdx_map_fst 0 scopes

private theorem eq_of_mem_lineup (hnodup : scopes.Nodup) {a b : Handle × Factor δ}
    (ha : a ∈ lineup varCount payload scopes) (hb : b ∈ lineup varCount payload scopes)
    (h : a.2.scope = b.2.scope) : a = b := by
  rw [← map_scope_lineup varCount payload scopes] at hnodup
  exact List.inj_on_of_nodup_map hnodup ha hb h

end Lineup

private theorem lined_new (varCount : Nat) : Lined [] (.new varCount : FactorGraph δ) where
  vacant := rfl
  size := Array.size_replicate
  serial := rfl
  placed {handle factor} hfactor := by
    rw [factor?_new] at hfactor
    cases hfactor

theorem Lined.create [EmptyCollection δ] {scopes : List Scope} {graph : FactorGraph δ}
    (h : Lined scopes graph) (hsound : graph.Sound) {scope : Scope} (hscope : graph.Asked scope) :
    Lined (scopes ++ [scope]) (graph.create scope).2 where
  vacant := by rw [show (graph.create scope).2.vacant = graph.vacant.tail from rfl, h.vacant]; rfl
  size := by
    simp only [FactorGraph.create, size_foldl_modify, occupy, h.vacant, Array.size_push, h.size,
      List.length_append, List.length_singleton, Nat.add_assoc]
  serial := by
    rw [List.length_append, ← h.serial]
    rfl
  placed {handle factor} hfactor := by
    rw [hsound.factor?_create hscope] at hfactor
    split at hfactor
    · rename_i heq
      cases hfactor
      have hslot : graph.nextSlot = graph.varCount + graph.nextSerial := by
        rw [nextSlot, h.vacant, List.headD_nil, h.size, h.serial]
      rw [heq]
      refine ⟨hslot, ?_⟩
      rw [show (graph.create scope).1.serial = graph.nextSerial from rfl, h.serial]
      exact List.getElem?_concat_length ..
    · obtain ⟨hslot, hget⟩ := h.placed hfactor
      refine ⟨hslot, ?_⟩
      rw [List.getElem?_append_left (List.getElem?_eq_some_iff.1 hget).1, hget]

theorem Lined.modifyData {scopes : List Scope} {graph : FactorGraph δ} (h : Lined scopes graph)
    (handle : Handle) (edit : δ → δ) : Lined scopes (graph.modifyData handle edit) := by
  have hplaced : ∀ {other found}, (graph.modifyData handle edit).factor? other = some found →
      other.slot = graph.varCount + other.serial ∧ scopes[other.serial]? = some found.scope := by
    intro other found hfound
    rw [Sound.factor?_modifyData] at hfound
    split at hfound
    · rename_i heq
      obtain ⟨factor, hfactor, rfl⟩ := Option.map_eq_some_iff.1 hfound
      have hold := h.placed hfactor
      rw [heq]
      exact hold
    · exact h.placed hfound
  rw [← Sound.modifyData_varCount graph handle edit] at hplaced
  refine ⟨?_, ?_, ?_, hplaced⟩
  · unfold FactorGraph.modifyData
    split <;> exact h.vacant
  · rw [Sound.modifyData_varCount, ← h.size]
    unfold FactorGraph.modifyData
    split
    · exact Array.size_setIfInBounds
    · rfl
  · rw [Sound.modifyData_nextSerial, h.serial]

section Filed

variable [EmptyCollection δ] {space : Space} {edit : Rule α → δ → δ} {rules : List (Rule α)}
  {graph : FactorGraph δ}

/-- Filing one more rule puts its factor at the end of the line, unless it is there already. -/
theorem Lined.file (h : Lined (scopesOf rules) graph) (hfiled : Filed space edit rules graph)
    {rule : Rule α} (hrule : rule.assignment.Over space) {handle : Handle} {middle : FactorGraph δ}
    (hensure : graph.ensure? rule.assignment.scope = some (handle, middle)) :
    Lined (scopesOf (rules ++ [rule])) (middle.modifyData handle (edit rule)) := by
  have hsound := hfiled.reachable.sound
  refine Lined.modifyData ?_ handle _
  rw [scopesOf_concat]
  rcases hsound.ensure?_cases hensure with ⟨rfl, factor, hfactor, hscope⟩ | ⟨hfresh, hcreate⟩
  · have hold : rule.assignment.scope ∈ scopesOf rules :=
      hscope ▸ List.mem_of_getElem? (h.placed hfactor).2
    rw [if_pos hold]
    exact h
  · have hnew : rule.assignment.scope ∉ scopesOf rules := by
      intro hold
      obtain ⟨other, hother, hsame⟩ := mem_scopesOf.1 hold
      have hnone := hfiled.rulesOver_eq_nil hfresh
      exact List.filter_eq_nil_iff.1 hnone other hother (by simpa using hsame)
    rw [if_neg hnew, show middle = (graph.create rule.assignment.scope).2 from
      congrArg Prod.snd hcreate]
    exact h.create hsound (hrule.asked hfiled.reachable.varCount_eq hfiled.live)

private theorem ofRules_lined (hspace : space.Inhabited) (hrules : checkRules space rules = .ok ())
    {edit? : Rule α → Option (δ → δ)} (hedit : ∀ rule ∈ rules, edit? rule = some (edit rule)) :
    ∃ graph, ofRules edit? space rules = .ok graph ∧ Filed space edit rules graph ∧
      Lined (scopesOf rules) graph := by
  have hstart : Filed space edit [] (.new space.length) ∧
      Lined (scopesOf ([] : List (Rule α))) (.new space.length : FactorGraph δ) :=
    ⟨filed_new space edit, lined_new space.length⟩
  obtain ⟨graph, hgraph, hfiled, hlined⟩ := file?_of_steps
    (P := fun filed graph => Filed space edit filed graph ∧ Lined (scopesOf filed) graph) hstart
    (fun rule hrule hkept => by
      have hover := over_of_checkRules hrules rule hrule
      obtain ⟨handle, middle, hensure, hfiled⟩ := hkept.1.file hover
      exact ⟨handle, middle, hensure, hfiled, hkept.2.file hkept.1 hover hensure⟩) hedit
  refine ⟨graph, ?_, hfiled, hlined⟩
  rw [ofRules_eq hspace hrules, hgraph]
  rfl

/-- The factors of a graph of rules, one by one. -/
theorem Filed.factors_eq (h : Filed space edit rules graph)
    (hlined : Lined (scopesOf rules) graph) :
    graph.factors = lineup space.length (fun scope =>
      (rulesOver rules scope).foldl (fun data rule => edit rule data) ∅) (scopesOf rules) := by
  have hcount := h.reachable.varCount_eq
  have hplace : ∀ {handle factor}, graph.factor? handle = some factor →
      (handle, factor) ∈ lineup space.length (fun scope =>
        (rulesOver rules scope).foldl (fun data rule => edit rule data) ∅) (scopesOf rules) := by
    intro handle factor hfactor
    obtain ⟨hslot, hget⟩ := hlined.placed hfactor
    exact mem_lineup.2 ⟨hcount ▸ hslot, hget, (node?_of_factor? hfactor).2, h.data hfactor⟩
  have hlisted : ∀ entry, entry ∈ graph.factors ↔ entry ∈ lineup space.length (fun scope =>
      (rulesOver rules scope).foldl (fun data rule => edit rule data) ∅) (scopesOf rules) := by
    rintro ⟨handle, factor⟩
    rw [mem_factors]
    refine ⟨hplace, fun hin => ?_⟩
    have hget := (mem_lineup.1 hin).2.1
    obtain ⟨rule, hrule, hscope⟩ := mem_scopesOf.1 (List.mem_of_getElem? hget)
    obtain ⟨found, other, hother, hover⟩ := h.found rule hrule
    have hsame := eq_of_mem_lineup (nodup_scopesOf rules) hin (hplace hother)
      (hscope.symm.trans hover.symm)
    cases hsame
    exact hother
  have hsorted := pairwise_lineup space.length (fun scope =>
    (rulesOver rules scope).foldl (fun data rule => edit rule data) ∅) (scopesOf rules)
  have hnodup := hsorted.imp (S := (· ≠ ·)) fun hlt heq =>
    absurd (congrArg (·.1.slot) heq) hlt.ne
  exact ((List.perm_ext_iff_of_nodup (nodup_factors graph) hnodup).2 hlisted).eq_of_pairwise
    (fun _ _ _ _ hlt hgt => absurd hlt hgt.asymm) graph.pairwise_factors hsorted

private theorem Filed.map_scope_factors (h : Filed space edit rules graph)
    (hlined : Lined (scopesOf rules) graph) :
    graph.factors.map (fun entry => entry.2.scope) = scopesOf rules := by
  rw [h.factors_eq hlined, map_scope_lineup]

end Filed

end FactorGraph

def shares (rules : List (Rule Rat)) (x : Valuation) : List Rat :=
  (scopesOf rules).map fun scope => objective (rulesOver rules scope) x

theorem sum_shares (rules : List (Rule Rat)) (x : Valuation) :
    (shares rules x).sum = objective rules x := by
  have hperm := perm_sorted (fun rule => rule.assignment.scope) (nodup_scopesOf rules)
    fun rule hrule => mem_scopesOf.2 ⟨rule, hrule, rfl⟩
  rw [objective_perm hperm, objective_flatMap]
  rfl

private theorem shares_eq {rules : List (Rule Rat)} {factors : List (Handle × Factor δ)}
    (h : factors.map (fun entry => entry.2.scope) = scopesOf rules) (x : Valuation) :
    shares rules x = factors.map fun entry => objective (rulesOver rules entry.2.scope) x := by
  rw [shares, ← h, List.map_map]
  rfl

namespace MaxPlus

section Tables

variable {space : Space} {rules : List (Rule Rat)} {graph : FactorGraph (List Rat)}
  {handle : Handle} {factor : Factor (List Rat)}

private theorem keys_lt_of_filed (h : Filed space (tableEdit space) rules graph)
    (hfactor : graph.factor? handle = some factor) :
    ∀ key ∈ factor.scope.keys, key < space.length :=
  scope_lt h.reachable.sound h.reachable.varCount_eq (mem_factors.2 hfactor)

/-- A full assignment selects from the table of a scope what it earns from the rules over it. -/
theorem selected?_filed (h : Filed space (tableEdit space) rules graph)
    (hrules : ∀ rule ∈ rules, rule.assignment.Over space) (htabled : Tabled space graph)
    (hfactor : graph.factor? handle = some factor) {full : List Nat} (hfull : space.Admits full) :
    selected? space factor.scope.keys factor.data full =
      some (objective (rulesOver rules factor.scope) (valuation full)) := by
  obtain ⟨-, hvalue⟩ := factor_spec h hrules hfactor
  rw [selected?_eq (keys_lt_of_filed h hfactor) (htabled _ (mem_factors.2 hfactor)) hfull 0,
    ← hvalue _ (Space.admits_iff.1 hfull).2]
  rfl

/-- The entry for a joint value adds up the rules over the scope with these values. -/
theorem exists_entry (h : Filed space (tableEdit space) rules graph)
    (hrules : ∀ rule ∈ rules, rule.assignment.Over space) (htabled : Tabled space graph)
    (hfactor : graph.factor? handle = some factor) {x : List Nat}
    (hx : Digits (factor.scope.keys.map space.domain) x) :
    ∃ index, space.index? factor.scope.keys x = some index ∧
      factor.data[index]? = some ((rules.filter fun rule =>
        rule.assignment.scope = factor.scope ∧ rule.assignment.values = x).map
          Rule.payoff).sum := by
  have hkeys := keys_lt_of_filed h hfactor
  obtain ⟨hsize, hentries⟩ := factor_entries h hrules hfactor
  have hindex := hx.index_lt
  rw [← hsize] at hindex
  refine ⟨_, Space.index?_eq hkeys (htabled.fitsWord (mem_factors.2 hfactor)) hx, ?_⟩
  have hrulesOver : (rulesOver rules factor.scope).filter (fun rule =>
      entryIndex space rule = index (factor.scope.keys.map space.domain) x) =
        rules.filter fun rule =>
          rule.assignment.scope = factor.scope ∧ rule.assignment.values = x := by
    rw [rulesOver, List.filter_filter]
    refine List.filter_congr fun rule hrule => ?_
    by_cases hscope : rule.assignment.scope = factor.scope
    · have hsame : rule.assignment.keys = factor.scope.keys := congrArg Scope.keys hscope
      have hdigits := digits_values (hrules rule hrule)
      rw [hsame] at hdigits
      have hinjective : entryIndex space rule = index (factor.scope.keys.map space.domain) x ↔
          rule.assignment.values = x := by
        rw [entryIndex, hsame]
        exact ⟨hdigits.index_injective hx, fun heq => by rw [heq]⟩
      simp [hscope, hinjective]
    · simp [hscope]
  rw [List.getElem?_eq_getElem hindex, ← hrulesOver, ← hentries]
  simp [hindex]

end Tables

/-- Both graphs of a problem represent its objective. They have one factor for each scope of a rule,
in the order of first appearance and under the same handles. The factor of a scope holds the rules
over it in their order in one graph, and in the other, if words can count the joint values of every
scope, a table with the sum of their payoffs for each joint value. So a full assignment earns the
same from either, scope by scope and in all. -/
theorem graphs_share_objective {space : Space} (hspace : space.Inhabited)
    {rules : List (Rule Rat)} (hrules : checkRules space rules = .ok ()) :
    ∃ lists, Elimination.buildGraph space rules = .ok lists ∧
      lists.factors = lineup space.length (rulesOver rules) (scopesOf rules) ∧
      (∀ full, space.Admits full → ∃ earned : List Rat,
        (lists.factors.mapM fun entry => score? entry.2.data full) = some earned ∧
        score? lists.rules full = some earned.sum ∧
        score? rules full = some earned.sum) ∧
      ((∀ rule ∈ rules, space.FitsWord rule.assignment.keys) →
        ∃ tables network, MaxPlus.buildGraph space rules = .ok tables ∧
          Network.ofGraph? space tables = some network ∧
          (tables.factors.map fun (handle, factor) => (handle, factor.scope, factor.serial)) =
            (lists.factors.map fun (handle, factor) => (handle, factor.scope, factor.serial)) ∧
          (∀ entry ∈ tables.factors,
            space.jointSize? entry.2.scope.keys = some entry.2.data.length ∧
            ∀ x, Digits (entry.2.scope.keys.map space.domain) x →
              ∃ index, space.index? entry.2.scope.keys x = some index ∧
                entry.2.data[index]? = some ((rules.filter fun rule =>
                  rule.assignment.scope = entry.2.scope ∧ rule.assignment.values = x).map
                    Rule.payoff).sum) ∧
          ∀ full, space.Admits full → ∃ earned : List Rat,
            (tables.factors.mapM fun entry =>
              selected? space entry.2.scope.keys entry.2.data full) = some earned ∧
            (lists.factors.mapM fun entry => score? entry.2.data full) = some earned ∧
            network.evaluate full = earned.sum ∧ score? rules full = some earned.sum) := by
  have hover := over_of_checkRules hrules
  have hkeys := overSpace_of_checkRules hrules
  have hedit : ∀ rule ∈ rules, (fun rule : Rule Rat => some fun data => data ++ [rule]) rule =
      some ((fun rule data => data ++ [rule]) rule) := fun _ _ => rfl
  obtain ⟨lists, hlists, hfiled, hlined⟩ := ofRules_lined hspace hrules hedit
  have hpayload : lists.factors = lineup space.length (rulesOver rules) (scopesOf rules) := by
    rw [hfiled.factors_eq hlined]
    congr 1
    funext scope
    exact foldl_concat (rulesOver rules scope) []
  have hwhole : ∀ {full : List Nat}, full.length = space.length →
      score? rules full = some (shares rules (valuation full)).sum := by
    intro full hlength
    rw [sum_shares, score?_eq hkeys hlength]
  have hscores : ∀ {full : List Nat}, full.length = space.length →
      (lists.factors.mapM fun entry => score? entry.2.data full) =
        some (shares rules (valuation full)) := by
    intro full hlength
    rw [shares_eq (hfiled.map_scope_factors hlined)]
    refine mapM_eq_some_map fun entry hentry => ?_
    rw [hfiled.data_eq (mem_factors.1 hentry)]
    exact score?_eq (fun rule hrule => hkeys rule (List.mem_of_mem_filter hrule)) hlength
  refine ⟨lists, hlists, hpayload, ?earned, ?tables⟩
  case earned =>
    intro full hfull
    have hlength := hfull.length_eq
    refine ⟨_, hscores hlength, ?_, hwhole hlength⟩
    have hsame := hfiled.rules_perm
    rw [sum_shares, ← objective_perm hsame]
    exact score?_eq (fun rule hrule => hkeys rule (hsame.mem_iff.1 hrule)) hlength
  case tables =>
    intro hwords
    obtain ⟨tables, htables, hfiled', hlined'⟩ := ofRules_lined hspace hrules
      fun rule hrule => tableEdit?_eq (hover rule hrule) (hwords rule hrule)
    have htabled := filed_tabled hfiled' hover hwords
    refine ⟨tables, networkOf space tables, htables,
      ofGraph?_eq hfiled'.reachable.sound hfiled'.reachable.varCount_eq, ?_, ?_, ?_⟩
    · rw [hpayload, hfiled'.factors_eq hlined', lineup, lineup, List.map_map, List.map_map]
      rfl
    · intro entry hentry
      exact ⟨htabled entry hentry,
        fun x hx => exists_entry hfiled' hover htabled (mem_factors.1 hentry) hx⟩
    · intro full hfull
      obtain ⟨hlength, hrespects⟩ := Space.admits_iff.1 hfull
      refine ⟨_, ?_, hscores hlength, ?_, hwhole hlength⟩
      · rw [shares_eq (hfiled'.map_scope_factors hlined')]
        exact mapM_eq_some_map fun entry hentry =>
          selected?_filed hfiled' hover htabled (mem_factors.1 hentry) hfull
      · rw [sum_shares, evaluate_eq, filed_tableSum_eq hfiled' hover hrespects]

def twiceRules : List (Rule Rat) :=
  [⟨⟨[(0, 1), (1, 0)], by simp⟩, 2, []⟩, ⟨⟨[(1, 2)], by simp⟩, 1, []⟩,
    ⟨⟨[(0, 1), (1, 0)], by simp⟩, 3, []⟩]

/-- Both payoffs come out of the one entry that the two rules share. -/
theorem graphs_share_objective_twice : ∃ lists tables network,
    Elimination.buildGraph [2, 3] twiceRules = .ok lists ∧
    MaxPlus.buildGraph [2, 3] twiceRules = .ok tables ∧
    Network.ofGraph? [2, 3] tables = some network ∧
    lists.factors.map (fun entry => (entry.2.scope.keys, entry.2.data.map Rule.payoff)) =
      [([0, 1], [2, 3]), ([1], [1])] ∧
    tables.factors.map (fun entry => (entry.1.serial, entry.1.slot)) = [(0, 2), (1, 3)] ∧
    network.evaluate [1, 0] = 5 ∧ score? lists.rules [1, 0] = some 5 := by
  obtain ⟨lists, hlists, hpayload, hearned, hfits⟩ :=
    @graphs_share_objective [2, 3] (by decide) twiceRules rfl
  obtain ⟨tables, network, htables, hnetwork, hhandles, -, hselected⟩ := hfits (by decide)
  obtain ⟨shared, -, hpayloads, hrules⟩ := hearned [1, 0] (by decide)
  obtain ⟨selected, -, -, hevaluate, hrules'⟩ := hselected [1, 0] (by decide)
  have hfive : score? twiceRules [1, 0] = some 5 := by cbv
  have hsum : shared.sum = 5 := Option.some.inj (hrules.symm.trans hfive)
  have hsum' : selected.sum = 5 := Option.some.inj (hrules'.symm.trans hfive)
  rw [hsum] at hpayloads
  rw [hsum'] at hevaluate
  refine ⟨lists, tables, network, hlists, htables, hnetwork, ?_, ?_, hevaluate, hpayloads⟩
  · rw [hpayload]
    rfl
  · have hplaces := congrArg (List.map fun entry : Handle × Scope × Nat =>
      (entry.1.serial, entry.1.slot)) hhandles
    rw [List.map_map, List.map_map, hpayload] at hplaces
    exact hplaces

/-- Without a word for the size of a table only one of the graphs is built. -/
theorem graphs_part_wide : wideSpace.Inhabited ∧ checkRules wideSpace [wideRule] = .ok () ∧
    (∃ lists, Elimination.buildGraph wideSpace [wideRule] = .ok lists) ∧
    MaxPlus.buildGraph wideSpace [wideRule] = .error .outOfBounds :=
  ⟨by decide, rfl, ⟨_, rfl⟩, buildGraph_eq_error (by decide) rfl List.mem_cons_self (by decide)⟩

end MaxPlus

end JointDecision

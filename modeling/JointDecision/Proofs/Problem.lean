import JointDecision.Problem
import JointDecision.Proofs.FactorGraph.Factors
import JointDecision.Proofs.Objective

/-! # Filing the rules of a problem

The graph of a problem has a factor for every scope of a rule, and the payload of a factor comes
from the rules over its scope, in their order. -/

namespace JointDecision

variable {α δ : Type}

def rulesOver (rules : List (Rule α)) (scope : Scope) : List (Rule α) :=
  rules.filter fun rule => rule.assignment.scope = scope

theorem perm_sorted {κ : Type} [DecidableEq κ] (key : Rule α → κ) {keys : List κ}
    (hnodup : keys.Nodup) {rules : List (Rule α)} (h : ∀ rule ∈ rules, key rule ∈ keys) :
    rules.Perm (keys.flatMap fun k => rules.filter fun rule => key rule = k) := by
  induction keys generalizing rules with
  | nil =>
    have hnone : rules = [] :=
      List.eq_nil_iff_forall_not_mem.2 fun rule hrule => by simpa using h rule hrule
    rw [hnone]
    rfl
  | cons first keys ih =>
    obtain ⟨hfirst, hnodup⟩ := List.nodup_cons.1 hnodup
    have hsplit := List.filter_append_perm (fun rule : Rule α => key rule = first) rules
    have hothers : ∀ rule ∈ rules.filter fun rule => !key rule = first, key rule ∈ keys := by
      intro rule hrule
      obtain ⟨hin, hne⟩ := List.mem_filter.1 hrule
      have hne : key rule ≠ first := by simpa using hne
      exact (List.mem_cons.1 (h rule hin)).resolve_left hne
    have hrest := ih hnodup hothers
    have hsame : (keys.flatMap fun k =>
        (rules.filter fun rule => !key rule = first).filter fun rule => key rule = k) =
          keys.flatMap fun k => rules.filter fun rule => key rule = k := by
      refine List.flatMap_congr fun other hother => ?_
      rw [List.filter_filter]
      refine List.filter_congr fun rule _ => ?_
      have hne : other ≠ first := fun heq => hfirst (heq ▸ hother)
      by_cases heq : key rule = other
      · simp [heq, hne]
      · simp [heq]
    rw [List.flatMap_cons, ← hsame]
    exact hsplit.symm.trans (hrest.append_left _)

theorem Assignment.Over.asked {space : Space} {a : Assignment} (h : a.Over space)
    {graph : FactorGraph δ} (hcount : graph.varCount = space.length)
    (hlive : ∀ key < space.length, graph.isLive key = true) : graph.Asked a.scope := by
  constructor
  · intro hempty
    have hkeys : a.entries.map Prod.fst = [] := congrArg Scope.keys hempty
    exact h.nonempty (List.map_eq_nil_iff.1 hkeys)
  · intro key hkey
    have hlt := h.keys_lt key hkey
    exact ⟨hcount.symm ▸ hlt, hlive _ hlt⟩

namespace FactorGraph

variable [EmptyCollection δ]

/-- What filing some rules leaves: every variable is live, and the factors are those of the rules'
scopes, each edited by its rules in order. -/
structure Filed (space : Space) (edit : Rule α → δ → δ) (rules : List (Rule α))
    (graph : FactorGraph δ) : Prop where
  reachable : Reachable space.length graph
  live : ∀ key < space.length, graph.isLive key = true
  data : ∀ {handle factor}, graph.factor? handle = some factor →
    factor.data = (rulesOver rules factor.scope).foldl (fun data rule => edit rule data) ∅
  used : ∀ {handle factor}, graph.factor? handle = some factor → rulesOver rules factor.scope ≠ []
  found : ∀ rule ∈ rules, ∃ handle factor, graph.factor? handle = some factor ∧
    factor.scope = rule.assignment.scope

/-- The factors share out the rules by their scopes. -/
theorem Filed.perm {space : Space} {edit : Rule α → δ → δ} {rules : List (Rule α)}
    {graph : FactorGraph δ} (h : Filed space edit rules graph) :
    rules.Perm (graph.factors.flatMap fun entry => rulesOver rules entry.2.scope) := by
  have hscopes : ∀ rule ∈ rules,
      rule.assignment.scope ∈ graph.factors.map fun entry => entry.2.scope := by
    intro rule hrule
    obtain ⟨handle, factor, hfactor, hscope⟩ := h.found rule hrule
    exact List.mem_map.2 ⟨(handle, factor), mem_factors.2 hfactor, hscope⟩
  have hperm := perm_sorted (fun rule => rule.assignment.scope) h.reachable.sound.nodup_scopes
    hscopes
  rw [List.flatMap_map] at hperm
  exact hperm

theorem Filed.liveVariables_eq {space : Space} {edit : Rule α → δ → δ} {rules : List (Rule α)}
    {graph : FactorGraph δ} (h : Filed space edit rules graph) :
    graph.liveVariables = List.range space.length := by
  rw [liveVariables, h.reachable.varCount_eq]
  exact List.filter_eq_self.2 fun key hkey => h.live key (List.mem_range.1 hkey)

theorem filed_new (space : Space) (edit : Rule α → δ → δ) :
    Filed space edit [] (.new space.length) where
  reachable := .new
  live _ hkey := isLive_new hkey
  data {handle factor} hfactor := by
    rw [factor?_new] at hfactor
    cases hfactor
  used {handle factor} hfactor := by
    rw [factor?_new] at hfactor
    cases hfactor
  found _ h := by cases h

/-- A scope that is not in the index has no rules yet. -/
theorem Filed.rulesOver_eq_nil {space : Space} {edit : Rule α → δ → δ} {rules : List (Rule α)}
    {graph : FactorGraph δ} (h : Filed space edit rules graph) {scope : Scope}
    (hfresh : graph.find? scope = none) : rulesOver rules scope = [] := by
  refine List.eq_nil_iff_forall_not_mem.2 fun other hin => ?_
  obtain ⟨hin, heq⟩ := List.mem_filter.1 hin
  obtain ⟨held, found, hfound, hover⟩ := h.found other hin
  have hfind := (h.reachable.sound.index _ held).2
    ⟨found, hfound, hover.trans (by simpa using heq)⟩
  rw [hfresh] at hfind
  cases hfind

theorem Filed.file {space : Space} {edit : Rule α → δ → δ} {rules : List (Rule α)}
    {graph : FactorGraph δ} (h : Filed space edit rules graph) {rule : Rule α}
    (hrule : rule.assignment.Over space) :
    ∃ handle middle, graph.ensure? rule.assignment.scope = some (handle, middle) ∧
      Filed space edit (rules ++ [rule]) (middle.modifyData handle (edit rule)) := by
  have hsound := h.reachable.sound
  have hcount := h.reachable.varCount_eq
  have hasked := hrule.asked hcount h.live
  obtain ⟨handle, middle, hensure⟩ := Sound.ensure?_eq graph hasked
  have hmiddle := h.reachable.ensure hasked hensure
  have hsame := hsound.ensure?_varCount hensure
  obtain ⟨factor, hscope, hold, hafter⟩ := hsound.factor?_edited hasked hensure (edit rule)
  -- The factor asked for holds what the earlier rules over the scope made.
  have hdata : factor.data = (rulesOver rules rule.assignment.scope).foldl
      (fun data rule => edit rule data) ∅ := by
    rcases hold with hold | ⟨hfresh, -, hempty⟩
    · exact hscope ▸ h.data hold
    · rw [h.rulesOver_eq_nil hfresh, hempty]
      rfl
  have hothers : ∀ {other found}, other ≠ handle → graph.factor? other = some found →
      rulesOver (rules ++ [rule]) found.scope = rulesOver rules found.scope := by
    intro other found hne hfound
    have hscopes : rule.assignment.scope ≠ found.scope := by
      intro hequal
      have hindex := (hmiddle.modifyData handle (edit rule)).sound.index
      have hfind := (hindex _ other).2 ⟨found, by rw [hafter, if_neg hne, hfound], rfl⟩
      have hfind' := (hindex _ handle).2
        ⟨_, (hafter handle).trans (if_pos rfl), hscope.trans hequal⟩
      exact hne (Option.some.inj (hfind.symm.trans hfind'))
    simp [rulesOver, hscopes]
  refine ⟨handle, middle, hensure, hmiddle.modifyData handle _, ?_, ?_, ?_, ?_⟩
  · intro key hkey
    rw [← hcount] at hkey
    rw [hmiddle.sound.modifyData_isLive handle _ (hsame.symm ▸ hkey),
      hsound.isLive_ensure? hasked hensure hkey, h.live key (hcount ▸ hkey)]
  · intro other found hfound
    rw [hafter] at hfound
    by_cases heq : other = handle
    · rw [if_pos heq] at hfound
      cases hfound
      rw [hscope]
      simp [rulesOver, hdata]
    · rw [if_neg heq] at hfound
      rw [h.data hfound, hothers heq hfound]
  · intro other found hfound
    rw [hafter] at hfound
    by_cases heq : other = handle
    · rw [if_pos heq] at hfound
      cases hfound
      rw [hscope]
      simp [rulesOver]
    · rw [if_neg heq] at hfound
      rw [hothers heq hfound]
      exact h.used hfound
  · intro other hin
    rcases List.mem_append.1 hin with hin | hin
    · obtain ⟨held, found, hfound, hover⟩ := h.found other hin
      by_cases heq : held = handle
      · refine ⟨handle, _, by rw [hafter, if_pos rfl], ?_⟩
        rw [heq] at hfound
        rcases hold with hold | ⟨-, hnone, -⟩
        · rw [Option.some.inj (hold.symm.trans hfound)]
          exact hover
        · rw [hnone] at hfound
          cases hfound
      · exact ⟨held, found, by rw [hafter, if_neg heq, hfound], hover⟩
    · obtain rfl := List.mem_singleton.1 hin
      refine ⟨handle, { factor with data := edit other factor.data }, ?_, hscope⟩
      rw [hafter, if_pos rfl]

/-- Filing rules one by one goes through and keeps what filing one more keeps. -/
theorem file?_of_steps {P : List (Rule α) → FactorGraph δ → Prop}
    {edit? : Rule α → Option (δ → δ)} {edit : Rule α → δ → δ} {filed rules : List (Rule α)}
    {graph : FactorGraph δ} (h : P filed graph)
    (hstep : ∀ {filed : List (Rule α)} {graph : FactorGraph δ}, ∀ rule ∈ rules, P filed graph →
      ∃ handle middle, graph.ensure? rule.assignment.scope = some (handle, middle) ∧
        P (filed ++ [rule]) (middle.modifyData handle (edit rule)))
    (hedit : ∀ rule ∈ rules, edit? rule = some (edit rule)) :
    ∃ after, file? edit? rules graph = some after ∧ P (filed ++ rules) after := by
  induction rules generalizing filed graph with
  | nil => exact ⟨graph, rfl, by simpa using h⟩
  | cons rule rules ih =>
    obtain ⟨handle, middle, hensure, hfiled⟩ := hstep rule List.mem_cons_self h
    obtain ⟨after, hafter, hdone⟩ := ih hfiled
      (fun other hother => hstep other (List.mem_cons_of_mem _ hother))
      (fun other hother => hedit other (List.mem_cons_of_mem _ hother))
    refine ⟨after, ?_, by simpa using hdone⟩
    simp [file?, hensure, hedit rule List.mem_cons_self, hafter]

theorem file?_spec {space : Space} {edit? : Rule α → Option (δ → δ)} {edit : Rule α → δ → δ}
    {filed rules : List (Rule α)} {graph : FactorGraph δ} (h : Filed space edit filed graph)
    (hrules : ∀ rule ∈ rules, rule.assignment.Over space)
    (hedit : ∀ rule ∈ rules, edit? rule = some (edit rule)) :
    ∃ after, file? edit? rules graph = some after ∧ Filed space edit (filed ++ rules) after :=
  file?_of_steps h (fun rule hrule hfiled => hfiled.file (hrules rule hrule)) hedit

/-- One rule that cannot be filed is enough to have no graph. -/
theorem file?_eq_none {edit? : Rule α → Option (δ → δ)} {rules : List (Rule α)} {rule : Rule α}
    (hrule : rule ∈ rules) (hedit : edit? rule = none) (graph : FactorGraph δ) :
    file? edit? rules graph = none := by
  induction rules generalizing graph with
  | nil => cases hrule
  | cons first rules ih =>
    rw [file?]
    cases graph.ensure? first.assignment.scope with
    | none => rfl
    | some made =>
      rcases List.mem_cons.1 hrule with rfl | hrule
      · simp [hedit]
      · cases hfirst : edit? first with
        | none => rfl
        | some edit => simpa [hfirst] using ih hrule _

/-- Rejected rules are rejected for what is wrong with the space or with them. -/
theorem ofRules_of_rejected {space : Space} {rules : List (Rule α)} {failure : Failure}
    (h : (space.validate >>= fun _ => checkRules space rules) = .error failure)
    (edit? : Rule α → Option (δ → δ)) : ofRules edit? space rules = .error failure := by
  unfold ofRules
  cases hvalid : space.validate with
  | error found =>
    rw [hvalid] at h
    cases h
    rfl
  | ok _ =>
    rw [hvalid] at h
    have hrules : checkRules space rules = .error failure := h
    rw [hrules]
    rfl

theorem ofRules_eq {space : Space} (hspace : space.Inhabited) {rules : List (Rule α)}
    (hrules : checkRules space rules = .ok ()) (edit? : Rule α → Option (δ → δ)) :
    ofRules edit? space rules =
      Failure.unlessOutOfBounds (FactorGraph.file? edit? rules (.new space.length)) := by
  simp only [ofRules, Space.validate_eq_ok hspace, hrules]
  rfl

theorem ofRules_eq_error {space : Space} (hspace : space.Inhabited) {rules : List (Rule α)}
    (hrules : checkRules space rules = .ok ()) {edit? : Rule α → Option (δ → δ)} {rule : Rule α}
    (hrule : rule ∈ rules) (hedit : edit? rule = none) :
    ofRules edit? space rules = .error .outOfBounds := by
  rw [ofRules_eq hspace hrules, file?_eq_none hrule hedit]
  rfl

/-- The graph of accepted rules exists and files them. -/
theorem ofRules_spec {space : Space} (hspace : space.Inhabited) {rules : List (Rule α)}
    (hrules : checkRules space rules = .ok ()) {edit? : Rule α → Option (δ → δ)}
    {edit : Rule α → δ → δ} (hedit : ∀ rule ∈ rules, edit? rule = some (edit rule)) :
    ∃ graph, ofRules edit? space rules = .ok graph ∧ Filed space edit rules graph := by
  obtain ⟨graph, hgraph, hfiled⟩ :=
    file?_spec (filed_new space edit) (over_of_checkRules hrules) hedit
  refine ⟨graph, ?_, hfiled⟩
  rw [ofRules_eq hspace hrules, hgraph]
  rfl

end FactorGraph

end JointDecision

import JointDecision.Proofs.Elimination.Run

/-! # What a run consumes and generates

A step takes the rules of the factors around its variable out of the graph and puts new ones in
their place, or among the finals when they are over no variables. Over a whole run, every rule that
the graph held at first or was given on the way is taken out once, after it was there. -/

namespace JointDecision

open FactorGraph

variable {α : Type}

def FactorGraph.rulesAround (graph : FactorGraph (List (Rule α))) (key : Nat) : List (Rule α) :=
  ((graph.neighbors key).filterMap graph.factor?).flatMap Factor.data

def Rule.closed (rule : Rule α) : Bool :=
  rule.assignment.entries.isEmpty

namespace Elimination

section Step

variable [Payoff α] {space : Space} {run after : Run α} {key : Nat}

def Run.responses? (space : Space) (run : Run α) (key : Nat) : Option (List (Rule α)) :=
  match run.graph.neighbors key with
  | [] => some []
  | handles => do
    let neighborhood := run.graph.unionScope handles
    let pivot ← neighborhood.position? key
    let (factors, _) ← consume? space neighborhood handles run.graph
    let remaining := neighborhood.erase key
    let joints ← space.jointValues? remaining.keys
    joints.mapM (bestResponse? space key factors pivot remaining)

omit [Payoff α] in
theorem keys_answer {remaining : Scope} (rules : List (Rule α)) (found : α × Nat)
    {others : List Nat} (hothers : MixedRadix.Digits (remaining.keys.map space.domain) others) :
    (answer key remaining rules found others).assignment.keys = remaining.keys := by
  have hlength : remaining.size = others.length := by
    simpa [Scope.size] using hothers.length_eq.symm
  exact congrArg Scope.keys (Assignment.scope_pairing hlength)

theorem Responds.keys_eq {neighborhood : Scope} {pivot : Nat} {factors : List (ConsumedFactor α)}
    {groups : List (List (Rule α))} {joints : List (List Nat)} {rules : List (Rule α)}
    (h : Responds space key neighborhood pivot factors groups joints rules) :
    ∀ rule ∈ rules, rule.assignment.keys = (neighborhood.erase key).keys := by
  obtain ⟨found, rfl, -⟩ := h.answers
  intro rule hrule
  obtain ⟨joint, hjoint, rfl⟩ := List.mem_map.1 hrule
  exact keys_answer _ _ (h.enumerates.digits joint hjoint)

omit [Payoff α] in
/-- Rules over a scope go to the finals if the scope is empty, and else into the graph. -/
theorem deposit?_exchange (hrun : run.Intact space) {scope : Scope} {rules : List (Rule α)}
    (hscope : ∀ key ∈ scope.keys, key < space.length ∧ run.graph.isLive key = true)
    (hrules : ∀ rule ∈ rules, rule.assignment.Within space scope)
    (hkeys : ∀ rule ∈ rules, rule.assignment.keys = scope.keys)
    (h : run.deposit? scope rules = some after) :
    after.finals = run.finals ++ rules.filter Rule.closed ∧
      after.graph.rules.Perm (rules.filter (!·.closed) ++ run.graph.rules) := by
  have hclosed : ∀ rule ∈ rules, rule.closed = scope.keys.isEmpty := by
    intro rule hrule
    rw [← hkeys rule hrule, Rule.closed, Assignment.keys, List.isEmpty_map]
  obtain ⟨found, hfound, -, -, -, -, hperm⟩ := deposit?_spec hrun hscope hrules
  obtain rfl := Option.some.inj (hfound.symm.trans h)
  by_cases hempty : scope = .empty
  · subst hempty
    have hall : ∀ rule ∈ rules, rule.closed = true := hclosed
    rw [Run.deposit?, if_pos rfl] at h
    cases h
    rw [List.filter_eq_self.2 hall, List.filter_eq_nil_iff.2 (by simpa using hall)]
    exact ⟨rfl, .refl _⟩
  · have hnone : ∀ rule ∈ rules, rule.closed = false := by
      intro rule hrule
      rw [hclosed rule hrule, List.isEmpty_eq_false_iff]
      intro hkeys
      obtain ⟨keys, increasing⟩ := scope
      obtain rfl : keys = [] := hkeys
      exact hempty rfl
    have hfinals : found.finals = run.finals := by
      rw [Run.deposit?, if_neg hempty] at h
      obtain ⟨_, -, rfl⟩ := Option.map_eq_some_iff.1 h
      rfl
    rw [List.filter_eq_nil_iff.2 (by simpa using hnone),
      List.filter_eq_self.2 (by simpa using hnone), List.append_nil]
    refine ⟨hfinals, ?_⟩
    rw [Run.rules, Run.rules, hfinals] at hperm
    exact (List.perm_append_left_iff _).1 (hperm.trans (List.perm_append_comm_assoc ..))

omit [Payoff α] in
/-- What a step generates is all there is beside the rules that it leaves where they are. -/
theorem rules_perm_of_exchange {generated kept : List (Rule α)}
    (hfinals : after.finals = run.finals ++ generated.filter Rule.closed)
    (hgraph : after.graph.rules.Perm (generated.filter (!·.closed) ++ kept)) :
    after.rules.Perm (generated ++ (run.finals ++ kept)) := by
  have hsplit := (List.filter_append_perm Rule.closed generated).append_right kept
  rw [List.append_assoc] at hsplit
  have hnew := ((hgraph.append_left (generated.filter Rule.closed)).trans hsplit).append_left
    run.finals
  rw [Run.rules, hfinals, List.append_assoc]
  exact hnew.trans (List.perm_append_comm_assoc ..)

/-- A step takes the rules around its variable out of the graph and puts what it generates in their
place. -/
theorem eliminate?_exchange (hspace : space.Inhabited) (hrun : run.Intact space)
    (hkey : key < space.length) (h : run.eliminate? space key = some after) :
    ∃ generated, run.responses? space key = some generated ∧
      after.finals = run.finals ++ generated.filter Rule.closed ∧
      ((run.graph.neighbors key = [] ∧ generated = [] ∧
          after.graph.rules.Perm run.graph.rules) ∨
        ∃ neighborhood consumed factors groups pivot joints,
          neighborhood = run.graph.unionScope (run.graph.neighbors key) ∧
          Clears space key neighborhood run consumed factors groups ∧
          Responds space key neighborhood pivot factors groups joints generated ∧
          after.graph.rules.Perm (generated.filter (!·.closed) ++ consumed.rules)) := by
  by_cases hfree : run.graph.neighbors key = []
  · simp only [Run.eliminate?, hfree, Option.some.injEq] at h
    subst h
    refine ⟨[], by simp only [Run.responses?, hfree], by simp, .inl ⟨hfree, rfl, ?_⟩⟩
    exact rules_perm (hrun.sound.factors_eraseVariable hfree)
  · obtain ⟨factors, consumed, groups, pivot, joints, rules, hconsume, hclear, hresponds,
      heliminate⟩ := eliminate?_busy hspace hrun hkey hfree rfl
    rw [heliminate] at h
    obtain ⟨hfinals, hgraph⟩ := deposit?_exchange (hclear.intact.eraseVariable hclear.free _)
      (hclear.remaining_live hkey) hresponds.within hresponds.keys_eq h
    have herased := rules_perm (hclear.consumes.sound.factors_eraseVariable hclear.free)
    refine ⟨rules, ?_, hfinals, .inr ⟨_, consumed, factors, groups, pivot, joints, rfl, hclear,
      hresponds, hgraph.trans (herased.append_left _)⟩⟩
    obtain ⟨hpivot, hjoints, hrules, -⟩ := hresponds
    obtain ⟨first, others, hhandles⟩ := List.exists_cons_of_ne_nil hfree
    rw [hhandles] at hconsume hpivot hjoints hrules
    simp [Run.responses?, hhandles, hpivot, hconsume, hjoints, hrules]

omit [Payoff α] in
private theorem Clears.rulesAround_eq {neighborhood : Scope}
    {consumed : FactorGraph (List (Rule α))}
    {factors : List (ConsumedFactor α)} {groups : List (List (Rule α))}
    (h : Clears space key neighborhood run consumed factors groups) :
    run.graph.rulesAround key = groups.flatten := by
  rw [h.consumes.groups_eq, rulesAround, List.flatMap_def]

/-- Rules that a step leaves in the graph, and rules that it puts there: these with those around the
variable are all that there were, and all that were generated over variables. -/
theorem eliminate?_ledger (hspace : space.Inhabited) (hrun : run.Intact space)
    (hkey : key < space.length) (h : run.eliminate? space key = some after) :
    ∃ generated kept, run.responses? space key = some generated ∧
      after.finals = run.finals ++ generated.filter Rule.closed ∧
      run.graph.rules.Perm (run.graph.rulesAround key ++ kept) ∧
      after.graph.rules.Perm (generated.filter (!·.closed) ++ kept) := by
  obtain ⟨generated, hgenerated, hfinals, ⟨hfree, rfl, hgraph⟩ |
    ⟨_, consumed, _, groups, _, _, -, hclear, -, hgraph⟩⟩ :=
    eliminate?_exchange hspace hrun hkey h
  · refine ⟨[], run.graph.rules, hgenerated, hfinals, ?_, hgraph⟩
    simp [rulesAround, hfree]
  · refine ⟨generated, consumed.rules, hgenerated, hfinals, ?_, hgraph⟩
    rw [hclear.rulesAround_eq]
    exact hclear.consumes.rules

end Step

structure Exchange (α : Type) where
  removed : Nat
  consumed : List (Rule α)
  generated : List (Rule α)

section Run

variable [Payoff α] {space : Space} {order : Order}

def Run.exchanges? (space : Space) (order : Order) : Nat → Run α → Option (List (Exchange α))
  | 0, _ => some []
  | limit + 1, run =>
    match order.next? run.graph with
    | none => some []
    | some key => do
      let generated ← run.responses? space key
      let after ← run.eliminate? space key
      let later ← after.exchanges? space order limit
      return ⟨key, run.graph.rulesAround key, generated⟩ :: later

/-- Whether the exchanges of a run account for its rules: what was there or came into the graph was
consumed or is there in the end, rules over no variables are the finals, and each step consumes
rules that were there before it and were not consumed yet. -/
structure Accounts (log : List (Exchange α)) (run final : Run α) : Prop where
  rules : (run.graph.rules ++ (log.flatMap Exchange.generated).filter (!·.closed)).Perm
    (log.flatMap Exchange.consumed ++ final.graph.rules)
  finals : final.finals = run.finals ++ (log.flatMap Exchange.generated).filter Rule.closed
  causal : ∀ before exchange later, log = before ++ exchange :: later →
    (before.flatMap Exchange.consumed ++ exchange.consumed).Subperm
      (run.graph.rules ++ (before.flatMap Exchange.generated).filter (!·.closed))

omit [Payoff α] in
private theorem accounts_nil (run : Run α) : Accounts [] run run where
  rules := by simp
  finals := by simp
  causal before _ _ h := by simp at h

omit [Payoff α] in
theorem Accounts.cons {log : List (Exchange α)} {run after final : Run α}
    (h : Accounts log after final) {exchange : Exchange α} {kept : List (Rule α)}
    (hfinals : after.finals = run.finals ++ exchange.generated.filter Rule.closed)
    (hbefore : run.graph.rules.Perm (exchange.consumed ++ kept))
    (hafter : after.graph.rules.Perm (exchange.generated.filter (!·.closed) ++ kept)) :
    Accounts (exchange :: log) run final := by
  have hstep : ∀ others : List (Rule α),
      (run.graph.rules ++ (exchange.generated.filter (!·.closed) ++ others)).Perm
        (exchange.consumed ++ (after.graph.rules ++ others)) := by
    intro others
    have hswap := List.perm_append_comm_assoc kept (exchange.generated.filter (!·.closed)) others
    rw [← List.append_assoc (exchange.generated.filter _)] at hswap
    have hsplit := hbefore.append_right (exchange.generated.filter (!·.closed) ++ others)
    rw [List.append_assoc exchange.consumed] at hsplit
    exact hsplit.trans ((hswap.trans (hafter.symm.append_right others)).append_left _)
  refine ⟨?_, ?_, ?_⟩
  · rw [List.flatMap_cons, List.flatMap_cons, List.filter_append, List.append_assoc]
    exact (hstep _).trans (h.rules.append_left _)
  · rw [h.finals, hfinals, List.flatMap_cons, List.filter_append, List.append_assoc]
  · intro before last later hsplit
    cases before with
    | nil =>
      obtain ⟨rfl, -⟩ := List.cons.inj hsplit
      simpa using hbefore.symm.subperm_left.1 (List.sublist_append_left _ kept).subperm
    | cons first before =>
      obtain ⟨rfl, hrest⟩ := List.cons.inj hsplit
      rw [List.flatMap_cons, List.flatMap_cons, List.filter_append, List.append_assoc]
      refine (hstep _).symm.subperm_left.1 ?_
      exact (List.subperm_append_left _).2 (h.causal before last later hrest)

theorem exchanges?_spec {P : Run α → Prop} (hspace : space.Inhabited)
    (hpicks : PicksKeep space order P) (hintact : ∀ run, P run → run.Intact space) (limit : Nat)
    {run : Run α} (h : P run) :
    ∃ log final, run.exchanges? space order limit = some log ∧
      run.advance? space order limit = some final ∧ Accounts log run final ∧
      final.removed = run.removed ++ log.map Exchange.removed := by
  induction limit generalizing run with
  | zero => exact ⟨[], run, rfl, rfl, accounts_nil run, by simp⟩
  | succ limit ih =>
    rcases next?_spec order run.graph with ⟨hnext, -⟩ | ⟨key, hkey, hnext⟩
    · refine ⟨[], run, ?_, ?_, accounts_nil run, by simp⟩
      · rw [Run.exchanges?, hnext]
      · rw [Run.advance?, hnext]
    · obtain ⟨after, hafter, hkept, -, hremoved⟩ := hpicks h hkey hnext
      have hlt : key < space.length := (hintact run h).varCount ▸ (mem_liveVariables.1 hkey).1
      obtain ⟨generated, kept, hgenerated, hfinals, hbefore, hbehind⟩ :=
        eliminate?_ledger hspace (hintact run h) hlt hafter
      obtain ⟨log, final, hlog, hfinal, haccounts, hrest⟩ := ih hkept
      refine ⟨⟨key, run.graph.rulesAround key, generated⟩ :: log, final, ?_, ?_,
        haccounts.cons hfinals hbefore hbehind, ?_⟩
      · simp [Run.exchanges?, hnext, hgenerated, hafter, hlog]
      · simp [Run.advance?, hnext, hafter, hfinal]
      · rw [hrest, hremoved, List.map_cons, List.append_assoc, List.singleton_append]

theorem mem_exchanges? {P : Run α → Prop} (hpicks : PicksKeep space order P) (limit : Nat)
    {run : Run α} (h : P run) {log : List (Exchange α)}
    (hlog : run.exchanges? space order limit = some log) :
    ∀ exchange ∈ log, ∃ before : Run α, P before ∧
      exchange.removed ∈ before.graph.liveVariables ∧
      order.next? before.graph = some exchange.removed ∧
      before.responses? space exchange.removed = some exchange.generated := by
  induction limit generalizing run log with
  | zero =>
    cases hlog
    simp
  | succ limit ih =>
    rw [Run.exchanges?] at hlog
    rcases next?_spec order run.graph with ⟨hnext, -⟩ | ⟨key, hkey, hnext⟩
    · rw [hnext] at hlog
      cases hlog
      simp
    · rw [hnext] at hlog
      obtain ⟨generated, hgenerated, hrest⟩ := Option.bind_eq_some_iff.1 hlog
      obtain ⟨after, hafter, hrest⟩ := Option.bind_eq_some_iff.1 hrest
      obtain ⟨later, hlater, hcons⟩ := Option.bind_eq_some_iff.1 hrest
      cases hcons
      obtain ⟨found, hfound, hkept, -⟩ := hpicks h hkey hnext
      obtain rfl := Option.some.inj (hafter.symm.trans hfound)
      exact List.forall_mem_cons.2 ⟨⟨run, h, hkey, hnext, hgenerated⟩, ih hkept hlater⟩

end Run

end Elimination

end JointDecision

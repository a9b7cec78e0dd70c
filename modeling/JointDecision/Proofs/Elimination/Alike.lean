import JointDecision.Proofs.Elimination.Progress
import JointDecision.Proofs.FactorGraph.Alike

/-! # Runs over rules that are alike

A run sees of a rule the lists of a trie that it is filed in and its payoff. The tags of rules it
only puts together, and the tag for a variable that is still to be eliminated is overwritten. So
runs over rules that agree in this go through the same steps, and their outcomes agree. -/

namespace JointDecision

/-- The list of a variable that an assignment is filed in: that of its value or, without a value,
the wildcard list, which stands where one more value would stand. -/
def Assignment.listOf (space : Space) (a : Assignment) (key : Nat) : Nat :=
  (a.valueOf? key).getD (space.domain key)

private theorem Assignment.valueOf?_localTo (a : Assignment) {scope : Scope} {position key : Nat}
    (h : scope.keys[position]? = some key) :
    (a.localTo scope).valueOf? position = a.valueOf? key := by
  have hposition : scope.position? key = some position := by
    obtain ⟨hlt, hkey⟩ := List.getElem?_eq_some_iff.1 h
    obtain ⟨found, hfound⟩ := Scope.position?_of_mem (hkey ▸ List.getElem_mem hlt)
    obtain ⟨hlt', hkey'⟩ := List.getElem?_eq_some_iff.1 (Scope.position?_eq_some hfound)
    rw [hfound, (scope.nodup.getElem_inj_iff).1 (hkey'.trans hkey.symm)]
  refine Option.ext fun value => ?_
  rw [Assignment.valueOf?_eq_some_iff, Assignment.valueOf?_eq_some_iff, Assignment.mem_localTo]
  constructor
  · intro hmem
    obtain ⟨other, hother, hfound⟩ := hmem
    have hsame := Scope.position?_eq_some hfound
    rw [h] at hsame
    rw [Option.some.inj hsame]
    exact hother
  · intro hmem
    exact ⟨key, hmem, hposition⟩

namespace Trie

theorem insert?_congr {trie : Trie} {entry other : Assignment}
    (h : ∀ key < trie.buckets.length, trie.slot other key = trie.slot entry key) :
    trie.insert? other = trie.insert? entry := by
  have hadmits : trie.admits other = trie.admits entry := by
    rw [Bool.eq_iff_iff, admits, admits, List.all_eq_true, List.all_eq_true]
    refine forall_congr' fun item => imp_congr_right fun hitem => ?_
    dsimp only
    rw [h item.2 (List.snd_lt_of_mem_zipIdx hitem)]
  have hinsert : trie.insert other = trie.insert entry := by
    simp only [insert, mk.injEq, and_true, true_and]
    refine List.ext_getElem (by simp) fun key hkey _ => ?_
    rw [List.length_mapIdx] at hkey
    rw [List.getElem_mapIdx, List.getElem_mapIdx, h key hkey]
  rw [insert?, insert?, hadmits, hinsert]

end Trie

/-- What is constant while rules over a scope are filed: a variable has a list per value, and the
wildcard list. -/
structure FiledOver (space : Space) (scope : Scope) (trie : Trie) : Prop where
  space_eq : trie.space = scope.keys.map space.domain
  widths : trie.buckets.map List.length = trie.space.map (· + 1)

theorem filedOver_empty (space : Space) (scope : Scope) :
    FiledOver space scope (Trie.empty (scope.keys.map space.domain)) :=
  ⟨rfl, by simp [Trie.empty]⟩

section Filing

variable {space : Space} {scope : Scope} {trie : Trie} (h : FiledOver space scope trie)

include h

theorem FiledOver.size : trie.buckets.length = scope.keys.length := by
  have hlengths := congrArg List.length h.widths
  simpa [h.space_eq] using hlengths

theorem FiledOver.insert? {entry : Assignment} {inserted : Nat × Trie}
    (hinsert : trie.insert? entry = some inserted) : FiledOver space scope inserted.2 := by
  rw [Trie.insert?] at hinsert
  split at hinsert
  · obtain rfl := Option.some.inj hinsert
    refine ⟨h.space_eq, Eq.trans ?_ h.widths⟩
    exact List.ext_getElem (by simp [Trie.insert]) fun key _ _ => by simp [Trie.insert]
  · cases hinsert

theorem FiledOver.slot_localTo (a : Assignment) {position : Nat}
    (hposition : position < scope.keys.length) :
    trie.slot (a.localTo scope) position = a.listOf space scope.keys[position] := by
  have hdomain : trie.space.domain position = space.domain scope.keys[position] := by
    simp [h.space_eq, Space.domain, hposition]
  rw [Trie.slot, Assignment.valueOf?_localTo _ (List.getElem?_eq_getElem hposition), hdomain]
  rfl

/-- An assignment that is filed has no value above a domain. -/
theorem FiledOver.listOf_le {a : Assignment} (hadmits : trie.admits (a.localTo scope) = true)
    {key : Nat} (hkey : key ∈ scope.keys) : a.listOf space key ≤ space.domain key := by
  obtain ⟨position, hposition, rfl⟩ := List.getElem_of_mem hkey
  have hbucket : position < trie.buckets.length := h.size ▸ hposition
  have hlists := List.all_eq_true.1 hadmits (trie.buckets[position], position)
    (List.mk_mem_zipIdx_iff_getElem?.2 (List.getElem?_eq_getElem hbucket))
  have hwidth : trie.buckets[position].length = space.domain scope.keys[position] + 1 := by
    have hsame := congrArg (·[position]?) h.widths
    simpa [h.space_eq, hbucket, hposition] using hsame
  rw [← h.slot_localTo a hposition]
  simp only [hwidth, decide_eq_true_eq] at hlists
  omega

end Filing

namespace Elimination

open FactorGraph

variable {α : Type} {space : Space} {foreign : Nat → Prop}

/-- Rules in the same lists with one payoff. Their tags choose the same for the variables that are
neither in the scope, and so still to be eliminated, nor foreign. -/
structure RuleAlike (space : Space) (foreign : Nat → Prop) (scope : Scope) (rule other : Rule α) :
    Prop where
  lists : other.assignment.listOf space = rule.assignment.listOf space
  payoff : other.payoff = rule.payoff
  tags : ∀ key ∉ scope.keys, ¬foreign key → lastChoice other.tags key = lastChoice rule.tags key

def RulesAlike (space : Space) (foreign : Nat → Prop) (scope : Scope) :
    List (Rule α) → List (Rule α) → Prop :=
  List.Forall₂ (RuleAlike space foreign scope)

section Rules

variable {scope wider : Scope} {rules others : List (Rule α)}

private theorem RulesAlike.widen (h : RulesAlike space foreign scope rules others)
    (hwider : ∀ key ∈ scope.keys, key ∈ wider.keys) : RulesAlike space foreign wider rules others :=
  h.imp fun _ _ halike => ⟨halike.lists, halike.payoff,
    fun key hkey => halike.tags key fun hin => hkey (hwider key hin)⟩

theorem RulesAlike.append {more more' : List (Rule α)}
    (h : RulesAlike space foreign scope rules others)
    (hmore : RulesAlike space foreign scope more more') :
    RulesAlike space foreign scope (rules ++ more) (others ++ more') :=
  List.rel_append h hmore

private theorem RulesAlike.payoffs_eq (h : RulesAlike space foreign scope rules others) :
    others.map Rule.payoff = rules.map Rule.payoff := by
  induction h with
  | nil => rfl
  | cons halike _ ih => rw [List.map_cons, List.map_cons, halike.payoff, ih]

theorem RulesAlike.lastChoice_eq (h : RulesAlike space foreign scope rules others) {key : Nat}
    (hkey : key ∉ scope.keys) (hown : ¬foreign key) :
    lastChoice (others.flatMap Rule.tags) key = lastChoice (rules.flatMap Rule.tags) key := by
  induction h with
  | nil => rfl
  | cons halike _ ih =>
    rw [List.flatMap_cons, List.flatMap_cons, lastChoice_append, lastChoice_append, ih,
      halike.tags key hkey hown]

end Rules

structure ConsumedAlike (space : Space) (foreign : Nat → Prop) (neighborhood : Scope)
    (factor other : ConsumedFactor α) : Prop where
  positions : other.positions = factor.positions
  trie : other.rules.trie = factor.rules.trie
  items : RulesAlike space foreign neighborhood factor.rules.items other.rules.items

section Consumed

variable {neighborhood : Scope}

private theorem insert?_alike {scope : Scope} {trie : Trie} (htrie : FiledOver space scope trie)
    {rule other : Rule α} (h : RuleAlike space foreign neighborhood rule other) :
    trie.insert? (other.assignment.localTo scope) =
      trie.insert? (rule.assignment.localTo scope) := by
  refine Trie.insert?_congr fun position hposition => ?_
  have hlt : position < scope.keys.length := htrie.size ▸ hposition
  rw [htrie.slot_localTo _ hlt, htrie.slot_localTo _ hlt, h.lists]

private theorem file?_alike {scope : Scope} (map map' : TrieMap (Rule α))
    (hfiled : FiledOver space scope map.trie) (htrie : map'.trie = map.trie)
    (hitems : RulesAlike space foreign neighborhood map.items map'.items)
    {rules others : List (Rule α)} (h : RulesAlike space foreign neighborhood rules others) :
    Option.Rel (fun filed filed' => filed'.trie = filed.trie ∧
        RulesAlike space foreign neighborhood filed.items filed'.items)
      (ConsumedFactor.file? scope map rules) (ConsumedFactor.file? scope map' others) := by
  induction h generalizing map map' with
  | nil => exact .some ⟨htrie, hitems⟩
  | @cons rule other _ _ halike _ ih =>
    simp only [ConsumedFactor.file?, TrieMap.insert?, htrie, insert?_alike hfiled halike]
    cases hinsert : map.trie.insert? (rule.assignment.localTo scope) with
    | none => exact .none
    | some inserted =>
      exact ih _ _ (hfiled.insert? hinsert) rfl (hitems.append (.cons halike .nil))

private theorem ofRules?_alike (scope : Scope) {rules others : List (Rule α)}
    (h : RulesAlike space foreign neighborhood rules others) :
    Option.Rel (ConsumedAlike space foreign neighborhood)
      (ConsumedFactor.ofRules? space neighborhood scope rules)
      (ConsumedFactor.ofRules? space neighborhood scope others) := by
  unfold ConsumedFactor.ofRules?
  cases hradix : space.radix? scope.keys with
  | none => exact .none
  | some radix =>
    obtain rfl := Space.eq_of_radix? hradix
    simp only [Option.bind_eq_bind, Option.bind_some]
    refine rel_bind (file?_alike (.empty _) (.empty _) (filedOver_empty space scope) rfl .nil h) ?_
    intro filed filed' hfiled
    exact .some ⟨rfl, hfiled.1, hfiled.2⟩

private theorem matching?_alike {factor other : ConsumedFactor α}
    (h : ConsumedAlike space foreign neighborhood factor other) (joint : List Nat) :
    Option.Rel (RulesAlike space foreign neighborhood) (factor.matching? joint)
      (other.matching? joint) := by
  have hquery : other.fill? [] joint = factor.fill? [] joint := by
    rw [ConsumedFactor.fill?, ConsumedFactor.fill?, h.positions]
  rw [ConsumedFactor.matching?, ConsumedFactor.matching?, ConsumedFactor.matchingIn?,
    ConsumedFactor.matchingIn?, hquery]
  cases factor.fill? [] joint with
  | none => exact .none
  | some values =>
    rw [Option.bind_some, Option.bind_some, TrieMap.filter?, TrieMap.filter?, h.trie]
    cases factor.rules.trie.filter? values with
    | none => exact .none
    | some ids =>
      have hids : List.Forall₂ Eq ids ids := List.forall₂_same.2 fun _ _ => rfl
      refine rel_mapM hids fun id id' heq => ?_
      rw [heq]
      exact rel_getElem? h.items id'

private theorem matchingAll?_alike {factors others : List (ConsumedFactor α)}
    (h : List.Forall₂ (ConsumedAlike space foreign neighborhood) factors others)
    (joint : List Nat) :
    Option.Rel (List.Forall₂ (RulesAlike space foreign neighborhood)) (matchingAll? factors joint)
      (matchingAll? others joint) :=
  rel_mapM h fun _ _ halike => matching?_alike halike joint

private theorem consume?_alike {handles : List Handle}
    {graph other : FactorGraph (List (Rule α))} (hsound : graph.Sound)
    (h : graph.Alike (RulesAlike space foreign) other)
    (hcovered : ∀ handle ∈ handles, ∀ factor, graph.factor? handle = some factor →
      ∀ key ∈ factor.scope.keys, key ∈ neighborhood.keys) :
    Option.Rel (fun consumed consumed' =>
        List.Forall₂ (ConsumedAlike space foreign neighborhood) consumed.1 consumed'.1 ∧
          consumed.2.Alike (RulesAlike space foreign) consumed'.2)
      (consume? space neighborhood handles graph) (consume? space neighborhood handles other) := by
  induction handles generalizing graph other with
  | nil => exact .some ⟨.nil, h⟩
  | cons handle handles ih =>
    have hfactor := h.factor? handle
    generalize hold : graph.factor? handle = factor at hfactor
    generalize hnew : other.factor? handle = factor' at hfactor
    unfold consume?
    rw [hold, hnew]
    cases hfactor with
    | none => exact .none
    | @some factor factor' hfactor =>
      obtain ⟨after, after', herase, herase', hafter⟩ := h.eraseFactor? hsound hold hnew
      have hleft := hsound.factor?_eraseFactor? herase
      simp only [Option.bind_eq_bind, Option.bind_some, herase, herase', hfactor.scope_eq]
      have hrules := hfactor.data.widen (hcovered handle List.mem_cons_self factor hold)
      refine rel_bind (ofRules?_alike factor.scope hrules) ?_
      intro consumed consumed' hconsumed
      refine rel_bind (ih (hsound.eraseFactor? herase) hafter ?_) ?_
      · intro next hnext found hfound
        rw [hleft] at hfound
        split at hfound
        · cases hfound
        · exact hcovered next (List.mem_cons_of_mem _ hnext) found hfound
      · intro rest rest' hrest
        exact .some ⟨.cons hconsumed hrest.1, hrest.2⟩

end Consumed

structure RunAlike (space : Space) (foreign : Nat → Prop) (run other : Run α) : Prop where
  graph : run.graph.Alike (RulesAlike space foreign) other.graph
  finals : RulesAlike space foreign .empty run.finals other.finals
  steps : other.steps = run.steps

private theorem deposit?_alike {run other : Run α} (h : RunAlike space foreign run other)
    (hsound : run.graph.Sound) {scope : Scope} {rules responses : List (Rule α)}
    (hscope : ∀ key ∈ scope.keys, key < run.graph.varCount ∧ run.graph.isLive key = true)
    (hrules : RulesAlike space foreign scope rules responses) :
    Option.Rel (RunAlike space foreign) (run.deposit? scope rules)
      (other.deposit? scope responses) := by
  unfold Run.deposit?
  by_cases hempty : scope = .empty
  · rw [if_pos hempty, if_pos hempty]
    exact .some ⟨h.graph, h.finals.append (hempty ▸ hrules), h.steps⟩
  · obtain ⟨handle, after, after', hensure, hensure', hafter⟩ :=
      h.graph.ensure? hsound ⟨hempty, hscope⟩ .nil
    obtain ⟨factor, hfactor, hover, -⟩ := hsound.factor?_ensure? ⟨hempty, hscope⟩ hensure
    have hfiled : (after.modifyData handle (· ++ rules)).Alike (RulesAlike space foreign)
        (after'.modifyData handle (· ++ responses)) := by
      refine hafter.modifyData fun found hfound data data' hdata => ?_
      obtain rfl := Option.some.inj (hfactor.symm.trans hfound)
      exact hdata.append (hover ▸ hrules)
    rw [if_neg hempty, if_neg hempty, hensure, hensure']
    exact .some ⟨hfiled, h.finals, h.steps⟩

section Steps

variable [Payoff α] {neighborhood : Scope} {factors others : List (ConsumedFactor α)}

private theorem localScore?_alike
    (h : List.Forall₂ (ConsumedAlike space foreign neighborhood) factors others)
    (joint : List Nat) : localScore? others joint = localScore? factors joint := by
  have hmatching := matchingAll?_alike h joint
  have hscore : ∀ groups : List (List (Rule α)),
      groups.foldl (fun score rules => score + Payoff.total (rules.map Rule.payoff)) Payoff.zero =
        (groups.map (List.map Rule.payoff)).foldl
          (fun score payoffs => score + Payoff.total payoffs) Payoff.zero := by
    intro groups
    rw [List.foldl_map]
  unfold localScore?
  generalize matchingAll? factors joint = earned, matchingAll? others joint = earned' at hmatching
  cases hmatching with
  | none => rfl
  | some hgroups =>
    rw [Option.map_some, Option.map_some, hscore, hscore]
    congr 2
    induction hgroups with
    | nil => rfl
    | cons hrules _ ih => rw [List.map_cons, List.map_cons, ih, hrules.payoffs_eq]

/-- The choice is the same, and its tag counts; the scope of the new rule has one variable less. -/
theorem bestResponse?_alike (key pivot : Nat)
    (h : List.Forall₂ (ConsumedAlike space foreign neighborhood) factors others)
    (joint : List Nat) :
    Option.Rel (RuleAlike space foreign (neighborhood.erase key))
      (bestResponse? space key factors pivot (neighborhood.erase key) joint)
      (bestResponse? space key others pivot (neighborhood.erase key) joint) := by
  have hscores : ∀ domain, choiceScores? others pivot joint domain =
      choiceScores? factors pivot joint domain := by
    intro domain
    unfold choiceScores?
    congr 1
    funext choice
    exact localScore?_alike h _
  unfold bestResponse?
  simp only [hscores]
  cases space[key]? with
  | none => exact .none
  | some domain =>
    cases hfound : choiceScores? factors pivot joint domain with
    | none =>
      simp only [Option.bind_eq_bind, Option.bind_some, hfound]
      exact .none
    | some scores =>
      simp only [Option.bind_eq_bind, Option.bind_some, hfound]
      refine rel_bind (matchingAll?_alike h _) ?_
      intro earned earned' hearned
      refine .some ⟨rfl, rfl, ?_⟩
      intro other hother hown
      rw [lastChoice_append, lastChoice_append, lastChoice_singleton]
      by_cases heq : other = key
      · rw [if_pos heq]
        rfl
      · have hout : other ∉ neighborhood.keys := fun hin => hother (mem_eraseKey.2 ⟨hin, heq⟩)
        have hflatten : RulesAlike space foreign neighborhood earned.flatten earned'.flatten :=
          List.rel_flatten hearned
        rw [if_neg heq, Option.none_or, Option.none_or, hflatten.lastChoice_eq hout hown]

theorem eliminate?_alike {run other : Run α} (hrun : run.Intact space)
    (h : RunAlike space foreign run other) {key : Nat} (hkey : key < space.length) :
    Option.Rel (RunAlike space foreign) (run.eliminate? space key)
      (other.eliminate? space key) := by
  unfold Run.eliminate?
  rw [h.graph.neighbors_eq]
  cases hhandles : run.graph.neighbors key with
  | nil => exact .some ⟨h.graph.eraseVariable key, h.finals, by rw [h.steps]⟩
  | cons first others =>
    obtain ⟨factors, consumed, groups, hconsume, hclear⟩ :=
      clear_spec hrun hkey (by simp [hhandles])
    rw [hhandles] at hconsume hclear
    generalize hneighborhood : run.graph.unionScope (first :: others) = neighborhood
      at hconsume hclear
    have hcovered : ∀ handle ∈ first :: others, ∀ factor,
        run.graph.factor? handle = some factor →
          ∀ other ∈ factor.scope.keys, other ∈ neighborhood.keys :=
      fun handle hhandle factor hfactor other hother =>
        hneighborhood ▸ mem_unionScope.2 ⟨handle, hhandle, factor, hfactor, hother⟩
    have hconsumed := consume?_alike hrun.sound h.graph hcovered
    rw [hconsume] at hconsumed
    generalize hconsume' : consume? space neighborhood (first :: others) other.graph = found
      at hconsumed
    cases hconsumed with
    | @some _ found hfound =>
      obtain ⟨factors', consumed'⟩ := found
      obtain ⟨hfactors, hgraph⟩ := hfound
      obtain ⟨pivot, hpivot⟩ := Scope.position?_of_mem hclear.pivot
      simp only [h.graph.unionScope_eq, hneighborhood, hconsume, hconsume', hpivot,
        Option.bind_eq_bind, Option.bind_some]
      cases space.jointValues? (neighborhood.erase key).keys with
      | none => exact .none
      | some joints =>
        have hjoints : List.Forall₂ Eq joints joints := List.forall₂_same.2 fun _ _ => rfl
        have hresponses : Option.Rel (RulesAlike space foreign (neighborhood.erase key))
            (joints.mapM (bestResponse? space key factors pivot (neighborhood.erase key)))
            (joints.mapM (bestResponse? space key factors' pivot (neighborhood.erase key))) := by
          refine rel_mapM hjoints ?_
          rintro joint _ rfl
          exact bestResponse?_alike key pivot hfactors joint
        simp only [Option.bind_some]
        refine rel_bind hresponses fun rules rules' hrules => ?_
        have hcount : consumed.varCount = space.length := hclear.intact.varCount
        have hcleared : ∀ steps, RunAlike space foreign
            ⟨consumed.eraseVariable key, run.finals, steps⟩
            ⟨consumed'.eraseVariable key, other.finals, steps⟩ :=
          fun _ => ⟨hgraph.eraseVariable key, h.finals, rfl⟩
        rw [h.steps, ← hrules.length_eq]
        refine deposit?_alike (hcleared _) (hclear.intact.sound.eraseVariable hclear.free) ?_ hrules
        intro other hother
        rw [Sound.eraseVariable_varCount, hcount]
        exact hclear.remaining_live hkey other hother

private theorem next?_alike {δ : Type} {R : Scope → δ → δ → Prop} {graph other : FactorGraph δ}
    (h : graph.Alike R other) (order : Order) : order.next? other = order.next? graph := by
  have hwidth : ∀ key, width other key = width graph key := by
    intro key
    rw [width, width, h.neighbors_eq, h.unionScope_eq]
  cases order with
  | lastFirst => rw [next?_lastFirst, next?_lastFirst, h.liveVariables_eq]
  | minDegree =>
    have hpick : pickNarrower other = pickNarrower graph := by
      funext best key
      simp only [pickNarrower, hwidth]
    rw [Order.next?, Order.next?, h.liveVariables_eq, hpick]

theorem advance?_alike (hspace : space.Inhabited) (order : Order) (limit : Nat)
    {run other : Run α} (hrun : run.Intact space) (h : RunAlike space foreign run other) :
    Option.Rel (RunAlike space foreign) (run.advance? space order limit)
      (other.advance? space order limit) := by
  induction limit generalizing run other with
  | zero => exact .some h
  | succ limit ih =>
    rw [Run.advance?, Run.advance?, next?_alike h.graph]
    rcases next?_spec order run.graph with ⟨hnext, -⟩ | ⟨key, hkey, hnext⟩
    · rw [hnext]
      exact .some h
    · have hlt : key < space.length := hrun.varCount ▸ (mem_liveVariables.1 hkey).1
      have hown : OfChoices space fun _ => True := fun _ _ _ _ => trivial
      obtain ⟨after, hafter, hsafe, -⟩ :=
        eliminate?_safe hspace hown ⟨hrun, fun _ _ _ _ => trivial⟩ hlt
      have hstep := eliminate?_alike hrun h hlt
      rw [hafter] at hstep
      simp only [hnext, hafter]
      generalize other.eliminate? space key = found at hstep
      cases hstep with
      | some halike => exact ih hsafe.intact halike

theorem eliminateAll?_alike (hspace : space.Inhabited) (order : Order)
    {graph other : FactorGraph (List (Rule α))} (hstart : (Run.start graph).Intact space)
    (h : graph.Alike (RulesAlike space foreign) other) :
    Option.Rel (RunAlike space foreign) (eliminateAll? space order graph)
      (eliminateAll? space order other) := by
  rw [eliminateAll?, eliminateAll?, h.varCount]
  exact advance?_alike hspace order graph.varCount hstart ⟨h, .nil, rfl⟩

theorem assemble?_alike {finals finals' : List (Rule α)}
    (h : RulesAlike space foreign .empty finals finals') {solution solution' : Solution α}
    (hsolution : assemble? space finals = some solution)
    (hsolution' : assemble? space finals' = some solution') :
    solution'.payoff = solution.payoff ∧
      ∀ key, ¬foreign key →
        valuation solution'.assignment key = valuation solution.assignment key := by
  obtain ⟨-, hpayoff, hread⟩ := assemble?_spec hsolution
  obtain ⟨-, hpayoff', hread'⟩ := assemble?_spec hsolution'
  refine ⟨by rw [hpayoff, hpayoff', h.payoffs_eq], fun key hown => ?_⟩
  rw [hread, hread', h.lastChoice_eq (List.not_mem_nil) hown]

/-- Where no variable is foreign, finals that are alike spell out the same. -/
theorem assemble?_of_alike {finals finals' : List (Rule α)}
    (h : RulesAlike space (fun _ => False) .empty finals finals') {solution : Solution α}
    (hsolution : assemble? space finals = some solution) :
    assemble? space finals' = some solution := by
  obtain ⟨full, hfull, -⟩ := Option.map_eq_some_iff.1 hsolution
  have hrange : ∀ tag ∈ finals'.flatMap Rule.tags, tag.1 < space.length := by
    intro tag htag
    have hkey : tag.1 ∈ (finals.flatMap Rule.tags).map Prod.fst := by
      by_contra hout
      have hnone : lastChoice (finals'.flatMap Rule.tags) tag.1 =
          lastChoice (finals.flatMap Rule.tags) tag.1 := h.lastChoice_eq List.not_mem_nil not_false
      rw [lastChoice_eq_none_iff.2 hout, lastChoice_eq_none_iff] at hnone
      exact hnone (List.mem_map_of_mem htag)
    obtain ⟨other, hother, hsame⟩ := List.mem_map.1 hkey
    have hlt := lt_of_assign? hfull other hother
    rwa [hsame, Space.origin, List.length_replicate] at hlt
  obtain ⟨solution', hsolution'⟩ := exists_assemble? hrange
  obtain ⟨hpayoff, hvalues⟩ := assemble?_alike h hsolution hsolution'
  rw [hsolution', Solution.eq_of_valuation (assemble?_spec hsolution).1
    (assemble?_spec hsolution').1 hpayoff fun key => hvalues key not_false]

end Steps

end Elimination

end JointDecision

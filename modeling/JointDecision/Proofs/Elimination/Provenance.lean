import JointDecision.Proofs.Elimination.Components
import JointDecision.Proofs.Elimination.Diagnostics
import JointDecision.Proofs.Elimination.Exchange
import Mathlib

/-! # Where the choices of a solution come from

In every valuation the rules that hold during a run have one choice for each variable that was
eliminated. The tags of one rule are choices for variables of one component, and what the primal
graph joins these to has its choice in the same rule, or is still mentioned by it. So the rules over
no variables that a run ends with are one for each component. -/

namespace JointDecision

open FactorGraph

variable {α : Type}

def Rule.variables (rule : Rule α) : List Nat :=
  rule.tags.map Prod.fst ++ rule.assignment.keys

/-- Whether the tags of a rule can be traced to a component of the primal graph: they are choices
for variables of it, and everything beside these is also a variable of the rule. -/
structure Rule.Traced (space : Space) (primal : PrimalGraph) (rule : Rule α) : Prop where
  choices : ∀ tag ∈ rule.tags, tag.2 < space.domain tag.1
  enclosed : ∀ key ∈ rule.tags.map Prod.fst, ∀ other ∈ primal.near key, other ∈ rule.variables
  linked : ∀ key ∈ rule.variables, ∀ other ∈ rule.variables, primal.Linked key other

/-- A rule without tags is about one component, since it mentions all its variables. -/
theorem Rule.traced_of_tags_eq_nil (space : Space) {rules : List (Rule α)} {rule : Rule α}
    (hrule : rule ∈ rules) (htags : rule.tags = []) : rule.Traced space (.ofRules rules) where
  choices := by simp [htags]
  enclosed := by simp [htags]
  linked key hkey other hother := by
    have hkey : key ∈ rule.assignment.keys := by simpa [Rule.variables, htags] using hkey
    have hother : other ∈ rule.assignment.keys := by simpa [Rule.variables, htags] using hother
    by_cases heq : other = key
    · subst heq
      exact SimpleGraph.Reachable.refl _
    · exact PrimalGraph.linked_of_near (PrimalGraph.mem_beside.2 ⟨heq, rule, hrule, hkey, hother⟩)

theorem Occurs.lt_length {space : Space} {rules : List (Rule α)} {key : Nat} (h : Occurs rules key)
    (hrules : ∀ rule ∈ rules, rule.assignment.Over space) : key < space.length := by
  obtain ⟨rule, hrule, hkey⟩ := h
  exact (hrules rule hrule).keys_lt key hkey

namespace Elimination

theorem mem_keys_tagsAt {rules : List (Rule α)} {x : Valuation} {key : Nat} :
    key ∈ (tagsAt rules x).map Prod.fst ↔
      ∃ rule ∈ rules, rule.assignment.holds x = true ∧ key ∈ rule.tags.map Prod.fst := by
  simp only [tagsAt, earned, List.map_flatMap, List.mem_flatMap, List.mem_filter, and_assoc]

/-- What holds between the steps of a run over rules without tags. -/
structure Traced (space : Space) (order : Order) (rules : List (Rule α)) (run : Run α) : Prop where
  diagnosed : Diagnosed space order rules run
  filled : ∀ rule ∈ run.graph.rules, rule.assignment.entries ≠ []
  tagged : ∀ rule ∈ run.finals, rule.tags ≠ []
  traced : ∀ rule ∈ run.rules, rule.Traced space (.ofRules rules)
  covers : ∀ x, space.Respects x →
    ((tagsAt run.rules x).map Prod.fst).Perm (run.removed.filter (Occurs rules ·))

section Step

variable {space : Space} {order : Order} {rules : List (Rule α)} {run : Run α} {key : Nat}

private theorem Diagnosed.linked_of_mem_neighborhood (h : Diagnosed space order rules run)
    (hkey : key ∈ run.graph.liveVariables) {other : Nat}
    (hother : other ∈ (run.graph.unionScope (run.graph.neighbors key)).keys) :
    (PrimalGraph.ofRules rules).Linked key other := by
  have htogether := (h.intact.sound.mem_neighborhood (mem_liveVariables.1 hkey).1).1 hother
  obtain ⟨rfl, -⟩ | hnear := (h.mirrors key hkey other).1 htogether
  · exact SimpleGraph.Reachable.refl _
  · exact PrimalGraph.linked_of_near_after run.removed hnear

private theorem Diagnosed.mem_neighborhood_of_near (h : Diagnosed space order rules run)
    (hkey : key ∈ run.graph.liveVariables) {other : Nat}
    (hnear : other ∈ (PrimalGraph.ofRules rules).near key) (hother : other ∉ run.removed) :
    other ∈ (run.graph.unionScope (run.graph.neighbors key)).keys := by
  have hout := ((h.live key).1 hkey).2
  refine (h.intact.sound.mem_neighborhood (mem_liveVariables.1 hkey).1).2 ?_
  exact (h.mirrors key hkey other).2 (.inr (PrimalGraph.near_after hnear hout hother))

/-- An eliminated variable has its choice in a rule that holds. -/
theorem Traced.exists_rule (h : Traced space order rules run) {x : Valuation}
    (hx : space.Respects x) {other : Nat} (hoccurs : Occurs rules other)
    (hremoved : other ∈ run.removed) :
    ∃ rule ∈ run.rules, rule.assignment.holds x = true ∧ other ∈ rule.tags.map Prod.fst := by
  refine mem_keys_tagsAt.1 ((h.covers x hx).mem_iff.2 ?_)
  exact List.mem_filter.2 ⟨hremoved, by simpa using hoccurs⟩

private theorem Traced.not_mem_tags (h : Traced space order rules run) {x : Valuation}
    (hx : space.Respects x) (hkey : key ∈ run.graph.liveVariables) {rule : Rule α}
    (hrule : rule ∈ run.rules) (hholds : rule.assignment.holds x = true) :
    key ∉ rule.tags.map Prod.fst := by
  intro hin
  have hremoved := (h.covers x hx).mem_iff.1 (mem_keys_tagsAt.2 ⟨rule, hrule, hholds, hin⟩)
  exact ((h.diagnosed.live key).1 hkey).2 (List.mem_filter.1 hremoved).1

/-- A variable that no rule mentions goes without a trace. -/
theorem Traced.skip (h : Traced space order rules run) {after : Run α}
    (hafter : Diagnosed space order rules after) (hremoved : after.removed = run.removed ++ [key])
    (hout : ¬Occurs rules key) (hfinals : after.finals = run.finals)
    (hgraph : after.graph.rules.Perm run.graph.rules) : Traced space order rules after := by
  have hrules : after.rules.Perm run.rules := by
    rw [Run.rules, Run.rules, hfinals]
    exact hgraph.append_left _
  refine ⟨hafter, fun rule hrule => h.filled rule (hgraph.mem_iff.1 hrule), hfinals ▸ h.tagged,
    fun rule hrule => h.traced rule (hrules.mem_iff.1 hrule), fun x hx => ?_⟩
  rw [hremoved, List.filter_append, List.filter_singleton, decide_eq_false hout]
  simpa using ((tagsAt_perm hrules x).map Prod.fst).trans (h.covers x hx)

section Busy

variable {neighborhood : Scope} {consumed : FactorGraph (List (Rule α))}
  {factors : List (ConsumedFactor α)} {groups : List (List (Rule α))}

private theorem mem_variables_answer {found : α × Nat} {joint : List Nat}
    (hpivot : key ∈ neighborhood.keys)
    (hjoint : MixedRadix.Digits ((neighborhood.erase key).keys.map space.domain) joint)
    {other : Nat} :
    other ∈ (answer key (neighborhood.erase key) groups.flatten found joint).variables ↔
      other ∈ neighborhood.keys ∨ other ∈ (tagsAt groups.flatten (Function.update
        (overlay (neighborhood.erase key).keys joint) key found.2)).map Prod.fst := by
  have hrest : other ∈ (neighborhood.erase key).keys ↔ other ∈ neighborhood.keys ∧ other ≠ key :=
    mem_eraseKey
  rw [Rule.variables, keys_answer _ _ hjoint, List.mem_append, hrest, answer, List.map_append,
    List.mem_append, List.map_singleton, List.mem_singleton]
  by_cases heq : other = key
  · subst heq
    simp [hpivot]
  · simp [heq, or_comm]

variable (h : Traced space order rules run) (hkey : key ∈ run.graph.liveVariables)
  (hneighborhood : neighborhood = run.graph.unionScope (run.graph.neighbors key))
  (hclear : Clears space key neighborhood run consumed factors groups)

include h hkey hneighborhood hclear

/-- What is beside a variable when it is eliminated is in its neighborhood, or has its choice in one
of the rules around the variable, whatever the other variables are. -/
theorem Traced.enclosed {x : Valuation} (hx : space.Respects x) {other : Nat}
    (hnear : other ∈ (PrimalGraph.ofRules rules).near key) :
    other ∈ neighborhood.keys ∨ other ∈ (tagsAt groups.flatten x).map Prod.fst := by
  by_cases hremoved : other ∈ run.removed
  · obtain ⟨rule, hrule, hholds, htag⟩ :=
      h.exists_rule hx (PrimalGraph.occurs_of_near hnear).2 hremoved
    -- The rule mentions the variable, which has no choice yet; so it is around the variable.
    have hvariable := (h.traced rule hrule).enclosed other htag key (PrimalGraph.symm _ hnear)
    have hmentioned : key ∈ rule.assignment.keys :=
      (List.mem_append.1 hvariable).resolve_left (h.not_mem_tags hx hkey hrule hholds)
    obtain ⟨entry, hentry, hfirst⟩ := List.mem_map.1 hmentioned
    rcases List.mem_append.1 (hclear.rules_perm.mem_iff.1 hrule) with haround | hkept
    · exact .inr (mem_keys_tagsAt.2 ⟨rule, haround, hholds, htag⟩)
    · exact absurd hfirst (hclear.intact.off_free hclear.free hkept entry hentry)
  · exact .inl (hneighborhood ▸ h.diagnosed.mem_neighborhood_of_near hkey hnear hremoved)

private theorem Traced.linked_around {rule : Rule α} (hrule : rule ∈ groups.flatten) {other : Nat}
    (hother : other ∈ rule.variables) : (PrimalGraph.ofRules rules).Linked key other := by
  have hin : rule ∈ run.graph.rules :=
    hclear.consumes.rules.mem_iff.2 (List.mem_append_left _ hrule)
  obtain ⟨entry, hentry⟩ := List.exists_mem_of_ne_nil _ (h.filled rule hin)
  have hnear := hclear.consumes.around rule hrule entry hentry
  have hmentioned : entry.1 ∈ rule.variables :=
    List.mem_append_right _ (List.mem_map_of_mem hentry)
  have hlinked := (h.traced rule (List.mem_append_right _ hin)).linked _ hmentioned _ hother
  exact (h.diagnosed.linked_of_mem_neighborhood hkey (hneighborhood ▸ hnear)).trans hlinked

private theorem Traced.traced_answer (hspace : space.Inhabited) {found : α × Nat}
    (hfound : found.2 < space.domain key) {joint : List Nat}
    (hjoint : MixedRadix.Digits ((neighborhood.erase key).keys.map space.domain) joint) :
    (answer key (neighborhood.erase key) groups.flatten found joint).Traced space
      (.ofRules rules) := by
  have hx := (respects_overlay hspace hjoint).update hfound
  have hvariables := @mem_variables_answer _ space key _ groups found joint hclear.pivot hjoint
  have hold : ∀ rule ∈ groups.flatten, rule.Traced space (.ofRules rules) := fun rule hrule =>
    h.traced rule (hclear.rules_perm.mem_iff.2 (List.mem_append_left _ hrule))
  refine ⟨?_, ?_, ?_⟩
  · intro tag htag
    rcases List.mem_append.1 htag with htag | htag
    · obtain ⟨rule, hrule, htag⟩ := List.mem_flatMap.1 htag
      exact (hold rule (List.mem_filter.1 hrule).1).choices tag htag
    · rw [List.mem_singleton.1 htag]
      exact hfound
  · intro chosen hchosen other hnear
    rw [hvariables]
    rw [answer, List.map_append, List.mem_append] at hchosen
    rcases hchosen with hchosen | hchosen
    · obtain ⟨rule, hrule, hholds, htag⟩ := mem_keys_tagsAt.1 hchosen
      rcases List.mem_append.1 ((hold rule hrule).enclosed chosen htag other hnear) with htag | hin
      · exact .inr (mem_keys_tagsAt.2 ⟨rule, hrule, hholds, htag⟩)
      · obtain ⟨entry, hentry, rfl⟩ := List.mem_map.1 hin
        exact .inl (hclear.consumes.around rule hrule entry hentry)
    · obtain rfl : chosen = key := by simpa using hchosen
      exact h.enclosed hkey hneighborhood hclear hx hnear
  · have hlinked : ∀ other ∈ (answer key (neighborhood.erase key) groups.flatten found
        joint).variables, (PrimalGraph.ofRules rules).Linked key other := by
      intro other hother
      rcases hvariables.1 hother with hin | htag
      · exact h.diagnosed.linked_of_mem_neighborhood hkey (hneighborhood ▸ hin)
      · obtain ⟨rule, hrule, -, htag⟩ := mem_keys_tagsAt.1 htag
        exact h.linked_around hkey hneighborhood hclear hrule (List.mem_append_left _ htag)
    intro first hfirst second hsecond
    exact (hlinked first hfirst).symm.trans (hlinked second hsecond)

omit hkey hneighborhood in
/-- The answers of a step and the rules that stay have one choice for each variable that was
eliminated, this one included. -/
theorem Traced.covers_answers (hoccurs : Occurs rules key) (found : List Nat → α × Nat)
    {joints : List (List Nat)}
    (hfound : ∀ joint ∈ joints, (found joint).2 < space.domain key)
    (hjoints : MixedRadix.Enumerates ((neighborhood.erase key).keys.map space.domain) joints)
    {x : Valuation} (hx : space.Respects x) :
    ((tagsAt (joints.map (fun joint =>
        answer key (neighborhood.erase key) groups.flatten (found joint) joint) ++
          (run.finals ++ consumed.rules)) x).map Prod.fst).Perm
      ((run.removed ++ [key]).filter (Occurs rules ·)) := by
  obtain ⟨joint, hjoint, htags⟩ := tagsAt_answers hclear.consumes.around found hjoints
    fun other hother => hx other (hclear.live other (mem_eraseKey.1 hother).1).1
  have hsame : tagsAt (run.finals ++ consumed.rules) x =
      tagsAt (run.finals ++ consumed.rules) (Function.update x key (found joint).2) :=
    tagsAt_congr fun rule hrule entry hentry => (Function.update_of_ne
      (hclear.intact.off_free hclear.free hrule entry hentry) _ _).symm
  have hbefore := h.covers _ (hx.update (hfound joint hjoint))
  have hsplit := (tagsAt_perm hclear.rules_perm (Function.update x key (found joint).2)).map
    Prod.fst
  rw [tagsAt_append, List.map_append] at hsplit
  rw [tagsAt_append, htags, hsame, List.map_append, List.map_append, List.filter_append,
    List.filter_singleton, decide_eq_true hoccurs]
  generalize Function.update x key (found joint).2 = y at hbefore hsplit
  calc (tagsAt groups.flatten y).map Prod.fst ++ [key] ++
        (tagsAt (run.finals ++ consumed.rules) y).map Prod.fst
    _ = (tagsAt groups.flatten y).map Prod.fst ++
        ([key] ++ (tagsAt (run.finals ++ consumed.rules) y).map Prod.fst) := List.append_assoc ..
    List.Perm _ ((tagsAt groups.flatten y).map Prod.fst ++
        ((tagsAt (run.finals ++ consumed.rules) y).map Prod.fst ++ [key])) :=
      List.perm_append_comm.append_left _
    _ = (tagsAt groups.flatten y).map Prod.fst ++
        (tagsAt (run.finals ++ consumed.rules) y).map Prod.fst ++ [key] :=
      (List.append_assoc ..).symm
    List.Perm _ (run.removed.filter (Occurs rules ·) ++ [key]) :=
      (hsplit.symm.trans hbefore).append_right [key]

/-- The answers pass on the choices of the rules around the variable, with its own. -/
theorem Traced.fold [Payoff α] (hspace : space.Inhabited) {after : Run α}
    (hafter : Diagnosed space order rules after) (hremoved : after.removed = run.removed ++ [key])
    (hoccurs : Occurs rules key) {pivot : Nat} {joints : List (List Nat)}
    {generated : List (Rule α)}
    (hresponds : Responds space key neighborhood pivot factors groups joints generated)
    (hfinals : after.finals = run.finals ++ generated.filter Rule.closed)
    (hgraph : after.graph.rules.Perm (generated.filter (!·.closed) ++ consumed.rules)) :
    Traced space order rules after := by
  have hrules := rules_perm_of_exchange hfinals hgraph
  obtain ⟨found, rfl, hfound⟩ := hresponds.answers
  refine ⟨hafter, ?_, ?_, ?_, ?_⟩
  · intro rule hrule
    rcases List.mem_append.1 (hgraph.mem_iff.1 hrule) with hnew | hold
    · simpa [Rule.closed] using (List.mem_filter.1 hnew).2
    · exact h.filled rule (hclear.consumes.rules.mem_iff.2 (List.mem_append_right _ hold))
  · intro rule hrule
    rw [hfinals] at hrule
    rcases List.mem_append.1 hrule with hold | hnew
    · exact h.tagged rule hold
    · obtain ⟨joint, -, rfl⟩ := List.mem_map.1 (List.mem_filter.1 hnew).1
      simp [answer]
  · intro rule hrule
    rcases List.mem_append.1 (hrules.mem_iff.1 hrule) with hnew | hold
    · obtain ⟨joint, hjoint, rfl⟩ := List.mem_map.1 hnew
      exact h.traced_answer hkey hneighborhood hclear hspace (hfound joint hjoint)
        (hresponds.enumerates.digits joint hjoint)
    · exact h.traced rule (hclear.rules_perm.mem_iff.2 (List.mem_append_right _ hold))
  · intro x hx
    rw [hremoved]
    exact ((tagsAt_perm hrules x).map Prod.fst).trans
      (h.covers_answers hclear hoccurs found hfound hresponds.enumerates hx)

end Busy

private theorem traced_start {graph : FactorGraph (List (Rule α))}
    (hfiled : Filed space (fun rule data => data ++ [rule]) rules graph)
    (hrules : ∀ rule ∈ rules, rule.assignment.Over space) (htags : ∀ rule ∈ rules, rule.tags = []) :
    Traced space order rules (Run.start graph) where
  diagnosed := diagnosed_start order hfiled hrules
  filled rule hrule := (hrules rule (hfiled.rules_perm.mem_iff.1 hrule)).nonempty
  tagged _ hrule := by cases hrule
  traced rule hrule :=
    have hin := hfiled.rules_perm.mem_iff.1 hrule
    Rule.traced_of_tags_eq_nil space hin (htags rule hin)
  covers x _ := by
    have hnone : tagsAt (Run.start graph).rules x = [] :=
      List.flatMap_eq_nil_iff.2 fun rule hrule =>
        htags rule (hfiled.rules_perm.mem_iff.1 (List.mem_filter.1 hrule).1)
    rw [hnone]
    rfl

theorem Traced.picks [Payoff α] (hspace : space.Inhabited) (order : Order) (rules : List (Rule α)) :
    PicksKeep space order fun run : Run α => Traced space order rules run := by
  intro run key h hkey hnext
  have hlt := ((h.diagnosed.live key).1 hkey).1
  have hcount := h.diagnosed.intact.varCount
  have htouched := h.diagnosed.intact.sound.neighbors_eq_nil_iff (hcount.symm ▸ hlt)
  rw [h.diagnosed.mirrors.together_self hkey] at htouched
  obtain ⟨after, heliminate, hdiagnosed, hlive, hremoved⟩ :=
    Diagnosed.picks hspace order rules h.diagnosed hkey hnext
  refine ⟨after, heliminate, ?_, hlive, hremoved⟩
  obtain ⟨generated, -, hfinals, ⟨hfree, rfl, hgraph⟩ |
    ⟨neighborhood, consumed, _, groups, _, joints, hneighborhood, hclear, hresponds, hgraph⟩⟩ :=
    eliminate?_exchange hspace h.diagnosed.intact hlt heliminate
  · rw [List.filter_nil, List.append_nil] at hfinals
    exact h.skip hdiagnosed hremoved (htouched.1 hfree) hfinals hgraph
  · have hoccurs : Occurs rules key := by
      by_contra hnot
      have hpivot := hneighborhood ▸ hclear.pivot
      rw [htouched.2 hnot] at hpivot
      cases hpivot
    exact h.fold hkey hneighborhood hclear hspace hdiagnosed hremoved hoccurs hresponds hfinals
      hgraph

end Step

/-- Whether final rules spell out the components of the primal graph: together they have one choice
for each variable that a rule mentions, and each has those for the variables of a component of its
own, none of which is left out. -/
structure Spells (space : Space) (rules finals : List (Rule α)) : Prop where
  keys : ((finals.flatMap Rule.tags).map Prod.fst).Perm
    ((List.range space.length).filter (Occurs rules ·))
  choices : ∀ tag ∈ finals.flatMap Rule.tags, tag.2 < space.domain tag.1
  components : ∃ e : Fin finals.length ≃ (PrimalGraph.occurring rules).ConnectedComponent,
    ∀ position, ((finals.get position).tags.map Prod.fst).Nodup ∧
      ∀ key, key ∈ (finals.get position).tags.map Prod.fst ↔
        ∃ h, (PrimalGraph.occurring rules).connectedComponentMk ⟨key, h⟩ = e position

section Finals

variable {space : Space} {rules finals : List (Rule α)}

private theorem eq_of_mem_of_nodup_flatMap {β γ : Type} {f : β → List γ} {list : List β}
    (hnodup : (list.flatMap f).Nodup) {i j : Fin list.length} {c : γ} (hi : c ∈ f (list.get i))
    (hj : c ∈ f (list.get j)) : i = j := by
  have hdisjoint := List.pairwise_iff_get.1 (List.nodup_flatMap.1 hnodup).2
  by_contra hne
  rcases lt_or_gt_of_ne hne with hlt | hlt
  · exact hdisjoint i j hlt hi hj
  · exact hdisjoint j i hlt hj hi

private theorem spells_of_traced (hrange : ∀ key, Occurs rules key → key < space.length)
    (hpure : ∀ rule ∈ finals, rule.assignment.entries = [])
    (htagged : ∀ rule ∈ finals, rule.tags ≠ [])
    (htraced : ∀ rule ∈ finals, rule.Traced space (.ofRules rules))
    (hkeys : ((finals.flatMap Rule.tags).map Prod.fst).Perm
      ((List.range space.length).filter (Occurs rules ·))) : Spells space rules finals := by
  have hnodup : (finals.flatMap fun rule => rule.tags.map Prod.fst).Nodup := by
    rw [← List.map_flatMap]
    exact hkeys.nodup_iff.2 (List.nodup_range.filter _)
  have hmem : ∀ key, Occurs rules key ↔ ∃ rule ∈ finals, key ∈ rule.tags.map Prod.fst := by
    intro key
    rw [← List.mem_flatMap, ← List.map_flatMap, hkeys.mem_iff, List.mem_filter, List.mem_range,
      decide_eq_true_eq]
    exact ⟨fun hoccurs => ⟨hrange key hoccurs, hoccurs⟩, And.right⟩
  have hcomponent : ∀ rule ∈ finals, ∃ component : (PrimalGraph.occurring rules).ConnectedComponent,
      ∀ key, key ∈ rule.tags.map Prod.fst ↔
        ∃ h, (PrimalGraph.occurring rules).connectedComponentMk ⟨key, h⟩ = component := by
    intro rule hrule
    have hvariables : rule.variables = rule.tags.map Prod.fst := by
      simp [Rule.variables, Assignment.keys, hpure rule hrule]
    obtain ⟨-, henclosed, hlinked⟩ := htraced rule hrule
    rw [hvariables] at henclosed hlinked
    exact PrimalGraph.exists_component (by simpa using htagged rule hrule)
      (fun key hkey => (hmem key).2 ⟨rule, hrule, hkey⟩) henclosed hlinked
  choose component hcomponent using fun position : Fin finals.length =>
    hcomponent (finals.get position) (List.get_mem finals position)
  refine ⟨hkeys, ?_, .ofBijective component ⟨?_, ?_⟩, fun position => ⟨?_, hcomponent position⟩⟩
  · intro tag htag
    obtain ⟨rule, hrule, htag⟩ := List.mem_flatMap.1 htag
    exact (htraced rule hrule).choices tag htag
  · intro position other hsame
    obtain ⟨key, hkey⟩ := List.exists_mem_of_ne_nil ((finals.get position).tags.map Prod.fst)
      (by simpa using htagged _ (List.get_mem finals position))
    have hother := (hcomponent other key).2 (hsame ▸ (hcomponent position key).1 hkey)
    exact eq_of_mem_of_nodup_flatMap hnodup hkey hother
  · intro found
    obtain ⟨⟨key, hoccurs⟩, rfl⟩ := found.exists_rep
    obtain ⟨rule, hrule, hkey⟩ := (hmem key).1 hoccurs
    obtain ⟨position, rfl⟩ := List.get_of_mem hrule
    obtain ⟨_, hfound⟩ := (hcomponent position key).1 hkey
    exact ⟨position, hfound.symm⟩
  · exact (List.nodup_flatMap.1 hnodup).1 _ (List.get_mem finals position)

/-- What is assembled from the components holds every choice, and the first value of the variables
that no rule mentions. -/
theorem Spells.assemble? [Payoff α] (h : Spells space rules finals) :
    ∃ solution, assemble? space finals = some solution ∧
      solution.assignment.length = space.length ∧
      (∀ tag ∈ finals.flatMap Rule.tags, valuation solution.assignment tag.1 = tag.2) ∧
      ∀ key, ¬Occurs rules key → valuation solution.assignment key = 0 := by
  have hmem : ∀ {key}, key ∈ (finals.flatMap Rule.tags).map Prod.fst ↔
      key < space.length ∧ Occurs rules key := by
    intro key
    rw [h.keys.mem_iff, List.mem_filter, List.mem_range, decide_eq_true_eq]
  obtain ⟨solution, hsolution⟩ : ∃ solution, Elimination.assemble? space finals = some solution :=
    exists_assemble? fun tag htag => (hmem.1 (List.mem_map_of_mem htag)).1
  obtain ⟨hlength, -, hread⟩ := assemble?_spec hsolution
  refine ⟨solution, hsolution, hlength, ?_, ?_⟩
  · intro tag htag
    have hnodup := h.keys.nodup_iff.2 (List.nodup_range.filter _)
    obtain ⟨choice, hchoice⟩ : ∃ choice,
        lastChoice (finals.flatMap Rule.tags) tag.1 = some choice := by
      refine Option.ne_none_iff_exists'.1 fun hnone => ?_
      exact lastChoice_eq_none_iff.1 hnone (List.mem_map_of_mem htag)
    have hsame := List.inj_on_of_nodup_map hnodup (mem_of_lastChoice hchoice) htag rfl
    rw [hread, hchoice, ← hsame]
    rfl
  · intro key hout
    rw [hread, lastChoice_eq_none_iff.2 fun hin => hout (hmem.1 hin).2]
    rfl

end Finals

/-- Every rule and every choice of a run is accounted for. Over accepted rules without tags a run
eliminates each variable once; every rule of the problem, and every rule over variables that the run
generates, is consumed by one of its steps, after it was there; the rules over no variables that it
generates are left, and no factor. These spell out the components of the primal graph one by one,
and the solution holds each of their choices, written once, and the first value of every variable
that no rule mentions. -/
theorem elimination_provenance [Payoff α] {space : Space} (hspace : space.Inhabited) (order : Order)
    {rules : List (Rule α)} (hrules : checkRules space rules = .ok ())
    (htags : ∀ rule ∈ rules, rule.tags = []) :
    ∃ graph final log solution, buildGraph space rules = .ok graph ∧
      eliminateAll? space order graph = some final ∧
      (Run.start graph).exchanges? space order graph.varCount = some log ∧
      log.map Exchange.removed = final.removed ∧
      final.removed.Perm (List.range space.length) ∧
      (rules ++ (log.flatMap Exchange.generated).filter (!·.closed)).Perm
        (log.flatMap Exchange.consumed) ∧
      (∀ before exchange later, log = before ++ exchange :: later →
        (before.flatMap Exchange.consumed ++ exchange.consumed).Subperm
          (rules ++ (before.flatMap Exchange.generated).filter (!·.closed))) ∧
      final.finals = (log.flatMap Exchange.generated).filter Rule.closed ∧
      final.graph.factors = [] ∧
      Spells space rules final.finals ∧
      assemble? space final.finals = some solution ∧
      solve order space rules = .ok (solution, .ofSteps final.steps) ∧
      solution.assignment.length = space.length ∧
      (∀ tag ∈ final.finals.flatMap Rule.tags, valuation solution.assignment tag.1 = tag.2) ∧
      ∀ key, ¬Occurs rules key → valuation solution.assignment key = 0 := by
  have hover := over_of_checkRules hrules
  obtain ⟨graph, hgraph, hfiled⟩ := buildGraph_spec hspace hrules
  have hstart : Traced space order rules (Run.start graph) := traced_start hfiled hover htags
  obtain ⟨final, hrun, hfinal, hnone, hperm, -⟩ :=
    eliminateAll?_of_picks (Traced.picks hspace order rules) hstart
  rw [hfiled.liveVariables_eq] at hperm
  obtain ⟨log, last, hlog, hlast, ⟨hledger, hfinals, hcausal⟩, hremoved⟩ :=
    exchanges?_spec hspace (Traced.picks hspace order rules) (fun _ h => h.diagnosed.intact)
      graph.varCount hstart
  obtain rfl := Option.some.inj (hrun.symm.trans hlast)
  have hempty := rules_eq_nil hfinal.diagnosed.intact.sound hnone
  have hpure := hfinal.diagnosed.intact.finals
  have hleft : final.rules = final.finals := by rw [Run.rules, hempty, List.append_nil]
  have hbegin := hfiled.rules_perm
  rw [hempty, List.append_nil] at hledger
  have hkeys := hfinal.covers _ hspace.respects_zero
  rw [hleft, tagsAt, earned_of_entries_eq_nil hpure] at hkeys
  have hspells := spells_of_traced (fun key hoccurs => hoccurs.lt_length hover) hpure hfinal.tagged
    (hleft ▸ hfinal.traced) (hkeys.trans (hperm.filter _))
  obtain ⟨solution, hsolution, hlength, hchoices, hrest⟩ := hspells.assemble?
  refine ⟨graph, final, log, solution, hgraph, hrun, hlog, hremoved.symm, hperm, ?_, ?_, hfinals,
    factors_eq_nil hfinal.diagnosed.intact.sound hnone, hspells, hsolution, ?_, hlength, hchoices,
    hrest⟩
  · exact (hbegin.symm.append_right _).trans hledger
  · intro before exchange later hsplit
    exact (hbegin.append_right _).subperm_left.1 (hcausal before exchange later hsplit)
  · rw [solve, hgraph]
    refine (solveGraph_eq hspace hfiled.reachable.varCount_eq hrun).trans ?_
    rw [hsolution]
    rfl

def apartRules : List (Rule Rat) :=
  [⟨⟨[(0, 1), (3, 1)], by simp⟩, 2, []⟩, ⟨⟨[(1, 1), (2, 0)], by simp⟩, 3, []⟩,
    ⟨⟨[(1, 0)], by simp⟩, 4, []⟩]

/-- Each pair ends in one final rule. The variable that no rule mentions is skipped. -/
theorem elimination_provenance_apart : ∃ final log solution,
    (∃ graph, buildGraph [2, 2, 2, 2, 2] apartRules = .ok graph ∧
      eliminateAll? [2, 2, 2, 2, 2] .lastFirst graph = some final ∧
      (Run.start graph).exchanges? [2, 2, 2, 2, 2] .lastFirst graph.varCount = some log) ∧
    (log.map fun exchange =>
      (exchange.removed, exchange.consumed.length, exchange.generated.length)) =
        [(4, 0, 0), (3, 1, 2), (2, 1, 2), (1, 3, 1), (0, 2, 1)] ∧
    (apartRules ++ (log.flatMap Exchange.generated).filter (!·.closed)).Perm
      (log.flatMap Exchange.consumed) ∧
    final.finals.map Rule.tags = [[(2, 0), (1, 0)], [(3, 1), (0, 1)]] ∧
    Spells [2, 2, 2, 2, 2] apartRules final.finals ∧
    solve .lastFirst [2, 2, 2, 2, 2] apartRules = .ok (solution, .ofSteps final.steps) ∧
    solution.assignment = [1, 0, 0, 1, 0] := by
  have hlog : ((buildGraph [2, 2, 2, 2, 2] apartRules).toOption.bind fun graph =>
      ((Run.start graph).exchanges? [2, 2, 2, 2, 2] .lastFirst graph.varCount).map fun log =>
        log.map fun exchange =>
          (exchange.removed, exchange.consumed.length, exchange.generated.length)) =
      some [(4, 0, 0), (3, 1, 2), (2, 1, 2), (1, 3, 1), (0, 2, 1)] := by
    cbv
  have htags : ((buildGraph [2, 2, 2, 2, 2] apartRules).toOption.bind fun graph =>
      (eliminateAll? [2, 2, 2, 2, 2] .lastFirst graph).map fun run => run.finals.map Rule.tags) =
      some [[(2, 0), (1, 0)], [(3, 1), (0, 1)]] := by
    cbv
  have hsolve : (solve .lastFirst [2, 2, 2, 2, 2] apartRules).toOption.map
      (fun outcome => outcome.1.assignment) = some [1, 0, 0, 1, 0] := by
    cbv
  obtain ⟨graph, final, log, solution, hgraph, hfinal, hexchanges, -, -, hledger, -, -, -, hspells,
    -, hsolution, -⟩ := @elimination_provenance Rat _ [2, 2, 2, 2, 2] (by decide) .lastFirst
      apartRules (by cbv) (by decide)
  rw [hgraph] at hlog htags
  simp only [Except.toOption, Option.bind_some, hexchanges, hfinal, Option.map_some,
    Option.some.injEq] at hlog htags
  rw [hsolution] at hsolve
  simp only [Except.toOption, Option.map_some, Option.some.injEq] at hsolve
  exact ⟨final, log, solution, ⟨graph, hgraph, hfinal, hexchanges⟩, hlog, hledger, htags, hspells,
    hsolution, hsolve⟩

end Elimination

end JointDecision

import JointDecision.Elimination.Step
import JointDecision.Proofs.Elimination.ConsumedFactor
import Mathlib.Data.List.Nodup

/-! # Best responses

The rules that replace the rules around a variable: in every valuation exactly one of them holds. It
earns what the best value of the variable earns, and its tags are those of the rules that earned it,
with this value behind them. -/

namespace JointDecision.Elimination

def tagsAt {α : Type} (rules : List (Rule α)) (x : Valuation) : List (Nat × Nat) :=
  (earned rules x).flatMap Rule.tags

@[simp] theorem tagsAt_append {α : Type} (rules others : List (Rule α)) (x : Valuation) :
    tagsAt (rules ++ others) x = tagsAt rules x ++ tagsAt others x := by
  simp [tagsAt]

theorem tagsAt_perm {α : Type} {rules others : List (Rule α)} (h : rules.Perm others)
    (x : Valuation) : (tagsAt rules x).Perm (tagsAt others x) :=
  (h.filter _).flatMap_right _

private theorem mem_tagsAt_perm {α : Type} {rules others : List (Rule α)} (h : rules.Perm others)
    (x : Valuation) {tag : Nat × Nat} : tag ∈ tagsAt rules x ↔ tag ∈ tagsAt others x :=
  (tagsAt_perm h x).mem_iff

theorem tagsAt_congr {α : Type} {rules : List (Rule α)} {x y : Valuation}
    (h : ∀ rule ∈ rules, ∀ entry ∈ rule.assignment.entries, x entry.1 = y entry.1) :
    tagsAt rules x = tagsAt rules y := by
  rw [tagsAt, tagsAt, earned_congr h]

private theorem insertIdx_map_eraseKey {keys : List Nat} (hnodup : keys.Nodup) {key pivot : Nat}
    (hpivot : keys.idxOf? key = some pivot) (x : Valuation) (choice : Nat) :
    ((eraseKey keys key).map x).insertIdx pivot choice =
      keys.map (Function.update x key choice) := by
  induction keys generalizing pivot with
  | nil => simp at hpivot
  | cons head keys ih =>
    obtain ⟨hhead, hnodup⟩ := List.nodup_cons.1 hnodup
    rw [List.idxOf?_cons] at hpivot
    by_cases heq : head = key
    · subst heq
      obtain rfl : 0 = pivot := by simpa using hpivot
      have hkeep : eraseKey (head :: keys) head = keys := by
        have hall : keys.filter (· != head) = keys := by
          refine List.filter_eq_self.2 fun other hother => ?_
          have : other ≠ head := fun heq => hhead (heq ▸ hother)
          simpa using this
        simpa [eraseKey] using hall
      have hsame : keys.map (Function.update x head choice) = keys.map x := by
        refine List.map_congr_left fun other hother => ?_
        have hne : other ≠ head := fun heq => hhead (heq ▸ hother)
        exact Function.update_of_ne hne _ _
      rw [hkeep, List.insertIdx_zero, List.map_cons, hsame, Function.update_self]
    · have hbeq : (head == key) = false := by simpa using heq
      rw [hbeq] at hpivot
      obtain ⟨rest, hrest, rfl⟩ := Option.map_eq_some_iff.1 hpivot
      have hkeep : eraseKey (head :: keys) key = head :: eraseKey keys key := by
        simp [eraseKey, heq]
      rw [hkeep, List.map_cons, List.insertIdx_succ_cons, ih hnodup hrest, List.map_cons,
        Function.update_of_ne heq]

theorem mem_eraseKey {keys : List Nat} {key other : Nat} :
    other ∈ eraseKey keys key ↔ other ∈ keys ∧ other ≠ key := by
  simp [eraseKey]

/-- A value of the variable beside values of the others is what a valuation has over the
neighborhood. -/
theorem insertIdx_others {space : Space} {neighborhood : Scope} {key pivot : Nat}
    (hpivot : neighborhood.position? key = some pivot) {others : List Nat}
    (hothers : MixedRadix.Digits ((neighborhood.erase key).keys.map space.domain) others)
    (choice : Nat) :
    others.insertIdx pivot choice = neighborhood.keys.map
      (Function.update (overlay (neighborhood.erase key).keys others) key choice) := by
  have hread : (neighborhood.erase key).keys.map (overlay (neighborhood.erase key).keys others) =
      others :=
    map_overlay (neighborhood.erase key).nodup (by simpa using hothers.length_eq)
  rw [← insertIdx_map_eraseKey neighborhood.nodup hpivot]
  exact congrArg (fun values : List Nat => values.insertIdx pivot choice) hread.symm

private theorem holds_pairing {scope : Scope} {values : List Nat}
    (hlength : values.length = scope.keys.length) (x : Valuation) :
    (Assignment.pairing scope values).holds x = (values == scope.keys.map x) := by
  rw [Bool.eq_iff_iff, Assignment.holds_iff, beq_iff_eq]
  have hentries : (Assignment.pairing scope values).entries = scope.keys.zip values := rfl
  rw [hentries]
  clear hentries
  generalize scope.keys = keys at hlength
  induction keys generalizing values with
  | nil => simpa using hlength
  | cons key keys ih =>
    cases values with
    | nil => simp at hlength
    | cons value values =>
      have hrest := ih (by simpa using hlength)
      simp only [List.zip_cons_cons, List.forall_mem_cons, List.map_cons, List.cons.injEq, hrest]
      exact and_congr_left' eq_comm

/-- What the rules earn for each value of a variable, beside the other values of a valuation. -/
def choiceValues (space : Space) (key : Nat) (rules : List (Rule Rat)) (x : Valuation) :
    List Rat :=
  (List.range (space.domain key)).map fun choice => objective rules (Function.update x key choice)

def response (space : Space) (key : Nat) (remaining : Scope) (rules : List (Rule Rat))
    (others : List Nat) : Rule Rat :=
  let x := overlay remaining.keys others
  let best := Payoff.peak (choiceValues space key rules x)
  { assignment := .pairing remaining others
    payoff := best.1
    tags := tagsAt rules (Function.update x key best.2) ++ [(key, best.2)] }

theorem earned_flatten {α : Type} (groups : List (List (Rule α))) (x : Valuation) :
    (groups.map fun rules => earned rules x).flatten = earned groups.flatten x := by
  simp [earned, List.filter_flatten]

private theorem foldl_total_eq (groups : List (List (Rule Rat))) (start : Rat) :
    groups.foldl (fun score rules => score + Payoff.total (rules.map Rule.payoff)) start =
      start + (groups.flatten.map Rule.payoff).sum := by
  induction groups generalizing start with
  | nil => simp
  | cons rules groups ih =>
    rw [List.foldl_cons, ih, Payoff.total_rat, List.flatten_cons, List.map_append,
      List.sum_append, add_assoc]

/-- The rule for one joint value of the others, once a payoff and a value of the variable were found
for it: its tags are those of the rules that hold beside this value, and then the value. -/
def answer {α : Type} (key : Nat) (remaining : Scope) (rules : List (Rule α)) (found : α × Nat)
    (others : List Nat) : Rule α :=
  { assignment := .pairing remaining others
    payoff := found.1
    tags := tagsAt rules (Function.update (overlay remaining.keys others) key found.2) ++
      [(key, found.2)] }

/-- Whatever payoffs are, the search goes through: it ends with a value of the variable, and with
the tags of the rules that hold beside it. -/
theorem bestResponse?_answer {α : Type} [Payoff α] {space : Space} (hspace : space.Inhabited)
    {key pivot : Nat} (hkey : key < space.length) {neighborhood : Scope}
    (hpivot : neighborhood.position? key = some pivot) {factors : List (ConsumedFactor α)}
    {groups : List (List (Rule α))}
    (hmatch : ∀ x, space.Respects x → matchingAll? factors (neighborhood.keys.map x) =
      some (groups.map fun rules => earned rules x)) {others : List Nat}
    (hothers : MixedRadix.Digits ((neighborhood.erase key).keys.map space.domain) others) :
    ∃ found : α × Nat, found.2 < space.domain key ∧
      bestResponse? space key factors pivot (neighborhood.erase key) others =
        some (answer key (neighborhood.erase key) groups.flatten found others) := by
  have hjoint := insertIdx_others hpivot hothers
  have hrespects := respects_overlay hspace hothers
  generalize hx : overlay (neighborhood.erase key).keys others = x at hjoint hrespects
  obtain ⟨scores, hlength, hscores⟩ : ∃ scores : List α, scores.length = space.domain key ∧
      choiceScores? factors pivot others (space.domain key) = some scores := by
    refine ⟨(List.range (space.domain key)).map fun choice =>
      (groups.map fun rules => earned rules (Function.update x key choice)).foldl
        (fun score rules => score + Payoff.total (rules.map Rule.payoff)) Payoff.zero, by simp, ?_⟩
    refine mapM_eq_some_map fun choice hchoice => ?_
    rw [hjoint, localScore?, hmatch _ (hrespects.update (List.mem_range.1 hchoice))]
    rfl
  have hbest : (Payoff.peak scores).2 < space.domain key := by
    have hpos := hspace.domain_pos hkey
    exact hlength ▸ Payoff.peak_lt (hlength ▸ hpos)
  have hearned := hmatch _ (hrespects.update hbest)
  rw [← hjoint] at hearned
  refine ⟨Payoff.peak scores, hbest, ?_⟩
  simp only [bestResponse?, Space.getElem?_eq_domain hkey, Option.bind_eq_bind, Option.bind_some,
    hscores, hearned, earned_flatten, answer, hx, tagsAt]
  rfl

section Search

variable {space : Space} {key pivot : Nat} {neighborhood : Scope}
  {factors : List (ConsumedFactor Rat)} {groups : List (List (Rule Rat))}

private theorem localScore?_eq {x : Valuation}
    (hmatch : matchingAll? factors (neighborhood.keys.map x) =
      some (groups.map fun rules => earned rules x)) :
    localScore? factors (neighborhood.keys.map x) = some (objective groups.flatten x) := by
  rw [localScore?, hmatch, Option.map_some, objective, ← earned_flatten]
  congr 1
  refine (foldl_total_eq _ _).trans ?_
  rw [Payoff.zero_rat, zero_add]

/-- The search over the values of the variable computes the best response. -/
theorem bestResponse?_eq (hspace : space.Inhabited) (hkey : key < space.length)
    (hpivot : neighborhood.position? key = some pivot)
    (hmatch : ∀ x, space.Respects x → matchingAll? factors (neighborhood.keys.map x) =
      some (groups.map fun rules => earned rules x)) {others : List Nat}
    (hothers : MixedRadix.Digits ((neighborhood.erase key).keys.map space.domain) others) :
    bestResponse? space key factors pivot (neighborhood.erase key) others =
      some (response space key (neighborhood.erase key) groups.flatten others) := by
  have hjoint := insertIdx_others hpivot hothers
  have hrespects := respects_overlay hspace hothers
  generalize hx : overlay (neighborhood.erase key).keys others = x at hjoint hrespects
  have hscores : choiceScores? factors pivot others (space.domain key) =
      some (choiceValues space key groups.flatten x) := by
    refine mapM_eq_some_map fun choice hchoice => ?_
    rw [hjoint]
    exact localScore?_eq (hmatch _ (hrespects.update (List.mem_range.1 hchoice)))
  have hvalues : choiceValues space key groups.flatten x ≠ [] := by
    have hpos := hspace.domain_pos hkey
    simp only [choiceValues, ne_eq, List.map_eq_nil_iff, List.range_eq_nil]
    omega
  have hbest : (Payoff.peak (choiceValues space key groups.flatten x)).2 < space.domain key := by
    simpa [choiceValues] using (Payoff.peak_spec hvalues).position_lt
  have hearned := hmatch _ (hrespects.update hbest)
  rw [← hjoint] at hearned
  simp only [bestResponse?, Space.getElem?_eq_domain hkey, Option.bind_eq_bind, Option.bind_some,
    hscores, hearned, earned_flatten, response, hx, tagsAt]
  rfl

end Search

/-- What a set of rules earns when one variable is folded into others: the rules `after` earn in a
valuation what `before` earn with the first best choice, and carry the tags of these. -/
structure Folds (space : Space) (key : Nat) (before after : List (Rule Rat)) (x : Valuation)
    (choice : Nat) : Prop where
  choice_lt : choice < space.domain key
  objective_eq : objective after x = objective before (Function.update x key choice)
  greatest : ∀ other < space.domain key,
    objective before (Function.update x key other) ≤ objective after x
  first : ∀ other < choice, objective before (Function.update x key other) < objective after x
  kept : ∀ tag ∈ tagsAt before (Function.update x key choice), tag ∈ tagsAt after x
  known : ∀ tag ∈ tagsAt after x,
    tag ∈ tagsAt before (Function.update x key choice) ∨ tag = (key, choice)
  chosen : (key, choice) ∈ tagsAt after x ∨ choice = 0

private theorem map_mem_joints {space : Space} {scope : Scope} {joints : List (List Nat)}
    (hjoints : MixedRadix.Enumerates (scope.keys.map space.domain) joints)
    {x : Valuation} (hx : ∀ k ∈ scope.keys, x k < space.domain k) :
    scope.keys.map x ∈ joints := by
  refine hjoints.mem_iff.2 (List.forall₂_map_left_iff.2 (List.forall₂_map_right_iff.2 ?_))
  exact List.forall₂_same.2 hx

/-- Of rules with one joint value each, exactly one holds in every valuation. -/
theorem earned_pairings {α : Type} {space : Space} {remaining : Scope} {f : List Nat → Rule α}
    (hf : ∀ joint, (f joint).assignment = .pairing remaining joint)
    {joints : List (List Nat)}
    (hjoints : MixedRadix.Enumerates (remaining.keys.map space.domain) joints)
    {x : Valuation} (hx : ∀ k ∈ remaining.keys, x k < space.domain k) :
    earned (joints.map f) x = [f (remaining.keys.map x)] := by
  have hholds : ∀ joint ∈ joints, (f joint).assignment.holds x =
      (joint == remaining.keys.map x) := by
    intro joint hjoint
    have hlength := (hjoints.digits joint hjoint).length_eq
    rw [hf]
    exact holds_pairing (by simpa using hlength) x
  rw [earned, List.filter_map]
  have hfilter : joints.filter ((fun rule : Rule α => rule.assignment.holds x) ∘ f) =
      joints.filter (· == remaining.keys.map x) :=
    List.filter_congr hholds
  rw [hfilter, List.filter_beq, List.count_eq_one_of_mem hjoints.nodup (map_mem_joints hjoints hx)]
  rfl

/-- The valuation that the search reads agrees with `x` wherever the rules around look. -/
theorem update_overlay {neighborhood : Scope} {key other : Nat} (hother : other ∈ neighborhood.keys)
    (x : Valuation) (choice : Nat) :
    Function.update (overlay (neighborhood.erase key).keys ((neighborhood.erase key).keys.map x))
      key choice other = Function.update x key choice other := by
  by_cases heq : other = key
  · rw [heq, Function.update_self, Function.update_self]
  · rw [Function.update_of_ne heq, Function.update_of_ne heq]
    have hmap : (neighborhood.erase key).keys.map (overlay (neighborhood.erase key).keys
        ((neighborhood.erase key).keys.map x)) = (neighborhood.erase key).keys.map x :=
      map_overlay (neighborhood.erase key).nodup (by simp)
    exact List.map_inj_left.1 hmap _ (mem_eraseKey.2 ⟨hother, heq⟩)

/-- In every valuation the answers carry the tags of the rules around the variable beside one value
of it, and this value. -/
theorem tagsAt_answers {α : Type} {space : Space} {key : Nat} {neighborhood : Scope}
    {rules : List (Rule α)}
    (hrules : ∀ rule ∈ rules, ∀ entry ∈ rule.assignment.entries, entry.1 ∈ neighborhood.keys)
    (found : List Nat → α × Nat) {joints : List (List Nat)}
    (hjoints : MixedRadix.Enumerates ((neighborhood.erase key).keys.map space.domain) joints)
    {x : Valuation} (hx : ∀ k ∈ (neighborhood.erase key).keys, x k < space.domain k) :
    ∃ joint ∈ joints,
      tagsAt (joints.map fun joint =>
          answer key (neighborhood.erase key) rules (found joint) joint) x =
        tagsAt rules (Function.update x key (found joint).2) ++ [(key, (found joint).2)] := by
  refine ⟨_, map_mem_joints hjoints hx, ?_⟩
  have hearned := earned_pairings (f := fun joint =>
    answer key (neighborhood.erase key) rules (found joint) joint) (fun _ => rfl) hjoints hx
  rw [tagsAt, hearned, List.flatMap_singleton, answer,
    tagsAt_congr fun rule hrule entry hentry => update_overlay (hrules rule hrule entry hentry) x _]

theorem getElem?_choiceValues {space : Space} {key : Nat} {rules : List (Rule Rat)}
    {x : Valuation} {choice : Nat} (h : choice < space.domain key) :
    (choiceValues space key rules x)[choice]? =
      some (objective rules (Function.update x key choice)) := by
  simp [choiceValues, h]

theorem folds_responses {space : Space} (hspace : space.Inhabited) {key : Nat}
    (hkey : key < space.length) {neighborhood : Scope} {rules : List (Rule Rat)}
    (hrules : ∀ rule ∈ rules, ∀ entry ∈ rule.assignment.entries, entry.1 ∈ neighborhood.keys)
    {joints : List (List Nat)}
    (hjoints : MixedRadix.Enumerates ((neighborhood.erase key).keys.map space.domain) joints)
    {x : Valuation} (hx : ∀ k ∈ neighborhood.keys, x k < space.domain k) :
    ∃ choice, Folds space key rules
      (joints.map (response space key (neighborhood.erase key) rules)) x choice := by
  have hearned := earned_pairings (f := response space key (neighborhood.erase key) rules)
    (fun _ => rfl) hjoints fun k hk => hx k (mem_eraseKey.1 hk).1
  have hread : ∀ choice, ∀ rule ∈ rules, ∀ entry ∈ rule.assignment.entries,
      Function.update (overlay (neighborhood.erase key).keys ((neighborhood.erase key).keys.map x))
        key choice entry.1 = Function.update x key choice entry.1 := by
    intro choice rule hrule entry hentry
    exact update_overlay (hrules rule hrule entry hentry) x choice
  have hvalues : choiceValues space key rules
      (overlay (neighborhood.erase key).keys ((neighborhood.erase key).keys.map x)) =
        choiceValues space key rules x :=
    List.map_congr_left fun choice _ => objective_congr (hread choice)
  have hne : choiceValues space key rules x ≠ [] := by
    have hpos := hspace.domain_pos hkey
    simp only [choiceValues, ne_eq, List.map_eq_nil_iff, List.range_eq_nil]
    omega
  have hbest := Payoff.peak_spec hne
  generalize hpeak : Payoff.peak (choiceValues space key rules x) = best at hbest
  have hlt : best.2 < space.domain key := by
    simpa [choiceValues] using hbest.position_lt
  have hpayoff : best.1 = objective rules (Function.update x key best.2) := by
    have hstands := hbest.stands
    rw [getElem?_choiceValues hlt] at hstands
    exact (Option.some.inj hstands).symm
  have hobjective : objective
      (joints.map (response space key (neighborhood.erase key) rules)) x = best.1 := by
    simp [objective, hearned, response, hvalues, hpeak]
  have htags : tagsAt (joints.map (response space key (neighborhood.erase key) rules)) x =
      tagsAt rules (Function.update x key best.2) ++ [(key, best.2)] := by
    simp [tagsAt, hearned, response, hvalues, hpeak, earned_congr (hread best.2)]
  refine ⟨best.2, hlt, hobjective.trans hpayoff, ?_, ?_, ?_, ?_, .inl (by simp [htags])⟩
  · intro other hother
    rw [hobjective]
    exact hbest.greatest _ (List.mem_of_getElem? (getElem?_choiceValues hother))
  · intro other hother
    rw [hobjective]
    exact hbest.first other hother _ (getElem?_choiceValues (hother.trans hlt))
  · intro tag htag
    rw [htags]
    exact List.mem_append_left _ htag
  · intro tag htag
    rw [htags] at htag
    simpa using htag

theorem Folds.beside {space : Space} {key choice : Nat} {before after others : List (Rule Rat)}
    {x : Valuation} (h : Folds space key before after x choice)
    (hothers : ∀ rule ∈ others, ∀ entry ∈ rule.assignment.entries, entry.1 ≠ key)
    {pool pool' : List (Rule Rat)} (hpool : pool.Perm (before ++ others))
    (hpool' : pool'.Perm (after ++ others)) : Folds space key pool pool' x choice := by
  have hsame : ∀ value, ∀ rule ∈ others, ∀ entry ∈ rule.assignment.entries,
      Function.update x key value entry.1 = x entry.1 :=
    fun value rule hrule entry hentry => Function.update_of_ne (hothers rule hrule entry hentry) _ _
  have hbefore : ∀ value, objective pool (Function.update x key value) =
      objective before (Function.update x key value) + objective others x := by
    intro value
    rw [objective_perm hpool, objective_append, objective_congr (hsame value)]
  have hafter : objective pool' x = objective after x + objective others x := by
    rw [objective_perm hpool', objective_append]
  have htags : ∀ tag, tag ∈ tagsAt pool (Function.update x key choice) ↔
      tag ∈ tagsAt before (Function.update x key choice) ∨ tag ∈ tagsAt others x := by
    intro tag
    rw [mem_tagsAt_perm hpool, tagsAt_append, List.mem_append, tagsAt_congr (hsame choice)]
  have htags' : ∀ tag, tag ∈ tagsAt pool' x ↔ tag ∈ tagsAt after x ∨ tag ∈ tagsAt others x := by
    intro tag
    rw [mem_tagsAt_perm hpool', tagsAt_append, List.mem_append]
  refine ⟨h.choice_lt, ?_, ?_, ?_, ?_, ?_, ?_⟩
  · rw [hbefore, hafter, h.objective_eq]
  · intro other hother
    rw [hbefore, hafter]
    exact add_le_add_left (h.greatest other hother) _
  · intro other hother
    rw [hbefore, hafter]
    exact add_lt_add_left (h.first other hother) _
  · intro tag htag
    rw [htags']
    exact ((htags tag).1 htag).imp_left (h.kept tag)
  · intro tag htag
    rw [htags]
    rcases (htags' tag).1 htag with htag | htag
    · exact (h.known tag htag).imp_left .inl
    · exact .inl (.inr htag)
  · rw [htags']
    exact h.chosen.imp_left .inl

/-- A variable that no rule looks at is folded by leaving the rules as they are. -/
theorem folds_skip {space : Space} (hspace : space.Inhabited) {key : Nat}
    (hkey : key < space.length) (x : Valuation) : Folds space key [] [] x 0 where
  choice_lt := hspace.domain_pos hkey
  objective_eq := rfl
  greatest _ _ := le_rfl
  first _ h := absurd h (Nat.not_lt_zero _)
  kept _ h := h
  known _ h := .inl h
  chosen := .inr rfl

end JointDecision.Elimination

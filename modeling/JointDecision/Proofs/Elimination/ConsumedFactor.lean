import JointDecision.Elimination.ConsumedFactor
import JointDecision.Proofs.Objective
import JointDecision.Proofs.Trie

/-! # A consumed factor answers like a scan

Filing rules over the positions of a scope, and asking for those that agree with a joint value of
the neighborhood, finds the rules that hold in every valuation with these values, in their order. -/

namespace JointDecision

theorem Scope.position?_eq_some {scope : Scope} {key position : Nat}
    (h : scope.position? key = some position) : scope.keys[position]? = some key := by
  obtain ⟨hlt, hkey, -⟩ := List.findIdx?_eq_some_iff_getElem.1 h
  rw [List.getElem?_eq_getElem hlt]
  congr 1
  simpa using hkey

theorem Scope.position?_of_mem {scope : Scope} {key : Nat} (h : key ∈ scope.keys) :
    ∃ position, scope.position? key = some position := by
  cases hposition : scope.position? key with
  | none => exact absurd h (List.idxOf?_eq_none_iff.1 hposition)
  | some position => exact ⟨position, rfl⟩

private theorem valuation_map_position {scope : Scope} {key position : Nat} (x : Valuation)
    (h : scope.position? key = some position) :
    valuation (scope.keys.map x) position = x key := by
  simp [valuation, Scope.position?_eq_some h]

namespace Assignment

variable {space : Space} {scope : Scope} {a : Assignment}

theorem mem_localTo {position value : Nat} :
    (position, value) ∈ (a.localTo scope).entries ↔
      ∃ key, (key, value) ∈ a.entries ∧ scope.position? key = some position := by
  simp only [localTo, localEntries, List.mem_filterMap, Option.map_eq_some_iff, Prod.mk.injEq,
    Prod.exists]
  constructor
  · intro h
    obtain ⟨key, v, hmem, position', hposition, rfl, rfl⟩ := h
    exact ⟨key, hmem, hposition⟩
  · intro h
    obtain ⟨key, hmem, hposition⟩ := h
    exact ⟨key, value, hmem, position, hposition, rfl, rfl⟩

private theorem holds_localTo (h : a.Within space scope) (x : Valuation) :
    (a.localTo scope).holds (valuation (scope.keys.map x)) = a.holds x := by
  rw [Bool.eq_iff_iff, holds_iff, holds_iff]
  constructor
  · rintro hlocal ⟨key, value⟩ hentry
    obtain ⟨position, hposition⟩ := Scope.position?_of_mem (h _ hentry).1
    rw [← valuation_map_position x hposition]
    exact hlocal (position, value) (mem_localTo.2 ⟨key, hentry, hposition⟩)
  · rintro hglobal ⟨position, value⟩ hentry
    obtain ⟨key, hkey, hposition⟩ := mem_localTo.1 hentry
    rw [valuation_map_position x hposition]
    exact hglobal (key, value) hkey

private theorem localTo_over (h : a.Within space scope) :
    ∀ entry ∈ (a.localTo scope).entries,
      entry.1 < (scope.keys.map space.domain).length ∧
        entry.2 < Space.domain (scope.keys.map space.domain) entry.1 := by
  rintro ⟨position, value⟩ hentry
  obtain ⟨key, hkey, hposition⟩ := mem_localTo.1 hentry
  have hget := Scope.position?_eq_some hposition
  obtain ⟨hlt, -⟩ := List.getElem?_eq_some_iff.1 hget
  refine ⟨by simpa using hlt, ?_⟩
  simpa [Space.domain, hget] using (h _ hkey).2

end Assignment

namespace Assignment

def agreesIn (a : Assignment) (neighborhood : Scope) (joint : List Nat) : Bool :=
  a.entries.all fun entry => (pairing neighborhood joint).valueOf? entry.1 == some entry.2

variable {neighborhood : Scope} {joint : List Nat} {a : Assignment}

private theorem agreesIn_eq_holds (hlength : joint.length = neighborhood.keys.length)
    (ha : ∀ entry ∈ a.entries, entry.1 ∈ neighborhood.keys) :
    a.agreesIn neighborhood joint = a.holds (overlay neighborhood.keys joint) := by
  rw [Bool.eq_iff_iff, holds_iff, agreesIn, List.all_eq_true]
  refine forall₂_congr fun entry hentry => ?_
  have hvalue : (pairing neighborhood joint).valueOf? entry.1 =
      some (overlay neighborhood.keys joint entry.1) := lookup_zip_eq hlength (ha entry hentry)
  rw [hvalue, beq_iff_eq, Option.some.injEq]

/-- To agree with a joint value is to agree with the full assignments that extend it. -/
theorem agrees?_eq_agreesIn (hlength : joint.length = neighborhood.keys.length)
    (ha : ∀ entry ∈ a.entries, entry.1 ∈ neighborhood.keys) {full : List Nat}
    (hfull : (pairing neighborhood joint).agrees? full = some true) :
    a.agrees? full = some (a.agreesIn neighborhood joint) := by
  have hread : ∀ key ∈ neighborhood.keys,
      full[key]? = some (overlay neighborhood.keys joint key) := by
    intro key hkey
    exact agrees?_eq_some_true_iff.1 hfull _ (mem_of_lookup (lookup_zip_eq hlength hkey))
  have hagrees : a.agrees? full = some (a.holds (valuation full)) :=
    agrees?_eq fun entry hentry => (List.getElem?_eq_some_iff.1 (hread _ (ha entry hentry))).1
  rw [hagrees, agreesIn_eq_holds hlength ha]
  refine congrArg some (holds_congr fun entry hentry => ?_)
  rw [valuation, List.getD_eq_getElem?_getD, hread _ (ha entry hentry), Option.getD_some]

end Assignment

variable {α : Type}

namespace ConsumedFactor

/-- Whether the map has filed its items over the positions of a scope, in their order. -/
structure Files (scope : Scope) (map : TrieMap (Rule α)) : Prop where
  represents : map.trie.Represents
    (map.items.zipIdx.map fun item => (item.2, item.1.assignment.localTo scope))
  nextId : map.trie.nextId = map.items.length

private theorem files_empty (scope : Scope) (space : Space) :
    Files scope (TrieMap.empty space : TrieMap (Rule α)) :=
  ⟨Trie.represents_empty space, rfl⟩

theorem Files.insert {scope : Scope} {map : TrieMap (Rule α)} (h : Files scope map)
    {rule : Rule α} (hover : ∀ e ∈ (rule.assignment.localTo scope).entries,
      e.2 < map.trie.space.domain e.1) :
    map.insert? (rule.assignment.localTo scope) rule = some (map.trie.nextId,
        ⟨map.trie.insert (rule.assignment.localTo scope), map.items ++ [rule]⟩) ∧
      Files scope
        ⟨map.trie.insert (rule.assignment.localTo scope), map.items ++ [rule]⟩ := by
  have hadmits := h.represents.admits hover
  refine ⟨by simp [TrieMap.insert?, Trie.insert?, hadmits], ?_, ?_⟩
  · have hstep := h.represents.insert (rule.assignment.localTo scope)
    rw [h.nextId] at hstep
    simpa [List.zipIdx_append] using hstep
  · simp [h.nextId]

theorem file?_spec {space : Space} {scope : Scope} {rules : List (Rule α)}
    (hrules : ∀ rule ∈ rules, rule.assignment.Within space scope)
    {map : TrieMap (Rule α)} (h : Files scope map)
    (hspace : map.trie.space = scope.keys.map space.domain) :
    ∃ filed, file? scope map rules = some filed ∧ Files scope filed ∧
      filed.items = map.items ++ rules ∧ filed.trie.space = map.trie.space := by
  induction rules generalizing map with
  | nil => exact ⟨map, rfl, h, by simp, rfl⟩
  | cons rule rules ih =>
    have hover := Assignment.localTo_over (hrules rule List.mem_cons_self)
    rw [← hspace] at hover
    obtain ⟨hinsert, hfiles⟩ := h.insert fun e he => (hover e he).2
    obtain ⟨filed, hfiled, hspec, hitems, hkept⟩ :=
      ih (fun r hr => hrules r (List.mem_cons_of_mem _ hr)) hfiles hspace
    refine ⟨filed, ?_, hspec, ?_, hkept⟩
    · simp [file?, hinsert, hfiled]
    · rw [hitems, List.append_assoc, List.singleton_append]

private theorem itemsAt?_filter (items : List (Rule α)) (p : Rule α → Bool) :
    TrieMap.itemsAt? items ((items.zipIdx.filter fun item => p item.1).map Prod.snd) =
      some (items.filter p) := by
  have hget : ∀ item ∈ items.zipIdx.filter fun item => p item.1,
      items[item.2]? = some item.1 := by
    intro item hitem
    exact List.mem_zipIdx_iff_getElem?.1 (List.mem_filter.1 hitem).1
  have hitems : (items.zipIdx.filter fun item => p item.1).map Prod.fst = items.filter p := by
    have hmap := List.filter_map (f := Prod.fst) (p := p) (l := items.zipIdx)
    rw [List.zipIdx_map_fst] at hmap
    exact hmap.symm
  rw [TrieMap.itemsAt?, List.mapM_map, ← hitems]
  exact mapM_eq_some_map hget

theorem Files.filter?_eq {space : Space} {scope : Scope} {map : TrieMap (Rule α)}
    (h : Files scope map) (hspace : map.trie.space = scope.keys.map space.domain)
    (hrules : ∀ rule ∈ map.items, rule.assignment.Within space scope)
    {x : Valuation} (hx : ∀ key ∈ scope.keys, x key < space.domain key) :
    map.filter? (scope.keys.map x) = some (earned map.items x) := by
  have hadmits : map.trie.space.Admits (scope.keys.map x) := by
    rw [hspace]
    refine List.forall₂_map_left_iff.2 (List.forall₂_map_right_iff.2 ?_)
    exact List.forall₂_same.2 hx
  have hlive : ∀ entry ∈ map.items.zipIdx.map
        (fun item => (item.2, item.1.assignment.localTo scope)),
      ∀ e ∈ entry.2.entries,
        e.1 < map.trie.space.length ∧ e.2 < map.trie.space.domain e.1 := by
    intro entry hentry
    obtain ⟨⟨rule, id⟩, hrule, rfl⟩ := List.mem_map.1 hentry
    rw [hspace]
    exact Assignment.localTo_over (hrules rule (List.fst_mem_of_mem_zipIdx hrule))
  have hfilter := h.represents.filter?_eq hlive hadmits
  rw [TrieMap.filter?, hfilter, Option.bind_some, List.filter_map, List.map_map]
  rw [earned, ← itemsAt?_filter]
  congr 2
  refine List.filter_congr ?_
  intro item hitem
  exact Assignment.holds_localTo (hrules item.1 (List.fst_mem_of_mem_zipIdx hitem)) x

private theorem mapM_positions {neighborhood : Scope} (x : Valuation) {keys : List Nat}
    (hkeys : ∀ key ∈ keys, key ∈ neighborhood.keys) :
    (keys.filterMap neighborhood.position?).mapM
      (fun position => (neighborhood.keys.map x)[position]?) = some (keys.map x) := by
  induction keys with
  | nil => rfl
  | cons key keys ih =>
    obtain ⟨position, hposition⟩ := Scope.position?_of_mem (hkeys key List.mem_cons_self)
    have hget := Scope.position?_eq_some hposition
    have hrest := ih fun k hk => hkeys k (List.mem_cons_of_mem _ hk)
    rw [List.filterMap_cons_some hposition, List.mapM_cons, hrest]
    simp [hget]

/-- A consumed factor exists. Whatever a buffer holds, it finds the rules that hold where the values
at its scope are inside their domains. -/
theorem exists_ofRules? {space : Space} {neighborhood scope : Scope} {rules : List (Rule α)}
    (hscope : ∀ key ∈ scope.keys, key ∈ neighborhood.keys)
    (hkeys : ∀ key ∈ scope.keys, key < space.length)
    (hrules : ∀ rule ∈ rules, rule.assignment.Within space scope) :
    ∃ factor, ofRules? space neighborhood scope rules = some factor ∧
      ∀ x : Valuation, (∀ key ∈ scope.keys, x key < space.domain key) → ∀ buffer,
        factor.matchingIn? buffer (neighborhood.keys.map x) = some (earned rules x) := by
  obtain ⟨filed, hfiled, hspec, hitems, hspace⟩ :=
    file?_spec hrules (files_empty scope (scope.keys.map space.domain)) rfl
  have hitems : filed.items = rules := hitems
  refine ⟨⟨scope.keys.filterMap neighborhood.position?, filed⟩, ?_, ?_⟩
  · simp [ofRules?, Space.radix?_eq hkeys, hfiled]
  · intro x hx buffer
    rw [matchingIn?, fill?, mapM_positions x hscope, Option.map_some, Option.bind_some,
      List.take_zero, List.nil_append, hspec.filter?_eq hspace (hitems ▸ hrules) hx, hitems]

theorem ofRules?_spec {space : Space} {neighborhood scope : Scope} {rules : List (Rule α)}
    (hscope : ∀ key ∈ scope.keys, key ∈ neighborhood.keys)
    (hkeys : ∀ key ∈ scope.keys, key < space.length)
    (hrules : ∀ rule ∈ rules, rule.assignment.Within space scope) :
    ∃ factor, ofRules? space neighborhood scope rules = some factor ∧
      ∀ x, space.Respects x →
        factor.matching? (neighborhood.keys.map x) = some (earned rules x) := by
  obtain ⟨factor, hfactor, hmatching⟩ := exists_ofRules? hscope hkeys hrules
  exact ⟨factor, hfactor, fun x hx => hmatching x (fun key hkey => hx key (hkeys key hkey)) []⟩

/-- Rules over a scope inside a neighborhood can be filed. For a joint value with every value inside
its domain, and whatever the buffer of the look-up holds, the factor finds the rules that agree with
the joint value, in their order; these are the rules that agree with each full assignment extending
it. -/
theorem matching_agreeing {space : Space} {neighborhood scope : Scope} {rules : List (Rule α)}
    (hscope : ∀ key ∈ scope.keys, key ∈ neighborhood.keys)
    (hkeys : ∀ key ∈ scope.keys, key < space.length)
    (hrules : ∀ rule ∈ rules, rule.assignment.Within space scope) :
    ∃ factor, ofRules? space neighborhood scope rules = some factor ∧
      ∀ joint, MixedRadix.Digits (neighborhood.keys.map space.domain) joint →
        (∀ buffer, factor.matchingIn? buffer joint =
          some (rules.filter (·.assignment.agreesIn neighborhood joint))) ∧
        ∀ full, (Assignment.pairing neighborhood joint).agrees? full = some true →
          ∀ rule ∈ rules, rule.assignment.agrees? full =
            some (rule.assignment.agreesIn neighborhood joint) := by
  obtain ⟨factor, hfactor, hmatching⟩ := exists_ofRules? hscope hkeys hrules
  refine ⟨factor, hfactor, fun joint hjoint => ?_⟩
  have hlength : joint.length = neighborhood.keys.length := by simpa using hjoint.length_eq
  have haround : ∀ rule ∈ rules, ∀ entry ∈ rule.assignment.entries,
      entry.1 ∈ neighborhood.keys :=
    fun rule hrule entry hentry => hscope _ (hrules rule hrule entry hentry).1
  constructor
  · intro buffer
    have hfound := hmatching (overlay neighborhood.keys joint)
      (fun key hkey => overlay_lt hjoint (hscope key hkey)) buffer
    rw [map_overlay neighborhood.nodup hlength] at hfound
    rw [hfound, earned]
    refine congrArg some (List.filter_congr fun rule hrule => ?_)
    exact (Assignment.agreesIn_eq_holds hlength (haround rule hrule)).symm
  · intro full hfull rule hrule
    exact Assignment.agrees?_eq_agreesIn hlength (haround rule hrule) hfull

def ruleOf (scope : Scope) (joint : List Nat) (payoff : Rat) : Rule Rat :=
  ⟨.pairing scope joint, payoff, []⟩

def innerScope : Scope := ⟨[1, 4], by simp⟩

def lastScope : Scope := ⟨[4], by simp⟩

def outerScope : Scope := ⟨[0, 1, 4], by simp⟩

def innerRules : List (Rule Rat) :=
  [ruleOf innerScope [2, 1] 4, ruleOf lastScope [1] 1, ruleOf innerScope [0, 1] 7]

/-- A variable outside the neighborhood has no value, and the buffer holds an earlier query. -/
theorem matching_agreeing_inner : ∃ factor,
    ofRules? [2, 3, 0, 1, 2] outerScope innerScope innerRules = some factor ∧
    factor.matchingIn? [2, 1, 1] [0, 2, 1] =
      some [ruleOf innerScope [2, 1] 4, ruleOf lastScope [1] 1] ∧
    factor.matchingIn? [2, 1, 1] [1, 0, 0] = some [] ∧
    ∀ rule ∈ innerRules, rule.assignment.agrees? [0, 2, 5, 5, 1] =
      some (rule.assignment.agreesIn outerScope [0, 2, 1]) := by
  have hscope : ∀ key ∈ innerScope.keys, key ∈ outerScope.keys := by decide
  have hkeys : ∀ key ∈ innerScope.keys, key < [2, 3, 0, 1, 2].length := by decide
  have hrules : ∀ rule ∈ innerRules, rule.assignment.Within [2, 3, 0, 1, 2] innerScope := by
    unfold Assignment.Within
    decide
  obtain ⟨factor, hfactor, hmatching⟩ := matching_agreeing hscope hkeys hrules
  obtain ⟨hfound, hfull⟩ := hmatching [0, 2, 1] (by decide)
  obtain ⟨hnone, -⟩ := hmatching [1, 0, 0] (by decide)
  exact ⟨factor, hfactor, hfound [2, 1, 1], hnone [2, 1, 1], hfull [0, 2, 5, 5, 1] (by decide)⟩

end ConsumedFactor

end JointDecision

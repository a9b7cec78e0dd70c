import JointDecision.Proofs.Assignment
import Mathlib.Data.List.Induction
import Mathlib.Data.List.Sort

/-! # What is accepted as a scope or an assignment

A list of keys is a scope, or it is refused for the first thing that is wrong with it. Keys and
pairs that are sorted on the way are accepted or refused for their contents alone: neither the order
in which they come nor that in which a sort leaves equal keys makes a difference. -/

namespace JointDecision

namespace Scope

/-- Why keys are no scope: there are none, or else two neighbours do not increase while the keys up
to the first of them do, or else all increase and the greatest is no variable. -/
inductive Violates (keys : List Nat) (varCount : Nat) : ScopeViolation → Prop
  | empty : keys = [] → Violates keys varCount .empty
  | duplicate {before later : List Nat} {key : Nat} :
      keys = before ++ key :: key :: later → (before ++ [key]).Pairwise (· < ·) →
      Violates keys varCount (.duplicate key)
  | unsorted {before later : List Nat} {key next : Nat} :
      keys = before ++ key :: next :: later → (before ++ [key]).Pairwise (· < ·) → next < key →
      Violates keys varCount (.unsorted (before.length + 1))
  | outOfRange {largest : Nat} :
      keys.Pairwise (· < ·) → largest ∈ keys → (∀ key ∈ keys, key ≤ largest) →
      varCount ≤ largest → Violates keys varCount (.outOfRange largest varCount)

private theorem orderViolation?_append {before later : List Nat} {key : Nat}
    (h : (before ++ [key]).Pairwise (· < ·)) (position : Nat) :
    orderViolation? position (before ++ key :: later) =
      orderViolation? (position + before.length) (key :: later) := by
  induction before generalizing position with
  | nil => rfl
  | cons a before ih =>
    obtain ⟨ha, htail⟩ := List.pairwise_cons.1 h
    have hrest := ih htail (position + 1)
    rw [List.length_cons, Nat.add_comm before.length, ← Nat.add_assoc, ← hrest]
    cases before with
    | nil => exact if_pos (ha key List.mem_cons_self)
    | cons b before => exact if_pos (ha b List.mem_cons_self)

/-- Unless keys increase, there are first neighbours that do not. -/
theorem exists_neighbors {keys : List Nat} (h : ¬ keys.Pairwise (· < ·)) :
    ∃ before key next later, keys = before ++ key :: next :: later ∧
      (before ++ [key]).Pairwise (· < ·) ∧ next ≤ key := by
  induction keys using List.reverseRecOn with
  | nil => exact absurd .nil h
  | append_singleton front last ih =>
    by_cases hfront : front.Pairwise (· < ·)
    · rcases List.eq_nil_or_concat' front with rfl | ⟨before, key, rfl⟩
      · exact absurd (List.pairwise_singleton ..) h
      · refine ⟨before, key, last, [], by simp, hfront, ?_⟩
        by_contra hlt
        refine h (List.pairwise_append.2 ⟨hfront, List.pairwise_singleton .., ?_⟩)
        intro other hother _ hlast
        obtain rfl := List.mem_singleton.1 hlast
        rcases List.mem_append.1 hother with hother | hother
        · have hkey := (List.pairwise_append.1 hfront).2.2 other hother key (by simp)
          omega
        · obtain rfl := List.mem_singleton.1 hother
          omega
    · obtain ⟨before, key, next, later, rfl, hbefore, hle⟩ := ih hfront
      exact ⟨before, key, next, later ++ [last], by simp, hbefore, hle⟩

private theorem violation?_of_order {keys : List Nat} {varCount : Nat} {violation : ScopeViolation}
    (h : orderViolation? 0 keys = some violation) :
    violation? keys varCount = some violation := by
  cases hlast : keys.getLast? with
  | none =>
    rw [List.getLast?_eq_none_iff.1 hlast] at h
    cases h
  | some largest => simp [violation?, hlast, h]

private theorem Violates.violation?_eq {keys : List Nat} {varCount : Nat}
    {violation : ScopeViolation}
    (h : Violates keys varCount violation) : violation? keys varCount = some violation := by
  cases h with
  | empty hkeys =>
    rw [hkeys]
    rfl
  | @duplicate before later key hkeys hbefore =>
    apply violation?_of_order
    rw [hkeys, orderViolation?_append hbefore, orderViolation?, if_neg (Nat.lt_irrefl key),
      if_pos rfl]
  | @unsorted before later key next hkeys hbefore hlt =>
    apply violation?_of_order
    rw [hkeys, orderViolation?_append hbefore, orderViolation?, if_neg (by omega),
      if_neg (by omega), Nat.zero_add]
  | @outOfRange largest hincreasing hmem hgreatest hge =>
    have hlast : keys.getLast? = some largest := by
      obtain ⟨front, last, rfl⟩ := (List.eq_nil_or_concat' keys).resolve_left
        (List.ne_nil_of_mem hmem)
      rcases List.mem_append.1 hmem with hfront | hlast
      · have hlt := (List.pairwise_append.1 hincreasing).2.2 largest hfront last (by simp)
        have hle := hgreatest last (by simp)
        omega
      · rw [List.mem_singleton.1 hlast, List.getLast?_concat]
    simp only [violation?, hlast, orderViolation?_eq_none hincreasing]
    exact if_neg (by omega)

private theorem exists_violates {keys : List Nat} {varCount : Nat}
    (h : ¬ (keys ≠ [] ∧ keys.Pairwise (· < ·) ∧ ∀ key ∈ keys, key < varCount)) :
    ∃ violation, Violates keys varCount violation := by
  by_cases hnonempty : keys = []
  · exact ⟨_, .empty hnonempty⟩
  by_cases hincreasing : keys.Pairwise (· < ·)
  · obtain ⟨front, last, rfl⟩ := (List.eq_nil_or_concat' keys).resolve_left hnonempty
    have hgreatest : ∀ key ∈ front ++ [last], key ≤ last := by
      intro key hkey
      rcases List.mem_append.1 hkey with hkey | hkey
      · exact Nat.le_of_lt ((List.pairwise_append.1 hincreasing).2.2 key hkey last (by simp))
      · exact Nat.le_of_eq (List.mem_singleton.1 hkey)
    refine ⟨_, .outOfRange hincreasing (by simp) hgreatest ?_⟩
    by_contra hlt
    refine h ⟨hnonempty, hincreasing, fun key hkey => ?_⟩
    have hle := hgreatest key hkey
    omega
  · obtain ⟨before, key, next, later, hkeys, hbefore, hle⟩ := exists_neighbors hincreasing
    rcases Nat.eq_or_lt_of_le hle with rfl | hlt
    · exact ⟨_, .duplicate hkeys hbefore⟩
    · exact ⟨_, .unsorted hkeys hbefore hlt⟩

theorem exists_ofList_iff {keys : List Nat} {varCount : Nat} :
    (∃ scope, ofList keys varCount = .ok scope) ↔
      keys ≠ [] ∧ keys.Pairwise (· < ·) ∧ ∀ key ∈ keys, key < varCount := by
  constructor
  · rintro ⟨scope, hscope⟩
    obtain ⟨rfl, hnonempty, hlt⟩ := ofList_eq_ok.1 hscope
    exact ⟨hnonempty, scope.increasing, hlt⟩
  · rintro ⟨hnonempty, hincreasing, hlt⟩
    exact ⟨⟨keys, hincreasing⟩, ofList_eq_ok.2 ⟨rfl, hnonempty, hlt⟩⟩

private theorem violation?_eq_none_iff {keys : List Nat} {varCount : Nat} :
    violation? keys varCount = none ↔
      keys ≠ [] ∧ keys.Pairwise (· < ·) ∧ ∀ key ∈ keys, key < varCount := by
  constructor
  · intro h
    obtain ⟨hnonempty, hlt⟩ := lt_of_violation?_eq_none h
    exact ⟨hnonempty, pairwise_of_violation? h, hlt⟩
  · rintro ⟨hnonempty, hincreasing, hlt⟩
    have hkeys := ofList_keys ⟨keys, hincreasing⟩ varCount
    rw [ofList_eq_ok.2 ⟨rfl, hnonempty, hlt⟩] at hkeys
    cases hviolation : violation? keys varCount with
    | none => rfl
    | some violation =>
      simp only [hviolation] at hkeys
      cases hkeys

private theorem ofList_of_violates {keys : List Nat} {varCount : Nat} {violation : ScopeViolation}
    (h : Violates keys varCount violation) :
    ofList keys varCount = .error (.invalidScope violation) := by
  unfold ofList
  split
  · rename_i found hfound
    rw [h.violation?_eq] at hfound
    cases hfound
    rfl
  · rename_i hnone
    rw [h.violation?_eq] at hnone
    cases hnone

private theorem ofList_eq_error_iff {keys : List Nat} {varCount : Nat} {failure : Failure} :
    ofList keys varCount = .error failure ↔
      ∃ violation, failure = .invalidScope violation ∧ Violates keys varCount violation := by
  constructor
  · intro h
    have hinvalid : ¬ (keys ≠ [] ∧ keys.Pairwise (· < ·) ∧ ∀ key ∈ keys, key < varCount) := by
      intro hvalid
      obtain ⟨scope, hscope⟩ := exists_ofList_iff.2 hvalid
      rw [hscope] at h
      cases h
    obtain ⟨violation, hviolation⟩ := exists_violates hinvalid
    rw [ofList_of_violates hviolation] at h
    cases h
    exact ⟨violation, rfl, hviolation⟩
  · rintro ⟨violation, rfl, hviolation⟩
    exact ofList_of_violates hviolation

theorem eq_of_perm {keys others : List Nat} (hperm : keys.Perm others)
    (hkeys : keys.Pairwise (· ≤ ·)) (hothers : others.Pairwise (· ≤ ·)) : keys = others :=
  hperm.eq_of_pairwise (fun _ _ _ _ => Nat.le_antisymm) hkeys hothers

theorem pairwise_lt_iff_nodup {keys : List Nat} (h : keys.Pairwise (· ≤ ·)) :
    keys.Pairwise (· < ·) ↔ keys.Nodup := by
  constructor
  · exact fun hlt => hlt.imp Nat.ne_of_lt
  · exact fun hnodup => (h.and hnodup).imp fun hboth => Nat.lt_of_le_of_ne hboth.1 hboth.2

private theorem ofUnsorted_eq {keys sorted : List Nat} (hperm : sorted.Perm keys)
    (hsorted : sorted.Pairwise (· ≤ ·)) (varCount : Nat) :
    ofUnsorted keys varCount = ofList sorted varCount := by
  rw [ofUnsorted, eq_of_perm ((List.mergeSort_perm ..).trans hperm.symm)
    (List.pairwise_mergeSort' (· ≤ ·) keys) hsorted]

theorem ofUnsorted_perm {keys others : List Nat} (h : others.Perm keys) (varCount : Nat) :
    ofUnsorted others varCount = ofUnsorted keys varCount :=
  ofUnsorted_eq ((List.mergeSort_perm ..).trans h.symm) (List.pairwise_mergeSort' (· ≤ ·) keys)
    varCount

private theorem exists_ofUnsorted_iff {keys : List Nat} {varCount : Nat} :
    (∃ scope, ofUnsorted keys varCount = .ok scope) ↔
      keys ≠ [] ∧ keys.Nodup ∧ ∀ key ∈ keys, key < varCount := by
  have hperm : keys.mergeSort.Perm keys := List.mergeSort_perm ..
  have hnil : keys.mergeSort = [] ↔ keys = [] := by
    rw [← List.length_eq_zero_iff, List.length_mergeSort, List.length_eq_zero_iff]
  rw [ofUnsorted, exists_ofList_iff,
    pairwise_lt_iff_nodup (List.pairwise_mergeSort' (· ≤ ·) keys), hperm.nodup_iff]
  simp only [hperm.mem_iff, ne_eq, hnil]

end Scope

namespace Assignment

variable {space : Space} {pairs sorted : List (Nat × Nat)}

private theorem check_of_over {a : Assignment} (h : a.Over space) : a.check space = .ok () := by
  have hkeys : a.keys ≠ [] := by simpa [keys] using h.nonempty
  have hscope : Scope.violation? a.keys space.length = none :=
    Scope.violation?_eq_none_iff.2 ⟨hkeys, a.increasing, h.keys_lt⟩
  have hplaced : misplaced? space a.entries = none := by
    rw [misplaced?, List.findSome?_eq_none_iff]
    intro entry hentry
    exact if_pos (h.value_lt entry hentry)
  simp only [check, hscope, hplaced]

theorem ofLists_eq_ok_iff {keys values : List Nat} {a : Assignment} :
    ofLists space keys values = .ok a ↔ a.keys = keys ∧ a.values = values ∧ a.Over space := by
  refine ⟨ofLists_spec, ?_⟩
  rintro ⟨rfl, rfl, h⟩
  rw [ofLists_eq_check, check_of_over h]
  rfl

private theorem ofLists_of_refused {keys : List Nat} {failure : Failure}
    (h : Scope.ofList keys space.length = .error failure) (values : List Nat) :
    ofLists space keys values = .error failure := by
  rw [ofLists, h]

theorem pairwise_sorted (pairs : List (Nat × Nat)) :
    ((pairs.mergeSort fun p q => p.1 ≤ q.1).map Prod.fst).Pairwise (· ≤ ·) := by
  have hsorted : (pairs.mergeSort fun p q => p.1 ≤ q.1).Pairwise fun p q => decide (p.1 ≤ q.1) :=
    List.pairwise_mergeSort (fun p q r => by simpa using Nat.le_trans)
      (fun p q => by simpa using Nat.le_total p.1 q.1) pairs
  exact List.pairwise_map.2 (hsorted.imp of_decide_eq_true)

/-- Whatever a sort does with equal keys, the pairs make the same assignment, or none for the same
reason. -/
theorem ofPairs_eq (hperm : sorted.Perm pairs) (hsorted : (sorted.map Prod.fst).Pairwise (· ≤ ·)) :
    ofPairs space pairs = ofLists space (sorted.map Prod.fst) (sorted.map Prod.snd) := by
  have hboth : (pairs.mergeSort fun p q => p.1 ≤ q.1).Perm sorted :=
    (List.mergeSort_perm ..).trans hperm.symm
  have hkeys := Scope.eq_of_perm (hboth.map Prod.fst) (pairwise_sorted pairs) hsorted
  by_cases hnodup : (sorted.map Prod.fst).Nodup
  · have hstrict : ∀ {list : List (Nat × Nat)}, list.map Prod.fst = sorted.map Prod.fst →
        list.Pairwise fun p q => p.1 < q.1 := by
      intro list hlist
      apply List.pairwise_map.1
      rw [hlist]
      exact (Scope.pairwise_lt_iff_nodup hsorted).2 hnodup
    have hsame : (pairs.mergeSort fun p q => p.1 ≤ q.1) = sorted :=
      hboth.eq_of_pairwise (fun _ _ _ _ hlt hgt => absurd hlt (Nat.lt_asymm hgt))
        (hstrict hkeys) (hstrict rfl)
    rw [ofPairs, hsame]
  · -- A key that comes twice is refused before any value is looked at.
    have hrefused : ¬ ∃ scope, Scope.ofList (sorted.map Prod.fst) space.length = .ok scope := by
      rw [Scope.exists_ofList_iff, Scope.pairwise_lt_iff_nodup hsorted]
      exact fun hvalid => hnodup hvalid.2.1
    cases hlist : Scope.ofList (sorted.map Prod.fst) space.length with
    | ok scope => exact absurd ⟨scope, hlist⟩ hrefused
    | error failure =>
      rw [ofPairs, hkeys, ofLists_of_refused hlist, ofLists_of_refused hlist]

theorem ofPairs_perm {others : List (Nat × Nat)} (h : others.Perm pairs) :
    ofPairs space others = ofPairs space pairs :=
  ofPairs_eq ((List.mergeSort_perm ..).trans h.symm) (pairwise_sorted pairs)

theorem ofPairs_eq_ok_iff {a : Assignment} :
    ofPairs space pairs = .ok a ↔ a.entries.Perm pairs ∧ a.Over space := by
  constructor
  · intro h
    obtain ⟨hkeys, hvalues, hover⟩ := ofLists_eq_ok_iff.1 h
    have hentries : a.entries = pairs.mergeSort fun p q => p.1 ≤ q.1 :=
      (List.zip_of_prod hkeys hvalues).trans (List.zip_of_prod rfl rfl).symm
    exact ⟨hentries ▸ List.mergeSort_perm .., hover⟩
  · rintro ⟨hperm, hover⟩
    rw [ofPairs_eq hperm (a.increasing.imp Nat.le_of_lt)]
    exact ofLists_eq_ok_iff.2 ⟨rfl, rfl, hover⟩

private theorem exists_ofPairs_iff : (∃ a, ofPairs space pairs = .ok a) ↔
    pairs ≠ [] ∧ (pairs.map Prod.fst).Nodup ∧
      ∀ pair ∈ pairs, pair.1 < space.length ∧ pair.2 < space.domain pair.1 := by
  constructor
  · rintro ⟨a, ha⟩
    obtain ⟨hperm, hover⟩ := ofPairs_eq_ok_iff.1 ha
    refine ⟨?_, (hperm.map Prod.fst).nodup_iff.1 (a.increasing.imp Nat.ne_of_lt), ?_⟩
    · rintro rfl
      exact hover.nonempty hperm.eq_nil
    · intro pair hpair
      have hentry := hperm.mem_iff.2 hpair
      exact ⟨hover.key_lt pair hentry, hover.value_lt pair hentry⟩
  · rintro ⟨hnonempty, hnodup, hin⟩
    have hperm : (pairs.mergeSort fun p q => p.1 ≤ q.1).Perm pairs := List.mergeSort_perm ..
    have hincreasing := (Scope.pairwise_lt_iff_nodup (pairwise_sorted pairs)).2
      ((hperm.map Prod.fst).nodup_iff.2 hnodup)
    refine ⟨⟨_, hincreasing⟩, ofPairs_eq_ok_iff.2 ⟨hperm, ?_, ?_, ?_⟩⟩
    · rintro (hnil : (pairs.mergeSort fun p q => p.1 ≤ q.1) = [])
      rw [hnil] at hperm
      exact hnonempty hperm.symm.eq_nil
    · exact fun entry hentry => (hin entry (hperm.mem_iff.1 hentry)).1
    · exact fun entry hentry => (hin entry (hperm.mem_iff.1 hentry)).2

end Assignment

/-- Keys are a scope when there are some, they increase, and all are variables; otherwise they are
refused for the first of these that fails, the order being that of the first neighbours out of it.
Sorted first, keys are a scope when there are some, all different and all variables, and pairs are
an assignment when their keys are so and each value is in its domain. The order of the keys or pairs
does not matter, nor does what a sort makes of equal keys; an assignment answers what the pairs
say. -/
theorem constructors_accept :
    (∀ (keys : List Nat) (varCount : Nat),
      ((∃ scope, Scope.ofList keys varCount = .ok scope) ↔
        keys ≠ [] ∧ keys.Pairwise (· < ·) ∧ ∀ key ∈ keys, key < varCount) ∧
      (∀ scope, Scope.ofList keys varCount = .ok scope → scope.keys = keys) ∧
      ∀ failure, Scope.ofList keys varCount = .error failure ↔
        ∃ violation, failure = .invalidScope violation ∧
          Scope.Violates keys varCount violation) ∧
    (∀ (keys : List Nat) (varCount : Nat),
      ((∃ scope, Scope.ofUnsorted keys varCount = .ok scope) ↔
        keys ≠ [] ∧ keys.Nodup ∧ ∀ key ∈ keys, key < varCount) ∧
      (∀ others : List Nat, others.Perm keys →
        Scope.ofUnsorted others varCount = Scope.ofUnsorted keys varCount) ∧
      ∀ sorted : List Nat, sorted.Perm keys → sorted.Pairwise (· ≤ ·) →
        Scope.ofUnsorted keys varCount = Scope.ofList sorted varCount) ∧
    ∀ (space : Space) (pairs : List (Nat × Nat)),
      (∀ others : List (Nat × Nat), others.Perm pairs →
        Assignment.ofPairs space others = Assignment.ofPairs space pairs) ∧
      (∀ sorted : List (Nat × Nat), sorted.Perm pairs →
        (sorted.map Prod.fst).Pairwise (· ≤ ·) →
        Assignment.ofPairs space pairs =
          Assignment.ofLists space (sorted.map Prod.fst) (sorted.map Prod.snd)) ∧
      ((∃ a, Assignment.ofPairs space pairs = .ok a) ↔
        pairs ≠ [] ∧ (pairs.map Prod.fst).Nodup ∧
          ∀ pair ∈ pairs, pair.1 < space.length ∧ pair.2 < space.domain pair.1) ∧
      ∀ a, Assignment.ofPairs space pairs = .ok a →
        ∀ key value, a.valueOf? key = some value ↔ (key, value) ∈ pairs := by
  refine ⟨fun keys varCount => ⟨Scope.exists_ofList_iff, ?_, fun _ => Scope.ofList_eq_error_iff⟩,
    fun keys varCount => ⟨Scope.exists_ofUnsorted_iff, ?_, ?_⟩,
    fun space pairs => ⟨?_, ?_, Assignment.exists_ofPairs_iff, ?_⟩⟩
  · exact fun scope hscope => (Scope.ofList_eq_ok.1 hscope).1
  · exact fun others hothers => Scope.ofUnsorted_perm hothers varCount
  · exact fun sorted hperm hsorted => Scope.ofUnsorted_eq hperm hsorted varCount
  · exact fun others hothers => Assignment.ofPairs_perm hothers
  · exact fun sorted hperm hsorted => Assignment.ofPairs_eq hperm hsorted
  · intro a ha key value
    rw [Assignment.valueOf?_eq_some_iff, (Assignment.ofPairs_eq_ok_iff.1 ha).1.mem_iff]

/-- Keys with three things wrong, keys with one of them twice, and pairs of which two contradict
each other or none do, each in two orders. -/
theorem constructors_accept_mixed :
    Scope.ofList [3, 1, 1, 9] 3 = .error (.invalidScope (.unsorted 1)) ∧
      Scope.ofUnsorted [2, 9, 2] 3 = .error (.invalidScope (.duplicate 2)) ∧
      Scope.ofUnsorted [9, 2, 2] 3 = .error (.invalidScope (.duplicate 2)) ∧
      Assignment.ofPairs [3, 3, 2] [(2, 1), (0, 9), (2, 0)] =
        Assignment.ofPairs [3, 3, 2] [(2, 0), (2, 1), (0, 9)] ∧
      Assignment.ofPairs [3, 3, 2] [(2, 1), (0, 9), (2, 0)] =
        Assignment.ofLists [3, 3, 2] [0, 2, 2] [9, 0, 1] ∧
      ∃ a, Assignment.ofPairs [3, 3, 2] [(2, 1), (0, 2)] = .ok a ∧ a.valueOf? 2 = some 1 := by
  obtain ⟨hlist, hunsorted, hpairs⟩ := constructors_accept
  have hfirst := ((hlist [3, 1, 1, 9] 3).2.2 (.invalidScope (.unsorted 1))).2
    ⟨_, rfl, @Scope.Violates.unsorted _ _ [] [1, 9] 3 1 rfl (by decide) (by decide)⟩
  have htwice : Scope.ofList [2, 2, 9] 3 = .error (.invalidScope (.duplicate 2)) :=
    ((hlist [2, 2, 9] 3).2.2 _).2
      ⟨_, rfl, @Scope.Violates.duplicate _ _ [] [9] 2 rfl (by decide)⟩
  have hkeys : Scope.ofUnsorted [2, 9, 2] 3 = .error (.invalidScope (.duplicate 2)) := by
    rw [(hunsorted [2, 9, 2] 3).2.2 [2, 2, 9] (by decide) (by decide), htwice]
  refine ⟨hfirst, hkeys, ?_, ?_, ?_, ?_⟩
  · rw [(hunsorted [2, 9, 2] 3).2.1 [9, 2, 2] (by decide), hkeys]
  · exact (hpairs [3, 3, 2] _).1 _ (by decide)
  · exact (hpairs [3, 3, 2] _).2.1 [(0, 9), (2, 0), (2, 1)] (by decide) (by decide)
  · obtain ⟨-, -, haccept, hanswer⟩ := hpairs [3, 3, 2] [(2, 1), (0, 2)]
    obtain ⟨a, ha⟩ := haccept.2 (by decide)
    exact ⟨a, ha, (hanswer a ha 2 1).2 (by decide)⟩

end JointDecision

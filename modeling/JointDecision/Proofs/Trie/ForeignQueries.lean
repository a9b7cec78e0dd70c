import JointDecision.Proofs.Trie.History
import Mathlib

/-! # Queries with values of another space

The wildcard list of a variable stands where one more value would stand, so a query for the domain
size reads that list twice. If such a range is the one that a query starts from, every identifier
found is listed twice; the identifiers themselves are those of a scan all the same. Only for a
larger value there is no list. -/

namespace JointDecision.Trie

def twice (ids : List Nat) : List Nat :=
  ids.flatMap fun id => [id, id]

@[simp] theorem mem_twice {ids : List Nat} {id : Nat} : id ∈ twice ids ↔ id ∈ ids := by
  simp [twice]

private theorem twice_perm (ids : List Nat) : (twice ids).Perm (ids ++ ids) := by
  have hperm := List.flatMap_append_perm ids (fun id => [id]) fun id => [id]
  simpa [twice] using hperm.symm

private theorem count_twice (ids : List Nat) (id : Nat) :
    (twice ids).count id = 2 * ids.count id := by
  rw [(twice_perm ids).count_eq, List.count_append]
  omega

private theorem filter_twice (ids : List Nat) (p : Nat → Bool) :
    (twice ids).filter p = twice (ids.filter p) := by
  induction ids with
  | nil => rfl
  | cons id ids ih =>
    rw [twice, List.flatMap_cons, List.filter_append, ← twice, ih]
    cases h : p id <;> simp [h, twice]

private theorem sorted_twice {ids : List Nat} (hids : ids.Pairwise (· ≤ ·)) :
    (twice ids).Pairwise (· ≤ ·) := by
  apply List.pairwise_flatMap.2
  constructor
  · simp
  · apply hids.imp
    intro a b hab
    simpa using hab

private theorem unionIds_self {ids : List Nat} (hids : ids.Pairwise (· ≤ ·)) :
    unionIds ids ids = twice ids := by
  have hperm := (unionIds_perm ids ids).trans (twice_perm ids).symm
  exact hperm.eq_of_pairwise (fun _ _ _ _ => Nat.le_antisymm) (sorted_unionIds hids hids)
    (sorted_twice hids)

def Least (trie : Trie) (query : List (Nat × Nat)) (item : Nat × Nat) : Prop :=
  item ∈ query ∧ ∃ range, trie.range? item.1 item.2 = some range ∧
    ∀ other ∈ query, ∃ range', trie.range? other.1 other.2 = some range' ∧
      range.size ≤ range'.size

/-- What a query that starts from the range of `item` finds, if a scan finds `once`. -/
def startedAt (trie : Trie) (item : Nat × Nat) (once : List Nat) : List Nat :=
  if item.2 = trie.space.domain item.1 then twice once else once

variable {trie : Trie} {live : List (Nat × Assignment)} {query : List (Nat × Nat)}

private theorem mem_startedAt {item : Nat × Nat} {once : List Nat} {id : Nat} :
    id ∈ trie.startedAt item once ↔ id ∈ once := by
  unfold startedAt
  split
  · exact mem_twice
  · rfl

private theorem sorted_startedAt (item : Nat × Nat) {once : List Nat}
    (honce : once.Pairwise (· < ·)) :
    (trie.startedAt item once).Pairwise (· ≤ ·) := by
  have hsorted := honce.imp Nat.le_of_lt
  unfold startedAt
  split
  · exact sorted_twice hsorted
  · exact hsorted

private theorem count_startedAt_le (item : Nat × Nat) {once : List Nat}
    (honce : once.Pairwise (· < ·)) (id : Nat) : (trie.startedAt item once).count id ≤ 2 := by
  have hcount := List.nodup_iff_count_le_one.1 (honce.imp Nat.ne_of_lt) id
  unfold startedAt
  split
  · rw [count_twice]
    omega
  · omega

private theorem filter_startedAt (item : Nat × Nat) (once : List Nat) (p : Nat → Bool) :
    (trie.startedAt item once).filter p = trie.startedAt item (once.filter p) := by
  unfold startedAt
  split
  · exact filter_twice once p
  · rfl

private theorem Represents.unionIds_rangeOf (h : trie.Represents live) {item : Nat × Nat}
    (hvalue : item.2 ≤ trie.space.domain item.1) :
    unionIds (trie.rangeOf live item).pinned (trie.rangeOf live item).wild =
      trie.startedAt item ((live.map Prod.fst).filter (trie.rangeOf live item).has) := by
  unfold startedAt
  split
  case isTrue heq =>
    have hsame : (trie.rangeOf live item).pinned = (trie.rangeOf live item).wild := by
      rw [rangeOf, heq]
    have hwild := (h.increasing_rangeOf item).wild
    rw [hsame, unionIds_self (hwild.imp Nat.le_of_lt)]
    congr 1
    apply hwild.eq_of_mem_iff (h.increasing.filter _)
    intro id
    have hhas : (trie.rangeOf live item).has id = true ↔ id ∈ (trie.rangeOf live item).wild := by
      simp [Range.has, hsame]
    rw [List.mem_filter, hhas]
    exact (and_iff_right_of_imp fun hid => (h.filed_sublist _ _).mem hid).symm
  case isFalse hne =>
    exact unionIds_eq h.increasing (h.sound_rangeOf (Nat.lt_of_le_of_ne hvalue hne))

/-- Narrowing by the ranges of a query, from the range of `item` on. -/
theorem Represents.narrow_rangeOf (h : trie.Represents live) {item : Nat × Nat}
    (hvalue : item.2 ≤ trie.space.domain item.1) {rest : List Range}
    (hperm : (trie.rangeOf live item :: rest).Perm (query.map (trie.rangeOf live))) :
    narrow trie.ids (trie.rangeOf live item :: rest) =
      trie.startedAt item (trie.reached live query) := by
  have hincreasing : ∀ range ∈ trie.rangeOf live item :: rest, range.Increasing := by
    intro range hrange
    obtain ⟨other, -, rfl⟩ := List.mem_map.1 (hperm.mem_iff.1 hrange)
    exact h.increasing_rangeOf other
  rw [narrow_cons trie.ids hincreasing, h.unionIds_rangeOf hvalue, filter_startedAt,
    List.filter_filter, ← h.filter_has hperm]
  congr 1
  apply List.filter_congr
  intro id _
  rw [List.all_cons, Bool.and_comm]

/-- A query is read only if it asks for no value above the domain size. -/
theorem Represents.reads_of_range? (h : trie.Represents live)
    (hread : ∀ item ∈ query, ∃ range, trie.range? item.1 item.2 = some range) :
    Reads trie.space query := by
  intro item hitem
  obtain ⟨range, hrange⟩ := hread item hitem
  exact h.of_list?_isSome (Option.isSome_iff_exists.2 ⟨_, (list?_of_range? hrange).1⟩)

private theorem Represents.least_iff (h : trie.Represents live) (hquery : Reads trie.space query)
    {item : Nat × Nat} : trie.Least query item ↔ item ∈ query ∧
      ∀ other ∈ query, (trie.rangeOf live item).size ≤ (trie.rangeOf live other).size := by
  have hrange : ∀ other ∈ query,
      trie.range? other.1 other.2 = some (trie.rangeOf live other) :=
    fun other hother => h.range?_eq (hquery other hother).1 (hquery other hother).2
  constructor
  · intro hleast
    obtain ⟨hitem, range, hread, hsmall⟩ := hleast
    obtain rfl := Option.some.inj (hread.symm.trans (hrange item hitem))
    refine ⟨hitem, fun other hother => ?_⟩
    obtain ⟨range', hread', hle⟩ := hsmall other hother
    obtain rfl := Option.some.inj (hread'.symm.trans (hrange other hother))
    exact hle
  · intro hleast
    obtain ⟨hitem, hsmall⟩ := hleast
    exact ⟨hitem, _, hrange item hitem,
      fun other hother => ⟨_, hrange other hother, hsmall other hother⟩⟩

private theorem Represents.maySelect_of_least (h : trie.Represents live) {item : Nat × Nat}
    (hleast : trie.Least query item) :
    trie.MaySelect query (trie.startedAt item (trie.reached live query)) := by
  have hquery : Reads trie.space query := by
    obtain ⟨-, range, -, hothers⟩ := hleast
    apply h.reads_of_range?
    intro other hother
    obtain ⟨range', hread, -⟩ := hothers other hother
    exact ⟨range', hread⟩
  obtain ⟨hitem, hsmall⟩ := (h.least_iff hquery).1 hleast
  have hmem : trie.rangeOf live item ∈ query.map (trie.rangeOf live) :=
    List.mem_map_of_mem hitem
  have hperm : (trie.rangeOf live item ::
      bySize ((query.map (trie.rangeOf live)).erase (trie.rangeOf live item))).Perm
      (query.map (trie.rangeOf live)) :=
    ((bySize_perm _).cons _).trans (List.perm_cons_erase hmem).symm
  refine ⟨_, _, h.ranges?_eq hquery, hperm, List.pairwise_cons.2 ⟨?_, pairwise_bySize _⟩,
    h.narrow_rangeOf (hquery item hitem).2 hperm⟩
  intro range hrange
  obtain ⟨other, hother, rfl⟩ :=
    List.mem_map.1 (List.mem_of_mem_erase ((bySize_perm _).mem_iff.1 hrange))
  exact hsmall other hother

/-- An answer starts from a least range, and from any of them. -/
theorem Represents.maySelect_iff_least (h : trie.Represents live) {ids : List Nat} :
    trie.MaySelect query ids ↔ query = [] ∧ ids = trie.reached live query ∨
      ∃ item, trie.Least query item ∧ ids = trie.startedAt item (trie.reached live query) := by
  constructor
  · intro hselect
    obtain ⟨ranges, sorted, hread, hperm, hsorted, rfl⟩ := hselect
    have hquery := h.reads_of_range? fun item hitem => exists_of_mapM hread hitem
    obtain rfl := Option.some.inj (hread.symm.trans (h.ranges?_eq hquery))
    cases sorted with
    | nil =>
      left
      obtain rfl := List.map_eq_nil_iff.1 hperm.nil_eq.symm
      simp [narrow, reached, h.ids]
    | cons first rest =>
      right
      obtain ⟨item, hitem, rfl⟩ := List.mem_map.1 (hperm.mem_iff.1 List.mem_cons_self)
      refine ⟨item, (h.least_iff hquery).2 ⟨hitem, fun other hother => ?_⟩,
        h.narrow_rangeOf (hquery item hitem).2 hperm⟩
      rcases List.mem_cons.1 (hperm.mem_iff.2 (List.mem_map_of_mem hother)) with heq | hmem
      · rw [heq]
      · exact (List.pairwise_cons.1 hsorted).1 _ hmem
  · rintro (⟨rfl, rfl⟩ | ⟨item, hleast, rfl⟩)
    · exact ⟨[], [], rfl, .nil, .nil, by simp [narrow, reached, h.ids]⟩
    · exact h.maySelect_of_least hleast

/-- There is no answer exactly if a value is above its domain size. -/
theorem Represents.select?_eq_none_iff (h : trie.Represents live)
    (hkeys : ∀ item ∈ query, item.1 < trie.space.length) :
    trie.select? query = none ↔ ∃ item ∈ query, trie.space.domain item.1 < item.2 := by
  rw [select?, Option.map_eq_none_iff]
  constructor
  · intro hnone
    by_contra hvalues
    have hquery : Reads trie.space query := by
      intro item hitem
      exact ⟨hkeys item hitem, Nat.le_of_not_lt fun hlt => hvalues ⟨item, hitem, hlt⟩⟩
    rw [h.ranges?_eq hquery] at hnone
    cases hnone
  · rintro ⟨item, hitem, hlt⟩
    cases hranges : trie.ranges? query with
    | none => rfl
    | some ranges =>
      have hquery := h.reads_of_range? fun other hother => exists_of_mapM hranges hother
      exact absurd hlt (Nat.not_lt.2 (hquery item hitem).2)

/-- How a trie with `edits` behind it answers a query for which a scan would `test` the entries:
which answers it may give, that they list what the scan lists, and when they list it once. -/
structure Answers (trie : Trie) (edits : List Edit) (query : List (Nat × Nat))
    (test : Assignment → Prop) (answer : Option (List Nat)) : Prop where
  eq_none_iff : answer = none ↔ ∃ item ∈ query, trie.space.domain item.1 < item.2
  possible : ∀ ids, answer = some ids → trie.MaySelect query ids
  started : ∃ once, Scans edits test once ∧ ∀ ids, trie.MaySelect query ids ↔
    query = [] ∧ ids = once ∨ ∃ item, trie.Least query item ∧ ids = trie.startedAt item once
  listed : ∀ ids, trie.MaySelect query ids → ids.Pairwise (· ≤ ·) ∧ (∀ id, ids.count id ≤ 2) ∧
    ∀ id, id ∈ ids ↔ ∃ entry, Live edits id entry ∧ test entry
  increasing : (∀ item ∈ query, item.2 ≠ trie.space.domain item.1) →
    ∀ ids, trie.MaySelect query ids → Scans edits test ids

theorem Indexes.answers {space : Space} {edits : List Edit} (h : Indexes space edits trie live)
    (hkeys : ∀ item ∈ query, item.1 < space.length) {test : Assignment → Prop}
    (hscans : Scans edits test (trie.reached live query)) :
    Answers trie edits query test (trie.select? query) where
  eq_none_iff := h.represents.select?_eq_none_iff (h.space_eq ▸ hkeys)
  possible _ := maySelect_of_select?
  started := ⟨_, hscans, fun _ => h.represents.maySelect_iff_least⟩
  listed := by
    intro ids hselect
    rcases h.represents.maySelect_iff_least.1 hselect with ⟨-, rfl⟩ | ⟨item, -, rfl⟩
    · refine ⟨hscans.1.imp Nat.le_of_lt, fun id => ?_, hscans.2⟩
      have hcount := List.nodup_iff_count_le_one.1 (hscans.1.imp Nat.ne_of_lt) id
      omega
    · refine ⟨sorted_startedAt item hscans.1, count_startedAt_le item hscans.1, fun id => ?_⟩
      rw [mem_startedAt, hscans.2]
  increasing := by
    intro hvalues ids hselect
    rcases h.represents.maySelect_iff_least.1 hselect with ⟨-, rfl⟩ | ⟨item, hleast, rfl⟩
    · exact hscans
    · rw [startedAt, if_neg (hvalues item hleast.1)]
      exact hscans

/-- After any edits by entries that are valid over the space, a query of its variables may ask for
any values. It has an answer exactly if no value is above its domain size. Every answer then lists
the live entries that a scan finds, in order: twice each if the answer starts from the range of a
value that equals its domain size, and else once. So the answer is increasing unless there is such a
value. -/
theorem foreign_queries_scan {space : Space} {edits : List Edit} (hvalid : Valid space edits) :
    ∃ trie, edits.foldlM edit? (.empty space) = some trie ∧
      (∀ full, full.length = space.length →
        Answers trie edits (full.zipIdx.map Prod.swap)
          (fun entry => entry.agrees? full = some true) (trie.filter? full)) ∧
      ∀ query : Assignment, (∀ key ∈ query.keys, key < space.length) →
        Answers trie edits query.entries (fun entry => entry.consistent query = true)
          (trie.filterPartial? query) := by
  obtain ⟨trie, live, hrun, h⟩ := Indexes.run hvalid
  refine ⟨trie, hrun, ?agreeing, ?consistent⟩
  case agreeing =>
    intro full hlength
    apply h.answers _ (h.scans_full hlength)
    rintro ⟨key, value⟩ hitem
    exact hlength ▸ (mem_query_iff.1 hitem).1
  case consistent =>
    intro query hkeys
    apply h.answers _ (h.scans_entries query)
    intro item hitem
    exact hkeys item.1 (List.mem_map_of_mem hitem)

def single (key value : Nat) : Assignment := ⟨[(key, value)], by simp⟩

def firstTwo (first second : Nat) : Assignment := ⟨[(0, first), (1, second)], by simp⟩

def sharedEdits : List Edit :=
  [.insert (single 1 0), .insert (firstTwo 0 0), .insert (firstTwo 0 0)]

private theorem valid_sharedEdits : Valid [2, 2] sharedEdits := by
  simp only [Valid, sharedEdits, List.mem_cons, List.not_mem_nil, Edit.insert.injEq, or_false]
  rintro entry (rfl | rfl | rfl)
  all_goals rfl

/-- Answers to a value, to the domain size alone and beside a value, and to what is above it. -/
theorem foreign_queries_scan_shared : ∃ trie,
    sharedEdits.foldlM edit? (.empty [2, 2]) = some trie ∧
    Answers trie sharedEdits [(0, 0)] (fun entry => entry.consistent (single 0 0) = true)
      (some [0, 1, 2]) ∧
    Answers trie sharedEdits [(0, 2)] (fun entry => entry.consistent (single 0 2) = true)
      (some [0, 0]) ∧
    Answers trie sharedEdits [(0, 2), (1, 0)] (fun entry => entry.agrees? [2, 0] = some true)
      (some [0, 0]) ∧
    Answers trie sharedEdits [(0, 3)] (fun entry => entry.consistent (single 0 3) = true) none := by
  obtain ⟨trie, hrun, hfull, hpartial⟩ := foreign_queries_scan valid_sharedEdits
  have hfound : (sharedEdits.foldlM edit? (.empty [2, 2])).map (fun trie =>
      (trie.filterPartial? (single 0 0), trie.filterPartial? (single 0 2), trie.filter? [2, 0],
        trie.filterPartial? (single 0 3))) =
      some (some [0, 1, 2], some [0, 0], some [0, 0], none) := by cbv
  rw [hrun, Option.map_some, Option.some.injEq, Prod.mk.injEq, Prod.mk.injEq,
    Prod.mk.injEq] at hfound
  obtain ⟨hvalue, hsize, hbeside, habove⟩ := hfound
  refine ⟨trie, hrun, ?_, ?_, ?_, ?_⟩
  · exact hvalue ▸ hpartial (single 0 0) (by decide)
  · exact hsize ▸ hpartial (single 0 2) (by decide)
  · exact hbeside ▸ hfull [2, 0] rfl
  · exact habove ▸ hpartial (single 0 3) (by decide)

/-- An assignment over another space is answered with an identifier twice, and so is a full one. -/
theorem shared_listed_twice : Valid [2, 2] sharedEdits ∧ (single 0 2).check [3, 2] = .ok () ∧
    (∀ key ∈ (single 0 2).keys, key < [2, 2].length) ∧ [2, 0].length = [2, 2].length ∧
    (sharedEdits.foldlM edit? (.empty [2, 2])).bind (·.filterPartial? (single 0 2)) =
      some [0, 0] ∧
    (sharedEdits.foldlM edit? (.empty [2, 2])).bind (·.filter? [2, 0]) = some [0, 0] ∧
    ¬ [0, 0].Pairwise (· < ·) := by
  refine ⟨valid_sharedEdits, rfl, by decide, rfl, ?_, ?_, by decide⟩
  · cbv
  · cbv

end JointDecision.Trie

import JointDecision.TrieMap
import JointDecision.Proofs.Assignment
import JointDecision.Proofs.Trie.Ids

/-! # What a trie holds

A trie represents a list of live entries with their identifiers: every list of the trie is the
increasing list of the entries that belong in it. Insertion and erasure keep this, and a query then
finds what a scan of the entries would find. -/

namespace JointDecision

namespace Trie

def filed (trie : Trie) (live : List (Nat × Assignment)) (key value : Nat) : List Nat :=
  (live.filter fun entry => trie.slot entry.2 key == value).map Prod.fst

/-- Whether the trie indexes exactly the `live` entries, in increasing order of identifiers. -/
structure Represents (trie : Trie) (live : List (Nat × Assignment)) : Prop where
  increasing : (live.map Prod.fst).Pairwise (· < ·)
  fresh : ∀ entry ∈ live, entry.1 < trie.nextId
  ids : trie.ids = live.map Prod.fst
  buckets : trie.buckets = trie.space.mapIdx fun key size =>
    (List.range (size + 1)).map (trie.filed live key)

theorem represents_empty (space : Space) : (Trie.empty space).Represents [] where
  increasing := .nil
  fresh := by simp
  ids := rfl
  buckets := by
    refine List.ext_getElem (by simp [empty]) ?_
    intro key _ _
    refine List.ext_getElem (by simp [empty]) ?_
    intro value _ _
    simp [empty, filed]

@[simp] theorem insert_space (trie : Trie) (entry : Assignment) :
    (trie.insert entry).space = trie.space := rfl

@[simp] theorem insert_nextId (trie : Trie) (entry : Assignment) :
    (trie.insert entry).nextId = trie.nextId + 1 := rfl

private theorem filed_insert (trie : Trie) (live : List (Nat × Assignment)) (entry : Assignment)
    (key value : Nat) :
    (trie.insert entry).filed (live ++ [(trie.nextId, entry)]) key value =
      if trie.slot entry key = value then trie.filed live key value ++ [trie.nextId]
      else trie.filed live key value := by
  by_cases h : trie.slot entry key = value
  · simp [filed, slot, List.filter_append, ← h]
  · have hbeq : (trie.slot entry key == value) = false := by simpa using h
    simp only [slot] at hbeq h
    simp [filed, slot, List.filter_append, h, hbeq]

theorem Represents.insert {trie : Trie} {live : List (Nat × Assignment)}
    (h : trie.Represents live) (entry : Assignment) :
    (trie.insert entry).Represents (live ++ [(trie.nextId, entry)]) where
  increasing := by
    rw [List.map_append, List.pairwise_append]
    refine ⟨h.increasing, by simp, ?_⟩
    intro id hid other hother
    obtain ⟨old, hold, rfl⟩ := List.mem_map.1 hid
    have hnew : other = trie.nextId := by simpa using hother
    rw [hnew]
    exact h.fresh old hold
  fresh := by
    intro old hold
    rw [insert_nextId]
    rcases List.mem_append.1 hold with hold | hold
    · exact Nat.lt_succ_of_lt (h.fresh old hold)
    · rw [List.mem_singleton.1 hold]
      exact Nat.lt_succ_self _
  ids := by simp [Trie.insert, h.ids]
  buckets := by
    have hstep : (trie.insert entry).buckets = trie.buckets.mapIdx fun key lists =>
        lists.modify (trie.slot entry key) (· ++ [trie.nextId]) := rfl
    rw [hstep, h.buckets]
    refine List.ext_getElem (by simp) ?_
    intro key _ _
    refine List.ext_getElem (by simp) ?_
    intro value _ _
    simp only [List.getElem_mapIdx, List.getElem_modify, List.getElem_map, List.getElem_range,
      filed_insert]

def reaches (trie : Trie) (entry : Assignment) (query : Nat × Nat) : Bool :=
  trie.slot entry query.1 == query.2 || trie.slot entry query.1 == trie.space.domain query.1

variable {trie : Trie} {live : List (Nat × Assignment)}

theorem Represents.filed_sublist (_ : trie.Represents live) (key value : Nat) :
    (trie.filed live key value).Sublist (live.map Prod.fst) :=
  List.Sublist.map _ List.filter_sublist

theorem Represents.pairwise_filed (h : trie.Represents live) (key value : Nat) :
    (trie.filed live key value).Pairwise (· < ·) :=
  h.increasing.sublist (h.filed_sublist key value)

private theorem Represents.entry_unique (h : trie.Represents live) {id : Nat} {a b : Assignment}
    (ha : (id, a) ∈ live) (hb : (id, b) ∈ live) : a = b := by
  have hnodup : (live.map Prod.fst).Nodup := h.increasing.imp Nat.ne_of_lt
  have heq := List.inj_on_of_nodup_map hnodup ha hb rfl
  exact (Prod.mk.inj heq).2

theorem Represents.mem_filed (h : trie.Represents live) {id : Nat} {entry : Assignment}
    (hentry : (id, entry) ∈ live) {key value : Nat} :
    id ∈ trie.filed live key value ↔ trie.slot entry key = value := by
  constructor
  · intro hid
    obtain ⟨⟨other, found⟩, hfound, rfl⟩ := List.mem_map.1 hid
    obtain ⟨hlive, hslot⟩ := List.mem_filter.1 hfound
    rw [h.entry_unique hentry hlive]
    simpa using hslot
  · intro hslot
    exact List.mem_map.2 ⟨(id, entry), List.mem_filter.2 ⟨hentry, by simpa using hslot⟩, rfl⟩

private theorem Represents.filed_disjoint (h : trie.Represents live) {key value other : Nat}
    (hne : value ≠ other) {id : Nat} (hid : id ∈ trie.filed live key value) :
    id ∉ trie.filed live key other := by
  intro hother
  obtain ⟨⟨_, entry⟩, hentry, rfl⟩ := List.mem_map.1 ((h.filed_sublist key value).mem hid)
  exact hne (((h.mem_filed hentry).1 hid).symm.trans ((h.mem_filed hentry).1 hother))

theorem slot_of_some {entry : Assignment} {key value : Nat} (h : entry.valueOf? key = some value) :
    trie.slot entry key = value := by
  rw [slot, h, Option.getD_some]

theorem slot_of_none {entry : Assignment} {key : Nat} (h : entry.valueOf? key = none) :
    trie.slot entry key = trie.space.domain key := by
  rw [slot, h, Option.getD_none]

theorem slot_le {entry : Assignment}
    (hover : ∀ e ∈ entry.entries, e.2 < trie.space.domain e.1) (key : Nat) :
    trie.slot entry key ≤ trie.space.domain key := by
  cases hvalue : entry.valueOf? key with
  | none => exact Nat.le_of_eq (slot_of_none hvalue)
  | some value =>
    rw [slot_of_some hvalue]
    exact Nat.le_of_lt (hover _ (Assignment.valueOf?_eq_some_iff.1 hvalue))

theorem Represents.admits (h : trie.Represents live) {entry : Assignment}
    (hover : ∀ e ∈ entry.entries, e.2 < trie.space.domain e.1) : trie.admits entry = true := by
  simp only [Trie.admits, h.buckets, List.all_eq_true]
  rintro ⟨lists, key⟩ hmem
  rw [List.mem_zipIdx_iff_getElem?, List.getElem?_mapIdx] at hmem
  dsimp only at hmem ⊢
  obtain ⟨size, hsize, rfl⟩ := Option.map_eq_some_iff.1 hmem
  have hdomain : trie.space.domain key = size := by
    simp [Space.domain, hsize]
  have hslot := Nat.lt_succ_of_le (slot_le hover key)
  simpa [hdomain] using hslot

/-- Where one list at most has an identifier, removing it from the first that has it removes it
from all. -/
theorem eraseFirst_eq {id : Nat} {lists : List (List Nat)} (hnodup : ∀ list ∈ lists, list.Nodup)
    (hdisjoint : lists.Pairwise fun a b => id ∈ a → id ∉ b) :
    eraseFirst id lists = lists.map (·.filter (· != id)) := by
  have hkeep : ∀ {list : List Nat}, id ∉ list → list.filter (· != id) = list := by
    intro list hid
    refine List.filter_eq_self.2 fun other hother => ?_
    simpa using ne_of_mem_of_not_mem hother hid
  induction lists with
  | nil => rfl
  | cons list lists ih =>
    obtain ⟨hhead, htail⟩ := List.pairwise_cons.1 hdisjoint
    rw [eraseFirst, List.map_cons]
    by_cases hid : id ∈ list
    · have hrest : lists.map (·.filter (· != id)) = lists :=
        (List.map_congr_left fun other hother => hkeep (hhead other hother hid)).trans
          (List.map_id lists)
      rw [if_pos (List.contains_iff_mem.2 hid), hrest,
        (hnodup list List.mem_cons_self).erase_eq_filter]
    · rw [if_neg (by simpa using hid), hkeep hid,
        ih (fun other hother => hnodup other (List.mem_cons_of_mem _ hother)) htail]

@[simp] theorem erase_space (trie : Trie) (id : Nat) : (trie.erase id).space = trie.space := by
  unfold erase
  split <;> rfl

@[simp] theorem erase_nextId (trie : Trie) (id : Nat) : (trie.erase id).nextId = trie.nextId := by
  unfold erase
  split <;> rfl

private theorem filed_erase (trie : Trie) (live : List (Nat × Assignment)) (id key value : Nat) :
    (trie.erase id).filed (live.filter (·.1 != id)) key value =
      (trie.filed live key value).filter (· != id) := by
  simp only [filed, slot, erase_space, List.filter_map, List.filter_filter, Function.comp_def]
  simp only [Bool.and_comm]

theorem Represents.erase (h : trie.Represents live) (id : Nat) :
    (trie.erase id).Represents (live.filter (·.1 != id)) := by
  have hids : (live.filter (·.1 != id)).map Prod.fst = (live.map Prod.fst).filter (· != id) := by
    rw [List.filter_map]
    rfl
  have hnodup : trie.ids.Nodup := h.ids ▸ h.increasing.imp Nat.ne_of_lt
  by_cases hlive : id ∈ trie.ids
  · have herase : trie.erase id =
        { trie with buckets := trie.buckets.map (eraseFirst id), ids := trie.ids.erase id } :=
      if_pos (List.contains_iff_mem.2 hlive)
    constructor
    case increasing => exact hids ▸ h.increasing.filter _
    case fresh =>
      intro entry hentry
      rw [erase_nextId]
      exact h.fresh entry (List.mem_filter.1 hentry).1
    case ids =>
      rw [herase, hids, ← h.ids]
      exact hnodup.erase_eq_filter id
    case buckets =>
      have hbuckets : (trie.erase id).buckets = trie.buckets.map (eraseFirst id) := by
        rw [herase]
      rw [hbuckets, h.buckets, erase_space]
      refine List.ext_getElem (by simp) ?_
      intro key _ _
      simp only [List.getElem_map, List.getElem_mapIdx]
      rw [eraseFirst_eq, List.map_map]
      · exact List.map_congr_left fun value _ => (filed_erase trie live id key value).symm
      · intro list hlist
        obtain ⟨value, -, rfl⟩ := List.mem_map.1 hlist
        exact (h.pairwise_filed key value).imp Nat.ne_of_lt
      · refine List.pairwise_map.2 (List.nodup_range.imp fun hne => ?_)
        exact h.filed_disjoint hne
  · have hsame : live.filter (·.1 != id) = live := by
      refine List.filter_eq_self.2 fun entry hentry => ?_
      have hmem : entry.1 ∈ trie.ids := h.ids ▸ List.mem_map_of_mem hentry
      simpa using ne_of_mem_of_not_mem hmem hlive
    have herase : trie.erase id = trie := if_neg (by simpa using hlive)
    rw [hsame, herase]
    exact h

theorem Represents.lists?_eq (h : trie.Represents live) {key : Nat}
    (hkey : key < trie.space.length) : trie.buckets[key]? =
      some ((List.range (trie.space.domain key + 1)).map (trie.filed live key)) := by
  rw [h.buckets, List.getElem?_mapIdx, Space.getElem?_eq_domain hkey, Option.map_some]

/-- The lists that a query reads. The domain size is read as a value, and is that of the wildcard
list. -/
theorem Represents.range?_eq (h : trie.Represents live) {key value : Nat}
    (hkey : key < trie.space.length) (hvalue : value ≤ trie.space.domain key) :
    trie.range? key value =
      some ⟨trie.filed live key value, trie.filed live key (trie.space.domain key)⟩ := by
  have hwild : trie.space.domain key < trie.space.domain key + 1 := Nat.lt_succ_self _
  have hpinned : value < trie.space.domain key + 1 := Nat.lt_succ_of_le hvalue
  simp [range?, h.lists?_eq hkey, hwild, hpinned]

structure Range.Increasing (range : Range) : Prop where
  pinned : range.pinned.Pairwise (· < ·)
  wild : range.wild.Pairwise (· < ·)

structure Range.Sound (range : Range) (ids : List Nat) : Prop extends range.Increasing where
  disjoint : ∀ id ∈ range.pinned, id ∉ range.wild
  known : ∀ id, id ∈ range.pinned ∨ id ∈ range.wild → id ∈ ids

def Range.has (range : Range) (id : Nat) : Bool :=
  id ∈ range.pinned ∨ id ∈ range.wild

theorem foldl_restrictIds {ranges : List Range} {result : List Nat}
    (hresult : result.Pairwise (· ≤ ·)) (hranges : ∀ range ∈ ranges, range.Increasing) :
    ranges.foldl (fun result range => restrictIds result range.pinned range.wild) result =
      result.filter fun id => ranges.all fun range => range.has id := by
  induction ranges generalizing result with
  | nil => simp
  | cons range ranges ih =>
    have hrange := hranges range List.mem_cons_self
    have hstep : restrictIds result range.pinned range.wild = result.filter range.has :=
      restrictIds_eq hresult hrange.pinned hrange.wild
    rw [List.foldl_cons, hstep, ih (hresult.filter _) fun r hr => hranges r (by simp [hr]),
      List.filter_filter]
    refine List.filter_congr fun id _ => ?_
    rw [List.all_cons, Bool.and_comm]

theorem narrow_cons (ids : List Nat) {first : Range} {rest : List Range}
    (hranges : ∀ range ∈ first :: rest, range.Increasing) :
    narrow ids (first :: rest) =
      (unionIds first.pinned first.wild).filter fun id => rest.all fun range => range.has id := by
  obtain ⟨hfirst, hrest⟩ := List.forall_mem_cons.1 hranges
  refine foldl_restrictIds (sorted_unionIds ?_ ?_) hrest
  · exact hfirst.pinned.imp Nat.le_of_lt
  · exact hfirst.wild.imp Nat.le_of_lt

theorem unionIds_eq {ids : List Nat} (hids : ids.Pairwise (· < ·)) {range : Range}
    (h : range.Sound ids) : unionIds range.pinned range.wild = ids.filter range.has := by
  refine (pairwise_unionIds h.pinned h.wild h.disjoint).eq_of_mem_iff (hids.filter _) ?_
  intro id
  rw [mem_unionIds, List.mem_filter]
  constructor
  · intro hid
    exact ⟨h.known id hid, by simpa [Range.has] using hid⟩
  · intro h'
    obtain ⟨-, hid⟩ := h'
    simpa [Range.has] using hid

/-- Narrowing keeps the identifiers that every range has, if the first range is sound. -/
theorem narrow_eq {ids : List Nat} (hids : ids.Pairwise (· < ·)) {first : Range}
    {rest : List Range} (hfirst : first.Sound ids)
    (hrest : ∀ range ∈ rest, range.Increasing) :
    narrow ids (first :: rest) =
      ids.filter fun id => (first :: rest).all fun range => range.has id := by
  rw [narrow_cons ids (List.forall_mem_cons.2 ⟨hfirst.toIncreasing, hrest⟩),
    unionIds_eq hids hfirst, List.filter_filter]
  refine List.filter_congr fun id _ => ?_
  rw [List.all_cons, Bool.and_comm]

theorem bySize_perm (ranges : List Range) : (bySize ranges).Perm ranges := by
  have hperm := (List.mergeSort_perm (ranges.map fun range => (range.size, range))
    fun a b => a.1 ≤ b.1).map Prod.snd
  have hback : (ranges.map fun range => (range.size, range)).map Prod.snd = ranges := by
    rw [List.map_map]
    exact List.map_id' ranges
  rw [hback] at hperm
  exact hperm

def Asks (space : Space) (query : List (Nat × Nat)) : Prop :=
  ∀ entry ∈ query, entry.1 < space.length ∧ entry.2 < space.domain entry.1

theorem asks_of_over {space : Space} {query : Assignment} (h : query.Over space) :
    Asks space query.entries :=
  fun entry hentry => ⟨h.key_lt entry hentry, h.value_lt entry hentry⟩

def Reads (space : Space) (query : List (Nat × Nat)) : Prop :=
  ∀ entry ∈ query, entry.1 < space.length ∧ entry.2 ≤ space.domain entry.1

private theorem Asks.reads {space : Space} {query : List (Nat × Nat)} (h : Asks space query) :
    Reads space query :=
  fun entry hentry => (h entry hentry).imp_right Nat.le_of_lt

def rangeOf (trie : Trie) (live : List (Nat × Assignment)) (entry : Nat × Nat) : Range :=
  ⟨trie.filed live entry.1 entry.2, trie.filed live entry.1 (trie.space.domain entry.1)⟩

theorem Represents.ranges?_eq (h : trie.Represents live) {query : List (Nat × Nat)}
    (hquery : Reads trie.space query) :
    trie.ranges? query = some (query.map (trie.rangeOf live)) :=
  mapM_eq_some_map fun entry hentry =>
    h.range?_eq (hquery entry hentry).1 (hquery entry hentry).2

theorem Represents.increasing_rangeOf (h : trie.Represents live) (entry : Nat × Nat) :
    (trie.rangeOf live entry).Increasing where
  pinned := h.pairwise_filed entry.1 entry.2
  wild := h.pairwise_filed entry.1 _

theorem Represents.sound_rangeOf (h : trie.Represents live) {entry : Nat × Nat}
    (hvalue : entry.2 < trie.space.domain entry.1) :
    (trie.rangeOf live entry).Sound (live.map Prod.fst) where
  toIncreasing := h.increasing_rangeOf entry
  disjoint := fun _ hpinned => h.filed_disjoint (Nat.ne_of_lt hvalue) hpinned
  known := by
    rintro id (hid | hid)
    · exact (h.filed_sublist entry.1 entry.2).mem hid
    · exact (h.filed_sublist entry.1 _).mem hid

def reached (trie : Trie) (live : List (Nat × Assignment)) (query : List (Nat × Nat)) : List Nat :=
  (live.filter fun entry => query.all (trie.reaches entry.2)).map Prod.fst

/-- These are the identifiers that every range of the query has, in whichever order they come. -/
theorem Represents.filter_has (h : trie.Represents live) {query : List (Nat × Nat)}
    {sorted : List Range} (hsorted : sorted.Perm (query.map (trie.rangeOf live))) :
    (live.map Prod.fst).filter (fun id => sorted.all fun range => range.has id) =
      trie.reached live query := by
  rw [List.filter_map, reached]
  congr 1
  refine List.filter_congr ?_
  rintro ⟨id, entry⟩ hentry
  rw [Function.comp_apply, hsorted.all_eq, List.all_map]
  congr 1
  funext ⟨key, value⟩
  rw [Bool.eq_iff_iff]
  simp [Range.has, reaches, rangeOf, h.mem_filed hentry]

/-- Narrowing by the ranges of a query keeps the live entries that the query reaches, in whichever
order the ranges come. -/
theorem Represents.narrow_eq (h : trie.Represents live) {query : List (Nat × Nat)}
    (hquery : Asks trie.space query) {ranges sorted : List Range}
    (hranges : trie.ranges? query = some ranges) (hsorted : sorted.Perm ranges) :
    narrow trie.ids sorted = trie.reached live query := by
  obtain rfl := Option.some.inj (hranges.symm.trans (h.ranges?_eq hquery.reads))
  have hsound : ∀ range ∈ sorted, range.Sound (live.map Prod.fst) := by
    intro range hrange
    obtain ⟨entry, hentry, rfl⟩ := List.mem_map.1 (hsorted.mem_iff.1 hrange)
    exact h.sound_rangeOf (hquery entry hentry).2
  rw [h.ids, ← h.filter_has hsorted]
  cases sorted with
  | nil => simp [narrow]
  | cons first rest =>
    obtain ⟨hfirst, hrest⟩ := List.forall_mem_cons.1 hsound
    exact Trie.narrow_eq h.increasing hfirst fun range hrange => (hrest range hrange).toIncreasing

/-- A query finds the live entries that it reaches, in the order of their identifiers. -/
theorem Represents.select?_eq (h : trie.Represents live) {query : List (Nat × Nat)}
    (hquery : Asks trie.space query) :
    trie.select? query = some (trie.reached live query) := by
  have hranges := h.ranges?_eq hquery.reads
  rw [select?, hranges, Option.map_some, h.narrow_eq hquery hranges (bySize_perm _)]

private theorem reaches_iff {entry : Assignment}
    (hover : ∀ e ∈ entry.entries, e.2 < trie.space.domain e.1)
    (key value : Nat) :
    trie.reaches entry (key, value) = true ↔ ∀ v, (key, v) ∈ entry.entries → v = value := by
  simp only [reaches, slot, Bool.or_eq_true, beq_iff_eq]
  cases hv : entry.valueOf? key with
  | none =>
    have hnone : ∀ v, (key, v) ∉ entry.entries := by
      intro v hmem
      rw [Assignment.valueOf?_eq_some_iff.2 hmem] at hv
      cases hv
    simp [hnone]
  | some v =>
    have hmem := Assignment.valueOf?_eq_some_iff.1 hv
    have hlt : v < trie.space.domain key := hover _ hmem
    constructor
    · intro hreach w hw
      have hwv : some v = some w := hv.symm.trans (Assignment.valueOf?_eq_some_iff.2 hw)
      obtain rfl : v = w := Option.some.inj hwv
      simp only [Option.getD_some] at hreach
      rcases hreach with heq | heq
      · exact heq
      · exact absurd heq (Nat.ne_of_lt hlt)
    · intro hall
      exact .inl (hall v hmem)

theorem mem_query_iff {full : List Nat} {key value : Nat} :
    (key, value) ∈ full.zipIdx.map Prod.swap ↔
      key < full.length ∧ value = valuation full key := by
  constructor
  · intro h
    obtain ⟨⟨v, k⟩, hmem, heq⟩ := List.mem_map.1 h
    obtain ⟨rfl, rfl⟩ : k = key ∧ v = value := by simpa using heq
    have hget : full[k]? = some v := List.mem_zipIdx_iff_getElem?.1 hmem
    have hkey := (List.getElem?_eq_some_iff.1 hget).1
    exact ⟨hkey, by simp [valuation, hget]⟩
  · intro h'
    obtain ⟨hkey, rfl⟩ := h'
    refine List.mem_map.2 ⟨(valuation full key, key), ?_, rfl⟩
    exact List.mem_zipIdx_iff_getElem?.2 (by simp [valuation, hkey])

theorem asks_full {space : Space} {full : List Nat} (hfull : space.Admits full) :
    Asks space (full.zipIdx.map Prod.swap) := by
  obtain ⟨hlength, hrespects⟩ := Space.admits_iff.1 hfull
  rintro ⟨key, value⟩ hentry
  obtain ⟨hkey, rfl⟩ := mem_query_iff.1 hentry
  rw [hlength] at hkey
  exact ⟨hkey, hrespects key hkey⟩

/-- A full assignment reaches the live entries that hold in its valuation, whatever its values. -/
theorem reached_full (hlive : ∀ entry ∈ live, Asks trie.space entry.2.entries) {full : List Nat}
    (hlength : full.length = trie.space.length) :
    trie.reached live (full.zipIdx.map Prod.swap) =
      (live.filter fun entry => entry.2.holds (valuation full)).map Prod.fst := by
  rw [reached]
  congr 1
  refine List.filter_congr ?_
  intro entry hentry
  have hreaches := reaches_iff fun e he => (hlive entry hentry e he).2
  rw [Bool.eq_iff_iff, List.all_eq_true, Assignment.holds_iff]
  constructor
  · intro hreach e he
    have hkey := (hlive entry hentry e he).1
    have hquery := hreach (e.1, valuation full e.1) (mem_query_iff.2 ⟨hlength ▸ hkey, rfl⟩)
    exact ((hreaches _ _).1 hquery e.2 he).symm
  · rintro hholds ⟨key, value⟩ hq
    obtain ⟨-, rfl⟩ := mem_query_iff.1 hq
    exact (hreaches _ _).2 fun v hv => (hholds _ hv).symm

/-- An assignment reaches the live entries that are consistent with it, whatever its values. -/
theorem reached_entries (hlive : ∀ entry ∈ live, Asks trie.space entry.2.entries)
    (query : Assignment) : trie.reached live query.entries =
      (live.filter fun entry => entry.2.consistent query).map Prod.fst := by
  rw [reached]
  congr 1
  refine List.filter_congr ?_
  intro entry hentry
  have hreaches := reaches_iff fun e he => (hlive entry hentry e he).2
  rw [Bool.eq_iff_iff, List.all_eq_true, Assignment.consistent_iff]
  constructor
  · intro hreach key v w hv hw
    exact (hreaches _ _).1 (hreach (key, w) hw) v hv
  · rintro hall ⟨key, w⟩ hw
    exact (hreaches _ _).2 fun v hv => hall key v w hv hw

theorem Represents.filter?_eq (h : trie.Represents live)
    (hlive : ∀ entry ∈ live, Asks trie.space entry.2.entries) {full : List Nat}
    (hfull : trie.space.Admits full) :
    trie.filter? full =
      some ((live.filter fun entry => entry.2.holds (valuation full)).map Prod.fst) := by
  rw [filter?, h.select?_eq (asks_full hfull), reached_full hlive hfull.length_eq]

end Trie

end JointDecision

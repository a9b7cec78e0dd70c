import JointDecision.Proofs.Trie.Queries
import Mathlib

/-! # What a trie keeps of its history

The live entries and the number of insertions determine a trie, list by list. So the order of
erasures does not matter, an erasure may come after later edits, and an entry that was inserted and
erased leaves no trace but its identifier. -/

namespace JointDecision.Trie

def Valid (space : Space) (edits : List Edit) : Prop :=
  ∀ entry, .insert entry ∈ edits → entry.check space = .ok ()

private theorem valid_erase (space : Space) (id : Nat) : Valid space [.erase id] := by
  simp [Valid]

@[simp] theorem issued_append (edits later : List Edit) :
    issued (edits ++ later) = issued edits + issued later :=
  List.countP_append ..

private theorem live_erase {edits : List Edit} {gone id : Nat} {entry : Assignment} :
    Live (edits ++ [.erase gone]) id entry ↔ Live edits id entry ∧ id ≠ gone := by
  simp [live_snoc, eq_comm]

/-- What lives after an erasure and later edits lives after the edits alone, but for the entry
that is gone. -/
theorem live_erase_cons {edits later : List Edit} {gone : Nat}
    (hgone : gone < issued edits ∨ issued (edits ++ later) ≤ gone) {id : Nat}
    {entry : Assignment} : Live (edits ++ .erase gone :: later) id entry ↔
      Live (edits ++ later) id entry ∧ id ≠ gone := by
  induction later using List.reverseRecOn with
  | nil => rw [live_erase, List.append_nil]
  | append_singleton later edit ih =>
    have hissued : issued (edits ++ .erase gone :: later) = issued (edits ++ later) := by
      simp [issued, Edit.inserts]
    have hbefore : gone < issued edits ∨ issued (edits ++ later) ≤ gone := by
      simp only [issued_append] at hgone ⊢
      omega
    -- an entry that the last edit files is another one than the entry that is gone
    have hnew : edit = .insert entry → issued (edits ++ later) ≠ gone := by
      rintro rfl
      have hlast : issued [.insert entry] = 1 := rfl
      simp only [issued_append] at hgone ⊢
      omega
    rw [← List.cons_append, ← List.append_assoc, ← List.append_assoc, live_snoc, live_snoc,
      ih hbefore, hissued]
    constructor
    · rintro (⟨⟨hlive, hne⟩, hkept⟩ | ⟨hinsert, rfl⟩)
      · exact ⟨.inl ⟨hlive, hkept⟩, hne⟩
      · exact ⟨.inr ⟨hinsert, rfl⟩, hnew hinsert⟩
    · rintro ⟨⟨hlive, hkept⟩ | hlast, hne⟩
      · exact .inl ⟨⟨hlive, hne⟩, hkept⟩
      · exact .inr hlast

/-- The list of a value of a variable; the wildcard list is that of the domain size. -/
def list? (trie : Trie) (key value : Nat) : Option (List Nat) :=
  trie.buckets[key]?.bind (·[value]?)

/-- Whether a trie has the lists that a history makes for each variable of the space: one for every
value, and behind these one for the entries that do not mention the variable. -/
structure Sorts (trie : Trie) (space : Space) (edits : List Edit) : Prop where
  pinned : ∀ key < space.length, ∀ value < space.domain key, ∃ ids,
    trie.list? key value = some ids ∧ Scans edits (fun entry => entry.valueOf? key = some value) ids
  wild : ∀ key < space.length, ∃ ids, trie.list? key (space.domain key) = some ids ∧
    Scans edits (fun entry => entry.valueOf? key = none) ids
  none_else : ∀ key value, (trie.list? key value).isSome →
    key < space.length ∧ value ≤ space.domain key

variable {trie : Trie} {live : List (Nat × Assignment)}

theorem Represents.list?_eq (h : trie.Represents live) {key value : Nat}
    (hkey : key < trie.space.length) (hvalue : value ≤ trie.space.domain key) :
    trie.list? key value = some (trie.filed live key value) := by
  rw [list?, h.lists?_eq hkey, Option.bind_some, List.getElem?_map,
    List.getElem?_range (by omega), Option.map_some]

theorem Represents.of_list?_isSome (h : trie.Represents live) {key value : Nat}
    (hlist : (trie.list? key value).isSome) :
    key < trie.space.length ∧ value ≤ trie.space.domain key := by
  obtain ⟨ids, hids⟩ := Option.isSome_iff_exists.1 hlist
  obtain ⟨lists, hlists, hvalue⟩ := Option.bind_eq_some_iff.1 hids
  have hkey := (List.getElem?_eq_some_iff.1 hlists).1
  rw [h.buckets, List.length_mapIdx] at hkey
  rw [h.lists?_eq hkey] at hlists
  obtain rfl := Option.some.inj hlists
  have hlt := (List.getElem?_eq_some_iff.1 hvalue).1
  rw [List.length_map, List.length_range] at hlt
  exact ⟨hkey, Nat.le_of_lt_succ hlt⟩

theorem Represents.list?_subset (h : trie.Represents live) {key value : Nat} {ids : List Nat}
    (hlist : trie.list? key value = some ids) : ids ⊆ trie.ids := by
  obtain ⟨hkey, hvalue⟩ := h.of_list?_isSome (Option.isSome_iff_exists.2 ⟨_, hlist⟩)
  rw [h.list?_eq hkey hvalue] at hlist
  rw [← Option.some.inj hlist, h.ids]
  exact (h.filed_sublist key value).subset

theorem list?_of_range? {key value : Nat} {range : Range}
    (h : trie.range? key value = some range) :
    trie.list? key value = some range.pinned ∧
      trie.list? key (trie.space.domain key) = some range.wild := by
  simp only [range?, Option.bind_eq_bind, Option.bind_eq_some_iff, Option.pure_def] at h
  obtain ⟨lists, hlists, pinned, hpinned, wild, hwild, h⟩ := h
  cases h
  simp [list?, hlists, hpinned, hwild]

private theorem narrow_subset {ids : List Nat} {ranges : List Range}
    (h : ∀ range ∈ ranges, range.pinned ⊆ ids ∧ range.wild ⊆ ids) : narrow ids ranges ⊆ ids := by
  have hfold : ∀ (rest : List Range) (result : List Nat),
      rest.foldl (fun result range => restrictIds result range.pinned range.wild) result ⊆
        result := by
    intro rest
    induction rest with
    | nil => exact fun result => List.Subset.refl result
    | cons range rest ih =>
      exact fun result => List.Subset.trans (ih _) (restrictIds_sublist ..).subset
  cases ranges with
  | nil => exact List.Subset.refl ids
  | cons first rest =>
    obtain ⟨hpinned, hwild⟩ := h first List.mem_cons_self
    intro id hid
    rcases mem_unionIds.1 (hfold rest _ hid) with hid | hid
    · exact hpinned hid
    · exact hwild hid

/-- Whatever a query asks for, an answer to it consists of live identifiers. -/
theorem Represents.select?_subset (h : trie.Represents live) {query : List (Nat × Nat)}
    {ids : List Nat} (hids : trie.select? query = some ids) : ids ⊆ trie.ids := by
  obtain ⟨ranges, hranges, rfl⟩ := Option.map_eq_some_iff.1 hids
  refine narrow_subset fun range hrange => ?_
  obtain ⟨⟨key, value⟩, -, hread⟩ := mem_of_mapM hranges ((bySize_perm ranges).mem_iff.1 hrange)
  obtain ⟨hpinned, hwild⟩ := list?_of_range? hread
  exact ⟨h.list?_subset hpinned, h.list?_subset hwild⟩

private theorem Represents.eq_of_same {other : Trie} (h : trie.Represents live)
    (h' : other.Represents live) (hspace : other.space = trie.space)
    (hnext : other.nextId = trie.nextId) : other = trie := by
  have hfiled : other.filed live = trie.filed live := by
    funext key value
    simp only [filed, slot, hspace]
  have hbuckets : other.buckets = trie.buckets := by
    rw [h'.buckets, h.buckets, hspace, hfiled]
  have hids : other.ids = trie.ids := h'.ids.trans h.ids.symm
  cases trie
  cases other
  simp_all

theorem Represents.spend (h : trie.Represents live) : trie.spend.Represents live where
  increasing := h.increasing
  fresh entry hentry := Nat.lt_succ_of_lt (h.fresh entry hentry)
  ids := h.ids
  buckets := h.buckets

namespace Indexes

variable {space : Space} {edits : List Edit}

private theorem sorts (h : Indexes space edits trie live) : trie.Sorts space edits := by
  obtain rfl := h.space_eq
  have hslot : ∀ entry ∈ live, ∀ key, ∀ value < trie.space.domain key,
      (trie.slot entry.2 key == value) = true ↔ entry.2.valueOf? key = some value := by
    intro entry _ key value hvalue
    rw [beq_iff_eq]
    cases hfound : entry.2.valueOf? key with
    | some found => simp [slot_of_some hfound]
    | none => simpa [slot_of_none hfound] using (Nat.ne_of_lt hvalue).symm
  have hwild : ∀ entry ∈ live, ∀ key, (trie.slot entry.2 key == trie.space.domain key) = true ↔
      entry.2.valueOf? key = none := by
    intro entry hentry key
    rw [beq_iff_eq]
    cases hfound : entry.2.valueOf? key with
    | none => simp [slot_of_none hfound]
    | some found =>
      have hlt : found < trie.space.domain key :=
        (h.valid entry hentry).value_lt _ (Assignment.valueOf?_eq_some_iff.1 hfound)
      simpa [slot_of_some hfound] using Nat.ne_of_lt hlt
  refine ⟨?_, ?_, fun key value => h.represents.of_list?_isSome⟩
  · intro key hkey value hvalue
    exact ⟨_, h.represents.list?_eq hkey (Nat.le_of_lt hvalue),
      h.scans _ (fun entry => trie.slot entry key == value)
        fun entry hentry => hslot entry hentry key value hvalue⟩
  · intro key hkey
    exact ⟨_, h.represents.list?_eq hkey (le_refl _),
      h.scans _ (fun entry => trie.slot entry key == trie.space.domain key)
        fun entry hentry => hwild entry hentry key⟩

/-- An entry that lives is in exactly one list of every variable. -/
theorem list_unique (h : Indexes space edits trie live) {key id : Nat} (hkey : key < space.length)
    {entry : Assignment} (hentry : Live edits id entry) :
    ∃! value, ∃ ids, trie.list? key value = some ids ∧ id ∈ ids := by
  obtain rfl := h.space_eq
  have hin := (h.mem_live id entry).2 hentry
  have hslot := slot_le (h.valid _ hin).value_lt key
  refine ⟨trie.slot entry key, ⟨_, h.represents.list?_eq hkey hslot,
    (h.represents.mem_filed hin).2 rfl⟩, ?_⟩
  rintro value ⟨ids, hids, hid⟩
  obtain ⟨-, hvalue⟩ := h.represents.of_list?_isSome (Option.isSome_iff_exists.2 ⟨_, hids⟩)
  rw [h.represents.list?_eq hkey hvalue] at hids
  obtain rfl := Option.some.inj hids
  exact ((h.represents.mem_filed hin).1 hid).symm

/-- Histories with the same live entries list them alike. -/
theorem live_eq {others : List Edit} {other : Trie} {held : List (Nat × Assignment)}
    (h : Indexes space edits trie live) (h' : Indexes space others other held)
    (hlive : ∀ id entry, Live others id entry ↔ Live edits id entry) : held = live := by
  have hmem : ∀ entry, entry ∈ held ↔ entry ∈ live := by
    intro entry
    rw [← Prod.mk.eta (p := entry), h'.mem_live, h.mem_live, hlive]
  have hnodup : ∀ {list : List (Nat × Assignment)},
      (list.map Prod.fst).Pairwise (· < ·) → list.Pairwise fun a b => a.1 < b.1 :=
    fun hlist => List.pairwise_map.1 hlist
  exact (hnodup h'.represents.increasing).eq_of_mem_iff (hnodup h.represents.increasing)
    fun {entry} => hmem entry

private theorem eq_of_live {others : List Edit} {other : Trie} {held : List (Nat × Assignment)}
    (h : Indexes space edits trie live) (h' : Indexes space others other held)
    (hissued : issued others = issued edits)
    (hlive : ∀ id entry, Live others id entry ↔ Live edits id entry) : other = trie := by
  have hheld := h.live_eq h' hlive
  refine h.represents.eq_of_same (hheld ▸ h'.represents) (h'.space_eq.trans h.space_eq.symm) ?_
  rw [h'.nextId_eq, h.nextId_eq, hissued]

/-- An erasure may come after later edits, unless these are the first to issue its identifier. -/
theorem erase_behind (h : Indexes space edits trie live) {later : List Edit} {gone : Nat}
    (hvalid : Valid space later)
    (hgone : gone < issued edits ∨ issued (edits ++ later) ≤ gone) :
    ∃ after, later.foldlM edit? trie = some after ∧
      later.foldlM edit? (trie.erase gone) = some (after.erase gone) := by
  obtain ⟨after, held, hrun, hafter⟩ := h.extend hvalid
  obtain ⟨behind, rest, hrun', hbehind⟩ := (h.erase gone).extend hvalid
  rw [List.append_assoc, List.singleton_append] at hbehind
  refine ⟨after, hrun, hrun'.trans (congrArg some ?_)⟩
  refine (hafter.erase gone).eq_of_live hbehind ?_ fun id entry => ?_
  · simp [issued, Edit.inserts]
  · rw [live_erase_cons hgone, live_erase]

theorem erase_comm (h : Indexes space edits trie live) (gone lost : Nat) :
    (trie.erase gone).erase lost = (trie.erase lost).erase gone := by
  have hgone : gone < issued edits ∨ issued (edits ++ [.erase lost]) ≤ gone := by
    simpa [issued, Edit.inserts] using Nat.lt_or_ge gone (issued edits)
  obtain ⟨after, hrun, hrun'⟩ := h.erase_behind (valid_erase space lost) hgone
  simp only [List.foldlM_cons, List.foldlM_nil, edit?, Option.pure_def, Option.bind_eq_bind,
    Option.bind_some, Option.some.injEq] at hrun hrun'
  rw [hrun', hrun]

/-- An entry that is erased right after its insertion leaves a spent identifier. -/
theorem erase_insert (h : Indexes space edits trie live) {entry : Assignment}
    (hentry : entry.Over space) : (trie.insert entry).erase trie.nextId = trie.spend := by
  have hkept : (live ++ [(trie.nextId, entry)]).filter (·.1 != trie.nextId) = live := by
    rw [List.filter_append, List.filter_singleton, List.filter_eq_self.2]
    · simp
    · exact fun other hother => bne_iff_ne.2 (Nat.ne_of_lt (h.represents.fresh other hother))
  have hafter := (h.insert hentry).erase trie.nextId
  rw [hkept] at hafter
  refine h.represents.spend.eq_of_same hafter.represents ?_ ?_
  · rw [hafter.space_eq, spend, h.space_eq]
  · rw [erase_nextId, insert_nextId, spend]

end Indexes

/-- After any edits by entries that are valid over the space, the identifiers are those of the live
entries, and every list is a scan of them, so that an identifier is in one list of each variable.
Histories with the same live entries and as many insertions end in one trie: erasures commute, with
each other and with later edits, and an entry that is erased at once leaves nothing but a spent
identifier. -/
theorem determined_by_live {space : Space} {edits : List Edit} (hvalid : Valid space edits) :
    ∃ trie, edits.foldlM edit? (.empty space) = some trie ∧
      trie.nextId = issued edits ∧
      Scans edits (fun _ => True) trie.ids ∧
      trie.Sorts space edits ∧
      (∀ id ∈ trie.ids, ∀ key < space.length,
        ∃! value, ∃ ids, trie.list? key value = some ids ∧ id ∈ ids) ∧
      (∀ key value ids, trie.list? key value = some ids → ids ⊆ trie.ids) ∧
      (∀ others, Valid space others → issued others = issued edits →
        (∀ id entry, Live others id entry ↔ Live edits id entry) →
        others.foldlM edit? (.empty space) = some trie) ∧
      (∀ gone lost, (trie.erase gone).erase lost = (trie.erase lost).erase gone) ∧
      (∀ gone later, Valid space later →
        gone < issued edits ∨ issued (edits ++ later) ≤ gone →
        ∃ after, later.foldlM edit? trie = some after ∧
          later.foldlM edit? (trie.erase gone) = some (after.erase gone)) ∧
      (∀ entry, entry.check space = .ok () →
        ∃ after, trie.insert? entry = some (trie.nextId, after) ∧
          after.erase trie.nextId = { trie with nextId := trie.nextId + 1 }) := by
  obtain ⟨trie, live, hrun, h⟩ := Indexes.run hvalid
  have hids : Scans edits (fun _ => True) trie.ids := by
    simpa [h.represents.ids] using h.scans (fun _ => True) (fun _ => true) (by simp)
  refine ⟨trie, hrun, h.nextId_eq, hids, h.sorts, ?once, fun _ _ _ => h.represents.list?_subset,
    ?same, h.erase_comm, fun gone later => h.erase_behind, ?spent⟩
  case once =>
    intro id hid key hkey
    obtain ⟨entry, hentry, -⟩ := (hids.2 id).1 hid
    exact h.list_unique hkey hentry
  case same =>
    intro others hothers hissued hlive
    obtain ⟨other, held, hrun', h'⟩ := Indexes.run hothers
    rw [hrun', h.eq_of_live h' hissued hlive]
  case spent =>
    intro entry hentry
    have hover := Assignment.over_of_check hentry
    exact ⟨trie.insert entry, by rw [h.insert?_eq hover, h.nextId_eq], h.erase_insert hover⟩

theorem valid_mixedEdits : Valid [3, 3, 2] mixedEdits := by
  simp only [Valid, mixedEdits, List.mem_cons, List.not_mem_nil, Edit.insert.injEq, reduceCtorEq,
    false_or, or_false]
  rintro entry (rfl | rfl | rfl)
  all_goals rfl

/-- The lists of three entries, the first of which is gone. -/
theorem determined_by_live_mixed : ∃ trie,
    mixedEdits.foldlM edit? (.empty [3, 3, 2]) = some trie ∧
    trie.nextId = 3 ∧ Scans mixedEdits (fun _ => True) [1, 2] ∧
    (trie.list? 0 2 = some [1] ∧ trie.list? 0 3 = some [2] ∧ trie.list? 2 2 = some [1]) ∧
    (trie.erase 1).erase 2 = (trie.erase 2).erase 1 := by
  obtain ⟨trie, hrun, hnext, hids, -, -, -, -, hcomm, -, -⟩ :=
    determined_by_live valid_mixedEdits
  have hfound : (mixedEdits.foldlM edit? (.empty [3, 3, 2])).map
      (fun trie => (trie.ids, trie.list? 0 2, trie.list? 0 3, trie.list? 2 2)) =
      some ([1, 2], some [1], some [2], some [1]) := by cbv
  rw [hrun, Option.map_some, Option.some.injEq, Prod.mk.injEq, Prod.mk.injEq,
    Prod.mk.injEq] at hfound
  obtain ⟨hlive, hlists⟩ := hfound
  exact ⟨trie, hrun, hnext, hlive ▸ hids, hlists, hcomm 1 2⟩

end JointDecision.Trie

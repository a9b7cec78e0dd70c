import JointDecision.TrieMap
import JointDecision.Proofs.Trie.History
import Mathlib

/-! # Positions and identifiers

However a map is made and taken apart, its items are as many as its trie has issued identifiers, and
a look-up finds the items at the positions of the entries that a scan finds. -/

namespace JointDecision

namespace Trie

namespace Indexes

variable {space : Space} {edits : List Edit} {trie : Trie} {live : List (Nat × Assignment)}

private theorem filter?_scans (h : Indexes space edits trie live) {full : List Nat}
    (hfull : space.Admits full) : ∃ ids, trie.filter? full = some ids ∧
      Scans edits (fun entry => entry.agrees? full = some true) ids := by
  obtain rfl := h.space_eq
  exact ⟨_, h.represents.select?_eq (asks_full hfull), h.scans_full hfull.length_eq⟩

private theorem filterPartial?_scans (h : Indexes space edits trie live) {query : Assignment}
    (hquery : query.check space = .ok ()) : ∃ ids, trie.filterPartial? query = some ids ∧
      Scans edits (fun entry => entry.consistent query = true) ids := by
  obtain rfl := h.space_eq
  have hasks := asks_of_over (Assignment.over_of_check hquery)
  exact ⟨_, h.represents.select?_eq hasks, h.scans_entries query⟩

end Indexes

end Trie

namespace TrieMap

open Trie (Edit Valid Scans Indexes issued)

variable {ι : Type}

private theorem exists_itemsAt? {items : List ι} {ids : List Nat}
    (hids : ∀ id ∈ ids, id < items.length) :
    ∃ found, itemsAt? items ids = some found ∧
      List.Forall₂ (fun id item => items[id]? = some item) ids found := by
  induction ids with
  | nil => exact ⟨[], rfl, .nil⟩
  | cons id ids ih =>
    have hrest : ∀ other ∈ ids, other < items.length :=
      fun other hother => hids other (List.mem_cons_of_mem _ hother)
    obtain ⟨found, hfound, hitems⟩ := ih hrest
    obtain ⟨item, hitem⟩ : ∃ item, items[id]? = some item :=
      ⟨_, List.getElem?_eq_getElem (hids id List.mem_cons_self)⟩
    refine ⟨item :: found, ?_, .cons hitem hitems⟩
    rw [itemsAt?] at hfound
    simp [itemsAt?, hitem, hfound]

/-- The maps that a caller can make over a space, and the edits that led to their tries. Between
two maps a trie may be edited on its own. -/
inductive Reached (space : Space) : List Edit → TrieMap ι → Prop
  | new : Reached space [] (.empty space)
  | ofParts {edits : List Edit} {trie : Trie} {items : List ι} {map : TrieMap ι} :
      Valid space edits → edits.foldlM Trie.edit? (.empty space) = some trie →
      TrieMap.ofParts trie items = .ok map → Reached space edits map
  | insert {edits : List Edit} {map after : TrieMap ι} {entry : Assignment} {item : ι} {id : Nat} :
      Reached space edits map → entry.check space = .ok () →
      map.insert? entry item = some (id, after) → Reached space (edits ++ [.insert entry]) after
  | erase {edits : List Edit} {map : TrieMap ι} (id : Nat) :
      Reached space edits map → Reached space (edits ++ [.erase id]) (map.erase id)
  | reassemble {edits later : List Edit} {map after : TrieMap ι} {trie : Trie} {items : List ι} :
      Reached space edits map → Valid space later →
      later.foldlM Trie.edit? map.trie = some trie → TrieMap.ofParts trie items = .ok after →
      Reached space (edits ++ later) after

inductive Change (ι : Type)
  | insert (entry : Assignment) (item : ι)
  | erase (id : Nat)

def change? (map : TrieMap ι) : Change ι → Option (TrieMap ι)
  | .insert entry item => (map.insert? entry item).map Prod.snd
  | .erase id => some (map.erase id)

def Change.item? : Change ι → Option ι
  | .insert _ item => some item
  | .erase _ => none

theorem ofParts_eq_ok {trie : Trie} {items : List ι} {map : TrieMap ι} :
    TrieMap.ofParts trie items = .ok map ↔ trie.nextId = items.length ∧ map = ⟨trie, items⟩ := by
  unfold TrieMap.ofParts
  split
  · rename_i heq
    rw [Except.ok.injEq, eq_comm (a := map)]
    exact (and_iff_right heq).symm
  · rename_i hne
    exact ⟨(nomatch ·), fun h => absurd h.1 hne⟩

namespace Reached

variable {space : Space} {edits : List Edit} {map : TrieMap ι}

/-- The trie of a map indexes what its edits say, and has issued an identifier for every item. -/
theorem aligned (h : Reached space edits map) :
    (∃ live, Indexes space edits map.trie live) ∧ map.trie.nextId = map.items.length := by
  induction h with
  | new => exact ⟨⟨[], .start space⟩, rfl⟩
  | ofParts hvalid hrun hparts =>
    obtain ⟨hsize, rfl⟩ := ofParts_eq_ok.1 hparts
    obtain ⟨trie, live, hrun', h⟩ := Indexes.run hvalid
    obtain rfl := Option.some.inj (hrun'.symm.trans hrun)
    exact ⟨⟨live, h⟩, hsize⟩
  | insert _ hentry hinsert ih =>
    obtain ⟨⟨live, h⟩, hsize⟩ := ih
    have hover := Assignment.over_of_check hentry
    rw [insert?, h.insert?_eq hover, Option.map_some, Option.some.injEq, Prod.mk.injEq] at hinsert
    obtain ⟨-, rfl⟩ := hinsert
    exact ⟨⟨_, h.insert hover⟩, by simp [hsize]⟩
  | erase id _ ih =>
    obtain ⟨⟨live, h⟩, hsize⟩ := ih
    exact ⟨⟨_, h.erase id⟩, (Trie.erase_nextId ..).trans hsize⟩
  | reassemble _ hvalid hrun hparts ih =>
    obtain ⟨hsize, rfl⟩ := ofParts_eq_ok.1 hparts
    obtain ⟨⟨live, h⟩, -⟩ := ih
    obtain ⟨trie, held, hrun', h'⟩ := h.extend hvalid
    obtain rfl := Option.some.inj (hrun'.symm.trans hrun)
    exact ⟨⟨held, h'⟩, hsize⟩

theorem insert?_eq (h : Reached space edits map) {entry : Assignment}
    (hentry : entry.check space = .ok ()) (item : ι) : map.insert? entry item =
      some (map.items.length, ⟨map.trie.insert entry, map.items ++ [item]⟩) := by
  obtain ⟨⟨live, hlive⟩, hsize⟩ := h.aligned
  rw [insert?, hlive.insert?_eq (Assignment.over_of_check hentry), Option.map_some, ← hsize,
    hlive.nextId_eq]

/-- Changes add their items behind those that are there. -/
theorem changes (h : Reached space edits map) {changes : List (Change ι)}
    (hvalid : ∀ entry item, .insert entry item ∈ changes → entry.check space = .ok ()) :
    ∃ after, changes.foldlM change? map = some after ∧
      after.items = map.items ++ changes.filterMap Change.item? := by
  induction changes generalizing edits map with
  | nil => exact ⟨map, rfl, by simp⟩
  | cons change changes ih =>
    have hrest : ∀ entry item, .insert entry item ∈ changes → entry.check space = .ok () :=
      fun entry item hentry => hvalid entry item (List.mem_cons_of_mem _ hentry)
    cases change with
    | insert entry item =>
      have hentry := hvalid entry item List.mem_cons_self
      have hinsert := h.insert?_eq hentry item
      obtain ⟨after, hrun, hitems⟩ := ih (h.insert hentry hinsert) hrest
      refine ⟨after, ?_, ?_⟩
      · simp [change?, hinsert, hrun]
      · simp [hitems, Change.item?]
    | erase id =>
      obtain ⟨after, hrun, hitems⟩ := ih (h.erase id) hrest
      refine ⟨after, by simp [change?, hrun], ?_⟩
      rw [hitems, List.filterMap_cons_none rfl]
      rfl

/-- What the trie answers to a query, whatever it asks for, are positions of items. -/
theorem items_of_select? (h : Reached space edits map) {query : List (Nat × Nat)} {ids : List Nat}
    (hids : map.trie.select? query = some ids) : ∃ found, itemsAt? map.items ids = some found ∧
      List.Forall₂ (fun id item => map.items[id]? = some item) ids found := by
  obtain ⟨⟨live, hlive⟩, hsize⟩ := h.aligned
  refine exists_itemsAt? fun id hid => ?_
  have hin := hlive.represents.select?_subset hids hid
  rw [hlive.represents.ids] at hin
  obtain ⟨entry, hentry, rfl⟩ := List.mem_map.1 hin
  exact hsize ▸ hlive.represents.fresh entry hentry

private theorem filter?_found (h : Reached space edits map) {full ids : List Nat}
    (hids : map.trie.filter? full = some ids) : ∃ items, map.filter? full = some items ∧
      List.Forall₂ (fun id item => map.items[id]? = some item) ids items := by
  obtain ⟨items, hitems, hfound⟩ := h.items_of_select? hids
  exact ⟨items, by rw [filter?, hids, Option.bind_some, hitems], hfound⟩

private theorem filterPartial?_found (h : Reached space edits map) {query : Assignment}
    {ids : List Nat} (hids : map.trie.filterPartial? query = some ids) : ∃ items,
      map.filterPartial? query = some items ∧
      List.Forall₂ (fun id item => map.items[id]? = some item) ids items := by
  obtain ⟨items, hitems, hfound⟩ := h.items_of_select? hids
  exact ⟨items, by rw [filterPartial?, hids, Option.bind_some, hitems], hfound⟩

end Reached

/-- A map that a caller can make has an item for every identifier of its trie. A new item comes
last and is answered with its position; no other change touches the items, and the map can be made
again of its parts when the items are as many as the identifiers. A look-up finds the items at the
positions of the live entries that agree with a full assignment, or that are consistent with a
partial one; and whatever is asked, what the trie answers are positions of items. -/
theorem items_aligned {space : Space} {edits : List Edit} {map : TrieMap ι}
    (h : Reached space edits map) :
    map.items.length = map.trie.nextId ∧ map.trie.nextId = issued edits ∧
      (∀ entry item, entry.check space = .ok () → ∃ after,
        map.insert? entry item = some (map.items.length, after) ∧
        after.items = map.items ++ [item]) ∧
      (∀ id, (map.erase id).items = map.items) ∧
      (∀ changes : List (Change ι),
        (∀ entry item, .insert entry item ∈ changes → entry.check space = .ok ()) → ∃ after,
          changes.foldlM change? map = some after ∧
          after.items = map.items ++ changes.filterMap Change.item?) ∧
      (∀ full, space.Admits full → ∃ ids items, map.filter? full = some items ∧
        Scans edits (fun entry => entry.agrees? full = some true) ids ∧
        List.Forall₂ (fun id item => map.items[id]? = some item) ids items) ∧
      (∀ query, query.check space = .ok () → ∃ ids items, map.filterPartial? query = some items ∧
        Scans edits (fun entry => entry.consistent query = true) ids ∧
        List.Forall₂ (fun id item => map.items[id]? = some item) ids items) ∧
      (∀ full ids, map.trie.filter? full = some ids → ∃ items, map.filter? full = some items ∧
        List.Forall₂ (fun id item => map.items[id]? = some item) ids items) ∧
      (∀ query ids, map.trie.filterPartial? query = some ids →
        ∃ items, map.filterPartial? query = some items ∧
          List.Forall₂ (fun id item => map.items[id]? = some item) ids items) ∧
      TrieMap.ofParts map.trie map.items = .ok map ∧
      (∀ later, Valid space later → ∃ trie, later.foldlM Trie.edit? map.trie = some trie ∧
        trie.nextId = map.items.length + issued later ∧
        ∀ items : List ι,
          (trie.nextId = items.length → TrieMap.ofParts trie items = .ok ⟨trie, items⟩) ∧
          (trie.nextId ≠ items.length →
            TrieMap.ofParts trie items = .error (.sizeMismatch trie.nextId items.length))) := by
  obtain ⟨⟨live, hlive⟩, hsize⟩ := h.aligned
  refine ⟨hsize.symm, hlive.nextId_eq, ?inserted, fun _ => rfl, fun _ => h.changes, ?agreeing,
    ?consistent, fun _ _ => h.filter?_found, fun _ _ => h.filterPartial?_found,
    ofParts_eq_ok.2 ⟨hsize, rfl⟩, ?parts⟩
  case inserted =>
    intro entry item hentry
    exact ⟨_, h.insert?_eq hentry item, rfl⟩
  case agreeing =>
    intro full hfull
    obtain ⟨ids, hids, hscans⟩ := hlive.filter?_scans hfull
    obtain ⟨items, hitems, hfound⟩ := h.filter?_found hids
    exact ⟨ids, items, hitems, hscans, hfound⟩
  case consistent =>
    intro query hquery
    obtain ⟨ids, hids, hscans⟩ := hlive.filterPartial?_scans hquery
    obtain ⟨items, hitems, hfound⟩ := h.filterPartial?_found hids
    exact ⟨ids, items, hitems, hscans, hfound⟩
  case parts =>
    intro later hvalid
    obtain ⟨trie, held, hrun, hafter⟩ := hlive.extend hvalid
    have hnext : trie.nextId = map.items.length + issued later := by
      rw [hafter.nextId_eq, Trie.issued_append, ← hlive.nextId_eq, hsize]
    refine ⟨trie, hrun, hnext, fun items => ⟨fun heq => ?_, fun hne => ?_⟩⟩
    · exact ofParts_eq_ok.2 ⟨heq, rfl⟩
    · rw [TrieMap.ofParts, if_neg hne]

/-- The items of three entries, the first of which is hidden, and of one more. -/
theorem items_aligned_mixed : ∃ trie map,
    Trie.mixedEdits.foldlM Trie.edit? (.empty [3, 3, 2]) = some trie ∧
    TrieMap.ofParts trie ["a", "b", "c"] = .ok map ∧ map.filter? [2, 2, 1] = some ["b", "c"] ∧
    (map.erase 1).items = ["a", "b", "c"] ∧
    ∃ after, map.insert? ⟨[(1, 0)], by simp⟩ "d" = some (3, after) ∧
      after.items = ["a", "b", "c", "d"] := by
  obtain ⟨trie, live, hrun, hlive⟩ := Indexes.run Trie.valid_mixedEdits
  have hparts : TrieMap.ofParts trie ["a", "b", "c"] = .ok ⟨trie, ["a", "b", "c"]⟩ :=
    ofParts_eq_ok.2 ⟨hlive.nextId_eq, rfl⟩
  have hreached := Reached.ofParts Trie.valid_mixedEdits hrun hparts
  obtain ⟨-, -, hinsert, herase, -, hfilter, -⟩ := items_aligned hreached
  obtain ⟨ids, items, hitems, -, -⟩ := hfilter [2, 2, 1] (by simp [Space.Admits])
  have hfound : (Trie.mixedEdits.foldlM Trie.edit? (.empty [3, 3, 2])).bind (fun trie =>
      (TrieMap.mk trie ["a", "b", "c"]).filter? [2, 2, 1]) = some ["b", "c"] := by cbv
  rw [hrun, Option.bind_some] at hfound
  exact ⟨trie, _, hrun, hparts, hfound, herase 1, hinsert ⟨[(1, 0)], by simp⟩ "d" rfl⟩

end TrieMap

end JointDecision

import JointDecision.Proofs.Trie
import Mathlib

/-! # Queries and scans

Whatever was inserted and erased before, and in whichever order the ranges of one size come, a query
finds what a scan of the live entries finds. -/

namespace JointDecision.Trie

/-- What a query may find when ranges of one size come in any order. -/
def MaySelect (trie : Trie) (query : List (Nat × Nat)) (ids : List Nat) : Prop :=
  ∃ ranges sorted, trie.ranges? query = some ranges ∧ sorted.Perm ranges ∧
    sorted.Pairwise (fun a b => a.size ≤ b.size) ∧ narrow trie.ids sorted = ids

theorem pairwise_bySize (ranges : List Range) :
    (bySize ranges).Pairwise fun a b => a.size ≤ b.size := by
  have hsorted : ((ranges.map fun range => (range.size, range)).mergeSort
      fun a b => a.1 ≤ b.1).Pairwise fun a b => decide (a.1 ≤ b.1) = true :=
    List.pairwise_mergeSort (fun a b c => by simpa using Nat.le_trans)
      (fun a b => by simpa using Nat.le_total a.1 b.1) _
  refine List.pairwise_map.2 (hsorted.imp_of_mem ?_)
  intro a b ha hb hab
  obtain ⟨_, -, rfl⟩ := List.mem_map.1 ((List.mergeSort_perm _ _).mem_iff.1 ha)
  obtain ⟨_, -, rfl⟩ := List.mem_map.1 ((List.mergeSort_perm _ _).mem_iff.1 hb)
  simpa using hab

theorem maySelect_of_select? {trie : Trie} {query : List (Nat × Nat)} {ids : List Nat}
    (h : trie.select? query = some ids) : trie.MaySelect query ids := by
  obtain ⟨ranges, hranges, rfl⟩ := Option.map_eq_some_iff.1 h
  exact ⟨ranges, bySize ranges, hranges, bySize_perm ranges, pairwise_bySize ranges, rfl⟩

/-- The order of the ranges makes no difference. -/
theorem Represents.maySelect_iff {trie : Trie} {live : List (Nat × Assignment)}
    (h : trie.Represents live) {query : List (Nat × Nat)} (hquery : Asks trie.space query)
    {ids : List Nat} : trie.MaySelect query ids ↔ trie.select? query = some ids := by
  constructor
  · intro hselect
    obtain ⟨ranges, sorted, hranges, hperm, -, rfl⟩ := hselect
    rw [h.select?_eq hquery, h.narrow_eq hquery hranges hperm]
  · exact maySelect_of_select?

inductive Edit
  | insert (entry : Assignment)
  | erase (id : Nat)

def edit? (trie : Trie) : Edit → Option Trie
  | .insert entry => (trie.insert? entry).map Prod.snd
  | .erase id => some (trie.erase id)

def Edit.inserts : Edit → Bool
  | .insert _ => true
  | .erase _ => false

def issued (edits : List Edit) : Nat :=
  edits.countP Edit.inserts

/-- Whether an entry was inserted under an identifier and not erased since. -/
def Live (edits : List Edit) (id : Nat) (entry : Assignment) : Prop :=
  ∃ before after, edits = before ++ .insert entry :: after ∧ issued before = id ∧
    .erase id ∉ after

/-- Whether `ids` are the identifiers, increasing, of the live entries that pass a test. -/
def Scans (edits : List Edit) (test : Assignment → Prop) (ids : List Nat) : Prop :=
  ids.Pairwise (· < ·) ∧ ∀ id, id ∈ ids ↔ ∃ entry, Live edits id entry ∧ test entry

theorem live_snoc {edits : List Edit} {edit : Edit} {id : Nat} {entry : Assignment} :
    Live (edits ++ [edit]) id entry ↔
      Live edits id entry ∧ edit ≠ .erase id ∨ edit = .insert entry ∧ id = issued edits := by
  constructor
  · intro hlive
    obtain ⟨before, after, heq, rfl, hkept⟩ := hlive
    rcases List.eq_nil_or_concat after with rfl | ⟨front, last, rfl⟩
    · obtain ⟨rfl, hlast⟩ := List.append_inj' heq rfl
      exact .inr ⟨List.singleton_inj.1 hlast, rfl⟩
    · rw [List.concat_eq_append, ← List.cons_append, ← List.append_assoc] at heq
      obtain ⟨rfl, hlast⟩ := List.append_inj' heq rfl
      obtain rfl := List.singleton_inj.1 hlast
      simp only [List.concat_eq_append, List.mem_append, List.mem_singleton, not_or] at hkept
      exact .inl ⟨⟨before, front, rfl, rfl, hkept.1⟩, Ne.symm hkept.2⟩
  · rintro (⟨⟨before, after, rfl, rfl, hkept⟩, hne⟩ | ⟨rfl, rfl⟩)
    · refine ⟨before, after ++ [edit], by simp, rfl, ?_⟩
      simpa using ⟨hkept, Ne.symm hne⟩
    · exact ⟨edits, [], rfl, rfl, by simp⟩

/-- What a trie represents after edits of a trie over `space`. -/
structure Indexes (space : Space) (edits : List Edit) (trie : Trie)
    (live : List (Nat × Assignment)) : Prop where
  space_eq : trie.space = space
  represents : trie.Represents live
  nextId_eq : trie.nextId = issued edits
  valid : ∀ entry ∈ live, entry.2.Over space
  mem_live : ∀ id entry, (id, entry) ∈ live ↔ Live edits id entry

namespace Indexes

variable {space : Space} {edits : List Edit} {trie : Trie} {live : List (Nat × Assignment)}

theorem start (space : Space) : Indexes space [] (.empty space) [] where
  space_eq := rfl
  represents := represents_empty space
  nextId_eq := rfl
  valid := by simp
  mem_live id entry := by simp [Live]

/-- An entry over the space is filed under the number of entries before it. -/
theorem insert?_eq (h : Indexes space edits trie live) {entry : Assignment}
    (hentry : entry.Over space) : trie.insert? entry = some (issued edits, trie.insert entry) := by
  have hadmits := h.represents.admits (h.space_eq ▸ hentry.value_lt)
  rw [insert?, if_pos hadmits, h.nextId_eq]

theorem insert (h : Indexes space edits trie live) {entry : Assignment}
    (hentry : entry.Over space) : Indexes space (edits ++ [.insert entry]) (trie.insert entry)
      (live ++ [(trie.nextId, entry)]) where
  space_eq := h.space_eq
  represents := h.represents.insert entry
  nextId_eq := by simp [issued, Edit.inserts, List.countP_append, h.nextId_eq]
  valid := by
    intro other hother
    rcases List.mem_append.1 hother with hold | hnew
    · exact h.valid other hold
    · rw [List.mem_singleton.1 hnew]
      exact hentry
  mem_live id other := by
    rw [List.mem_append, List.mem_singleton, live_snoc, h.mem_live, h.nextId_eq]
    constructor
    · rintro (hlive | heq)
      · exact .inl ⟨hlive, fun heq => nomatch heq⟩
      · cases heq
        exact .inr ⟨rfl, rfl⟩
    · rintro (⟨hlive, -⟩ | ⟨heq, rfl⟩)
      · exact .inl hlive
      · cases heq
        exact .inr rfl

theorem erase (h : Indexes space edits trie live) (gone : Nat) :
    Indexes space (edits ++ [.erase gone]) (trie.erase gone) (live.filter (·.1 != gone)) where
  space_eq := (erase_space trie gone).trans h.space_eq
  represents := h.represents.erase gone
  nextId_eq := by simp [issued, Edit.inserts, List.countP_append, h.nextId_eq]
  valid other hother := h.valid other (List.mem_filter.1 hother).1
  mem_live id other := by
    rw [List.mem_filter, live_snoc, h.mem_live, bne_iff_ne]
    constructor
    · rintro ⟨hlive, hne⟩
      refine .inl ⟨hlive, fun heq => hne ?_⟩
      cases heq
      rfl
    · rintro (⟨hlive, hne⟩ | ⟨heq, -⟩)
      · exact ⟨hlive, fun heq => hne (congrArg Edit.erase heq.symm)⟩
      · cases heq

theorem extend (h : Indexes space edits trie live) {later : List Edit}
    (hvalid : ∀ entry, .insert entry ∈ later → entry.check space = .ok ()) :
    ∃ after held, later.foldlM edit? trie = some after ∧
      Indexes space (edits ++ later) after held := by
  induction later generalizing edits trie live with
  | nil => exact ⟨trie, live, rfl, by simpa using h⟩
  | cons edit later ih =>
    have hrest : ∀ entry, .insert entry ∈ later → entry.check space = .ok () :=
      fun entry hentry => hvalid entry (List.mem_cons_of_mem _ hentry)
    cases edit with
    | insert entry =>
      have hentry := Assignment.over_of_check (hvalid entry List.mem_cons_self)
      obtain ⟨after, held, hrun, hafter⟩ := ih (h.insert hentry) hrest
      refine ⟨after, held, ?_, by simpa using hafter⟩
      simp [edit?, h.insert?_eq hentry, hrun]
    | erase id =>
      obtain ⟨after, held, hrun, hafter⟩ := ih (h.erase id) hrest
      exact ⟨after, held, by simp [edit?, hrun], by simpa using hafter⟩

theorem run {edits : List Edit}
    (hvalid : ∀ entry, .insert entry ∈ edits → entry.check space = .ok ()) :
    ∃ trie live, edits.foldlM edit? (.empty space) = some trie ∧
      Indexes space edits trie live :=
  (start space).extend hvalid

theorem scans (h : Indexes space edits trie live) (test : Assignment → Prop)
    (p : Assignment → Bool) (hp : ∀ entry ∈ live, p entry.2 = true ↔ test entry.2) :
    Scans edits test ((live.filter fun entry => p entry.2).map Prod.fst) := by
  refine ⟨h.represents.increasing.sublist (List.filter_sublist.map _), fun id => ?_⟩
  simp only [List.mem_map, List.mem_filter, Prod.exists, ← h.mem_live]
  constructor
  · rintro ⟨_, entry, ⟨hlive, hpass⟩, rfl⟩
    exact ⟨entry, hlive, (hp _ hlive).1 hpass⟩
  · rintro ⟨entry, hlive, htest⟩
    exact ⟨id, entry, ⟨hlive, (hp _ hlive).2 htest⟩, rfl⟩

theorem asks (h : Indexes space edits trie live) :
    ∀ entry ∈ live, Asks trie.space entry.2.entries :=
  fun entry hentry => asks_of_over (h.space_eq ▸ h.valid entry hentry)

theorem scans_full (h : Indexes space edits trie live) {full : List Nat}
    (hlength : full.length = space.length) :
    Scans edits (fun entry => entry.agrees? full = some true)
      (trie.reached live (full.zipIdx.map Prod.swap)) := by
  rw [← h.space_eq] at hlength
  rw [reached_full h.asks hlength]
  apply h.scans _ (·.holds (valuation full))
  intro entry hentry
  have hagrees := agrees?_eq fun e he => hlength ▸ (h.asks entry hentry e he).1
  rw [Assignment.agrees?, hagrees, Option.some.injEq]
  rfl

theorem scans_entries (h : Indexes space edits trie live) (query : Assignment) :
    Scans edits (fun entry => entry.consistent query = true)
      (trie.reached live query.entries) := by
  rw [reached_entries h.asks query]
  exact h.scans _ (·.consistent query) fun _ _ => .rfl

end Indexes

/-- After any edits by entries that are valid over the space, an insertion is answered with the
number of insertions before it, a full assignment finds the live entries that agree with it, and a
partial one finds the live entries that are consistent with it, whatever the order of ranges of one
size. -/
theorem queries_scan {space : Space} {edits : List Edit}
    (hvalid : ∀ entry, .insert entry ∈ edits → entry.check space = .ok ()) :
    ∃ trie, edits.foldlM edit? (.empty space) = some trie ∧
      (∀ entry, entry.check space = .ok () →
        (trie.insert? entry).map Prod.fst = some (issued edits)) ∧
      (∀ full, space.Admits full → ∃ ids, trie.filter? full = some ids ∧
        Scans edits (fun entry => entry.agrees? full = some true) ids ∧
        ∀ other, trie.MaySelect (full.zipIdx.map Prod.swap) other → other = ids) ∧
      (∀ query, query.check space = .ok () → ∃ ids, trie.filterPartial? query = some ids ∧
        Scans edits (fun entry => entry.consistent query = true) ids ∧
        ∀ other, trie.MaySelect query.entries other → other = ids) := by
  obtain ⟨trie, live, hrun, h⟩ := Indexes.run hvalid
  obtain rfl := h.space_eq
  refine ⟨trie, hrun, ?inserted, ?agreeing, ?consistent⟩
  case inserted =>
    intro entry hentry
    rw [h.insert?_eq (Assignment.over_of_check hentry)]
    rfl
  case agreeing =>
    intro full hfull
    have hasks := asks_full hfull
    have hfilter := h.represents.select?_eq hasks
    refine ⟨_, hfilter, h.scans_full hfull.length_eq, fun other hother => ?_⟩
    have hselect := (h.represents.maySelect_iff hasks).1 hother
    exact Option.some.inj (hselect.symm.trans hfilter)
  case consistent =>
    intro query hquery
    have hasks := asks_of_over (Assignment.over_of_check hquery)
    have hfilter := h.represents.select?_eq hasks
    refine ⟨_, hfilter, h.scans_entries query, fun other hother => ?_⟩
    have hselect := (h.represents.maySelect_iff hasks).1 hother
    exact Option.some.inj (hselect.symm.trans hfilter)

/-- Entries come and go in any order; one identifier is erased twice, and one was never issued. -/
def mixedEdits : List Edit :=
  [.insert ⟨[(0, 2)], by simp⟩, .erase 7, .insert ⟨[(0, 2), (1, 2)], by simp⟩, .erase 0,
    .insert ⟨[(2, 1)], by simp⟩, .erase 0]

/-- Whoever has the first value of the first variable meets only the entry that does not mention
it. -/
theorem queries_scan_mixed : ∃ trie, mixedEdits.foldlM edit? (.empty [3, 3, 2]) = some trie ∧
    trie.filter? [2, 2, 1] = some [1, 2] ∧
    Scans mixedEdits (fun entry => entry.agrees? [2, 2, 1] = some true) [1, 2] ∧
    trie.filterPartial? ⟨[(0, 0)], by simp⟩ = some [2] ∧
    Scans mixedEdits (fun entry => entry.consistent ⟨[(0, 0)], by simp⟩ = true) [2] := by
  have hvalid : ∀ entry, .insert entry ∈ mixedEdits →
      Assignment.check [3, 3, 2] entry = .ok () := by
    intro entry hentry
    obtain rfl | rfl | rfl : entry = ⟨[(0, 2)], by simp⟩ ∨
        entry = ⟨[(0, 2), (1, 2)], by simp⟩ ∨ entry = ⟨[(2, 1)], by simp⟩ := by
      simpa [mixedEdits] using hentry
    all_goals rfl
  obtain ⟨trie, hrun, -, hfull, hquery⟩ := queries_scan hvalid
  obtain ⟨ids, hids, hscans, -⟩ := hfull [2, 2, 1] (by simp [Space.Admits])
  obtain ⟨others, hothers, hscans', -⟩ := hquery ⟨[(0, 0)], by simp⟩ rfl
  have hfound : (mixedEdits.foldlM edit? (.empty [3, 3, 2])).bind (·.filter? [2, 2, 1]) =
      some [1, 2] := by cbv
  have hfound' : (mixedEdits.foldlM edit? (.empty [3, 3, 2])).bind
      (·.filterPartial? ⟨[(0, 0)], by simp⟩) = some [2] := by cbv
  rw [hrun, Option.bind_some, hids] at hfound
  rw [hrun, Option.bind_some, hothers] at hfound'
  obtain rfl := Option.some.inj hfound
  obtain rfl := Option.some.inj hfound'
  exact ⟨trie, hrun, hids, hscans, hothers, hscans'⟩

end JointDecision.Trie

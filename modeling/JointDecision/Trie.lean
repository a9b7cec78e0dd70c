import JointDecision.Assignment
import JointDecision.Trie.Ids

/-! # Tries

An index of assignments over a fixed space. For every variable it keeps a list of identifiers per
value and, behind these, a *wildcard* list for the entries that do not mention the variable; each
live entry is in exactly one list per variable. The entries that agree with a query are those which,
for every variable of the query, are in the list of its value or in the wildcard list.

The wildcard list stands where one more value would stand. A value equal to the domain size, which
only an assignment checked against another space can carry, therefore means the wildcard list. -/

namespace JointDecision

/-- Identifier lists per variable and value, the wildcard list last. -/
structure Trie where
  space : Space
  buckets : List (List (List Nat))
  ids : List Nat
  nextId : Nat
deriving DecidableEq

namespace Trie

structure Range where
  pinned : List Nat
  wild : List Nat
deriving DecidableEq

def Range.size (range : Range) : Nat :=
  range.pinned.length + range.wild.length

def empty (space : Space) : Trie where
  space := space
  buckets := space.map fun size => List.replicate (size + 1) []
  ids := []
  nextId := 0

def size (trie : Trie) : Nat :=
  trie.ids.length

/-- The list of the variable `key` that an entry belongs to. -/
def slot (trie : Trie) (entry : Assignment) (key : Nat) : Nat :=
  (entry.valueOf? key).getD (trie.space.domain key)

def admits (trie : Trie) (entry : Assignment) : Bool :=
  trie.buckets.zipIdx.all fun (lists, key) => trie.slot entry key < lists.length

/-- Files an entry under the next identifier, at the end of one list per variable. -/
def insert (trie : Trie) (entry : Assignment) : Trie :=
  { trie with
    buckets := trie.buckets.mapIdx fun key lists =>
      lists.modify (trie.slot entry key) (· ++ [trie.nextId])
    ids := trie.ids ++ [trie.nextId]
    nextId := trie.nextId + 1 }

def insert? (trie : Trie) (entry : Assignment) : Option (Nat × Trie) :=
  if trie.admits entry then some (trie.nextId, trie.insert entry) else none

/-- The trie whose next identifier is spent on no entry. -/
def spend (trie : Trie) : Trie :=
  { trie with nextId := trie.nextId + 1 }

/-- How many variables come before the first that has no list for its value. -/
def reach (trie : Trie) (entry : Assignment) : Nat :=
  (trie.buckets.zipIdx.takeWhile fun (lists, key) => trie.slot entry key < lists.length).length

/-- The trie after an entry was turned away: its identifier is spent all the same, and the lists
before the missing one have it. -/
def turnAway (trie : Trie) (entry : Assignment) : Trie :=
  let reached := trie.reach entry
  { trie.spend with
    buckets := (trie.insert entry).buckets.take reached ++ trie.buckets.drop reached }

/-- Spends the next identifier on an entry. It is the entry's if there is a list for each of its
values, and otherwise nobody's. -/
def submit (trie : Trie) (entry : Assignment) : Option Nat × Trie :=
  match trie.insert? entry with
  | some (id, trie) => (some id, trie)
  | none => (none, trie.turnAway entry)

def range? (trie : Trie) (key value : Nat) : Option Range := do
  let lists ← trie.buckets[key]?
  let pinned ← lists[value]?
  let wild ← lists[trie.space.domain key]?
  return ⟨pinned, wild⟩

def ranges? (trie : Trie) (query : List (Nat × Nat)) : Option (List Range) :=
  query.mapM fun (key, value) => trie.range? key value

/-- The identifiers in every range: the first range is united, the others restrict the result. No
range is no restriction. -/
def narrow (ids : List Nat) : List Range → List Nat
  | [] => ids
  | first :: rest =>
    rest.foldl (fun result range => restrictIds result range.pinned range.wild)
      (unionIds first.pinned first.wild)

/-- Ranges from the smallest to the largest, each measured once; ranges of one size keep their
order. -/
def bySize (ranges : List Range) : List Range :=
  ((ranges.map fun range => (range.size, range)).mergeSort fun a b => a.1 ≤ b.1).map Prod.snd

def select? (trie : Trie) (query : List (Nat × Nat)) : Option (List Nat) :=
  (trie.ranges? query).map fun ranges => narrow trie.ids (bySize ranges)

def filter? (trie : Trie) (full : List Nat) : Option (List Nat) :=
  trie.select? (full.zipIdx.map Prod.swap)

def filterPartial? (trie : Trie) (query : Assignment) : Option (List Nat) :=
  trie.select? query.entries

def eraseFirst (id : Nat) : List (List Nat) → List (List Nat)
  | [] => []
  | list :: lists =>
    if list.contains id then list.erase id :: lists else list :: eraseFirst id lists

/-- The trie without the entry `id`, which must be live to change anything. -/
def erase (trie : Trie) (id : Nat) : Trie :=
  if trie.ids.contains id then
    { trie with
      buckets := trie.buckets.map (eraseFirst id)
      ids := trie.ids.erase id }
  else trie

end Trie

end JointDecision

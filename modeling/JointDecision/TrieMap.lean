import JointDecision.Trie

/-! # Trie maps

Items kept beside a trie: the item of the entry `i` is at position `i`. Erasing an entry hides its
item from look-ups and leaves it where it is, so that positions and identifiers never part. -/

namespace JointDecision

variable {ι : Type}

/-- A trie and an item for every identifier it has issued. -/
structure TrieMap (ι : Type) where
  trie : Trie
  items : List ι
deriving DecidableEq

namespace TrieMap

def empty (space : Space) : TrieMap ι :=
  ⟨.empty space, []⟩

/-- A trie with the items of its entries, which must be as many as it has issued identifiers. -/
def ofParts (trie : Trie) (items : List ι) : Except Failure (TrieMap ι) :=
  if trie.nextId = items.length then .ok ⟨trie, items⟩
  else .error (.sizeMismatch trie.nextId items.length)

def size (map : TrieMap ι) : Nat :=
  map.trie.size

def insert? (map : TrieMap ι) (entry : Assignment) (item : ι) : Option (Nat × TrieMap ι) :=
  (map.trie.insert? entry).map fun (id, trie) => (id, ⟨trie, map.items ++ [item]⟩)

/-- Hides the item at `id`. -/
def erase (map : TrieMap ι) (id : Nat) : TrieMap ι :=
  { map with trie := map.trie.erase id }

def itemsAt? (items : List ι) (ids : List Nat) : Option (List ι) :=
  ids.mapM fun id => items[id]?

def filter? (map : TrieMap ι) (full : List Nat) : Option (List ι) :=
  (map.trie.filter? full).bind (itemsAt? map.items)

def filterPartial? (map : TrieMap ι) (query : Assignment) : Option (List ι) :=
  (map.trie.filterPartial? query).bind (itemsAt? map.items)

end TrieMap

end JointDecision

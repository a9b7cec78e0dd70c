/-! # Increasing lists of identifiers

The two walks that a look-up in the trie consists of. Neither scans a list twice: the union takes
the smaller head, and the restriction cuts both lists down as it goes. -/

namespace JointDecision.Trie

/-- The members of both lists in order. The lists are taken to be disjoint: an identifier in both is
listed twice. -/
def unionIds : List Nat → List Nat → List Nat
  | [], rhs => rhs
  | lhs, [] => lhs
  | a :: lhs, b :: rhs =>
    if a < b then a :: unionIds lhs (b :: rhs)
    else b :: unionIds (a :: lhs) rhs
termination_by lhs rhs => lhs.length + rhs.length

/-- The identifiers of a non-decreasing list that are in `pinned` or in `wild`. What lies below the
identifier at hand is cut off both lists, since no later one can need it. -/
def restrictIds : List Nat → List Nat → List Nat → List Nat
  | [], _, _ => []
  | id :: ids, pinned, wild =>
    let pinned := pinned.dropWhile (· < id)
    let wild := wild.dropWhile (· < id)
    if pinned.head? = some id ∨ wild.head? = some id then id :: restrictIds ids pinned wild
    else restrictIds ids pinned wild

end JointDecision.Trie

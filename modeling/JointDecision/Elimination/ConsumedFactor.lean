import JointDecision.FactorGraph
import JointDecision.Rule
import JointDecision.TrieMap

/-! # Consumed factors

While a variable is eliminated, the rules of every factor around it are asked again and again for
those that agree with a joint value of the neighborhood. A consumed factor answers without a scan:
it files the rules in a trie over the positions of the factor's own scope, and knows where these
positions are in the neighborhood. -/

namespace JointDecision

variable {α : Type}

theorem idxOf?_increasing {keys : List Nat} (increasing : keys.Pairwise (· < ·)) {a b i j : Nat}
    (hab : a < b) (ha : keys.idxOf? a = some i) (hb : keys.idxOf? b = some j) : i < j := by
  obtain ⟨hi, ai, -⟩ := List.findIdx?_eq_some_iff_getElem.1 ha
  obtain ⟨hj, bj, -⟩ := List.findIdx?_eq_some_iff_getElem.1 hb
  have ai : keys[i] = a := by simpa using ai
  have bj : keys[j] = b := by simpa using bj
  rcases Nat.lt_trichotomy i j with h | h | h
  · exact h
  · subst h; omega
  · have := List.pairwise_iff_getElem.1 increasing j i hj hi h
    omega

namespace Assignment

/-- The entries whose key is in the scope, with positions in the scope for keys. -/
def localEntries (scope : Scope) (entries : List (Nat × Nat)) : List (Nat × Nat) :=
  entries.filterMap fun (key, value) => (scope.position? key).map (·, value)

theorem increasing_localEntries (scope : Scope) {entries : List (Nat × Nat)}
    (increasing : (entries.map Prod.fst).Pairwise (· < ·)) :
    ((localEntries scope entries).map Prod.fst).Pairwise (· < ·) := by
  rw [List.pairwise_map] at increasing ⊢
  rw [localEntries, List.pairwise_filterMap]
  refine increasing.imp ?_
  rintro ⟨j, v⟩ ⟨k, w⟩ hjk ⟨j', v'⟩ hj ⟨k', w'⟩ hk
  simp only [Option.map_eq_some_iff, Prod.mk.injEq] at hj hk
  obtain ⟨_, hj, rfl, -⟩ := hj
  obtain ⟨_, hk, rfl, -⟩ := hk
  exact idxOf?_increasing scope.increasing hjk hj hk

def localTo (a : Assignment) (scope : Scope) : Assignment :=
  ⟨localEntries scope a.entries, increasing_localEntries scope a.increasing⟩

end Assignment

/-- The rules of a factor over the positions of its scope. `positions` says where the scope's
variables are in the neighborhood. -/
structure ConsumedFactor (α : Type) where
  positions : List Nat
  rules : TrieMap (Rule α)

namespace ConsumedFactor

def file? (scope : Scope) : TrieMap (Rule α) → List (Rule α) → Option (TrieMap (Rule α))
  | map, [] => some map
  | map, rule :: rules =>
    match map.insert? (rule.assignment.localTo scope) rule with
    | some (_, map) => file? scope map rules
    | none => none

def ofRules? (space : Space) (neighborhood scope : Scope) (rules : List (Rule α)) :
    Option (ConsumedFactor α) := do
  let radix ← space.radix? scope.keys
  let rules ← file? scope (.empty radix) rules
  return ⟨scope.keys.filterMap neighborhood.position?, rules⟩

/-- A buffer that was emptied and filled with what a joint value of the neighborhood has at the
positions. -/
def fill? (factor : ConsumedFactor α) (buffer joint : List Nat) : Option (List Nat) :=
  (factor.positions.mapM fun position => joint[position]?).map (buffer.take 0 ++ ·)

/-- The rules that agree with a joint value of the neighborhood, in order, asked for through a
buffer. -/
def matchingIn? (factor : ConsumedFactor α) (buffer joint : List Nat) : Option (List (Rule α)) :=
  (factor.fill? buffer joint).bind factor.rules.filter?

def matching? (factor : ConsumedFactor α) (joint : List Nat) : Option (List (Rule α)) :=
  factor.matchingIn? [] joint

end ConsumedFactor

/-- The rules of several factors that agree with a joint value of their neighborhood, factor by
factor. -/
def matchingAll? (factors : List (ConsumedFactor α)) (joint : List Nat) :
    Option (List (List (Rule α))) :=
  factors.mapM fun factor => factor.matching? joint

end JointDecision

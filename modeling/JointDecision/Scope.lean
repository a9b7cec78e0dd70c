import JointDecision.Failure

/-! # Scopes

A scope is a strictly increasing list of variables. The order is part of the type, so that every
walk over two scopes may trust it; `Scope.ofList` is the check that a list has it. The empty scope
exists, and is what remains when the last variable of a component is removed, but no list is read as
one. -/

namespace JointDecision

structure Scope where
  keys : List Nat
  increasing : keys.Pairwise (· < ·)
deriving DecidableEq

/-- The union of two increasing lists, in one walk over both. -/
def mergeKeys : List Nat → List Nat → List Nat
  | [], rhs => rhs
  | lhs, [] => lhs
  | a :: lhs, b :: rhs =>
    if a < b then a :: mergeKeys lhs (b :: rhs)
    else if b < a then b :: mergeKeys (a :: lhs) rhs
    else a :: mergeKeys lhs rhs
termination_by lhs rhs => lhs.length + rhs.length

def eraseKey (keys : List Nat) (key : Nat) : List Nat :=
  keys.filter (· != key)

@[simp] theorem nil_mergeKeys (keys : List Nat) : mergeKeys [] keys = keys := by
  rw [mergeKeys]

@[simp] theorem mergeKeys_nil (keys : List Nat) : mergeKeys keys [] = keys := by
  cases keys <;> simp [mergeKeys]

theorem mem_mergeKeys {k : Nat} {lhs rhs : List Nat} :
    k ∈ mergeKeys lhs rhs ↔ k ∈ lhs ∨ k ∈ rhs := by
  fun_induction mergeKeys lhs rhs with
  | case1 rhs => simp
  | case2 lhs _ => simp
  | case3 a lhs b rhs hab ih =>
    simp only [List.mem_cons, ih]
    exact or_assoc.symm
  | case4 a lhs b rhs hab hba ih =>
    simp only [List.mem_cons, ih]
    exact or_left_comm
  | case5 a lhs b rhs hab hba ih =>
    obtain rfl : a = b := by omega
    simp only [List.mem_cons, ih]
    exact or_or_distrib_left

theorem pairwise_mergeKeys {lhs rhs : List Nat} (hl : lhs.Pairwise (· < ·))
    (hr : rhs.Pairwise (· < ·)) : (mergeKeys lhs rhs).Pairwise (· < ·) := by
  fun_induction mergeKeys lhs rhs with
  | case1 rhs => exact hr
  | case2 lhs _ => exact hl
  | case3 a lhs b rhs hab ih =>
    obtain ⟨ha, hl⟩ := List.pairwise_cons.1 hl
    refine List.pairwise_cons.2 ⟨fun k hk => ?_, ih hl hr⟩
    rcases mem_mergeKeys.1 hk with hk | hk
    · exact ha k hk
    · rcases List.mem_cons.1 hk with rfl | hk
      · exact hab
      · exact Nat.lt_trans hab ((List.pairwise_cons.1 hr).1 k hk)
  | case4 a lhs b rhs hab hba ih =>
    obtain ⟨hb, hr⟩ := List.pairwise_cons.1 hr
    refine List.pairwise_cons.2 ⟨fun k hk => ?_, ih hl hr⟩
    rcases mem_mergeKeys.1 hk with hk | hk
    · rcases List.mem_cons.1 hk with rfl | hk
      · exact hba
      · exact Nat.lt_trans hba ((List.pairwise_cons.1 hl).1 k hk)
    · exact hb k hk
  | case5 a lhs b rhs hab hba ih =>
    obtain rfl : a = b := by omega
    obtain ⟨ha, hl⟩ := List.pairwise_cons.1 hl
    obtain ⟨hb, hr⟩ := List.pairwise_cons.1 hr
    refine List.pairwise_cons.2 ⟨fun k hk => ?_, ih hl hr⟩
    rcases mem_mergeKeys.1 hk with hk | hk
    · exact ha k hk
    · exact hb k hk

namespace Scope

def empty : Scope := ⟨[], .nil⟩

def size (scope : Scope) : Nat :=
  scope.keys.length

theorem nodup (scope : Scope) : scope.keys.Nodup :=
  scope.increasing.imp Nat.ne_of_lt

theorem size_pos {scope : Scope} (h : scope ≠ .empty) : 0 < scope.size := by
  apply List.length_pos_iff.2
  intro hkeys
  apply h
  cases scope
  cases hkeys
  rfl

def position? (scope : Scope) (key : Nat) : Option Nat :=
  scope.keys.idxOf? key

def union (a b : Scope) : Scope :=
  ⟨mergeKeys a.keys b.keys, pairwise_mergeKeys a.increasing b.increasing⟩

def erase (scope : Scope) (key : Nat) : Scope :=
  ⟨eraseKey scope.keys key, scope.increasing.filter _⟩

/-- The first neighbouring pair, from the left, that does not increase; `position` is the index of
the first key of the list. -/
def orderViolation? (position : Nat) : List Nat → Option ScopeViolation
  | a :: b :: rest =>
    if a < b then orderViolation? (position + 1) (b :: rest)
    else if a = b then some (.duplicate a)
    else some (.unsorted (position + 1))
  | _ => none

theorem pairwise_of_orderViolation? :
    ∀ {position : Nat} {keys : List Nat},
      orderViolation? position keys = none → keys.Pairwise (· < ·)
  | _, [], _ => .nil
  | _, [a], _ => List.pairwise_singleton ..
  | position, a :: b :: rest, h => by
    rw [orderViolation?] at h
    split at h
    · rename_i hab
      have tail := pairwise_of_orderViolation? h
      refine List.pairwise_cons.2 ⟨fun k hk => ?_, tail⟩
      rcases List.mem_cons.1 hk with rfl | hk
      · exact hab
      · exact Nat.lt_trans hab ((List.pairwise_cons.1 tail).1 k hk)
    · split at h <;> simp at h

/-- What keeps `keys` from being a scope over the first `varCount` variables. Emptiness is found
before disorder, and disorder before a key that is too large; of increasing keys only the last can
be. -/
def violation? (keys : List Nat) (varCount : Nat) : Option ScopeViolation :=
  match keys.getLast? with
  | none => some .empty
  | some largest =>
    match orderViolation? 0 keys with
    | some violation => some violation
    | none => if largest < varCount then none else some (.outOfRange largest varCount)

theorem pairwise_of_violation? {keys : List Nat} {varCount : Nat}
    (h : violation? keys varCount = none) : keys.Pairwise (· < ·) := by
  unfold violation? at h
  split at h
  · simp at h
  · split at h
    · simp at h
    · rename_i hord
      exact pairwise_of_orderViolation? hord

/-- The scope of `keys`, which must already be increasing. -/
def ofList (keys : List Nat) (varCount : Nat) : Except Failure Scope :=
  match h : violation? keys varCount with
  | some violation => .error (.invalidScope violation)
  | none => .ok ⟨keys, pairwise_of_violation? h⟩

def ofUnsorted (keys : List Nat) (varCount : Nat) : Except Failure Scope :=
  ofList keys.mergeSort varCount

/-- Scopes are compared key by key, and a scope comes before its extensions. -/
instance : Ord Scope where
  compare a b := compare a.keys b.keys

end Scope

end JointDecision

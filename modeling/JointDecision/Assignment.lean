import JointDecision.Scope
import JointDecision.Space

/-! # Assignments

An assignment gives values to some of the variables. It is kept as entries in increasing key order,
so its keys are a scope and every key has exactly one value. A *full* assignment is a plain list
with a value for every variable of the space. -/

namespace JointDecision

/-- Whether entries agree with a full assignment: they are read from the left up to the first
disagreement, and the answer is missing if a key read on the way has no value in `full`. -/
def agrees? (full : List Nat) : List (Nat × Nat) → Option Bool
  | [] => some true
  | (key, value) :: entries =>
    match full[key]? with
    | none => none
    | some actual => if actual = value then agrees? full entries else some false

def consistentEntries : List (Nat × Nat) → List (Nat × Nat) → Bool
  | [], _ => true
  | _, [] => true
  | (j, v) :: lhs, (k, w) :: rhs =>
    if j < k then consistentEntries lhs ((k, w) :: rhs)
    else if k < j then consistentEntries ((j, v) :: lhs) rhs
    else if v = w then consistentEntries lhs rhs
    else false
termination_by lhs rhs => lhs.length + rhs.length

/-- The union of two increasing entry lists; a key in both keeps its value from the left. -/
def joinEntries : List (Nat × Nat) → List (Nat × Nat) → List (Nat × Nat)
  | [], rhs => rhs
  | lhs, [] => lhs
  | (j, v) :: lhs, (k, w) :: rhs =>
    if j < k then (j, v) :: joinEntries lhs ((k, w) :: rhs)
    else if k < j then (k, w) :: joinEntries ((j, v) :: lhs) rhs
    else (j, v) :: joinEntries lhs rhs
termination_by lhs rhs => lhs.length + rhs.length

theorem map_fst_joinEntries (lhs rhs : List (Nat × Nat)) :
    (joinEntries lhs rhs).map Prod.fst = mergeKeys (lhs.map Prod.fst) (rhs.map Prod.fst) := by
  fun_induction joinEntries lhs rhs with
  | case1 rhs => simp
  | case2 lhs _ => simp
  | case3 j v lhs k w rhs h ih => simp [mergeKeys, h, ih]
  | case4 j v lhs k w rhs h h' ih => simp [mergeKeys, h, h', ih]
  | case5 j v lhs k w rhs h h' ih => simp [mergeKeys, h, h', ih]

theorem map_fst_zip_sublist (keys values : List Nat) :
    ((keys.zip values).map Prod.fst).Sublist keys := by
  induction keys generalizing values with
  | nil => simp
  | cons key keys ih =>
    cases values with
    | nil => simp
    | cons value values => simpa using ih values

structure Assignment where
  entries : List (Nat × Nat)
  increasing : (entries.map Prod.fst).Pairwise (· < ·)
deriving DecidableEq

namespace Assignment

def scope (a : Assignment) : Scope :=
  ⟨a.entries.map Prod.fst, a.increasing⟩

def keys (a : Assignment) : List Nat :=
  a.entries.map Prod.fst

def values (a : Assignment) : List Nat :=
  a.entries.map Prod.snd

def size (a : Assignment) : Nat :=
  a.entries.length

def valueOf? (a : Assignment) (key : Nat) : Option Nat :=
  a.entries.lookup key

/-- The keys of a scope with the values beside them; what one list has too many is dropped. -/
def pairing (scope : Scope) (values : List Nat) : Assignment :=
  ⟨scope.keys.zip values, scope.increasing.sublist (map_fst_zip_sublist ..)⟩

/-- The first entry, from the left, whose value is outside the domain of its key. -/
def misplaced? (space : Space) (entries : List (Nat × Nat)) : Option Failure :=
  entries.findSome? fun (key, value) =>
    if value < space.domain key then none
    else some (.valueOutOfRange key value (space.domain key))

/-- Whether `a` is an assignment over `space`: its keys are a scope of the space, and every value is
in the domain of its key. The first thing wrong is reported, keys before values. -/
def check (space : Space) (a : Assignment) : Except Failure Unit :=
  match Scope.violation? a.keys space.length with
  | some violation => .error (.invalidScope violation)
  | none =>
    match misplaced? space a.entries with
    | some failure => .error failure
    | none => .ok ()

/-- The assignment of `values` to `keys`. The keys must be a scope of the space, as many as the
values, and every value in its domain; this is also the order of the checks. -/
def ofLists (space : Space) (keys values : List Nat) : Except Failure Assignment :=
  match Scope.ofList keys space.length with
  | .error failure => .error failure
  | .ok scope =>
    if keys.length = values.length then
      match misplaced? space (pairing scope values).entries with
      | some failure => .error failure
      | none => .ok (pairing scope values)
    else .error (.lengthMismatch keys.length values.length)

def ofPairs (space : Space) (pairs : List (Nat × Nat)) : Except Failure Assignment :=
  let sorted := pairs.mergeSort (fun p q => p.1 ≤ q.1)
  ofLists space (sorted.map Prod.fst) (sorted.map Prod.snd)

def consistent (a b : Assignment) : Bool :=
  consistentEntries a.entries b.entries

def join (a b : Assignment) : Assignment :=
  ⟨joinEntries a.entries b.entries, by
    rw [map_fst_joinEntries]; exact pairwise_mergeKeys a.increasing b.increasing⟩

def agrees? (a : Assignment) (full : List Nat) : Option Bool :=
  JointDecision.agrees? full a.entries

end Assignment

end JointDecision

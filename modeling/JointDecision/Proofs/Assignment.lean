import JointDecision.Assignment
import JointDecision.Proofs.Space

/-! # Assignments in a valuation

An assignment holds in a valuation that gives every key its value. An assignment that was checked
against a space mentions only variables of the space, with values of their domains. -/

namespace JointDecision

namespace Assignment

def holds (a : Assignment) (x : Valuation) : Bool :=
  a.entries.all fun entry => x entry.1 == entry.2

theorem holds_iff {a : Assignment} {x : Valuation} :
    a.holds x = true ↔ ∀ entry ∈ a.entries, x entry.1 = entry.2 := by
  simp [holds]

theorem holds_congr {a : Assignment} {x y : Valuation}
    (h : ∀ entry ∈ a.entries, x entry.1 = y entry.1) : a.holds x = a.holds y := by
  rw [Bool.eq_iff_iff, holds_iff, holds_iff]
  constructor
  · intro hx entry hentry
    rw [← h entry hentry, hx entry hentry]
  · intro hy entry hentry
    rw [h entry hentry, hy entry hentry]

theorem valueOf?_eq_some_iff {a : Assignment} {key value : Nat} :
    a.valueOf? key = some value ↔ (key, value) ∈ a.entries :=
  (mem_iff_lookup (a.increasing.imp Nat.ne_of_lt)).symm

theorem head_le {key value : Nat} {entries : List (Nat × Nat)}
    (increasing : (((key, value) :: entries).map Prod.fst).Pairwise (· < ·)) {other v : Nat}
    (hmem : (other, v) ∈ (key, value) :: entries) : key ≤ other := by
  rcases List.mem_cons.1 hmem with heq | hmem
  · exact Nat.le_of_eq (congrArg Prod.fst heq).symm
  · exact Nat.le_of_lt ((List.pairwise_cons.1 increasing).1 other (List.mem_map_of_mem hmem))

private theorem consistentEntries_iff {lhs rhs : List (Nat × Nat)}
    (hlhs : (lhs.map Prod.fst).Pairwise (· < ·)) (hrhs : (rhs.map Prod.fst).Pairwise (· < ·)) :
    consistentEntries lhs rhs = true ↔
      ∀ key v w, (key, v) ∈ lhs → (key, w) ∈ rhs → v = w := by
  fun_induction consistentEntries lhs rhs with
  | case1 rhs => simp
  | case2 lhs _ => simp
  | case3 j v lhs k w rhs hjk ih =>
    -- The lesser key is in one list only.
    rw [ih (List.pairwise_cons.1 hlhs).2 hrhs]
    refine forall_congr' fun key => forall_congr' fun a => forall_congr' fun b => ?_
    have hne : (key, b) ∈ (k, w) :: rhs → key ≠ j := by
      intro hmem
      have hle := head_le hrhs hmem
      omega
    constructor
    · intro h hleft hright
      rcases List.mem_cons.1 hleft with heq | hleft
      · exact absurd (congrArg Prod.fst heq) (hne hright)
      · exact h hleft hright
    · intro h hleft hright
      exact h (List.mem_cons_of_mem _ hleft) hright
  | case4 j v lhs k w rhs hjk hkj ih =>
    rw [ih hlhs (List.pairwise_cons.1 hrhs).2]
    refine forall_congr' fun key => forall_congr' fun a => forall_congr' fun b => ?_
    have hne : (key, a) ∈ (j, v) :: lhs → key ≠ k := by
      intro hmem
      have hle := head_le hlhs hmem
      omega
    constructor
    · intro h hleft hright
      rcases List.mem_cons.1 hright with heq | hright
      · exact absurd (congrArg Prod.fst heq) (hne hleft)
      · exact h hleft hright
    · intro h hleft hright
      exact h hleft (List.mem_cons_of_mem _ hright)
  | case5 j lhs k w rhs hjk hkj ih =>
    obtain rfl : j = k := by omega
    obtain ⟨hleast, hlhs⟩ := List.pairwise_cons.1 hlhs
    obtain ⟨hleast', hrhs⟩ := List.pairwise_cons.1 hrhs
    rw [ih hlhs hrhs]
    constructor
    · intro h key a b hleft hright
      rcases List.mem_cons.1 hleft with heq | hleft <;>
        rcases List.mem_cons.1 hright with heq' | hright
      · cases heq
        cases heq'
        rfl
      · cases heq
        exact absurd (hleast' _ (List.mem_map_of_mem hright)) (Nat.lt_irrefl _)
      · cases heq'
        exact absurd (hleast _ (List.mem_map_of_mem hleft)) (Nat.lt_irrefl _)
      · exact h key a b hleft hright
    · intro h key a b hleft hright
      exact h key a b (List.mem_cons_of_mem _ hleft) (List.mem_cons_of_mem _ hright)
  | case6 j v lhs k w rhs hjk hkj hvw =>
    obtain rfl : j = k := by omega
    simp only [Bool.false_eq_true, false_iff]
    intro h
    exact hvw (h j v w List.mem_cons_self List.mem_cons_self)

theorem consistent_iff {a b : Assignment} : a.consistent b = true ↔
    ∀ key v w, (key, v) ∈ a.entries → (key, w) ∈ b.entries → v = w :=
  consistentEntries_iff a.increasing b.increasing

def Within (a : Assignment) (space : Space) (scope : Scope) : Prop :=
  ∀ entry ∈ a.entries, entry.1 ∈ scope.keys ∧ entry.2 < space.domain entry.1

end Assignment

theorem agrees?_eq {full : List Nat} {entries : List (Nat × Nat)}
    (h : ∀ entry ∈ entries, entry.1 < full.length) :
    agrees? full entries = some (entries.all fun entry => valuation full entry.1 == entry.2) := by
  induction entries with
  | nil => rfl
  | cons entry entries ih =>
    obtain ⟨key, value⟩ := entry
    have hkey : key < full.length := h (key, value) List.mem_cons_self
    have hrest := ih fun e he => h e (List.mem_cons_of_mem _ he)
    by_cases heq : full[key] = value
    · simp [agrees?, hkey, heq, hrest, valuation]
    · simp [agrees?, hkey, heq, valuation]

theorem agrees?_eq_some_true_iff {full : List Nat} {entries : List (Nat × Nat)} :
    agrees? full entries = some true ↔ ∀ entry ∈ entries, full[entry.1]? = some entry.2 := by
  induction entries with
  | nil => simp [agrees?]
  | cons entry entries ih =>
    obtain ⟨key, value⟩ := entry
    rw [List.forall_mem_cons, ← ih, agrees?]
    cases full[key]? with
    | none => simp
    | some actual =>
      by_cases heq : actual = value
      · simp [heq]
      · simp [heq]

namespace Scope

theorem lt_of_violation?_eq_none {keys : List Nat} {varCount : Nat}
    (h : violation? keys varCount = none) : keys ≠ [] ∧ ∀ key ∈ keys, key < varCount := by
  have hincreasing := pairwise_of_violation? h
  unfold violation? at h
  split at h
  · simp at h
  · rename_i largest hlargest
    split at h
    · simp at h
    · have hlt : largest < varCount := by
        by_contra hge
        simp [hge] at h
      obtain ⟨front, rfl⟩ := List.getLast?_eq_some_iff.1 hlargest
      refine ⟨by simp, ?_⟩
      intro key hkey
      rcases List.mem_append.1 hkey with hkey | hkey
      · exact Nat.lt_trans ((List.pairwise_append.1 hincreasing).2.2 key hkey largest (by simp)) hlt
      · rw [List.mem_singleton.1 hkey]
        exact hlt

theorem orderViolation?_eq_none {position : Nat} {keys : List Nat}
    (h : keys.Pairwise (· < ·)) : orderViolation? position keys = none := by
  fun_induction orderViolation? position keys with
  | case1 position a b rest hab ih => exact ih (List.pairwise_cons.1 h).2
  | case2 position b rest hab =>
    exact absurd ((List.pairwise_cons.1 h).1 b List.mem_cons_self) hab
  | case3 position a b rest hab _ =>
    exact absurd ((List.pairwise_cons.1 h).1 b List.mem_cons_self) hab
  | case4 => rfl

/-- A list is a scope when it has a first key, increases and stays below the number of variables. -/
theorem ofList_eq_ok {keys : List Nat} {varCount : Nat} {scope : Scope} :
    ofList keys varCount = .ok scope ↔
      scope.keys = keys ∧ keys ≠ [] ∧ ∀ key ∈ keys, key < varCount := by
  unfold ofList
  split
  · rename_i violation hviolation
    refine ⟨(nomatch ·), ?_⟩
    rintro ⟨rfl, hnonempty, hlt⟩
    have hlast := List.getLast?_eq_some_getLast hnonempty
    rw [violation?, hlast, orderViolation?_eq_none scope.increasing] at hviolation
    simp [hlt _ (List.getLast_mem hnonempty)] at hviolation
  · rename_i hnone
    rw [Except.ok.injEq]
    constructor
    · rintro rfl
      exact ⟨rfl, lt_of_violation?_eq_none hnone⟩
    · rintro ⟨rfl, -⟩
      rfl

theorem ofList_keys (scope : Scope) (varCount : Nat) :
    ofList scope.keys varCount =
      match violation? scope.keys varCount with
      | some violation => .error (.invalidScope violation)
      | none => .ok scope := by
  unfold ofList
  split
  · rename_i violation hviolation
    simp [hviolation]
  · rename_i hnone
    simp [hnone]

end Scope

private theorem Assignment.misplaced?_eq_none {space : Space} {entries : List (Nat × Nat)}
    (h : misplaced? space entries = none) :
    ∀ entry ∈ entries, entry.2 < space.domain entry.1 := by
  intro entry hentry
  have := List.findSome?_eq_none_iff.1 h entry hentry
  by_contra hge
  simp [hge] at this

structure Assignment.Over (a : Assignment) (space : Space) : Prop where
  nonempty : a.entries ≠ []
  key_lt : ∀ entry ∈ a.entries, entry.1 < space.length
  value_lt : ∀ entry ∈ a.entries, entry.2 < space.domain entry.1

theorem Assignment.Over.keys_lt {a : Assignment} {space : Space} (h : a.Over space) :
    ∀ key ∈ a.keys, key < space.length :=
  List.forall_mem_map.2 h.key_lt

theorem Assignment.over_of_check {space : Space} {a : Assignment}
    (h : a.check space = .ok ()) : a.Over space := by
  unfold check at h
  split at h
  · cases h
  · rename_i hviolation
    obtain ⟨hnonempty, hlt⟩ := Scope.lt_of_violation?_eq_none hviolation
    split at h
    · cases h
    · rename_i hplaced
      refine ⟨by simpa [keys] using hnonempty, ?_, misplaced?_eq_none hplaced⟩
      intro entry hentry
      exact hlt entry.1 (List.mem_map_of_mem hentry)

namespace Assignment

theorem scope_pairing {scope : Scope} {values : List Nat} (h : scope.size = values.length) :
    (pairing scope values).scope = scope := by
  have hkeys : (scope.keys.zip values).map Prod.fst = scope.keys :=
    List.map_fst_zip (Nat.le_of_eq h)
  rw [Assignment.scope, Scope.mk.injEq]
  exact hkeys

theorem values_pairing {scope : Scope} {values : List Nat} (h : scope.size = values.length) :
    (pairing scope values).values = values :=
  List.map_snd_zip (Nat.le_of_eq h.symm)

theorem pairing_scope_values (a : Assignment) : pairing a.scope a.values = a := by
  obtain ⟨entries, increasing⟩ := a
  simp [pairing, scope, values, List.zip_map']

private theorem length_values (a : Assignment) : a.values.length = a.keys.length := by
  simp [keys, values]

theorem ofLists_spec {space : Space} {keys values : List Nat} {a : Assignment}
    (h : ofLists space keys values = .ok a) :
    a.keys = keys ∧ a.values = values ∧ a.Over space := by
  unfold ofLists at h
  split at h
  · cases h
  · rename_i scope hscope
    obtain ⟨rfl, hnonempty, hlt⟩ := Scope.ofList_eq_ok.1 hscope
    split at h
    · rename_i hlength
      split at h
      · cases h
      · rename_i hplaced
        cases h
        have hkeys : (pairing scope values).keys = scope.keys :=
          congrArg Scope.keys (scope_pairing hlength)
        refine ⟨hkeys, values_pairing hlength, ?_, ?_, misplaced?_eq_none hplaced⟩
        · intro hentries
          rw [keys, hentries] at hkeys
          exact hnonempty hkeys.symm
        · intro entry hentry
          exact hlt entry.1 (hkeys ▸ List.mem_map_of_mem hentry)
    · cases h

theorem ofLists_eq_check (space : Space) (a : Assignment) :
    ofLists space a.keys a.values = (a.check space).map fun _ => a := by
  have hlength : a.scope.keys.length = a.values.length := a.length_values.symm
  rw [ofLists, check, show a.keys = a.scope.keys from rfl, Scope.ofList_keys]
  cases Scope.violation? a.scope.keys space.length with
  | some violation => rfl
  | none =>
    dsimp only
    rw [pairing_scope_values, if_pos hlength]
    cases misplaced? space a.entries with
    | some failure => rfl
    | none => rfl

theorem mem_joinEntries {lhs rhs : List (Nat × Nat)} {entry : Nat × Nat}
    (h : entry ∈ joinEntries lhs rhs) : entry ∈ lhs ∨ entry ∈ rhs := by
  fun_induction joinEntries lhs rhs with
  | case1 rhs => exact .inr h
  | case2 lhs _ => exact .inl h
  | case3 j v lhs k w rhs hjk ih =>
    rcases List.mem_cons.1 h with rfl | h
    · exact .inl List.mem_cons_self
    · exact (ih h).imp_left (List.mem_cons_of_mem _)
  | case4 j v lhs k w rhs hjk hkj ih =>
    rcases List.mem_cons.1 h with rfl | h
    · exact .inr List.mem_cons_self
    · exact (ih h).imp_right (List.mem_cons_of_mem _)
  | case5 j v lhs k w rhs hjk hkj ih =>
    rcases List.mem_cons.1 h with rfl | h
    · exact .inl List.mem_cons_self
    · exact (ih h).imp (List.mem_cons_of_mem _) (List.mem_cons_of_mem _)

end Assignment

end JointDecision

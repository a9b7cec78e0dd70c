import JointDecision.Proofs.Assignment
import Mathlib.Data.List.Sort

/-! # Assignments as partial maps

An assignment is what it answers for each key. Both walks over two assignments are described by
these answers: one tells whether they are equal on the keys in both, and the other puts the answers
of the second assignment under those of the first. -/

namespace JointDecision.Assignment

variable {a b c : Assignment}

theorem mem_keys_iff {key : Nat} : key ∈ a.keys ↔ ∃ value, a.valueOf? key = some value := by
  simp [keys, valueOf?_eq_some_iff]

theorem eq_of_valueOf? (h : ∀ key, a.valueOf? key = b.valueOf? key) : a = b := by
  have hmem : ∀ entry, entry ∈ a.entries ↔ entry ∈ b.entries := by
    rintro ⟨key, value⟩
    rw [← valueOf?_eq_some_iff, ← valueOf?_eq_some_iff, h key]
  obtain ⟨entries, increasing⟩ := a
  obtain ⟨others, increasing'⟩ := b
  obtain rfl : entries = others :=
    (List.pairwise_map.1 increasing).eq_of_mem_iff (List.pairwise_map.1 increasing') hmem
  rfl

theorem consistent_iff_valueOf? : a.consistent b = true ↔
    ∀ key ∈ a.keys, key ∈ b.keys → a.valueOf? key = b.valueOf? key := by
  rw [consistent_iff]
  constructor
  · intro h key ha hb
    obtain ⟨v, hv⟩ := mem_keys_iff.1 ha
    obtain ⟨w, hw⟩ := mem_keys_iff.1 hb
    rw [hv, hw, h key v w (valueOf?_eq_some_iff.1 hv) (valueOf?_eq_some_iff.1 hw)]
  · intro h key v w hv hw
    have hsame := h key (List.mem_map_of_mem hv) (List.mem_map_of_mem hw)
    rw [valueOf?_eq_some_iff.2 hv, valueOf?_eq_some_iff.2 hw] at hsame
    exact Option.some.inj hsame

theorem consistent_comm (a b : Assignment) : a.consistent b = b.consistent a := by
  rw [Bool.eq_iff_iff, consistent_iff_valueOf?, consistent_iff_valueOf?]
  constructor
  · intro h key hb ha
    exact (h key ha hb).symm
  · intro h key ha hb
    exact (h key hb ha).symm

/-- The walk keeps what the first list answers, and answers for the second where the first does
not. -/
theorem lookup_joinEntries {lhs rhs : List (Nat × Nat)}
    (hlhs : (lhs.map Prod.fst).Pairwise (· < ·)) (key : Nat) :
    (joinEntries lhs rhs).lookup key = (lhs.lookup key).or (rhs.lookup key) := by
  fun_induction joinEntries lhs rhs with
  | case1 rhs => rfl
  | case2 lhs _ => exact Option.or_none.symm
  | case3 j v lhs k w rhs hjk ih =>
    rw [List.lookup_cons, List.lookup_cons, ih (List.pairwise_cons.1 hlhs).2]
    cases key == j <;> rfl
  | case4 j v lhs k w rhs hjk hkj ih =>
    cases hbeq : key == k with
    | true =>
      -- The lesser key is in the second list only.
      have hnone : ((j, v) :: lhs).lookup key = none := by
        rw [List.lookup_eq_none_iff]
        rintro ⟨other, u⟩ hmem
        have hle := head_le hlhs hmem
        rw [beq_iff_eq] at hbeq
        rw [bne_iff_ne]
        omega
      rw [hnone, Option.none_or, List.lookup_cons, List.lookup_cons, hbeq]
    | false =>
      have hskip : ∀ list, ((k, w) :: list).lookup key = list.lookup key := fun list => by
        rw [List.lookup_cons, hbeq]
      rw [hskip, hskip, ih hlhs]
  | case5 j v lhs k w rhs hjk hkj ih =>
    obtain rfl : j = k := by omega
    rw [List.lookup_cons, List.lookup_cons, List.lookup_cons, ih (List.pairwise_cons.1 hlhs).2]
    cases key == j <;> rfl

theorem valueOf?_join (a b : Assignment) (key : Nat) :
    (a.join b).valueOf? key = (a.valueOf? key).or (b.valueOf? key) :=
  lookup_joinEntries a.increasing key

theorem mem_keys_join {key : Nat} : key ∈ (a.join b).keys ↔ key ∈ a.keys ∨ key ∈ b.keys := by
  have hkeys : (a.join b).keys = mergeKeys a.keys b.keys := map_fst_joinEntries ..
  rw [hkeys, mem_mergeKeys]

theorem join_comm (h : a.consistent b = true) : a.join b = b.join a := by
  apply eq_of_valueOf?
  intro key
  rw [valueOf?_join, valueOf?_join]
  cases ha : a.valueOf? key with
  | none => simp
  | some v =>
    cases hb : b.valueOf? key with
    | none => rfl
    | some w =>
      have hsame := consistent_iff_valueOf?.1 h key (mem_keys_iff.2 ⟨v, ha⟩)
        (mem_keys_iff.2 ⟨w, hb⟩)
      rw [← ha, ← hb, hsame]

theorem join_assoc (a b c : Assignment) : (a.join b).join c = a.join (b.join c) := by
  apply eq_of_valueOf?
  intro key
  simp only [valueOf?_join, Option.or_assoc]

private theorem consistent_join (hac : a.consistent c = true) (hbc : b.consistent c = true) :
    (a.join b).consistent c = true := by
  rw [consistent_iff_valueOf?] at hac hbc ⊢
  intro key hkey hc
  rw [valueOf?_join]
  cases ha : a.valueOf? key with
  | some v =>
    rw [Option.some_or, ← ha]
    exact hac key (mem_keys_iff.2 ⟨v, ha⟩) hc
  | none =>
    have hb : key ∈ b.keys := by
      rcases mem_keys_join.1 hkey with hkey | hkey
      · obtain ⟨v, hv⟩ := mem_keys_iff.1 hkey
        rw [ha] at hv
        cases hv
      · exact hkey
    rw [Option.none_or]
    exact hbc key hb hc

theorem holds_iff_valueOf? {x : Valuation} :
    a.holds x = true ↔ ∀ key value, a.valueOf? key = some value → x key = value := by
  simp only [holds_iff, Prod.forall, valueOf?_eq_some_iff]

theorem holds_join (h : a.consistent b = true) (x : Valuation) :
    (a.join b).holds x = (a.holds x && b.holds x) := by
  rw [Bool.eq_iff_iff, Bool.and_eq_true, holds_iff_valueOf?, holds_iff_valueOf?, holds_iff_valueOf?]
  constructor
  · intro hx
    refine ⟨fun key value hvalue => hx key value ?_, fun key value hvalue => hx key value ?_⟩
    · rw [valueOf?_join, hvalue, Option.some_or]
    · rw [join_comm h, valueOf?_join, hvalue, Option.some_or]
  · rintro ⟨ha, hb⟩ key value hvalue
    rw [valueOf?_join, Option.or_eq_some_iff] at hvalue
    rcases hvalue with hvalue | ⟨-, hvalue⟩
    · exact ha key value hvalue
    · exact hb key value hvalue

private theorem consistent_of_holds {x : Valuation} (ha : a.holds x = true)
    (hb : b.holds x = true) :
    a.consistent b = true := by
  rw [consistent_iff]
  intro key v w hv hw
  exact (holds_iff.1 ha _ hv).symm.trans (holds_iff.1 hb _ hw)

theorem Over.join {space : Space} (ha : a.Over space) (hb : b.Over space) :
    (a.join b).Over space := by
  refine ⟨?_, ?_, ?_⟩
  · obtain ⟨entry, hentry⟩ := List.exists_mem_of_ne_nil _ ha.nonempty
    have hkey : entry.1 ∈ (a.join b).keys := mem_keys_join.2 (.inl (List.mem_map_of_mem hentry))
    obtain ⟨_, hmem, -⟩ := List.mem_map.1 hkey
    exact List.ne_nil_of_mem hmem
  · intro entry hentry
    exact (mem_joinEntries hentry).elim (ha.key_lt entry) (hb.key_lt entry)
  · intro entry hentry
    exact (mem_joinEntries hentry).elim (ha.value_lt entry) (hb.value_lt entry)

private theorem Over.exists_holds {space : Space} (hspace : space.Inhabited) (ha : a.Over space) :
    ∃ x, space.Respects x ∧ a.holds x = true := by
  refine ⟨fun key => (a.valueOf? key).getD 0, ?_, ?_⟩
  · intro key hkey
    dsimp only
    cases hvalue : a.valueOf? key with
    | none => exact hspace.domain_pos hkey
    | some value => exact ha.value_lt _ (valueOf?_eq_some_iff.1 hvalue)
  · rw [holds_iff_valueOf?]
    intro key value hvalue
    rw [hvalue, Option.getD_some]

theorem agrees?_eq_holds {full : List Nat} (h : ∀ key ∈ a.keys, key < full.length) :
    a.agrees? full = some (a.holds (valuation full)) :=
  agrees?_eq (List.forall_mem_map.1 h)

theorem consistent_iff_exists_full {space : Space} (hspace : space.Inhabited) (ha : a.Over space)
    (hb : b.Over space) : a.consistent b = true ↔ ∃ full, space.Admits full ∧
      a.agrees? full = some true ∧ b.agrees? full = some true := by
  have hagrees : ∀ {other : Assignment} {full}, other.Over space → space.Admits full →
      other.agrees? full = some (other.holds (valuation full)) := fun hother hfull =>
    agrees?_eq_holds fun key hkey => hfull.length_eq ▸ hother.keys_lt key hkey
  constructor
  · intro h
    obtain ⟨x, hx, hholds⟩ := (ha.join hb).exists_holds hspace
    have hfull := hx.admits_tabulate
    have hsame : (a.join b).holds (valuation (space.tabulate x)) = (a.join b).holds x :=
      holds_congr fun entry hentry => Space.valuation_tabulate ((ha.join hb).key_lt entry hentry)
    rw [hholds, holds_join h, Bool.and_eq_true] at hsame
    refine ⟨space.tabulate x, hfull, ?_, ?_⟩
    · rw [hagrees ha hfull, hsame.1]
    · rw [hagrees hb hfull, hsame.2]
  · rintro ⟨full, hfull, hholds, hholds'⟩
    rw [hagrees ha hfull, Option.some.injEq] at hholds
    rw [hagrees hb hfull, Option.some.injEq] at hholds'
    exact consistent_of_holds hholds hholds'

/-- Consistency is agreement on common keys; over a usable space it is agreement with one full
assignment. Consistent assignments join in either order: the join has the keys of both, answers what
the first answers where it mentions the key and what the second answers elsewhere, and agrees with
the full assignments that both agree with. What is consistent with both is consistent with their
join, and three assignments join in either grouping. -/
theorem consistent_join_laws (a b c : Assignment) :
    (a.consistent b = true ↔
      ∀ key ∈ a.keys, key ∈ b.keys → a.valueOf? key = b.valueOf? key) ∧
    a.consistent b = b.consistent a ∧
    (∀ space : Space, space.Inhabited → a.check space = .ok () → b.check space = .ok () →
      (a.consistent b = true ↔ ∃ full, space.Admits full ∧
        a.agrees? full = some true ∧ b.agrees? full = some true)) ∧
    (a.consistent b = true →
      a.join b = b.join a ∧
      ((a.join b).keys.Pairwise (· < ·) ∧
        ∀ key, key ∈ (a.join b).keys ↔ key ∈ a.keys ∨ key ∈ b.keys) ∧
      (∀ key, (key ∈ a.keys → (a.join b).valueOf? key = a.valueOf? key) ∧
        (key ∉ a.keys → (a.join b).valueOf? key = b.valueOf? key)) ∧
      (∀ full, (∀ key ∈ (a.join b).keys, key < full.length) →
        ∃ agreesLeft agreesRight, a.agrees? full = some agreesLeft ∧
          b.agrees? full = some agreesRight ∧
          (a.join b).agrees? full = some (agreesLeft && agreesRight)) ∧
      (a.consistent c = true → b.consistent c = true →
        (a.join b).consistent c = true ∧ (a.join b).join c = a.join (b.join c))) := by
  refine ⟨consistent_iff_valueOf?, consistent_comm a b, ?meet, fun h => ⟨join_comm h,
    ⟨(a.join b).increasing, fun key => mem_keys_join⟩, ?answers, ?agree, ?three⟩⟩
  case meet =>
    intro space hspace ha hb
    exact consistent_iff_exists_full hspace (over_of_check ha) (over_of_check hb)
  case answers =>
    intro key
    rw [valueOf?_join]
    constructor
    · intro hkey
      obtain ⟨value, hvalue⟩ := mem_keys_iff.1 hkey
      rw [hvalue, Option.some_or]
    · intro hkey
      have hnone : a.valueOf? key = none :=
        Option.eq_none_iff_forall_ne_some.2 fun value hvalue =>
          hkey (mem_keys_iff.2 ⟨value, hvalue⟩)
      rw [hnone, Option.none_or]
  case agree =>
    intro full hcover
    refine ⟨a.holds (valuation full), b.holds (valuation full), ?_, ?_, ?_⟩
    · exact agrees?_eq_holds fun key hkey => hcover key (mem_keys_join.2 (.inl hkey))
    · exact agrees?_eq_holds fun key hkey => hcover key (mem_keys_join.2 (.inr hkey))
    · rw [agrees?_eq_holds hcover, holds_join h]
  case three =>
    intro hac hbc
    exact ⟨consistent_join hac hbc, join_assoc a b c⟩

/-- Three assignments that all mention the third of four variables, each beside another one. -/
theorem consistent_join_laws_shared : ∃ a b c : Assignment,
    ofLists [2, 3, 2, 2] [0, 2] [1, 1] = .ok a ∧ ofLists [2, 3, 2, 2] [1, 2] [2, 1] = .ok b ∧
    ofLists [2, 3, 2, 2] [2, 3] [1, 0] = .ok c ∧
    (∃ full, Space.Admits [2, 3, 2, 2] full ∧ a.agrees? full = some true ∧
      b.agrees? full = some true) ∧
    a.join b = b.join a ∧ (a.join b).valueOf? 1 = some 2 ∧
    (a.join b).agrees? [1, 2, 1, 0] = some true ∧ (a.join b).agrees? [1, 1, 1, 0] = some false ∧
    (a.join b).consistent c = true ∧ (a.join b).join c = a.join (b.join c) := by
  obtain ⟨hab, -, hmeet, hjoin⟩ := consistent_join_laws
    ⟨[(0, 1), (2, 1)], by decide⟩ ⟨[(1, 2), (2, 1)], by decide⟩ ⟨[(2, 1), (3, 0)], by decide⟩
  have hab := hab.2 (by decide)
  have hfull := (hmeet [2, 3, 2, 2] (by decide) rfl rfl).1 hab
  obtain ⟨hcomm, -, hanswers, hagree, hthree⟩ := hjoin hab
  obtain ⟨hconsistent, hassoc⟩ :=
    hthree (consistent_iff_valueOf?.2 (by decide)) (consistent_iff_valueOf?.2 (by decide))
  have hkeys : ∀ full : List Nat, full.length = 4 → ∀ key ∈ (Assignment.join
      ⟨[(0, 1), (2, 1)], by decide⟩ ⟨[(1, 2), (2, 1)], by decide⟩).keys, key < full.length := by
    intro full hlength key hkey
    rw [hlength]
    exact (mem_keys_join.1 hkey).elim ((by decide : ∀ key ∈ [0, 2], key < 4) key)
      ((by decide : ∀ key ∈ [1, 2], key < 4) key)
  obtain ⟨_, _, hleft, hright, hboth⟩ := hagree [1, 2, 1, 0] (hkeys _ rfl)
  cases hleft
  cases hright
  obtain ⟨_, _, hleft, hright, hone⟩ := hagree [1, 1, 1, 0] (hkeys _ rfl)
  cases hleft
  cases hright
  exact ⟨_, _, _, rfl, rfl, rfl, hfull, hcomm, (hanswers 1).2 (by decide), hboth, hone,
    hconsistent, hassoc⟩

end JointDecision.Assignment

import JointDecision.Proofs.Odometer

/-! # Joint values and their indices

The joint values of some keys are numbered from zero, and what writes a joint value of a number
undoes what reads the number of a joint value. An odometer shows each of them once, in the order of
their numbers. -/

namespace JointDecision

open MixedRadix

namespace Space

variable {space : Space} {keys : List Nat}

private theorem lt_length_of_domain_pos {key : Nat} (h : 0 < space.domain key) :
    key < space.length := by
  by_contra hge
  simp [domain, hge] at h

theorem valuesAt?_eq (hkeys : ∀ key ∈ keys, key < space.length) (place : Nat) :
    space.valuesAt? keys place = digits? (keys.map space.domain) place := by
  rw [valuesAt?, radix?_eq hkeys, Option.bind_some]

/-- `Space.index?` in words: every product and every sum starts over at `bound`. -/
def wordIndex? (bound : Nat) (space : Space) (keys values : List Nat) : Option Nat :=
  (space.radix? (keys.take values.length)).map fun radix => indexWord bound radix values

private theorem wordIndex?_eq (hkeys : ∀ key ∈ keys, key < space.length) {values : List Nat}
    (hvalues : Digits (keys.map space.domain) values) {bound : Nat}
    (hbound : volume (keys.map space.domain) < bound) :
    space.wordIndex? bound keys values = some (index (keys.map space.domain) values) := by
  have hlength : values.length = keys.length := by simpa using hvalues.length_eq
  rw [wordIndex?, List.take_of_length_le (Nat.le_of_eq hlength.symm), radix?_eq hkeys,
    Option.map_some, hvalues.indexWord_eq hbound]

/-- Where a word holds the number of joint values, indices below it and joint values are one for the
other. The number read so far, the weight of a digit and what the digit adds do not exceed the
number of joint values on the way to an index, so words that have room for it never start over. An
index past the last is read as its remainder. -/
theorem joint_values_indexed {space : Space} {keys : List Nat}
    (hkeys : ∀ key ∈ keys, 0 < space.domain key) (hword : space.FitsWord keys) :
    ∃ size, space.jointSize? keys = some size ∧
      (∀ values, Digits (keys.map space.domain) values →
        ∃ place < size, space.index? keys values = some place ∧
          space.valuesAt? keys place = some values ∧
          (∀ before later, (keys.map space.domain).zip values = before ++ later →
            (before.foldl Place.step .start).Within size later.head?) ∧
          ∀ bound, size < bound → space.wordIndex? bound keys values = some place) ∧
      (∀ place < size, ∃ values, space.valuesAt? keys place = some values ∧
        Digits (keys.map space.domain) values ∧ space.index? keys values = some place) ∧
      ∀ place, space.valuesAt? keys place = space.valuesAt? keys (place % size) := by
  have hlt : ∀ key ∈ keys, key < space.length :=
    fun key hkey => lt_length_of_domain_pos (hkeys key hkey)
  have hpos : ∀ r ∈ keys.map space.domain, 0 < r := List.forall_mem_map.2 hkeys
  refine ⟨volume (keys.map space.domain), jointSize?_eq hlt hword, ?there, ?back, ?past⟩
  case there =>
    intro values hvalues
    refine ⟨index (keys.map space.domain) values, hvalues.index_lt, index?_eq hlt hword hvalues,
      ?_, ?_, ?_⟩
    · rw [valuesAt?_eq hlt, hvalues.digits?_index]
    · intro before later hsplit
      exact hvalues.within_start hsplit
    · intro bound hbound
      exact wordIndex?_eq hlt hvalues hbound
  case back =>
    intro place hplace
    obtain ⟨values, hdigits?, hvalues, hindex⟩ := exists_digits? hpos place
    rw [Nat.mod_eq_of_lt hplace] at hindex
    refine ⟨values, ?_, hvalues, ?_⟩
    · rw [valuesAt?_eq hlt, hdigits?]
    · rw [index?_eq hlt hword hvalues, hindex]
  case past =>
    intro place
    rw [valuesAt?_eq hlt, valuesAt?_eq hlt, digits?_mod hpos]

/-- Two variables whose joint values just fit in words of 64 bits, in the order of their keys
reversed: the last joint value has the last index. -/
theorem joint_values_indexed_wide :
    Space.index? [4294967295, 4294967296] [1, 0] [4294967295, 4294967294] =
        some 18446744069414584319 ∧
      Space.valuesAt? [4294967295, 4294967296] [1, 0] 18446744069414584319 =
        some [4294967295, 4294967294] ∧
      Space.wordIndex? 18446744073709551616 [4294967295, 4294967296] [1, 0]
        [4294967295, 4294967294] = some 18446744069414584319 ∧
      Space.valuesAt? [4294967295, 4294967296] [1, 0] 18446744073709551615 =
        Space.valuesAt? [4294967295, 4294967296] [1, 0] 4294967295 := by
  obtain ⟨size, hsize, hthere, -, hpast⟩ :=
    @joint_values_indexed [4294967295, 4294967296] [1, 0] (by decide) (by decide)
  obtain rfl : 18446744069414584320 = size := Option.some.inj hsize
  obtain ⟨place, -, hindex, hvalues, -, hword⟩ :=
    hthere [4294967295, 4294967294] (by decide)
  obtain rfl : 18446744069414584319 = place := Option.some.inj hindex
  exact ⟨hindex, hvalues, hword _ (by decide), hpast 18446744073709551615⟩

end Space

namespace Odometer

theorem visit_add (limit further : Nat) (o : Odometer) :
    visit (limit + further) o = ((visit limit o).1 ++ (visit further (visit limit o).2).1,
      (visit further (visit limit o).2).2) := by
  induction limit generalizing o with
  | zero => simp [visit]
  | succ limit ih =>
    rw [Nat.succ_add]
    cases hvalid : o.valid with
    | true => simp [visit, hvalid, ih]
    | false => cases further <;> simp [visit, hvalid]

private theorem visit_of_exhausted {o : Odometer} (h : o.valid = false) (limit : Nat) :
    visit limit o = ([], o) := by
  cases limit <;> simp [visit, h]

private theorem StandsAt.visit_snd {o : Odometer} {place limit : Nat} (h : o.StandsAt place)
    (hlimit : place + limit ≤ volume o.radix) :
    (visit limit o).2 = Odometer.advance^[limit] o := by
  induction limit generalizing o place with
  | zero => rfl
  | succ limit ih =>
    have hplace : place < volume o.radix := by omega
    have hvalid : o.valid = true := by rw [h.valid, decide_eq_true hplace]
    have hrest : place + 1 + limit ≤ volume o.advance.radix := le_of_eq_of_le (by omega) hlimit
    rw [Function.iterate_succ_apply, ← ih (h.advance hplace) hrest]
    simp [visit, hvalid]

/-- As many steps as there are joint values exhaust an odometer. -/
theorem exhausted_drain_start (keys radix : List Nat) :
    (start keys radix).drain.2.valid = false := by
  by_cases hpos : ∀ r ∈ radix, 0 < r
  · have hstart := standsAt_start keys hpos
    have hend : (start keys radix).drain.2 = Odometer.advance^[volume radix] (start keys radix) :=
      hstart.visit_snd (Nat.le_of_eq (Nat.zero_add _))
    have hlast := hstart.iterate (Nat.le_refl (volume radix))
    rw [hend, hlast.valid, radix_iterate]
    exact decide_eq_false (Nat.lt_irrefl _)
  · have hvalid : (start keys radix).valid = false := by simpa [start] using hpos
    rw [drain, visit_of_exhausted hvalid]
    exact hvalid

private theorem visit_start (keys radix : List Nat) {limit : Nat} (hlimit : volume radix ≤ limit) :
    visit limit (start keys radix) = (start keys radix).drain := by
  obtain ⟨further, rfl⟩ := Nat.exists_eq_add_of_le hlimit
  have hdrain : visit (volume radix) (start keys radix) = (start keys radix).drain := rfl
  rw [visit_add, hdrain, visit_of_exhausted (exhausted_drain_start keys radix), List.append_nil]

inductive Reaches (first : Odometer) : Odometer → Prop
  | refl : Reaches first first
  | advance {later : Odometer} : Reaches first later → Reaches first later.advance
  | reset {later : Odometer} : Reaches first later → Reaches first later.reset

private theorem length_tick (radix values : List Nat) :
    (tick radix values).1.length = values.length := by
  induction radix generalizing values with
  | nil => rfl
  | cons r radix ih =>
    cases values with
    | nil => rfl
    | cons v values =>
      rw [tick]
      split
      · rfl
      · exact congrArg (· + 1) (ih values)

theorem Reaches.keeps {first later : Odometer} (h : first.Reaches later) :
    later.keys = first.keys ∧ later.radix = first.radix ∧
      later.values.length = first.values.length := by
  induction h with
  | refl => exact ⟨rfl, rfl, rfl⟩
  | advance _ ih => exact ⟨ih.1, ih.2.1, (length_tick _ _).trans ih.2.2⟩
  | reset _ ih => exact ⟨ih.1, ih.2.1, (List.length_map _).trans ih.2.2⟩

private theorem Reaches.reset_eq {keys radix : List Nat} {later : Odometer}
    (h : (start keys radix).Reaches later) : later.reset = start keys radix := by
  obtain ⟨hkeys, hradix, hlength⟩ := h.keeps
  obtain ⟨laterKeys, laterRadix, values, valid⟩ := later
  obtain rfl : laterKeys = keys := hkeys
  obtain rfl : laterRadix = radix := hradix
  have hvalues : values.length = laterRadix.length := hlength.trans List.length_replicate
  simp [Odometer.reset, start, List.map_const', hvalues]

end Odometer

end JointDecision

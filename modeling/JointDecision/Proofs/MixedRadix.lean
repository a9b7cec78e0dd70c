import JointDecision.MixedRadix
import Mathlib.Data.List.Forall2
import Mathlib.Data.List.Induction
import Mathlib.Data.List.Nodup

/-! # Digits and their numbers

Lists of digits below their radices are numbered without gaps or repetitions: the index of such a
list is below the volume of the radices, no two lists have one index, and every number below the
volume is the index of its digits. Nothing on the way to an index exceeds the volume. -/

namespace JointDecision.MixedRadix

def Digits (radix values : List Nat) : Prop :=
  List.Forall₂ (· < ·) values radix

instance (radix values : List Nat) : Decidable (Digits radix values) :=
  inferInstanceAs (Decidable (List.Forall₂ (· < ·) values radix))

@[simp] theorem digits_nil : Digits [] [] := .nil

@[simp] theorem digits_cons {r v : Nat} {radix values : List Nat} :
    Digits (r :: radix) (v :: values) ↔ v < r ∧ Digits radix values :=
  List.forall₂_cons

theorem Digits.length_eq {radix values : List Nat} (h : Digits radix values) :
    values.length = radix.length :=
  List.Forall₂.length_eq h

theorem Digits.exists_getElem? {radix values : List Nat} (h : Digits radix values) {position r : Nat}
    (hr : radix[position]? = some r) : ∃ v, values[position]? = some v ∧ v < r := by
  obtain ⟨hlt, rfl⟩ := List.getElem?_eq_some_iff.1 hr
  have hvalues : position < values.length := h.length_eq ▸ hlt
  exact ⟨_, List.getElem?_eq_getElem hvalues, (List.forall₂_iff_get.1 h).2 position hvalues hlt⟩

/-- The place reached from any other is the place reached from the start, shifted and scaled. -/
theorem foldl_step_index (pairs : List (Nat × Nat)) (place : Place) :
    (pairs.foldl Place.step place).index =
      place.index + place.weight * (pairs.foldl Place.step .start).index := by
  induction pairs generalizing place with
  | nil => simp [Place.start]
  | cons pair pairs ih =>
    simp only [List.foldl_cons]
    rw [ih (place.step pair), ih (Place.start.step pair)]
    simp only [Place.step, Place.start, Nat.mul_one, Nat.one_mul, Nat.zero_add, Nat.mul_add]
    rw [Nat.mul_comm pair.2, Nat.mul_assoc, Nat.add_assoc]

@[simp] theorem index_nil (values : List Nat) : index [] values = 0 := rfl

@[simp] theorem index_cons (r v : Nat) (radix values : List Nat) :
    index (r :: radix) (v :: values) = v + r * index radix values := by
  simp only [index, List.zip_cons_cons, List.foldl_cons]
  rw [foldl_step_index]
  simp [Place.step, Place.start]

theorem Digits.index_lt {radix values : List Nat} (h : Digits radix values) :
    index radix values < volume radix := by
  induction h with
  | nil => decide
  | @cons v r values radix hv _ ih =>
    rw [index_cons, volume]
    calc v + r * index radix values < r + r * index radix values := by omega
      _ = r * (index radix values + 1) := by rw [Nat.mul_succ, Nat.add_comm]
      _ ≤ r * volume radix := Nat.mul_le_mul_left r ih

theorem Digits.index_injective {radix a b : List Nat} (ha : Digits radix a)
    (hb : Digits radix b) (h : index radix a = index radix b) : a = b := by
  induction ha generalizing b with
  | nil =>
    cases hb
    rfl
  | @cons v r values radix hv _ ih =>
    cases hb with
    | @cons w _ others _ hw hrest =>
      rw [index_cons, index_cons] at h
      have hvw : v = w := by
        have hmod := congrArg (· % r) h
        simpa [Nat.add_mul_mod_self_left, Nat.mod_eq_of_lt hv, Nat.mod_eq_of_lt hw] using hmod
      subst hvw
      have htail : index radix values = index radix others :=
        Nat.eq_of_mul_eq_mul_left (by omega) (Nat.add_left_cancel h)
      rw [ih hrest htail]

theorem volume_pos_iff {radix : List Nat} : 0 < volume radix ↔ ∀ r ∈ radix, 0 < r := by
  induction radix with
  | nil => simp [volume]
  | cons r radix ih =>
    rw [volume, List.forall_mem_cons, ← ih]
    exact ⟨fun h => ⟨Nat.pos_of_mul_pos_right h, Nat.pos_of_mul_pos_left h⟩,
      fun h => Nat.mul_pos h.1 h.2⟩

theorem Digits.digits?_index {radix values : List Nat} (h : Digits radix values) :
    digits? radix (index radix values) = some values := by
  induction h with
  | nil => rfl
  | @cons v r values radix hv _ ih =>
    have hdigit : (v + r * index radix values) % r = v := by
      rw [Nat.add_mul_mod_self_left, Nat.mod_eq_of_lt hv]
    have hrest : (v + r * index radix values) / r = index radix values := by
      rw [Nat.add_mul_div_left _ _ (by omega), Nat.div_eq_of_lt hv, Nat.zero_add]
    rw [index_cons, digits?, if_neg (by omega), hdigit, hrest, ih, Option.map_some]

/-- The digits of any number are those of its remainder by the volume. -/
theorem exists_digits? {radix : List Nat} (hpos : ∀ r ∈ radix, 0 < r) (n : Nat) :
    ∃ values, digits? radix n = some values ∧ Digits radix values ∧
      index radix values = n % volume radix := by
  induction radix generalizing n with
  | nil => exact ⟨[], rfl, digits_nil, (Nat.mod_one n).symm⟩
  | cons r radix ih =>
    obtain ⟨hr, hpos⟩ := List.forall_mem_cons.1 hpos
    obtain ⟨values, hvalues, hdigits, hindex⟩ := ih hpos (n / r)
    refine ⟨n % r :: values, ?_, digits_cons.2 ⟨Nat.mod_lt n hr, hdigits⟩, ?_⟩
    · rw [digits?, if_neg (Nat.ne_of_gt hr), hvalues, Option.map_some]
    · rw [index_cons, hindex, volume, Nat.mod_mul]

theorem digits?_mod {radix : List Nat} (hpos : ∀ r ∈ radix, 0 < r) (n : Nat) :
    digits? radix (n % volume radix) = digits? radix n := by
  obtain ⟨values, hvalues, hdigits, hindex⟩ := exists_digits? hpos n
  rw [← hindex, hdigits.digits?_index, hvalues]

/-- Whether the number read so far, the weight of the next digit and what that digit adds stay up to
a bound. -/
structure Place.Within (bound : Nat) (place : Place) (next? : Option (Nat × Nat)) : Prop where
  index_le : place.index ≤ bound
  weight_le : place.weight ≤ bound
  weighted_le : ∀ digit ∈ next?, digit.2 * place.weight ≤ bound

private theorem Place.step_lt {place : Place} (hplace : place.index < place.weight) {r v : Nat}
    (hv : v < r) : (place.step (r, v)).index < (place.step (r, v)).weight :=
  calc place.index + v * place.weight < place.weight + v * place.weight := by omega
    _ = place.weight * (v + 1) := by rw [Nat.mul_succ, Nat.mul_comm, Nat.add_comm]
    _ ≤ place.weight * r := Nat.mul_le_mul_left _ hv

/-- No place on the way exceeds what the weight will be after the last digit. -/
theorem Digits.within {radix values : List Nat} (h : Digits radix values) {place : Place}
    (hplace : place.index < place.weight) {before later : List (Nat × Nat)}
    (hsplit : radix.zip values = before ++ later) :
    (before.foldl Place.step place).Within (place.weight * volume radix) later.head? := by
  induction h generalizing place before with
  | nil =>
    obtain ⟨rfl, rfl⟩ : before = [] ∧ later = [] := by simpa using hsplit
    refine ⟨?_, ?_, by simp⟩
    · simpa [volume] using Nat.le_of_lt hplace
    · simp [volume]
  | @cons v r values radix hv hrest ih =>
    have hvolume : 0 < volume radix := Nat.zero_lt_of_lt (Digits.index_lt hrest)
    have hweight : place.weight * r ≤ place.weight * volume (r :: radix) :=
      Nat.mul_le_mul_left _ (Nat.le_mul_of_pos_right r hvolume)
    cases before with
    | nil =>
      obtain rfl : (r, v) :: radix.zip values = later := hsplit
      have hone : place.weight ≤ place.weight * r := Nat.le_mul_of_pos_right _ (by omega)
      refine ⟨Nat.le_trans (Nat.le_of_lt hplace) (Nat.le_trans hone hweight),
        Nat.le_trans hone hweight, ?_⟩
      rintro _ ⟨rfl⟩
      rw [Nat.mul_comm]
      exact Nat.le_trans (Nat.mul_le_mul_left _ (Nat.le_of_lt hv)) hweight
    | cons digit before =>
      obtain ⟨rfl, htail⟩ : (r, v) = digit ∧ radix.zip values = before ++ later := by
        simpa using hsplit
      rw [volume, ← Nat.mul_assoc]
      exact ih (Place.step_lt hplace hv) htail

theorem Digits.within_start {radix values : List Nat} (h : Digits radix values)
    {before later : List (Nat × Nat)} (hsplit : radix.zip values = before ++ later) :
    (before.foldl Place.step .start).Within (volume radix) later.head? := by
  have hstart : Place.start.index < Place.start.weight := by decide
  simpa [Place.start] using h.within hstart hsplit

/-- `Place.step` in words: every product and every sum starts over at `bound`. -/
def Place.stepWord (bound : Nat) (place : Place) (digit : Nat × Nat) : Place :=
  ⟨(place.index + digit.2 * place.weight % bound) % bound, place.weight * digit.1 % bound⟩

def indexWord (bound : Nat) (radix values : List Nat) : Nat :=
  ((radix.zip values).foldl (Place.stepWord bound) .start).index

private theorem Place.stepWord_eq {bound limit : Nat} {place : Place} {digit : Nat × Nat}
    {next? : Option (Nat × Nat)} (hplace : place.Within limit (some digit))
    (hstep : (place.step digit).Within limit next?) (hlimit : limit < bound) :
    place.stepWord bound digit = place.step digit := by
  have hweighted := Nat.mod_eq_of_lt (Nat.lt_of_le_of_lt (hplace.weighted_le digit rfl) hlimit)
  have hindex := Nat.mod_eq_of_lt (Nat.lt_of_le_of_lt hstep.index_le hlimit)
  have hweight := Nat.mod_eq_of_lt (Nat.lt_of_le_of_lt hstep.weight_le hlimit)
  rw [Place.step] at hindex hweight ⊢
  rw [Place.stepWord, hweighted, hindex, hweight]

/-- Words do not start over on the way to a number if they have room for the volume. -/
theorem Digits.indexWord_eq {radix values : List Nat} (h : Digits radix values) {bound : Nat}
    (hbound : volume radix < bound) : indexWord bound radix values = index radix values := by
  have hwithin : ∀ {before later}, radix.zip values = before ++ later →
      (before.foldl Place.step .start).Within (volume radix) later.head? := h.within_start
  have hplaces : ∀ before later, radix.zip values = before ++ later →
      before.foldl (Place.stepWord bound) .start = before.foldl Place.step .start := by
    intro before
    induction before using List.reverseRecOn with
    | nil => exact fun _ _ => rfl
    | append_singleton before digit ih =>
      intro later hsplit
      have hnext := hwithin hsplit
      rw [List.append_assoc] at hsplit
      rw [List.foldl_append] at hnext
      rw [List.foldl_append, List.foldl_append, ih _ hsplit]
      exact Place.stepWord_eq (hwithin hsplit) hnext hbound
  rw [indexWord, index, hplaces _ [] (List.append_nil _).symm]

theorem word?_eq {n : Nat} (h : n < wordLimit) : word? n = some n :=
  if_pos h

theorem word?_eq_none {n : Nat} (h : wordLimit ≤ n) : word? n = none :=
  if_neg (Nat.not_lt.2 h)

private theorem Place.step?_eq {limit : Nat} {place : Place} {digit : Nat × Nat}
    {next? : Option (Nat × Nat)} (hplace : place.Within limit (some digit))
    (hstep : (place.step digit).Within limit next?) (hlimit : limit < wordLimit) :
    place.step? digit = some (place.step digit) := by
  have hshare := word?_eq (Nat.lt_of_le_of_lt (hplace.weighted_le digit rfl) hlimit)
  have hindex := word?_eq (Nat.lt_of_le_of_lt hstep.index_le hlimit)
  have hweight := word?_eq (Nat.lt_of_le_of_lt hstep.weight_le hlimit)
  rw [Place.step] at hindex hweight ⊢
  simp only [Place.step?, hshare, hindex, hweight, Option.bind_eq_bind, Option.bind_some,
    Option.pure_def]

/-- Where the volume is a word, everything that is computed on the way to a number is. -/
theorem Digits.index?_eq {radix values : List Nat} (h : Digits radix values)
    (hvolume : volume radix < wordLimit) : index? radix values = some (index radix values) := by
  have hwithin : ∀ {before later}, radix.zip values = before ++ later →
      (before.foldl Place.step .start).Within (volume radix) later.head? := h.within_start
  have hplaces : ∀ before later, radix.zip values = before ++ later →
      before.foldlM Place.step? .start = some (before.foldl Place.step .start) := by
    intro before
    induction before using List.reverseRecOn with
    | nil => exact fun _ _ => rfl
    | append_singleton before digit ih =>
      intro later hsplit
      have hnext := hwithin hsplit
      rw [List.append_assoc] at hsplit
      rw [List.foldl_append] at hnext
      rw [List.foldlM_append, ih _ hsplit, List.foldl_append]
      simp only [List.foldlM_cons, List.foldlM_nil, Option.bind_eq_bind, Option.bind_some,
        Place.step?_eq (hwithin hsplit) hnext hvolume]
      rfl
  rw [index?, hplaces _ [] (List.append_nil _).symm]
  rfl

structure Enumerates (radix : List Nat) (joints : List (List Nat)) : Prop where
  digits : ∀ joint ∈ joints, Digits radix joint
  indices : joints.map (index radix) = List.range (volume radix)

namespace Enumerates

variable {radix : List Nat} {joints : List (List Nat)}

theorem nodup (h : Enumerates radix joints) : joints.Nodup := by
  refine List.Nodup.of_map (index radix) ?_
  rw [h.indices]
  exact List.nodup_range

theorem length_eq (h : Enumerates radix joints) : joints.length = volume radix := by
  have hlen := congrArg List.length h.indices
  simpa using hlen

theorem mem_iff (h : Enumerates radix joints) {joint : List Nat} :
    joint ∈ joints ↔ Digits radix joint := by
  constructor
  · exact h.digits joint
  · intro hd
    have hmem : index radix joint ∈ joints.map (index radix) := by
      rw [h.indices]
      exact List.mem_range.2 hd.index_lt
    obtain ⟨other, hother, heq⟩ := List.mem_map.1 hmem
    rw [← (h.digits other hother).index_injective hd heq]
    exact hother

private theorem getElem?_index (h : Enumerates radix joints) {joint : List Nat}
    (hd : Digits radix joint) : joints[index radix joint]? = some joint := by
  obtain ⟨i, hi, heq⟩ := List.getElem_of_mem (h.mem_iff.2 hd)
  have hindex : index radix joint = i := by
    have hget : (joints.map (index radix))[i]? = some (index radix joint) := by
      simp [List.getElem?_eq_getElem hi, heq]
    rw [h.indices] at hget
    simpa using (List.getElem?_eq_some_iff.1 hget).2.symm
  rw [hindex, List.getElem?_eq_getElem hi, heq]

theorem count_eq_one (h : Enumerates radix joints) {joint : List Nat} (hd : Digits radix joint) :
    joints.count joint = 1 :=
  List.count_eq_one_of_mem h.nodup (h.mem_iff.2 hd)

theorem exists_getElem? (h : Enumerates radix joints) {place : Nat} (hplace : place < volume radix) :
    ∃ joint, joints[place]? = some joint ∧ digits? radix place = some joint ∧
      Digits radix joint ∧ index radix joint = place := by
  have hpos := volume_pos_iff.1 (Nat.zero_lt_of_lt hplace)
  obtain ⟨joint, hjoint, hdigits, hindex⟩ := exists_digits? hpos place
  rw [Nat.mod_eq_of_lt hplace] at hindex
  exact ⟨joint, hindex ▸ h.getElem?_index hdigits, hjoint, hdigits, hindex⟩

end Enumerates

end JointDecision.MixedRadix

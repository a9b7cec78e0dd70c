import JointDecision.Space
import JointDecision.Proofs.Lists
import JointDecision.Proofs.MixedRadix
import Mathlib.Logic.Function.Basic

/-! # Full assignments and valuations

A full assignment has a value for every variable, inside its domain. As a valuation it can be
changed at one variable without regard to the list it came from. -/

namespace JointDecision

/-- A value for every number; the variables of a space are the first of these. -/
abbrev Valuation := Nat → Nat

def valuation (full : List Nat) : Valuation :=
  fun key => full.getD key 0

namespace Space

variable {space : Space}

@[simp] theorem getElem?_eq_domain {key : Nat} (h : key < space.length) :
    space[key]? = some (space.domain key) := by
  simp [domain, h]

theorem radix?_eq {keys : List Nat} (hkeys : ∀ key ∈ keys, key < space.length) :
    space.radix? keys = some (keys.map space.domain) :=
  mapM_eq_some_map fun key hkey => getElem?_eq_domain (hkeys key hkey)

def FitsWord (space : Space) (keys : List Nat) : Prop :=
  MixedRadix.volume (keys.map space.domain) < wordLimit

instance (space : Space) (keys : List Nat) : Decidable (space.FitsWord keys) :=
  inferInstanceAs (Decidable (_ < _))

theorem jointSize?_eq {keys : List Nat} (hkeys : ∀ key ∈ keys, key < space.length)
    (hword : space.FitsWord keys) :
    space.jointSize? keys = some (MixedRadix.volume (keys.map space.domain)) := by
  rw [jointSize?, radix?_eq hkeys, Option.bind_some, MixedRadix.word?_eq hword]

theorem jointSize?_eq_none {keys : List Nat} (hkeys : ∀ key ∈ keys, key < space.length)
    (hword : ¬ space.FitsWord keys) : space.jointSize? keys = none := by
  rw [jointSize?, radix?_eq hkeys, Option.bind_some, MixedRadix.word?_eq_none (Nat.not_lt.1 hword)]

theorem eq_of_radix? {keys radix : List Nat} (h : space.radix? keys = some radix) :
    radix = keys.map space.domain := by
  have hsizes := forall₂_of_mapM h
  clear h
  induction hsizes with
  | nil => rfl
  | cons hsize _ ih =>
    rw [List.map_cons, ← ih, domain, List.getD_eq_getElem?_getD, hsize, Option.getD_some]

theorem of_jointSize? {keys : List Nat} {size : Nat} (h : space.jointSize? keys = some size) :
    size = MixedRadix.volume (keys.map space.domain) ∧ space.FitsWord keys := by
  rw [jointSize?, Option.bind_eq_some_iff] at h
  obtain ⟨radix, hradix, hsize⟩ := h
  obtain rfl := eq_of_radix? hradix
  rw [word?, Option.ite_none_right_eq_some] at hsize
  exact ⟨(Option.some.inj hsize.2).symm, hsize.1⟩

def Inhabited (space : Space) : Prop :=
  ∀ size ∈ space, 0 < size

instance (space : Space) : Decidable space.Inhabited :=
  inferInstanceAs (Decidable (∀ size ∈ space, 0 < size))

theorem inhabited_of_validate (h : space.validate = .ok ()) : space.Inhabited := by
  unfold validate at h
  split at h
  · cases h
  · rename_i hnone
    intro size hsize
    have hne := List.findIdx?_eq_none_iff.1 hnone size hsize
    exact Nat.pos_of_ne_zero (by simpa using hne)

theorem Inhabited.domain_pos (h : space.Inhabited) {key : Nat} (hkey : key < space.length) :
    0 < space.domain key := by
  refine h _ ?_
  simp [domain, hkey]

theorem Inhabited.radix_pos (h : space.Inhabited) {keys : List Nat}
    (hkeys : ∀ key ∈ keys, key < space.length) : ∀ r ∈ keys.map space.domain, 0 < r := by
  intro r hr
  obtain ⟨key, hkey, rfl⟩ := List.mem_map.1 hr
  exact h.domain_pos (hkeys key hkey)

theorem validate_eq_ok (h : space.Inhabited) : space.validate = .ok () := by
  have hnone : space.findIdx? (· == 0) = none := by
    rw [List.findIdx?_eq_none_iff]
    intro size hsize
    have := h size hsize
    simp only [beq_eq_false_iff_ne]
    omega
  simp [validate, hnone]

def FirstEmpty (space : Space) (key : Nat) : Prop :=
  space[key]? = some 0 ∧ ∀ other < key, 0 < space.domain other

theorem FirstEmpty.validate_eq {key : Nat} (h : space.FirstEmpty key) :
    space.validate = .error (.emptyDomain key) := by
  obtain ⟨hkey, hothers⟩ := h
  obtain ⟨hlt, hzero⟩ := List.getElem?_eq_some_iff.1 hkey
  have hfirst : space.findIdx? (· == 0) = some key := by
    refine List.findIdx?_eq_some_iff_getElem.2 ⟨hlt, by simp [hzero], fun other hother => ?_⟩
    have hpos := hothers other hother
    have hin : other < space.length := Nat.lt_trans hother hlt
    simp only [domain, List.getD_eq_getElem?_getD, List.getElem?_eq_getElem hin,
      Option.getD_some] at hpos
    simpa using Nat.ne_of_gt hpos
  simp [validate, hfirst]

theorem exists_firstEmpty (h : ¬ space.Inhabited) : ∃ key, space.FirstEmpty key := by
  cases hfirst : space.findIdx? (· == 0) with
  | none =>
    refine absurd (fun size hsize => ?_) h
    exact Nat.pos_of_ne_zero (by simpa using List.findIdx?_eq_none_iff.1 hfirst size hsize)
  | some key =>
    obtain ⟨hlt, hzero, hothers⟩ := List.findIdx?_eq_some_iff_getElem.1 hfirst
    refine ⟨key, by simpa [List.getElem?_eq_getElem hlt] using hzero, fun other hother => ?_⟩
    have hne := hothers other hother
    have hin : other < space.length := Nat.lt_trans hother hlt
    rw [domain, List.getD_eq_getElem?_getD, List.getElem?_eq_getElem hin, Option.getD_some]
    exact Nat.pos_of_ne_zero (by simpa using hne)

def Admits (space : Space) (full : List Nat) : Prop :=
  MixedRadix.Digits space full

instance (space : Space) (full : List Nat) : Decidable (space.Admits full) :=
  inferInstanceAs (Decidable (MixedRadix.Digits space full))

def Respects (space : Space) (x : Valuation) : Prop :=
  ∀ key < space.length, x key < space.domain key

theorem Admits.length_eq {full : List Nat} (h : space.Admits full) :
    full.length = space.length :=
  MixedRadix.Digits.length_eq h

theorem admits_iff {full : List Nat} :
    space.Admits full ↔ full.length = space.length ∧ space.Respects (valuation full) := by
  constructor
  · intro h
    refine ⟨h.length_eq, ?_⟩
    intro key hkey
    have hfull : key < full.length := by rw [h.length_eq]; exact hkey
    have hget := (List.forall₂_iff_get.1 h).2 key hfull hkey
    simpa [valuation, domain, hfull, hkey] using hget
  · intro h'
    obtain ⟨hlength, hrespects⟩ := h'
    refine List.forall₂_iff_get.2 ⟨hlength, ?_⟩
    intro key hfull hkey
    have hlt := hrespects key hkey
    simpa [valuation, domain, hfull, hkey] using hlt

theorem Respects.update {x : Valuation} (h : space.Respects x) {key value : Nat}
    (hvalue : value < space.domain key) : space.Respects (Function.update x key value) := by
  intro other hother
  by_cases heq : other = key
  · subst heq
    simpa using hvalue
  · simpa [heq] using h other hother

theorem Inhabited.respects_zero (h : space.Inhabited) : space.Respects fun _ => 0 :=
  fun _ hkey => h.domain_pos hkey

theorem valuation_origin (space : Space) (key : Nat) : valuation space.origin key = 0 := by
  by_cases hkey : key < space.length
  · simp [valuation, origin, hkey]
  · simp [valuation, origin, hkey]

theorem Inhabited.admits_origin (h : space.Inhabited) : space.Admits space.origin := by
  refine admits_iff.2 ⟨List.length_replicate, fun key hkey => ?_⟩
  rw [valuation_origin]
  exact h.domain_pos hkey

def tabulate (space : Space) (x : Valuation) : List Nat :=
  (List.range space.length).map x

theorem valuation_tabulate {x : Valuation} {key : Nat} (hkey : key < space.length) :
    valuation (space.tabulate x) key = x key := by
  simp [valuation, tabulate, hkey]

theorem tabulate_valuation {full : List Nat} (h : full.length = space.length) :
    space.tabulate (valuation full) = full := by
  refine List.ext_getElem (by simp [tabulate, h]) fun key _ hkey => ?_
  simp [tabulate, valuation, hkey]

theorem Respects.admits_tabulate {x : Valuation} (h : space.Respects x) :
    space.Admits (space.tabulate x) := by
  refine admits_iff.2 ⟨by simp [tabulate], ?_⟩
  intro key hkey
  rw [valuation_tabulate hkey]
  exact h key hkey

theorem Admits.ext {a b : List Nat} (ha : space.Admits a) (hb : space.Admits b)
    (h : ∀ key < space.length, valuation a key = valuation b key) : a = b := by
  refine List.ext_getElem (ha.length_eq.trans hb.length_eq.symm) ?_
  intro key hkeya hkeyb
  have := h key (ha.length_eq ▸ hkeya)
  simpa [valuation, hkeya, hkeyb] using this

end Space

/-- The valuation that has the given values at some keys, and the first value elsewhere. -/
def overlay (keys values : List Nat) : Valuation :=
  fun key => ((keys.zip values).lookup key).getD 0

theorem map_overlay {keys values : List Nat} (hnodup : keys.Nodup)
    (hlength : values.length = keys.length) : keys.map (overlay keys values) = values := by
  induction keys generalizing values with
  | nil => simpa [eq_comm] using hlength
  | cons key keys ih =>
    cases values with
    | nil => simp at hlength
    | cons value values =>
      obtain ⟨hkey, hnodup⟩ := List.nodup_cons.1 hnodup
      have hrest := ih hnodup (by simpa using hlength)
      have hsame : keys.map (overlay (key :: keys) (value :: values)) =
          keys.map (overlay keys values) := by
        refine List.map_congr_left ?_
        intro other hother
        have hbeq : (other == key) = false := by
          have : other ≠ key := fun heq => hkey (heq ▸ hother)
          simpa using this
        simp [overlay, List.lookup_cons, hbeq]
      rw [List.map_cons, hsame, hrest]
      simp [overlay]

theorem value_lt_of_mem_zip {space : Space} {keys values : List Nat}
    (hvalues : MixedRadix.Digits (keys.map space.domain) values) {entry : Nat × Nat}
    (hentry : entry ∈ keys.zip values) : entry.2 < space.domain entry.1 := by
  have hflip : List.Forall₂ (fun key value => value < space.domain key) keys values :=
    (List.forall₂_map_right_iff.1 hvalues).flip
  exact List.forall₂_zip hflip hentry

/-- What a key has beside it is what the valuation gives it. -/
theorem lookup_zip_eq {keys values : List Nat} (hlength : values.length = keys.length) {key : Nat}
    (hkey : key ∈ keys) : (keys.zip values).lookup key = some (overlay keys values key) := by
  cases hlookup : (keys.zip values).lookup key with
  | some value => rw [overlay, hlookup, Option.getD_some]
  | none =>
    rw [← List.map_fst_zip (Nat.le_of_eq hlength.symm)] at hkey
    obtain ⟨entry, hentry, rfl⟩ := List.mem_map.1 hkey
    have hne := List.lookup_eq_none_iff.1 hlookup entry hentry
    simp at hne

theorem overlay_lt {space : Space} {keys values : List Nat}
    (hvalues : MixedRadix.Digits (keys.map space.domain) values) {key : Nat} (hkey : key ∈ keys) :
    overlay keys values key < space.domain key :=
  value_lt_of_mem_zip hvalues
    (mem_of_lookup (lookup_zip_eq (by simpa using hvalues.length_eq) hkey))

theorem respects_overlay {space : Space} (hspace : space.Inhabited) {keys values : List Nat}
    (hvalues : MixedRadix.Digits (keys.map space.domain) values) :
    space.Respects (overlay keys values) := by
  intro key hkey
  unfold overlay
  cases hlookup : (keys.zip values).lookup key with
  | none => exact hspace.domain_pos hkey
  | some value => exact value_lt_of_mem_zip hvalues (mem_of_lookup hlookup)

theorem digits_map {space : Space} {x : Valuation} (hx : space.Respects x) {keys : List Nat}
    (hkeys : ∀ key ∈ keys, key < space.length) :
    MixedRadix.Digits (keys.map space.domain) (keys.map x) := by
  apply List.forall₂_map_left_iff.2
  apply List.forall₂_map_right_iff.2
  exact List.forall₂_same.2 fun key hkey => hx key (hkeys key hkey)

end JointDecision

import JointDecision.Odometer
import JointDecision.Proofs.Space
import Mathlib.Logic.Function.Iterate

/-! # What an odometer visits

Started on domains that all have a value, an odometer visits every list of digits exactly once, in
the order of their indices. -/

namespace JointDecision

open MixedRadix

namespace Odometer

/-- One tick adds one to the index, unless every digit turns over. -/
theorem tick_spec {radix values : List Nat} (h : Digits radix values) :
    Digits radix (tick radix values).1 ∧
      ((tick radix values).2 = true →
        index radix (tick radix values).1 = index radix values + 1) ∧
      ((tick radix values).2 = false →
        index radix (tick radix values).1 = 0 ∧ index radix values + 1 = volume radix) := by
  induction h with
  | nil => simp [tick, volume]
  | @cons v r values radix hv hrest ih =>
    obtain ⟨hdigits, hmoved, hturned⟩ := ih
    by_cases hlt : v + 1 < r
    · have htick : tick (r :: radix) (v :: values) = ((v + 1) :: values, true) := by
        simp [tick, hlt]
      rw [htick]
      refine ⟨digits_cons.2 ⟨hlt, hrest⟩, ?_, by simp⟩
      intro _
      rw [index_cons, index_cons]
      omega
    · have htick : tick (r :: radix) (v :: values) =
          (0 :: (tick radix values).1, (tick radix values).2) := by
        simp [tick, hlt]
      have hr : v + 1 = r := by omega
      rw [htick]
      refine ⟨digits_cons.2 ⟨by omega, hdigits⟩, ?_, ?_⟩
      · intro hflag
        rw [index_cons, index_cons, hmoved hflag, Nat.mul_succ]
        omega
      · intro hflag
        obtain ⟨hzero, hlast⟩ := hturned hflag
        rw [index_cons, index_cons, hzero, volume, ← hlast, Nat.mul_succ]
        omega

/-- From a joint value on, a visit of no more steps than are left goes through the indices one by
one. -/
theorem visit_spec (limit : Nat) (o : Odometer) (hvalid : o.valid = true)
    (hdigits : Digits o.radix o.values) (hlimit : index o.radix o.values + limit ≤ volume o.radix) :
    (∀ joint ∈ (visit limit o).1, Digits o.radix joint) ∧
      (visit limit o).1.map (index o.radix) =
        List.range' (index o.radix o.values) limit := by
  induction limit generalizing o with
  | zero => simp [visit]
  | succ limit ih =>
    have hvisit : (visit (limit + 1) o).1 = o.values :: (visit limit o.advance).1 := by
      simp [visit, hvalid]
    obtain ⟨hnext, hmoved, hturned⟩ := tick_spec hdigits
    cases limit with
    | zero => simp [visit, hvalid, hdigits]
    | succ rest =>
      have hflag : (tick o.radix o.values).2 = true := by
        by_contra hflag
        have hlast := (hturned (by simpa using hflag)).2
        omega
      have hindex : index o.advance.radix o.advance.values = index o.radix o.values + 1 :=
        hmoved hflag
      obtain ⟨hall, hmap⟩ := ih o.advance (by simp [advance, hvalid, hflag]) hnext (by
        rw [hindex]
        exact le_of_eq_of_le (by omega) hlimit)
      rw [hvisit]
      refine ⟨?_, ?_⟩
      · intro joint hjoint
        rcases List.mem_cons.1 hjoint with rfl | hjoint
        · exact hdigits
        · exact hall joint hjoint
      · rw [List.map_cons, List.range'_succ]
        rw [hindex] at hmap
        exact congrArg _ hmap

/-- Whether an odometer stands at the joint value with an index. With the index one past the last it
is exhausted. -/
structure StandsAt (o : Odometer) (place : Nat) : Prop where
  digits : Digits o.radix o.values
  valid : o.valid = decide (place < volume o.radix)
  index_eq : place < volume o.radix → index o.radix o.values = place

theorem StandsAt.advance {o : Odometer} {place : Nat} (h : o.StandsAt place)
    (hplace : place < volume o.radix) : o.advance.StandsAt (place + 1) := by
  obtain ⟨hnext, hmoved, hturned⟩ := tick_spec h.digits
  have hvalid : o.valid = true := by rw [h.valid, decide_eq_true hplace]
  have hindex := h.index_eq hplace
  cases hflag : (tick o.radix o.values).2 with
  | true =>
    have hsucc := hmoved hflag
    have hlt : place + 1 < volume o.radix := by
      rw [← hindex, ← hsucc]
      exact hnext.index_lt
    refine ⟨hnext, ?_, fun _ => by rw [← hindex]; exact hsucc⟩
    exact Eq.trans (by simp [Odometer.advance, hvalid, hflag]) (decide_eq_true hlt).symm
  | false =>
    have hlast := (hturned hflag).2
    rw [hindex] at hlast
    have hge : ¬ place + 1 < volume o.radix := by omega
    refine ⟨hnext, ?_, fun hlt => absurd hlt hge⟩
    exact Eq.trans (by simp [Odometer.advance, hflag]) (decide_eq_false hge).symm

theorem radix_iterate (o : Odometer) (steps : Nat) :
    (Odometer.advance^[steps] o).radix = o.radix := by
  induction steps with
  | zero => rfl
  | succ steps ih =>
    rw [Function.iterate_succ_apply']
    exact ih

theorem StandsAt.iterate {o : Odometer} (h : o.StandsAt 0) {steps : Nat}
    (hsteps : steps ≤ volume o.radix) : (Odometer.advance^[steps] o).StandsAt steps := by
  induction steps with
  | zero => exact h
  | succ steps ih =>
    rw [Function.iterate_succ_apply']
    refine (ih (by omega)).advance ?_
    rw [radix_iterate]
    omega

private theorem digits_origin {radix : List Nat} (hpos : ∀ r ∈ radix, 0 < r) :
    Digits radix (List.replicate radix.length 0) ∧
      index radix (List.replicate radix.length 0) = 0 := by
  induction radix with
  | nil => simp
  | cons r radix ih =>
    obtain ⟨hdigits, hindex⟩ := ih fun s hs => hpos s (List.mem_cons_of_mem _ hs)
    rw [List.length_cons, List.replicate_succ, digits_cons, index_cons, hindex]
    exact ⟨⟨hpos r List.mem_cons_self, hdigits⟩, by simp⟩

theorem standsAt_start (keys : List Nat) {radix : List Nat} (hpos : ∀ r ∈ radix, 0 < r) :
    (start keys radix).StandsAt 0 := by
  obtain ⟨hdigits, hindex⟩ := digits_origin hpos
  have hlt : 0 < volume radix := by
    rw [← hindex]
    exact hdigits.index_lt
  refine ⟨hdigits, ?_, fun _ => hindex⟩
  exact Eq.trans (by simpa [start] using hpos) (decide_eq_true hlt).symm

/-- From the start, every list of digits is visited where its index says. A radix of zero leaves
none. -/
theorem drain_start (keys radix : List Nat) : Enumerates radix (start keys radix).drain.1 := by
  by_cases hpos : ∀ r ∈ radix, 0 < r
  · obtain ⟨hdigits, hindex⟩ := digits_origin hpos
    have hvalid : (start keys radix).valid = true := by
      simpa [start] using hpos
    obtain ⟨hall, hmap⟩ := visit_spec (volume radix) (start keys radix) hvalid hdigits (by
      simp [start, hindex])
    refine ⟨hall, ?_⟩
    rw [List.range_eq_range', ← hindex]
    exact hmap
  · have hvolume : volume radix = 0 := Nat.eq_zero_of_not_pos (mt volume_pos_iff.1 hpos)
    have hdrain : (start keys radix).drain = ([], start keys radix) := by
      rw [drain, show (start keys radix).size = 0 from hvolume, visit]
    rw [hdrain]
    exact ⟨by simp, by simp [hvolume]⟩

end Odometer

theorem Space.index?_eq {space : Space} {keys values : List Nat}
    (hkeys : ∀ key ∈ keys, key < space.length) (hword : space.FitsWord keys)
    (hvalues : Digits (keys.map space.domain) values) :
    space.index? keys values = some (index (keys.map space.domain) values) := by
  have hlength : values.length = keys.length := by simpa using hvalues.length_eq
  rw [index?, List.take_of_length_le (Nat.le_of_eq hlength.symm), radix?_eq hkeys, Option.bind_some,
    hvalues.index?_eq hword]

theorem Space.jointValues?_eq {space : Space} {keys : List Nat}
    (hkeys : ∀ key ∈ keys, key < space.length) :
    ∃ joints, space.jointValues? keys = some joints ∧
      Enumerates (keys.map space.domain) joints := by
  refine ⟨(Odometer.start keys (keys.map space.domain)).drain.1, ?_, ?_⟩
  · simp [jointValues?, Odometer.new?, radix?_eq hkeys]
  · exact Odometer.drain_start keys (keys.map space.domain)

/-- Counted from zero beside an odometer, the steps are the indices of the joint values that it
shows, and the odometer is exhausted when the count is the number of joint values. -/
theorem Space.exists_walk {space : Space} (h : space.Inhabited) {keys : List Nat}
    (hkeys : ∀ key ∈ keys, key < space.length) (hword : space.FitsWord keys) :
    ∃ o, Odometer.new? space keys = some o ∧ ∀ place ≤ volume (keys.map space.domain),
      (Odometer.advance^[place] o).valid = decide (place < volume (keys.map space.domain)) ∧
        (place < volume (keys.map space.domain) →
          space.index? keys (Odometer.advance^[place] o).values = some place) := by
  refine ⟨.start keys (keys.map space.domain), by simp [Odometer.new?, radix?_eq hkeys],
    fun place hplace => ?_⟩
  obtain ⟨hdigits, hvalid, hindex⟩ :=
    (Odometer.standsAt_start keys (h.radix_pos hkeys)).iterate hplace
  rw [Odometer.radix_iterate, show (Odometer.start keys (keys.map space.domain)).radix =
    keys.map space.domain from rfl] at hdigits hvalid hindex
  refine ⟨hvalid, fun hlt => ?_⟩
  rw [index?_eq hkeys hword hdigits, hindex hlt]

end JointDecision

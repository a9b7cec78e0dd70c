import JointDecision.Proofs.Trie

/-! # Narrowing in any order

A restriction is a filter, so restrictions commute, and a walk that stops at the empty list misses
nothing. The first range of a walk is united instead of restricting. Where the lists of each range
are disjoint, the union has every identifier once, and any range may come first. -/

namespace JointDecision.Trie

/-- Restricts a list by one range after another, until nothing is left. -/
def restrictAll : List Nat → List Range → List Nat
  | [], _ => []
  | ids, [] => ids
  | ids, range :: ranges => restrictAll (restrictIds ids range.pinned range.wild) ranges

private theorem foldl_restrictIds_nil (ranges : List Range) :
    ranges.foldl (fun result range => restrictIds result range.pinned range.wild) [] = [] := by
  induction ranges with
  | nil => rfl
  | cons range ranges ih => exact ih

/-- Stopping early changes nothing. -/
theorem restrictAll_eq_foldl (ids : List Nat) (ranges : List Range) :
    restrictAll ids ranges =
      ranges.foldl (fun result range => restrictIds result range.pinned range.wild) ids := by
  fun_induction restrictAll ids ranges with
  | case1 ranges => exact (foldl_restrictIds_nil ranges).symm
  | case2 ids _ => rfl
  | case3 ids range ranges _ ih => exact ih

theorem restrictAll_eq {ids : List Nat} (hids : ids.Pairwise (· ≤ ·)) {ranges : List Range}
    (hranges : ∀ range ∈ ranges, range.Increasing) :
    restrictAll ids ranges =
      ids.filter fun id => ∀ range ∈ ranges, id ∈ range.pinned ∨ id ∈ range.wild := by
  rw [restrictAll_eq_foldl, foldl_restrictIds hids hranges]
  apply List.filter_congr
  intro id _
  rw [Bool.eq_iff_iff]
  simp [Range.has]

theorem restrictAll_perm {ids : List Nat} (hids : ids.Pairwise (· ≤ ·))
    {ranges others : List Range} (hranges : ∀ range ∈ ranges, range.Increasing)
    (hperm : ranges.Perm others) : restrictAll ids others = restrictAll ids ranges := by
  have hothers : ∀ range ∈ others, range.Increasing :=
    fun range hrange => hranges range (hperm.mem_iff.2 hrange)
  rw [restrictAll_eq hids hranges, restrictAll_eq hids hothers]
  simp only [hperm.mem_iff]

/-- The ranges behind the first restrict what the first unites. -/
theorem narrow_eq_restrictAll (ids : List Nat) (first : Range) (rest : List Range) :
    narrow ids (first :: rest) = restrictAll (unionIds first.pinned first.wild) rest :=
  (restrictAll_eq_foldl _ rest).symm

theorem mem_narrow {ids : List Nat} {first : Range} {rest : List Range}
    (hranges : ∀ range ∈ first :: rest, range.Increasing) {id : Nat} :
    id ∈ narrow ids (first :: rest) ↔
      ∀ range ∈ first :: rest, id ∈ range.pinned ∨ id ∈ range.wild := by
  rw [narrow_cons ids hranges, List.mem_filter, mem_unionIds, List.forall_mem_cons]
  simp [Range.has]

theorem pairwise_narrow {ids : List Nat} {first : Range} {rest : List Range}
    (hranges : ∀ range ∈ first :: rest, range.Increasing)
    (hdisjoint : ∀ id ∈ first.pinned, id ∉ first.wild) :
    (narrow ids (first :: rest)).Pairwise (· < ·) := by
  have hfirst := hranges first List.mem_cons_self
  rw [narrow_cons ids hranges]
  apply List.Pairwise.filter
  exact pairwise_unionIds hfirst.pinned hfirst.wild hdisjoint

/-- Any range may come first, since an increasing list is determined by its members. -/
theorem narrow_perm {ids : List Nat} {ranges others : List Range}
    (hranges : ∀ range ∈ ranges, range.Increasing)
    (hdisjoint : ∀ range ∈ ranges, ∀ id ∈ range.pinned, id ∉ range.wild)
    (hperm : ranges.Perm others) : narrow ids others = narrow ids ranges := by
  cases ranges with
  | nil => rw [hperm.nil_eq]
  | cons first rest =>
    cases others with
    | nil => exact absurd hperm.eq_nil (List.cons_ne_nil first rest)
    | cons head tail =>
      have hothers : ∀ range ∈ head :: tail, range.Increasing :=
        fun range hrange => hranges range (hperm.mem_iff.2 hrange)
      have hhead := hdisjoint head (hperm.mem_iff.2 List.mem_cons_self)
      apply (pairwise_narrow hothers hhead).eq_of_mem_iff
        (pairwise_narrow hranges (hdisjoint first List.mem_cons_self))
      intro id
      rw [mem_narrow hothers, mem_narrow hranges]
      simp only [hperm.mem_iff]

/-- The union of disjoint increasing lists is increasing and has the members of both, and the
restriction by increasing lists is a filter. So a list in order may be restricted by ranges in any
order. A walk from the first range on may stop when nothing is left; if the lists of each range are
disjoint, it lists the identifiers that every range has, whichever range comes first. -/
theorem walks_exact :
    (∀ {pinned wild : List Nat}, pinned.Pairwise (· < ·) → wild.Pairwise (· < ·) →
      (∀ id ∈ pinned, id ∉ wild) →
        (unionIds pinned wild).Pairwise (· < ·) ∧
          ∀ id, id ∈ unionIds pinned wild ↔ id ∈ pinned ∨ id ∈ wild) ∧
    (∀ {pinned wild ids : List Nat}, pinned.Pairwise (· < ·) → wild.Pairwise (· < ·) →
      ids.Pairwise (· ≤ ·) →
        restrictIds ids pinned wild = ids.filter fun id => id ∈ pinned ∨ id ∈ wild) ∧
    (∀ {ids : List Nat} {ranges others : List Range}, ids.Pairwise (· ≤ ·) →
      (∀ range ∈ ranges, range.Increasing) → ranges.Perm others →
        restrictAll ids others = restrictAll ids ranges ∧
          restrictAll ids ranges =
            ids.filter fun id => ∀ range ∈ ranges, id ∈ range.pinned ∨ id ∈ range.wild) ∧
    ∀ {ids : List Nat} {first : Range} {rest others : List Range},
      (∀ range ∈ first :: rest, range.Increasing) →
      (∀ range ∈ first :: rest, ∀ id ∈ range.pinned, id ∉ range.wild) →
      (first :: rest).Perm others →
        narrow ids others = narrow ids (first :: rest) ∧
          narrow ids (first :: rest) = restrictAll (unionIds first.pinned first.wild) rest ∧
          (narrow ids (first :: rest)).Pairwise (· < ·) ∧
          ∀ id, id ∈ narrow ids (first :: rest) ↔
            ∀ range ∈ first :: rest, id ∈ range.pinned ∨ id ∈ range.wild := by
  refine ⟨?union, ?restriction, ?restrictions, ?walk⟩
  case union =>
    intro pinned wild hpinned hwild hdisjoint
    exact ⟨pairwise_unionIds hpinned hwild hdisjoint, fun id => mem_unionIds⟩
  case restriction =>
    intro pinned wild ids hpinned hwild hids
    exact restrictIds_eq hids hpinned hwild
  case restrictions =>
    intro ids ranges others hids hranges hperm
    exact ⟨restrictAll_perm hids hranges hperm, restrictAll_eq hids hranges⟩
  case walk =>
    intro ids first rest others hranges hdisjoint hperm
    exact ⟨narrow_perm hranges hdisjoint hperm, narrow_eq_restrictAll ids first rest,
      pairwise_narrow hranges (hdisjoint first List.mem_cons_self), fun id => mem_narrow hranges⟩

def broadRange : Range := ⟨[1, 4, 6], [2, 5, 9]⟩

def smallRange : Range := ⟨[5], [1, 7]⟩

/-- A list with repeated identifiers under both ranges in either order, and the ranges alone. -/
theorem walks_exact_repeated :
    (unionIds broadRange.pinned broadRange.wild).Pairwise (· < ·) ∧
    restrictIds [1, 1, 3, 4, 5, 5, 8] broadRange.pinned broadRange.wild = [1, 1, 4, 5, 5] ∧
    restrictAll [1, 1, 3, 4, 5, 5, 8] [smallRange, broadRange] = [1, 1, 5, 5] ∧
    restrictAll [1, 1, 3, 4, 5, 5, 8] [broadRange, smallRange] = [1, 1, 5, 5] ∧
    narrow [] [smallRange, broadRange] = narrow [] [broadRange, smallRange] ∧
    ∀ id, id ∈ narrow [] [broadRange, smallRange] ↔ id = 1 ∨ id = 5 := by
  have hbroad : broadRange.Increasing := ⟨by decide, by decide⟩
  have hsmall : smallRange.Increasing := ⟨by decide, by decide⟩
  have hranges : ∀ range ∈ [broadRange, smallRange], range.Increasing :=
    List.forall_mem_cons.2 ⟨hbroad, by simpa using hsmall⟩
  have hdisjoint : ∀ range ∈ [broadRange, smallRange], ∀ id ∈ range.pinned, id ∉ range.wild := by
    decide
  have hids : [1, 1, 3, 4, 5, 5, 8].Pairwise (· ≤ ·) := by decide
  have hswap := List.Perm.swap smallRange broadRange []
  obtain ⟨hunion, hrestrict, hall, hwalk⟩ := walks_exact
  obtain ⟨hincreasing, -⟩ := hunion hbroad.pinned hbroad.wild (by decide)
  obtain ⟨hsame, hfilter⟩ := hall hids hranges hswap
  obtain ⟨hfirst, -, -, hmem⟩ := @hwalk [] _ _ _ hranges hdisjoint hswap
  have hfound := hfilter.trans (by decide : _ = [1, 1, 5, 5])
  refine ⟨hincreasing, (hrestrict hbroad.pinned hbroad.wild hids).trans (by decide),
    hsame.trans hfound, hfound, hfirst, fun id => ?_⟩
  rw [hmem]
  simp only [broadRange, smallRange, List.mem_cons, List.not_mem_nil, or_false, forall_eq_or_imp,
    forall_eq]
  omega

end JointDecision.Trie

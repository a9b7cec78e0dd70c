import JointDecision.Trie.Ids
import Mathlib.Data.List.Sort

/-! # The identifiers that both walks keep

On increasing lists the union lists every member once, and the restriction keeps exactly the
identifiers of either list, although it cuts both lists down on the way. -/

namespace JointDecision.Trie

theorem unionIds_perm (lhs rhs : List Nat) : (unionIds lhs rhs).Perm (lhs ++ rhs) := by
  fun_induction unionIds lhs rhs with
  | case1 rhs => exact .refl rhs
  | case2 lhs _ => simp
  | case3 a lhs b rhs hab ih => exact ih.cons a
  | case4 a lhs b rhs hab ih => exact (ih.cons b).trans List.perm_middle.symm

theorem mem_unionIds {id : Nat} {lhs rhs : List Nat} :
    id ∈ unionIds lhs rhs ↔ id ∈ lhs ∨ id ∈ rhs := by
  rw [(unionIds_perm lhs rhs).mem_iff, List.mem_append]

theorem sorted_unionIds {lhs rhs : List Nat} (hl : lhs.Pairwise (· ≤ ·))
    (hr : rhs.Pairwise (· ≤ ·)) : (unionIds lhs rhs).Pairwise (· ≤ ·) := by
  fun_induction unionIds lhs rhs with
  | case1 rhs => exact hr
  | case2 lhs _ => exact hl
  | case3 a lhs b rhs hab ih =>
    obtain ⟨ha, hl⟩ := List.pairwise_cons.1 hl
    refine List.pairwise_cons.2 ⟨fun id hid => ?_, ih hl hr⟩
    rcases mem_unionIds.1 hid with hid | hid
    · exact ha id hid
    · rcases List.mem_cons.1 hid with rfl | hid
      · exact Nat.le_of_lt hab
      · exact Nat.le_trans (Nat.le_of_lt hab) ((List.pairwise_cons.1 hr).1 id hid)
  | case4 a lhs b rhs hab ih =>
    obtain ⟨hb, hr⟩ := List.pairwise_cons.1 hr
    have hba : b ≤ a := Nat.not_lt.1 hab
    refine List.pairwise_cons.2 ⟨fun id hid => ?_, ih hl hr⟩
    rcases mem_unionIds.1 hid with hid | hid
    · rcases List.mem_cons.1 hid with rfl | hid
      · exact hba
      · exact Nat.le_trans hba ((List.pairwise_cons.1 hl).1 id hid)
    · exact hb id hid

theorem pairwise_unionIds {lhs rhs : List Nat} (hl : lhs.Pairwise (· < ·))
    (hr : rhs.Pairwise (· < ·)) (hdisjoint : ∀ id ∈ lhs, id ∉ rhs) :
    (unionIds lhs rhs).Pairwise (· < ·) := by
  have hnodup : (unionIds lhs rhs).Nodup := by
    rw [(unionIds_perm lhs rhs).nodup_iff, List.nodup_append']
    exact ⟨hl.imp Nat.ne_of_lt, hr.imp Nat.ne_of_lt, hdisjoint⟩
  have hsorted := sorted_unionIds (hl.imp Nat.le_of_lt) (hr.imp Nat.le_of_lt)
  exact (hsorted.and hnodup).imp fun h => Nat.lt_of_le_of_ne h.1 h.2

/-- Cutting an increasing list below `bound` loses no member from `bound` on. -/
theorem mem_dropWhile_lt {list : List Nat} (increasing : list.Pairwise (· < ·)) {bound id : Nat} :
    id ∈ list.dropWhile (· < bound) ↔ id ∈ list ∧ bound ≤ id := by
  induction list with
  | nil => simp
  | cons head list ih =>
    obtain ⟨hhead, htail⟩ := List.pairwise_cons.1 increasing
    by_cases hlt : head < bound
    · rw [List.dropWhile_cons_of_pos (by simpa using hlt), ih htail, List.mem_cons]
      constructor
      · intro h
        obtain ⟨hmem, hle⟩ := h
        exact ⟨.inr hmem, hle⟩
      · intro h
        obtain ⟨rfl | hmem, hle⟩ := h
        · omega
        · exact ⟨hmem, hle⟩
    · rw [List.dropWhile_cons_of_neg (by simpa using hlt)]
      constructor
      · intro hmem
        refine ⟨hmem, ?_⟩
        rcases List.mem_cons.1 hmem with rfl | hmem
        · omega
        · have := hhead id hmem
          omega
      · exact And.left

theorem pairwise_dropWhile {list : List Nat} (increasing : list.Pairwise (· < ·))
    (p : Nat → Bool) : (list.dropWhile p).Pairwise (· < ·) :=
  increasing.sublist (List.dropWhile_sublist p)

private theorem head?_dropWhile_lt {list : List Nat} (increasing : list.Pairwise (· < ·))
    {id : Nat} :
    (list.dropWhile (· < id)).head? = some id ↔ id ∈ list := by
  constructor
  · intro h
    exact ((mem_dropWhile_lt increasing).1 (List.mem_of_head? h)).1
  · intro hmem
    have hdrop := (mem_dropWhile_lt increasing).2 ⟨hmem, le_refl id⟩
    have hsorted := pairwise_dropWhile increasing (fun k => decide (k < id))
    cases hlist : list.dropWhile (fun k => decide (k < id)) with
    | nil => simp [hlist] at hdrop
    | cons head rest =>
      rw [hlist] at hdrop hsorted
      have hhead : id ≤ head :=
        ((mem_dropWhile_lt increasing).1 (hlist ▸ List.mem_cons_self)).2
      rcases List.mem_cons.1 hdrop with rfl | hrest
      · rfl
      · have := (List.pairwise_cons.1 hsorted).1 id hrest
        omega

/-- The restriction is a filter. -/
theorem restrictIds_eq {ids pinned wild : List Nat} (hids : ids.Pairwise (· ≤ ·))
    (hpinned : pinned.Pairwise (· < ·)) (hwild : wild.Pairwise (· < ·)) :
    restrictIds ids pinned wild = ids.filter fun id => id ∈ pinned ∨ id ∈ wild := by
  induction ids generalizing pinned wild with
  | nil => rfl
  | cons id ids ih =>
    obtain ⟨hid, hids⟩ := List.pairwise_cons.1 hids
    have hrest := ih hids (pairwise_dropWhile hpinned (· < id)) (pairwise_dropWhile hwild (· < id))
    have hsame : ids.filter (fun k =>
          k ∈ pinned.dropWhile (· < id) ∨ k ∈ wild.dropWhile (· < id)) =
        ids.filter fun k => k ∈ pinned ∨ k ∈ wild := by
      refine List.filter_congr ?_
      intro k hk
      simp [mem_dropWhile_lt hpinned, mem_dropWhile_lt hwild, hid k hk]
    rw [hsame] at hrest
    have hhead : ((pinned.dropWhile (· < id)).head? = some id ∨
        (wild.dropWhile (· < id)).head? = some id) ↔ (id ∈ pinned ∨ id ∈ wild) := by
      rw [head?_dropWhile_lt hpinned, head?_dropWhile_lt hwild]
    by_cases hmem : id ∈ pinned ∨ id ∈ wild
    · rw [List.filter_cons_of_pos (by simpa using hmem), ← hrest]
      exact if_pos (hhead.2 hmem)
    · rw [List.filter_cons_of_neg (by simpa using hmem), ← hrest]
      exact if_neg (hhead.not.2 hmem)

/-- Whatever the lists are, the restriction only leaves identifiers out. -/
theorem restrictIds_sublist (ids pinned wild : List Nat) :
    (restrictIds ids pinned wild).Sublist ids := by
  fun_induction restrictIds ids pinned wild with
  | case1 => exact .slnil
  | case2 id ids pinned wild _ _ _ ih => exact ih.cons_cons id
  | case3 id ids pinned wild _ _ _ ih => exact ih.cons id

end JointDecision.Trie

import JointDecision.Proofs.FactorGraph.Sound
import Mathlib.Algebra.BigOperators.Group.Finset.Basic
import Mathlib.Combinatorics.SimpleGraph.Acyclic

/-! # Forests of factors

A factor graph is a forest if the graph that joins every factor to the variables of its scope has no
cycle. Hung up at a variable, a forest has a head for every factor below it, and all other variables
of the factor's scope are heads of the factors further down. -/

namespace JointDecision.FactorGraph

variable {δ : Type}

def handles (graph : FactorGraph δ) : Finset Handle :=
  (graph.factors.map Prod.fst).toFinset

/-- The variables in the scope of a factor; a stale handle has none. -/
def scopeOf (graph : FactorGraph δ) (handle : Handle) : Finset Nat :=
  match graph.factor? handle with
  | some factor => factor.scope.keys.toFinset
  | none => ∅

def around (graph : FactorGraph δ) (key : Nat) : Finset Handle :=
  graph.handles.filter fun handle => key ∈ graph.scopeOf handle

/-- Variables and factors, each factor joined to the variables of its scope. -/
def incidence (graph : FactorGraph δ) : SimpleGraph (Nat ⊕ Handle) where
  Adj
    | .inl key, .inr handle => key ∈ graph.scopeOf handle
    | .inr handle, .inl key => key ∈ graph.scopeOf handle
    | _, _ => False
  symm := ⟨by
    rintro (key | handle) (other | found) h
    · exact h
    · exact h
    · exact h
    · exact h⟩
  loopless := ⟨by
    rintro (key | handle) h
    · exact h
    · exact h⟩

private theorem mem_handles {graph : FactorGraph δ} {handle : Handle} :
    handle ∈ graph.handles ↔ ∃ factor, graph.factor? handle = some factor := by
  rw [handles, List.mem_toFinset, List.mem_map]
  constructor
  · intro h
    obtain ⟨⟨handle, factor⟩, hentry, rfl⟩ := h
    exact ⟨factor, mem_factors.1 hentry⟩
  · intro h
    obtain ⟨factor, hfactor⟩ := h
    exact ⟨(handle, factor), mem_factors.2 hfactor, rfl⟩

theorem mem_scopeOf {graph : FactorGraph δ} {handle : Handle} {key : Nat} :
    key ∈ graph.scopeOf handle ↔
      ∃ factor, graph.factor? handle = some factor ∧ key ∈ factor.scope.keys := by
  unfold scopeOf
  cases graph.factor? handle with
  | none => simp
  | some factor => simp

theorem mem_around {graph : FactorGraph δ} {handle : Handle} {key : Nat} :
    handle ∈ graph.around key ↔ key ∈ graph.scopeOf handle := by
  rw [around, Finset.mem_filter]
  constructor
  · exact fun h => h.2
  · intro h
    obtain ⟨factor, hfactor, -⟩ := mem_scopeOf.1 h
    exact ⟨mem_handles.2 ⟨factor, hfactor⟩, h⟩

theorem adj_iff {graph : FactorGraph δ} {key : Nat} {handle : Handle} :
    graph.incidence.Adj (.inl key) (.inr handle) ↔ key ∈ graph.scopeOf handle :=
  Iff.rfl

section Distance

open SimpleGraph

variable {V : Type} {G : SimpleGraph V} {root a b c : V}

/-- In a forest a vertex has at most one neighbor closer to the root. -/
theorem closer_unique (hG : G.IsAcyclic) (hreach : G.Reachable root c)
    (ha : G.Adj a c) (hb : G.Adj b c) (hda : G.dist root a + 1 = G.dist root c)
    (hdb : G.dist root b + 1 = G.dist root c) : a = b := by
  obtain ⟨q, hq, hlength⟩ := hreach.exists_path_of_dist
  have hend : ∀ {d : V}, G.Adj d c → G.dist root d + 1 = G.dist root c → d = q.penultimate := by
    intro d hd hdist
    obtain ⟨p, hp, hshort⟩ := (hreach.trans hd.symm.reachable).exists_path_of_dist
    have hout : c ∉ p.support := by
      intro hin
      have hconcat := hG.path_concat hq hp hd.symm hin
      have hlong := congrArg Walk.length hconcat
      rw [Walk.length_concat] at hlong
      omega
    exact hG.eq_penultimate_of_adj_end hq hd.symm
      (hG.mem_support_of_ne_mem_support_of_adj_of_isPath hq hp hd.symm hout)
  rw [hend ha hda, hend hb hdb]

/-- In a forest a vertex other than the root has a neighbor closer to the root. -/
theorem exists_closer (hG : G.IsAcyclic) (hreach : G.Reachable root c) (hne : c ≠ root) :
    ∃ a, G.Adj a c ∧ G.dist root a + 1 = G.dist root c := by
  obtain ⟨q, -, hlength⟩ := hreach.exists_path_of_dist
  have hnil : ¬ q.Nil := fun h => hne h.eq.symm
  have hadj := q.adj_penultimate hnil
  refine ⟨q.penultimate, hadj, ?_⟩
  have hdrop : G.dist root q.penultimate ≤ q.dropLast.length := dist_le q.dropLast
  have hshorter : q.dropLast.length + 1 = q.length := Walk.length_dropLast_add_one hnil
  rcases hG.dist_eq_dist_add_one_of_adj_of_reachable root hadj
    (hreach.trans hadj.symm.reachable) with h | h
  · omega
  · exact h.symm

/-- A graph is a forest if ranks can be given such that neighbors differ in rank and at most one
neighbor ranks lower. -/
theorem isAcyclic_of_rank (rank : V → Nat)
    (hne : ∀ a b, G.Adj a b → rank a ≠ rank b)
    (hone : ∀ a b c, G.Adj a c → G.Adj b c → rank a < rank c → rank b < rank c → a = b) :
    G.IsAcyclic := by
  classical
  intro v cycle hcycle
  obtain ⟨top, htop, hgreatest⟩ := cycle.support.toFinset.exists_max_image rank
    ⟨v, List.mem_toFinset.2 cycle.start_mem_support⟩
  have hin := List.mem_toFinset.1 htop
  have hrotated := hcycle.rotate hin
  have hlower : ∀ a, G.Adj a top → a ∈ (cycle.rotate _ hin).support → rank a < rank top := by
    intro a hadj ha
    have hsupport : a ∈ cycle.support := (cycle.mem_support_rotate_iff _ hin).1 ha
    exact lt_of_le_of_ne (hgreatest a (List.mem_toFinset.2 hsupport)) (hne a top hadj)
  have hnext := ((cycle.rotate _ hin).adj_snd hrotated.not_nil).symm
  have hlast := (cycle.rotate _ hin).adj_penultimate hrotated.not_nil
  exact hrotated.snd_ne_penultimate (hone _ _ _ hnext hlast
    (hlower _ hnext (Walk.getVert_mem_support _ _)) (hlower _ hlast (Walk.getVert_mem_support _ _)))

end Distance

/-- A forest hung up at a variable: the factors that hang on it, how far down each of them is, and
the variable that each hangs on directly. -/
structure Hung (graph : FactorGraph δ) (root : Nat) (reached : Finset Handle)
    (level head : Handle → Nat) : Prop where
  subset : reached ⊆ graph.handles
  head_mem : ∀ handle ∈ reached, head handle ∈ graph.scopeOf handle
  around_root : ∀ handle, handle ∈ graph.around root ↔ handle ∈ reached ∧ head handle = root
  level_zero : ∀ handle ∈ reached, level handle = 0 ↔ head handle = root
  below : ∀ handle ∈ reached, ∀ key ∈ graph.scopeOf handle, key ≠ head handle →
    ∀ lower, lower ∈ graph.around key ∧ lower ≠ handle ↔ lower ∈ reached ∧ head lower = key
  level_succ : ∀ handle ∈ reached, ∀ key ∈ graph.scopeOf handle, key ≠ head handle →
    ∀ lower ∈ reached, head lower = key → level lower = level handle + 1
  above : ∀ lower ∈ reached, head lower ≠ root →
    ∃ handle ∈ reached, head lower ∈ graph.scopeOf handle ∧ head lower ≠ head handle

section Hanging

variable {graph : FactorGraph δ} {root : Nat}

noncomputable def depth (graph : FactorGraph δ) (root : Nat) (node : Nat ⊕ Handle) : Nat :=
  graph.incidence.dist (.inl root) node

def HangsOn (graph : FactorGraph δ) (root : Nat) (node : Nat ⊕ Handle) : Prop :=
  graph.incidence.Reachable (.inl root) node

theorem hangsOn_iff {key : Nat} {handle : Handle} (hkey : key ∈ graph.scopeOf handle) :
    graph.HangsOn root (.inl key) ↔ graph.HangsOn root (.inr handle) := by
  have hadj := (adj_iff.2 hkey).reachable
  constructor
  · exact fun h => h.trans hadj
  · exact fun h => h.trans hadj.symm

private theorem depth_step (hforest : graph.incidence.IsAcyclic) {key : Nat} {handle : Handle}
    (hkey : key ∈ graph.scopeOf handle) (hhangs : graph.HangsOn root (.inr handle)) :
    graph.depth root (.inl key) = graph.depth root (.inr handle) + 1 ∨
      graph.depth root (.inr handle) = graph.depth root (.inl key) + 1 :=
  hforest.dist_eq_dist_add_one_of_adj_of_reachable _ (adj_iff.2 hkey) ((hangsOn_iff hkey).2 hhangs)

private theorem exists_head (hforest : graph.incidence.IsAcyclic) {handle : Handle}
    (hhangs : graph.HangsOn root (.inr handle)) :
    ∃ key ∈ graph.scopeOf handle,
      graph.depth root (.inl key) + 1 = graph.depth root (.inr handle) := by
  obtain ⟨key | other, hadj, hdist⟩ := exists_closer hforest hhangs (by simp)
  · exact ⟨key, hadj, hdist⟩
  · exact absurd hadj id

private theorem exists_above (hforest : graph.incidence.IsAcyclic) {key : Nat}
    (hhangs : graph.HangsOn root (.inl key)) (hne : key ≠ root) :
    ∃ handle, key ∈ graph.scopeOf handle ∧
      graph.depth root (.inr handle) + 1 = graph.depth root (.inl key) := by
  obtain ⟨other | handle, hadj, hdist⟩ := exists_closer hforest hhangs (by simpa using hne)
  · exact absurd hadj id
  · exact ⟨handle, hadj, hdist⟩

private theorem head_unique (hforest : graph.incidence.IsAcyclic) {a b : Nat} {handle : Handle}
    (hhangs : graph.HangsOn root (.inr handle)) (ha : a ∈ graph.scopeOf handle)
    (hb : b ∈ graph.scopeOf handle)
    (hda : graph.depth root (.inl a) + 1 = graph.depth root (.inr handle))
    (hdb : graph.depth root (.inl b) + 1 = graph.depth root (.inr handle)) : a = b := by
  have hequal := closer_unique hforest hhangs (adj_iff.2 ha) (adj_iff.2 hb) hda hdb
  exact Sum.inl.inj hequal

private theorem above_unique (hforest : graph.incidence.IsAcyclic) {a b : Handle} {key : Nat}
    (hhangs : graph.HangsOn root (.inl key)) (ha : key ∈ graph.scopeOf a)
    (hb : key ∈ graph.scopeOf b)
    (hda : graph.depth root (.inr a) + 1 = graph.depth root (.inl key))
    (hdb : graph.depth root (.inr b) + 1 = graph.depth root (.inl key)) : a = b := by
  have hequal := closer_unique hforest hhangs (adj_iff.2 ha).symm (adj_iff.2 hb).symm hda hdb
  exact Sum.inr.inj hequal

theorem depth_root : graph.depth root (.inl root) = 0 :=
  SimpleGraph.dist_self

private theorem eq_root_of_depth {key : Nat} (hhangs : graph.HangsOn root (.inl key))
    (h : graph.depth root (.inl key) = 0) : key = root := by
  have hequal := hhangs.dist_eq_zero_iff.1 h
  exact (Sum.inl.inj hequal).symm

private theorem odd_depth (hforest : graph.incidence.IsAcyclic) {handle : Handle}
    (hhangs : graph.HangsOn root (.inr handle)) :
    graph.depth root (.inr handle) % 2 = 1 := by
  generalize hdepth : graph.depth root (.inr handle) = distance
  induction distance using Nat.strong_induction_on generalizing handle with
  | _ distance ih =>
    obtain ⟨key, hkey, hcloser⟩ := exists_head hforest hhangs
    by_cases hroot : key = root
    · rw [hroot, depth_root] at hcloser
      omega
    · obtain ⟨upper, hupper, habove⟩ :=
        exists_above hforest ((hangsOn_iff hkey).2 hhangs) hroot
      have hodd := ih (graph.depth root (.inr upper)) (by omega)
        ((hangsOn_iff hupper).1 ((hangsOn_iff hkey).2 hhangs)) rfl
      omega

/-- A head for every factor that hangs on the root: a variable of its scope closer to the root. -/
def Heads (graph : FactorGraph δ) (root : Nat) (head : Handle → Nat) : Prop :=
  ∀ handle, graph.HangsOn root (.inr handle) → head handle ∈ graph.scopeOf handle ∧
    graph.depth root (.inl (head handle)) + 1 = graph.depth root (.inr handle)

private theorem exists_heads (hforest : graph.incidence.IsAcyclic) (root : Nat) :
    ∃ head, graph.Heads root head := by
  have hchoose := fun handle (hhangs : graph.HangsOn root (.inr handle)) =>
    exists_head hforest hhangs
  choose! head hhead using hchoose
  exact ⟨head, hhead⟩

namespace Heads

variable {head : Handle → Nat} (hheads : graph.Heads root head)
  (hforest : graph.incidence.IsAcyclic) {handle : Handle} {key : Nat}
  (hhangs : graph.HangsOn root (.inr handle)) (hkey : key ∈ graph.scopeOf handle)

include hheads hforest hhangs hkey

/-- A variable of the scope is the head, or lies below the factor. -/
theorem depth_below (hne : key ≠ head handle) :
    graph.depth root (.inl key) = graph.depth root (.inr handle) + 1 := by
  rcases depth_step hforest hkey hhangs with h | h
  · exact h
  · obtain ⟨hin, hdepth⟩ := hheads handle hhangs
    exact absurd (head_unique hforest hhangs hkey hin h.symm hdepth) hne

private theorem eq_head_of_root (hroot : key = root) : head handle = root := by
  rw [← hroot]
  by_contra hne
  have hzero := hheads.depth_below hforest hhangs hkey (Ne.symm hne)
  rw [hroot, depth_root] at hzero
  omega

/-- A variable below a factor is the head of every other factor around it. -/
theorem head_lower (hne : key ≠ head handle) {lower : Handle} (hin : key ∈ graph.scopeOf lower)
    (hother : lower ≠ handle) : graph.HangsOn root (.inr lower) ∧ head lower = key := by
  have hkeyhangs := (hangsOn_iff hkey).2 hhangs
  have hlowerhangs := (hangsOn_iff hin).1 hkeyhangs
  refine ⟨hlowerhangs, ?_⟩
  obtain ⟨hheadin, hheaddepth⟩ := hheads lower hlowerhangs
  rcases depth_step hforest hin hlowerhangs with h | h
  · have hbelow := hheads.depth_below hforest hhangs hkey hne
    exact absurd (above_unique hforest hkeyhangs hin hkey h.symm hbelow.symm) hother
  · exact head_unique hforest hlowerhangs hheadin hin hheaddepth h.symm

end Heads

private theorem mem_handles_of_mem_scopeOf {handle : Handle} {key : Nat}
    (hkey : key ∈ graph.scopeOf handle) : handle ∈ graph.handles := by
  obtain ⟨factor, hfactor, -⟩ := mem_scopeOf.1 hkey
  exact mem_handles.2 ⟨factor, hfactor⟩

theorem exists_hung (hforest : graph.incidence.IsAcyclic) (root : Nat) :
    ∃ reached level head, graph.Hung root reached level head := by
  classical
  obtain ⟨head, hheads⟩ := exists_heads hforest root
  refine ⟨graph.handles.filter fun handle => graph.HangsOn root (.inr handle),
    fun handle => graph.depth root (.inr handle) / 2, head, ?_⟩
  have hreached : ∀ {handle key}, key ∈ graph.scopeOf handle →
      (handle ∈ graph.handles.filter (fun handle => graph.HangsOn root (.inr handle)) ↔
        graph.HangsOn root (.inr handle)) := by
    intro handle key hkey
    rw [Finset.mem_filter]
    exact and_iff_right (mem_handles_of_mem_scopeOf hkey)
  constructor
  case subset => exact Finset.filter_subset _ _
  case head_mem =>
    intro handle hhandle
    exact (hheads handle (Finset.mem_filter.1 hhandle).2).1
  case around_root =>
    intro handle
    rw [mem_around]
    constructor
    · intro hroot
      have hhangs := (hangsOn_iff hroot).1 (SimpleGraph.Reachable.refl _)
      exact ⟨(hreached hroot).2 hhangs, hheads.eq_head_of_root hforest hhangs hroot rfl⟩
    · intro hhead
      obtain ⟨hhandle, rfl⟩ := hhead
      exact (hheads handle (Finset.mem_filter.1 hhandle).2).1
  case level_zero =>
    intro handle hhandle
    have hhangs := (Finset.mem_filter.1 hhandle).2
    obtain ⟨hin, hdepth⟩ := hheads handle hhangs
    have hodd := odd_depth hforest hhangs
    constructor
    · intro hlevel
      exact eq_root_of_depth ((hangsOn_iff hin).2 hhangs) (by omega)
    · intro hroot
      rw [hroot, depth_root] at hdepth
      omega
  case below =>
    intro handle hhandle key hkey hne lower
    have hhangs := (Finset.mem_filter.1 hhandle).2
    rw [mem_around]
    constructor
    · intro haround
      obtain ⟨hin, hother⟩ := haround
      obtain ⟨hlowerhangs, hheadlower⟩ :=
        hheads.head_lower hforest hhangs hkey hne hin hother
      exact ⟨(hreached hin).2 hlowerhangs, hheadlower⟩
    · intro hlower
      obtain ⟨hlowerin, rfl⟩ := hlower
      refine ⟨(hheads lower (Finset.mem_filter.1 hlowerin).2).1, ?_⟩
      intro hsame
      rw [hsame] at hne
      exact hne rfl
  case level_succ =>
    intro handle hhandle key hkey hne lower hlowerin hheadlower
    obtain ⟨-, hdepth⟩ := hheads lower (Finset.mem_filter.1 hlowerin).2
    rw [hheadlower, hheads.depth_below hforest (Finset.mem_filter.1 hhandle).2 hkey hne] at hdepth
    omega
  case above =>
    intro lower hlowerin hroot
    have hhangs := (Finset.mem_filter.1 hlowerin).2
    obtain ⟨hin, hdepth⟩ := hheads lower hhangs
    have hkeyhangs := (hangsOn_iff hin).2 hhangs
    obtain ⟨handle, hkey, habove⟩ := exists_above hforest hkeyhangs hroot
    have hupper := (hangsOn_iff hkey).1 hkeyhangs
    refine ⟨handle, (hreached hkey).2 hupper, hkey, ?_⟩
    intro hsame
    have hheaddepth := (hheads handle hupper).2
    rw [← hsame] at hheaddepth
    omega

end Hanging

namespace Hung

variable {graph : FactorGraph δ} {root : Nat} {reached : Finset Handle}
  {level head : Handle → Nat} (h : graph.Hung root reached level head)

include h

/-- The variables below a factor are not those of any other factor on its level or higher up. -/
theorem level_eq_succ {handle other : Handle} {key : Nat} (hhandle : handle ∈ reached)
    (hkey : key ∈ graph.scopeOf handle) (hne : key ≠ head handle)
    (hother : key ∈ graph.scopeOf other) (hdiffer : other ≠ handle) :
    other ∈ reached ∧ head other = key ∧ level other = level handle + 1 := by
  obtain ⟨hin, hhead⟩ :=
    (h.below handle hhandle key hkey hne other).1 ⟨mem_around.2 hother, hdiffer⟩
  exact ⟨hin, hhead, h.level_succ handle hhandle key hkey hne other hin hhead⟩

private theorem head_eq_root {handle : Handle} (hroot : root ∈ graph.scopeOf handle) :
    head handle = root :=
  ((h.around_root handle).1 (mem_around.2 hroot)).2

/-- Whatever shares a variable with a factor that hangs on the root hangs there too. -/
theorem mem_of_shared {handle other : Handle} {key : Nat} (hhandle : handle ∈ reached)
    (hkey : key ∈ graph.scopeOf handle) (hother : key ∈ graph.scopeOf other) :
    other ∈ reached := by
  by_cases hsame : other = handle
  · rw [hsame]
    exact hhandle
  by_cases hhead : key = head handle
  · by_cases hroot : key = root
    · rw [hroot] at hother
      exact ((h.around_root other).1 (mem_around.2 hother)).1
    · obtain ⟨upper, hupper, hin, hne⟩ := h.above handle hhandle (hhead ▸ hroot)
      rw [← hhead] at hin hne
      by_cases hequal : other = upper
      · rw [hequal]
        exact hupper
      · exact (h.level_eq_succ hupper hin hne hother hequal).1
  · exact (h.level_eq_succ hhandle hkey hhead hother hsame).1

private theorem exists_upper {lower : Handle} (hlower : lower ∈ reached) {n : Nat}
    (hlevel : level lower = n + 1) :
    ∃ handle ∈ reached, level handle = n ∧ head lower ∈ graph.scopeOf handle ∧
      head lower ≠ head handle := by
  have hroot : head lower ≠ root := by
    intro hroot
    have hzero := (h.level_zero lower hlower).2 hroot
    omega
  obtain ⟨handle, hhandle, hin, hne⟩ := h.above lower hlower hroot
  have hsucc := h.level_succ handle hhandle (head lower) hin hne lower hlower rfl
  exact ⟨handle, hhandle, by omega, hin, hne⟩

theorem level_lt_card {handle : Handle} (hhandle : handle ∈ reached) :
    level handle < reached.card := by
  have hall : ∀ n, ∀ handle ∈ reached, level handle = n →
      Finset.range (n + 1) ⊆ reached.image level := by
    intro n
    induction n with
    | zero =>
      intro handle hin hlevel i hi
      have hzero : i = 0 := by simpa using hi
      rw [hzero, ← hlevel]
      exact Finset.mem_image_of_mem level hin
    | succ n ih =>
      intro handle hin hlevel i hi
      rw [Finset.mem_range] at hi
      obtain ⟨upper, hupper, hbefore, -⟩ := h.exists_upper hin hlevel
      by_cases hlast : i = n + 1
      · rw [hlast, ← hlevel]
        exact Finset.mem_image_of_mem level hin
      · apply ih upper hupper hbefore
        rw [Finset.mem_range]
        omega
  have hcard := Finset.card_le_card (hall _ handle hhandle rfl)
  rw [Finset.card_range] at hcard
  exact hcard.trans Finset.card_image_le

/-- The factors on one level are those below the factors on the level before, each once. -/
theorem sum_level_succ {M : Type} [AddCommMonoid M] (term : Handle → Nat → M) (n : Nat) :
    ∑ lower ∈ reached with level lower = n + 1, term lower (head lower) =
      ∑ handle ∈ reached with level handle = n,
        ∑ key ∈ (graph.scopeOf handle).erase (head handle),
          ∑ lower ∈ (graph.around key).erase handle, term lower key := by
  have hinner : ∀ handle ∈ reached.filter fun handle => level handle = n,
      ∑ key ∈ (graph.scopeOf handle).erase (head handle),
        ∑ lower ∈ (graph.around key).erase handle, term lower key =
      ∑ lower ∈ reached with head lower ∈ (graph.scopeOf handle).erase (head handle),
        term lower (head lower) := by
    intro handle hhandle
    have hin := (Finset.mem_filter.1 hhandle).1
    rw [← Finset.sum_fiberwise_of_maps_to (t := (graph.scopeOf handle).erase (head handle))
      (g := head) (fun lower hlower => (Finset.mem_filter.1 hlower).2)]
    refine Finset.sum_congr rfl fun key hkey => ?_
    obtain ⟨hne, hscope⟩ := Finset.mem_erase.1 hkey
    have hbelow := h.below handle hin key hscope hne
    refine Finset.sum_congr ?_ ?_
    · ext lower
      rw [Finset.mem_erase, and_comm, hbelow, Finset.mem_filter, Finset.mem_filter]
      constructor
      · intro h'
        obtain ⟨hreached, rfl⟩ := h'
        exact ⟨⟨hreached, hkey⟩, rfl⟩
      · intro h'
        obtain ⟨⟨hreached, -⟩, hhead⟩ := h'
        exact ⟨hreached, hhead⟩
    · intro lower hlower
      rw [(Finset.mem_filter.1 hlower).2]
  rw [Finset.sum_congr rfl hinner, ← Finset.sum_biUnion]
  · refine Finset.sum_congr ?_ fun _ _ => rfl
    ext lower
    rw [Finset.mem_filter, Finset.mem_biUnion]
    constructor
    · intro h'
      obtain ⟨hin, hlevel⟩ := h'
      obtain ⟨handle, hhandle, hbefore, hscope, hne⟩ := h.exists_upper hin hlevel
      exact ⟨handle, Finset.mem_filter.2 ⟨hhandle, hbefore⟩,
        Finset.mem_filter.2 ⟨hin, Finset.mem_erase.2 ⟨hne, hscope⟩⟩⟩
    · intro h'
      obtain ⟨handle, hhandle, hlower⟩ := h'
      obtain ⟨hhandle, hlevel⟩ := Finset.mem_filter.1 hhandle
      obtain ⟨hin, hkey⟩ := Finset.mem_filter.1 hlower
      obtain ⟨hne, hscope⟩ := Finset.mem_erase.1 hkey
      refine ⟨hin, ?_⟩
      rw [h.level_succ handle hhandle _ hscope hne lower hin rfl, hlevel]
  · intro a ha b hb hne
    rw [Function.onFun, Finset.disjoint_left]
    intro lower hlower hlower'
    obtain ⟨-, hkey⟩ := Finset.mem_filter.1 hlower
    obtain ⟨-, hkey'⟩ := Finset.mem_filter.1 hlower'
    obtain ⟨hnea, hscopea⟩ := Finset.mem_erase.1 hkey
    obtain ⟨hneb, hscopeb⟩ := Finset.mem_erase.1 hkey'
    have hina := (Finset.mem_filter.1 ha).1
    obtain ⟨-, hhead, -⟩ := h.level_eq_succ hina hscopea hnea hscopeb (Ne.symm hne)
    exact hneb hhead.symm

/-- The choices of the factors on one level for the variables below them do not get in each other's
way, nor in that of anything higher up. -/
theorem exists_glue {β : Type} (x : Nat → β) (choice : Handle → Nat → β) (n : Nat)
    (hhead : ∀ handle ∈ reached, level handle = n →
      choice handle (head handle) = x (head handle)) :
    ∃ glued : Nat → β,
      (∀ key, glued key = x key ∨
        ∃ handle ∈ reached, level handle = n ∧ glued key = choice handle key) ∧
      (∀ handle ∈ reached, level handle = n →
        ∀ key ∈ graph.scopeOf handle, glued key = choice handle key) ∧
      (∀ handle ∈ reached, level handle < n →
        ∀ key ∈ graph.scopeOf handle, glued key = x key) ∧
      glued root = x root := by
  classical
  let Below (key : Nat) (handle : Handle) : Prop :=
    handle ∈ reached ∧ level handle = n ∧ key ∈ graph.scopeOf handle ∧ key ≠ head handle
  let glued (key : Nat) : β :=
    if hbelow : ∃ handle, Below key handle then choice hbelow.choose key else x key
  -- A factor that has a variable below a factor of the level is this factor or further down.
  have hsolo : ∀ {key handle other}, Below key handle → other ∈ reached → level other ≤ n →
      key ∈ graph.scopeOf other → other = handle := by
    intro key handle other hbelow hother hlevel hkey
    obtain ⟨hin, hn, hscope, hne⟩ := hbelow
    by_contra hdiffer
    have hsucc := (h.level_eq_succ hin hscope hne hkey hdiffer).2.2
    omega
  have hkeep : ∀ {key}, (¬ ∃ handle, Below key handle) → glued key = x key :=
    fun hnone => dif_neg hnone
  refine ⟨glued, ?_, ?_, ?_, ?_⟩
  · intro key
    by_cases hbelow : ∃ handle, Below key handle
    · obtain ⟨hin, hn, -⟩ := hbelow.choose_spec
      exact .inr ⟨hbelow.choose, hin, hn, dif_pos hbelow⟩
    · exact .inl (hkeep hbelow)
  · intro handle hin hn key hkey
    by_cases hbelow : ∃ handle, Below key handle
    · have hsame := hsolo hbelow.choose_spec hin hn.le hkey
      have hglued : glued key = choice hbelow.choose key := dif_pos hbelow
      rw [hglued, ← hsame]
    · have hequal : key = head handle := by
        by_contra hne
        exact hbelow ⟨handle, hin, hn, hkey, hne⟩
      rw [hkeep hbelow, hequal, hhead handle hin hn]
  · intro handle hin hlt key hkey
    apply hkeep
    intro h'
    obtain ⟨other, hbelow⟩ := h'
    have hsame := hsolo hbelow hin hlt.le hkey
    have hn := hbelow.2.1
    rw [hsame] at hlt
    omega
  · apply hkeep
    intro h'
    obtain ⟨other, hin, hn, hscope, hne⟩ := h'
    exact hne (h.head_eq_root hscope).symm

end Hung

end JointDecision.FactorGraph

import JointDecision.Proofs.MaxPlus.Forest

/-! # Max-plus is exact on forests

If the tables of a forest have only one maximizer, then with as many sweeps as there are factors
every variable that a factor touches prefers its value in the maximizer. -/

namespace JointDecision

namespace FactorGraph

variable {δ : Type}

def Covers (graph : FactorGraph δ) (key : Nat) : Prop :=
  ∃ entry ∈ graph.factors, key ∈ entry.2.scope.keys

theorem covers_iff {graph : FactorGraph δ} {key : Nat} :
    graph.Covers key ↔ ∃ handle, key ∈ graph.scopeOf handle := by
  constructor
  · intro h
    obtain ⟨entry, hentry, hkey⟩ := h
    exact ⟨entry.1, mem_scopeOf.2 ⟨entry.2, mem_factors.1 hentry, hkey⟩⟩
  · intro h
    obtain ⟨handle, hkey⟩ := h
    obtain ⟨factor, hfactor, hkey⟩ := mem_scopeOf.1 hkey
    exact ⟨(handle, factor), mem_factors.2 hfactor, hkey⟩

end FactorGraph

namespace MaxPlus

open FactorGraph

variable {space : Space} {graph : FactorGraph (List Rat)} {best : List Nat}

private theorem covers_lt (hsound : graph.Sound) (hcount : graph.varCount = space.length)
    {key : Nat} (h : graph.Covers key) : key < space.length := by
  obtain ⟨entry, hentry, hin⟩ := h
  exact scope_lt hsound hcount hentry key hin

/-- A full assignment where the tables add up to the most; where others do as well, they differ from
it only at variables that no factor touches. -/
structure SoleMaximizer (space : Space) (graph : FactorGraph (List Rat)) (best : List Nat) :
    Prop where
  admits : space.Admits best
  greatest : ∀ full, space.Admits full →
    tableSum space graph (valuation full) ≤ tableSum space graph (valuation best)
  unique : ∀ full, space.Admits full →
    tableSum space graph (valuation full) = tableSum space graph (valuation best) →
    ∀ key, graph.Covers key → valuation full key = valuation best key

private theorem SoleMaximizer.lt (h : SoleMaximizer space graph best) (hsound : graph.Sound)
    (hcount : graph.varCount = space.length) {x : Valuation} (hx : space.Respects x) {key : Nat}
    (hkey : graph.Covers key) (hne : x key ≠ valuation best key) :
    tableSum space graph x < tableSum space graph (valuation best) := by
  have hsame : ∀ entry ∈ graph.factors, ∀ other ∈ entry.2.scope.keys,
      valuation (space.tabulate x) other = x other := by
    intro entry hentry other hother
    exact Space.valuation_tabulate (scope_lt hsound hcount hentry other hother)
  have hsum := @tableSum_congr space _ _ _ hsame
  have hadmits := hx.admits_tabulate
  rw [← hsum]
  apply lt_of_le_of_ne (h.greatest _ hadmits)
  intro hequal
  obtain ⟨entry, hentry, hin⟩ := hkey
  apply hne
  rw [← hsame entry hentry key hin]
  exact h.unique _ hadmits hequal key ⟨entry, hentry, hin⟩

section Hanging

variable {root : Nat} {reached : Finset Handle} {level head : Handle → Nat}
  (h : graph.Hung root reached level head)

include h

private theorem card_le_length : reached.card ≤ graph.factors.length := by
  have hcard := (Finset.card_le_card h.subset).trans (List.toFinset_card_le _)
  rwa [List.length_map] at hcard

/-- With another value of the root, what hangs on the root adds up to less than in the
maximizer. -/
theorem SoleMaximizer.hanging_lt (hbest : SoleMaximizer space graph best) (hsound : graph.Sound)
    (hcount : graph.varCount = space.length) (hcovers : graph.Covers root) {y : Valuation}
    (hy : space.Respects y) (hne : y root ≠ valuation best root) :
    ∑ handle ∈ reached, valueOf space graph handle y <
      ∑ handle ∈ reached, valueOf space graph handle (valuation best) := by
  classical
  -- What hangs on the root takes its values from `y`, the rest from the maximizer.
  let mixed : Valuation := fun key =>
    if ∃ handle ∈ reached, key ∈ graph.scopeOf handle then y key else valuation best key
  have hmixed : space.Respects mixed := by
    have hrespects := (Space.admits_iff.1 hbest.admits).2
    intro key hkey
    by_cases hhangs : ∃ handle ∈ reached, key ∈ graph.scopeOf handle
    · simpa [mixed, hhangs] using hy key hkey
    · simpa [mixed, hhangs] using hrespects key hkey
  have hwithin : ∀ handle ∈ reached,
      valueOf space graph handle mixed = valueOf space graph handle y := by
    intro handle hhandle
    refine valueOf_congr fun key hkey => ?_
    exact if_pos ⟨handle, hhandle, hkey⟩
  have hrest : ∀ handle ∈ graph.handles \ reached,
      valueOf space graph handle mixed = valueOf space graph handle (valuation best) := by
    intro handle hhandle
    refine valueOf_congr fun key hkey => if_neg ?_
    intro hhangs
    obtain ⟨other, hother, hshared⟩ := hhangs
    exact (Finset.mem_sdiff.1 hhandle).2 (h.mem_of_shared hother hshared hkey)
  have hroot : mixed root = y root := by
    obtain ⟨top, htop⟩ := covers_iff.1 hcovers
    exact if_pos ⟨top, ((h.around_root top).1 (mem_around.2 htop)).1, htop⟩
  have hless := hbest.lt hsound hcount hmixed hcovers (hroot ▸ hne)
  rwa [tableSum_eq, tableSum_eq, ← Finset.sum_sdiff h.subset, ← Finset.sum_sdiff h.subset,
    Finset.sum_congr rfl hrest, Finset.sum_congr rfl hwithin, add_lt_add_iff_left] at hless

end Hanging

section Beliefs

variable (hspace : space.Inhabited) (hsound : graph.Sound)
  (hcount : graph.varCount = space.length) (htabled : Tabled space graph)
  (hbest : SoleMaximizer space graph best)

include hspace hsound hcount htabled hbest

/-- In the end a variable believes most in its value in the maximizer. -/
theorem belief_lt (hforest : graph.incidence.IsAcyclic) {root : Nat} (hcovers : graph.Covers root)
    {sweeps : Nat} (hsweeps : graph.factors.length ≤ sweeps) {value : Nat}
    (hvalue : value < space.domain root) (hne : value ≠ valuation best root) :
    belief ((networkOf space graph).inboxes sweeps) root value <
      belief ((networkOf space graph).inboxes sweeps) root (valuation best root) := by
  have hroot := covers_lt hsound hcount hcovers
  have hrespects := (Space.admits_iff.1 hbest.admits).2
  obtain ⟨reached, level, head, hhung⟩ := exists_hung hforest root
  obtain ⟨shift, hupper, hattained⟩ := belief_of_card_le hspace hsound hcount htabled hhung hroot
    ((card_le_length hhung).trans hsweeps)
  obtain ⟨y, hy, hyroot, hbelief⟩ := hattained _ (hrespects.update hvalue)
  rw [Function.update_self] at hyroot hbelief
  have hless := hbest.hanging_lt hhung hsound hcount hcovers hy (hyroot ▸ hne)
  rw [hbelief]
  exact (sub_lt_sub_right hless shift).trans_le (hupper _ hrespects)

private theorem candidate_eq_best (hforest : graph.incidence.IsAcyclic) {sweep : Nat}
    (hsweep : graph.factors.length ≤ sweep + 1) {key : Nat} (hcovers : graph.Covers key) :
    valuation ((networkOf space graph).candidate sweep) key = valuation best key := by
  have hkey := covers_lt hsound hcount hcovers
  have hchosen := (Space.admits_iff.1 (@candidate_admits space graph hspace sweep)).2 key hkey
  have hbound := (Space.admits_iff.1 hbest.admits).2 key hkey
  by_contra hne
  have hlt := belief_lt hspace hsound hcount htabled hbest hforest hcovers hsweep hchosen hne
  have hle := (@candidate_belief space graph hspace sweep key hkey).1 _ hbound
  exact absurd hlt (not_lt.2 hle)

/-- A run with as many sweeps as there are factors comes across a maximizer. -/
theorem exists_maximizer_considered (hforest : graph.incidence.IsAcyclic) {iterations : Nat}
    (hiterations : graph.factors.length ≤ iterations) :
    ∃ full ∈ space.origin :: (List.range iterations).map (networkOf space graph).candidate,
      tableSum space graph (valuation full) = tableSum space graph (valuation best) := by
  cases iterations with
  | zero =>
    refine ⟨space.origin, List.mem_cons_self, tableSum_congr fun entry hentry => ?_⟩
    rw [List.eq_nil_of_length_eq_zero (Nat.le_zero.1 hiterations)] at hentry
    exact absurd hentry List.not_mem_nil
  | succ last =>
    refine ⟨(networkOf space graph).candidate last, ?_, ?_⟩
    · exact List.mem_cons_of_mem _ (List.mem_map_of_mem (List.mem_range.2 last.lt_succ_self))
    · refine tableSum_congr fun entry hentry key hkey => ?_
      exact candidate_eq_best hspace hsound hcount htabled hbest hforest hiterations
        ⟨entry, hentry, hkey⟩

end Beliefs

private theorem candidate_eq_zero (hspace : space.Inhabited) (hsound : graph.Sound)
    (hcount : graph.varCount = space.length) (sweep : Nat) {key : Nat}
    (hcovers : ¬ graph.Covers key) :
    valuation ((networkOf space graph).candidate sweep) key = 0 := by
  have hadmits := Space.admits_iff.1 (@candidate_admits space graph hspace sweep)
  by_cases hkey : key < space.length
  · have hnone : graph.around key = ∅ := by
      rw [Finset.eq_empty_iff_forall_notMem]
      intro handle hhandle
      exact hcovers (covers_iff.2 ⟨handle, mem_around.1 hhandle⟩)
    have hbelief : ∀ value < space.domain key,
        belief ((networkOf space graph).inboxes (sweep + 1)) key value = 0 := by
      intro value hvalue
      rw [belief_eq_sum hsound hcount (sweep + 1) hkey hvalue, hnone, Finset.sum_empty]
    have hchosen := hadmits.2 key hkey
    by_contra hne
    have hfirst := (@candidate_belief space graph hspace sweep key hkey).2 0
      (Nat.pos_of_ne_zero hne)
    rw [hbelief _ hchosen, hbelief _ (hspace.domain_pos hkey)] at hfirst
    exact lt_irrefl _ hfirst
  · have hlength : (((networkOf space graph).candidate sweep)).length ≤ key := by omega
    rw [valuation, List.getD_eq_getElem?_getD, List.getElem?_eq_none hlength, Option.getD_none]

/-- On an accepted forest whose tables have only one maximizer, max-plus finds it, given as many
sweeps as there are factors. -/
theorem maxPlus_exact_on_forests (hspace : space.Inhabited)
    (hgraph : Reachable space.length graph)
    (htables : checkTables space (graph.factors.map Prod.snd) = .ok ())
    (hforest : graph.incidence.IsAcyclic) (hbest : SoleMaximizer space graph best)
    {iterations : Nat} (hiterations : graph.factors.length ≤ iterations) :
    ∃ solution report, solveGraph iterations space graph = .ok (solution, report) ∧
      space.Admits solution.assignment ∧
      (∀ key, graph.Covers key → valuation solution.assignment key = valuation best key) ∧
      (∀ key, ¬ graph.Covers key → valuation solution.assignment key = 0) ∧
      solution.payoff = tableSum space graph (valuation solution.assignment) ∧
      ∀ full, space.Admits full → tableSum space graph (valuation full) ≤ solution.payoff := by
  have hsound := hgraph.sound
  have hcount := hgraph.varCount_eq
  have htabled := tabled_iff.2 htables
  have hkeeps : Keeps (networkOf space graph).evaluate space.origin
      ((List.range iterations).map (networkOf space graph).candidate)
      (run iterations (networkOf space graph)) := run_keeps rfl (fun _ => rfl) iterations
  have hadmits := forall_considered hspace.admits_origin
    (@candidate_admits space graph hspace) iterations _ hkeeps.mem
  have hzero := fun key hkey => forall_considered (P := fun full => valuation full key = 0)
    (Space.valuation_origin space key)
    (fun sweep => candidate_eq_zero hspace hsound hcount sweep hkey) iterations _ hkeeps.mem
  have hpayoff := hkeeps.payoff_eq
  rw [evaluate_eq] at hpayoff
  have hmost : tableSum space graph (valuation best) ≤
      (run iterations (networkOf space graph)).best.payoff := by
    obtain ⟨full, hfull, hequal⟩ :=
      exists_maximizer_considered hspace hsound hcount htabled hbest hforest hiterations
    rw [← hequal, ← evaluate_eq]
    exact hkeeps.score_le hfull
  refine ⟨_, _, solveGraph_of_tabled hspace hsound hcount htabled iterations, hadmits, ?_, hzero,
    hpayoff, fun full hfull => (hbest.greatest full hfull).trans hmost⟩
  apply hbest.unique _ hadmits
  exact le_antisymm (hbest.greatest _ hadmits) (hpayoff ▸ hmost)

def linkScope (key : Nat) : Scope := ⟨[key, key + 1], by simp⟩

def link (graph : FactorGraph (List Rat)) (key : Nat) (payoff : Rat) : FactorGraph (List Rat) :=
  (graph.create (linkScope key)).2.modifyData (graph.create (linkScope key)).1
    (· ++ [0, 0, 0, payoff])

def chainGraph : FactorGraph (List Rat) :=
  link (link (.new 4) 0 2) 1 3

theorem chainGraph_factors : chainGraph.factors =
    [(⟨0, 4⟩, ⟨linkScope 0, 0, [0, 0, 0, 2]⟩), (⟨1, 5⟩, ⟨linkScope 1, 1, [0, 0, 0, 3]⟩)] := rfl

theorem reachable_link {n key : Nat} {graph : FactorGraph (List Rat)} (hgraph : Reachable n graph)
    (hfirst : key < graph.varCount ∧ graph.isLive key = true)
    (hsecond : key + 1 < graph.varCount ∧ graph.isLive (key + 1) = true)
    (hensure : graph.ensure? (linkScope key) = some (graph.create (linkScope key)))
    (payoff : Rat) : Reachable n (link graph key payoff) := by
  refine .modifyData _ _ (.ensure hgraph ⟨by simp [linkScope, Scope.empty], ?_⟩ hensure)
  intro other hother
  obtain rfl | rfl : other = key ∨ other = key + 1 := by simpa [linkScope] using hother
  · exact hfirst
  · exact hsecond

theorem reachable_chainGraph : Reachable 4 chainGraph := by
  have hfirst := reachable_link (.new : Reachable 4 _) (by decide : 0 < 4 ∧ _) (by decide) rfl 2
  exact reachable_link hfirst (by decide) (by decide) rfl 3

theorem mem_scopeOf_chain {key : Nat} {handle : Handle} (h : key ∈ chainGraph.scopeOf handle) :
    handle.serial < 2 ∧ handle.slot = handle.serial + 4 ∧
      (key = handle.serial ∨ key = handle.serial + 1) := by
  obtain ⟨factor, hfactor, hkey⟩ := mem_scopeOf.1 h
  have hentry := mem_factors.2 hfactor
  rw [chainGraph_factors, List.mem_cons, List.mem_singleton] at hentry
  rcases hentry with heq | heq
  · cases heq
    exact ⟨by decide, rfl, by simpa [linkScope] using hkey⟩
  · cases heq
    exact ⟨by decide, rfl, by simpa [linkScope] using hkey⟩

private theorem isAcyclic_chainGraph : chainGraph.incidence.IsAcyclic := by
  refine isAcyclic_of_rank (Sum.elim (2 * ·) fun handle => 2 * handle.serial + 1) ?_ ?_
  · rintro (a | a) (b | b) h
    · exact h.elim
    · simp only [Sum.elim_inl, Sum.elim_inr]
      omega
    · simp only [Sum.elim_inl, Sum.elim_inr]
      omega
    · exact h.elim
  · rintro (a | a) (b | b) (c | c) ha hb hac hbc
    case inl.inl.inr =>
      obtain ⟨-, -, hkeya⟩ := mem_scopeOf_chain (adj_iff.1 ha)
      obtain ⟨-, -, hkeyb⟩ := mem_scopeOf_chain (adj_iff.1 hb)
      simp only [Sum.elim_inl, Sum.elim_inr] at hac hbc
      congr 1
      omega
    case inr.inr.inl =>
      obtain ⟨-, hslota, hkeya⟩ := mem_scopeOf_chain (adj_iff.1 ha.symm)
      obtain ⟨-, hslotb, hkeyb⟩ := mem_scopeOf_chain (adj_iff.1 hb.symm)
      simp only [Sum.elim_inl, Sum.elim_inr] at hac hbc
      have hserial : a.serial = b.serial := by omega
      have hslot : a.slot = b.slot := by omega
      exact congrArg Sum.inr (congrArg₂ Handle.mk hserial hslot)
    all_goals first | exact ha.elim | exact hb.elim

private theorem factorValue_link {space : Space} {x : Valuation} (hx : space.Respects x) {key : Nat}
    (hfirst : space[key]? = some 2) (hsecond : space[key + 1]? = some 2) (serial : Nat)
    (payoff : Rat) :
    factorValue space ⟨linkScope key, serial, [0, 0, 0, payoff]⟩ x =
      if x key = 1 ∧ x (key + 1) = 1 then payoff else 0 := by
  have hdomain : space.domain key = 2 ∧ space.domain (key + 1) = 2 := by
    simp [Space.domain, List.getD_eq_getElem?_getD, hfirst, hsecond]
  have hx0 := hx key (List.getElem?_eq_some_iff.1 hfirst).1
  have hx1 := hx (key + 1) (List.getElem?_eq_some_iff.1 hsecond).1
  rw [hdomain.1] at hx0
  rw [hdomain.2] at hx1
  have hindex : factorValue space ⟨linkScope key, serial, [0, 0, 0, payoff]⟩ x =
      [0, 0, 0, payoff].getD (MixedRadix.index [2, 2] [x key, x (key + 1)]) 0 := by
    rw [factorValue, linkScope, List.map_cons, List.map_singleton, List.map_cons,
      List.map_singleton, hdomain.1, hdomain.2]
  rw [hindex]
  obtain h | h : x key = 0 ∨ x key = 1 := by omega
  all_goals obtain h' | h' : x (key + 1) = 0 ∨ x (key + 1) = 1 := by omega
  all_goals simp [h, h', MixedRadix.index, MixedRadix.Place.step, MixedRadix.Place.start]

theorem tableSum_chain {full : List Nat} (hfull : Space.Admits [2, 2, 2, 3] full) :
    tableSum [2, 2, 2, 3] chainGraph (valuation full) =
      (if valuation full 0 = 1 ∧ valuation full 1 = 1 then 2 else 0) +
        if valuation full 1 = 1 ∧ valuation full 2 = 1 then 3 else 0 := by
  have hx := (Space.admits_iff.1 hfull).2
  rw [tableSum, chainGraph_factors, List.map_cons, List.map_singleton, List.sum_cons,
    List.sum_singleton, factorValue_link hx rfl rfl, factorValue_link hx rfl rfl]

theorem tableSum_chain_best :
    tableSum [2, 2, 2, 3] chainGraph (valuation [1, 1, 1, 0]) = 5 := by
  rw [tableSum_chain (by decide)]
  norm_num [valuation]

private theorem soleMaximizer_chain : SoleMaximizer [2, 2, 2, 3] chainGraph [1, 1, 1, 0] := by
  refine ⟨by decide, ?_, ?_⟩
  · intro full hfull
    rw [tableSum_chain_best, tableSum_chain hfull]
    split_ifs <;> norm_num
  · intro full hfull hequal key hkey
    rw [tableSum_chain_best, tableSum_chain hfull] at hequal
    have hones : valuation full 0 = 1 ∧ valuation full 1 = 1 ∧ valuation full 2 = 1 := by
      split_ifs at hequal with h h'
      · exact ⟨h.1, h'⟩
      all_goals norm_num at hequal
    obtain ⟨handle, hkey⟩ := covers_iff.1 hkey
    have hlast := mem_scopeOf_chain hkey
    obtain rfl | rfl | rfl : key = 0 ∨ key = 1 ∨ key = 2 := by omega
    · exact hones.1
    · exact hones.2.1
    · exact hones.2.2

/-- On the chain two sweeps are enough. -/
theorem maxPlus_exact_on_chain : ∃ solution report,
    solveGraph 2 [2, 2, 2, 3] chainGraph = .ok (solution, report) ∧
      solution.assignment = [1, 1, 1, 0] ∧ solution.payoff = 5 := by
  obtain ⟨solution, report, hsolve, hadmits, hcovered, hrest, hpayoff, -⟩ :=
    @maxPlus_exact_on_forests [2, 2, 2, 3] chainGraph [1, 1, 1, 0] (by decide)
      reachable_chainGraph rfl isAcyclic_chainGraph soleMaximizer_chain 2 (by decide)
  have hassignment : solution.assignment = [1, 1, 1, 0] := by
    apply hadmits.ext soleMaximizer_chain.admits
    intro key hkey
    by_cases hcovers : chainGraph.Covers key
    · exact hcovered key hcovers
    · have hlast : key = 3 := by
        by_contra hne
        have hbefore : key = 0 ∨ key = 1 ∨ key = 2 := by
          have hlt : key < 4 := hkey
          omega
        apply hcovers
        rcases hbefore with rfl | rfl | rfl
        · exact ⟨_, List.mem_cons_self, by decide⟩
        · exact ⟨_, List.mem_cons_self, by decide⟩
        · exact ⟨_, List.mem_cons_of_mem _ List.mem_cons_self, by decide⟩
      rw [hrest key hcovers, hlast]
      rfl
  refine ⟨solution, report, hsolve, hassignment, ?_⟩
  rw [hpayoff, hassignment, tableSum_chain_best]

end MaxPlus

end JointDecision

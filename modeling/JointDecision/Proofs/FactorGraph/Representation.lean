import JointDecision.Proofs.FactorGraph.History
import JointDecision.Proofs.Lists

/-! # What a factor graph represents

The slots, the lists of neighbors, the index of scopes and the two counts of a graph describe one
thing, whatever was created, edited and erased before. -/

namespace JointDecision.FactorGraph

variable {δ : Type}

/-- The parts of a graph agree: they describe one list of factors over live variables. -/
structure Coherent (varCount : Nat) (graph : FactorGraph δ) : Prop where
  varCount_eq : graph.varCount = varCount
  /-- The list of factors has every factor once. -/
  listed : graph.factors.Nodup ∧
    ∀ handle factor, (handle, factor) ∈ graph.factors ↔ graph.factor? handle = some factor
  distinct : graph.factors.Pairwise fun a b => a.2.scope ≠ b.2.scope
  /-- The index has the scope of every factor, beside its handle, and nothing else. -/
  indexed : graph.byScope.Perm (graph.factors.map fun entry => (entry.2.scope, entry.1))
  found : ∀ scope handle, graph.find? scope = some handle ↔
    (graph.factor? handle).map Factor.scope = some scope
  factorCount_eq : graph.factorCount = graph.factors.length
  adjacent : ∀ key < varCount, ∀ handle, handle ∈ graph.neighbors key ↔
    ∃ factor, graph.factor? handle = some factor ∧ key ∈ factor.scope.keys
  sorted : ∀ key < varCount, (graph.neighbors key).Pairwise (·.serial < ·.serial)
  degree_eq : ∀ key < varCount, graph.degree key = (graph.neighbors key).length
  /-- The variables hold the first slots, and no others. -/
  placed : ∀ slot, slot < varCount ↔ ∃ live adjacent, graph.node? slot = some (.var live adjacent)
  alive : ∀ {handle factor}, graph.factor? handle = some factor →
    ∀ key ∈ factor.scope.keys, key < varCount ∧ graph.isLive key = true
  liveCount_eq : graph.liveCount = ((List.range varCount).filter graph.isLive).length

/-- What the counts rest on: no scope is indexed twice, and live variables are counted. -/
structure Counted (graph : FactorGraph δ) : Prop where
  scopes : (graph.byScope.map Prod.fst).Nodup
  live : graph.liveCount = graph.liveVariables.length

theorem counted_new (varCount : Nat) : (FactorGraph.new varCount : FactorGraph δ).Counted where
  scopes := .nil
  live := by
    have hlive : (FactorGraph.new varCount : FactorGraph δ).liveVariables = List.range varCount :=
      List.filter_eq_self.2 fun key hkey => isLive_new (List.mem_range.1 hkey)
    rw [hlive, List.length_range]
    rfl

/-- An operation that forgets some scopes at most and ends no life keeps the counts. -/
theorem Counted.keep {graph after : FactorGraph δ} (h : graph.Counted)
    (hscopes : after.byScope.Sublist graph.byScope) (hcount : after.varCount = graph.varCount)
    (hliveCount : after.liveCount = graph.liveCount)
    (hlive : ∀ key < graph.varCount, after.isLive key = graph.isLive key) : after.Counted where
  scopes := h.scopes.sublist (hscopes.map _)
  live := by rw [hliveCount, h.live, liveVariables_congr hcount hlive]

theorem Counted.create [EmptyCollection δ] {graph : FactorGraph δ} (h : graph.Counted)
    (hsound : graph.Sound) {scope : Scope} (hscope : graph.Asked scope)
    (hfresh : graph.find? scope = none) : (graph.create scope).2.Counted where
  scopes := by
    refine List.nodup_cons.2 ⟨fun hmem => ?_, h.scopes⟩
    obtain ⟨⟨other, handle⟩, hentry, rfl⟩ := List.mem_map.1 hmem
    have hfind : graph.find? other = some handle := (mem_iff_lookup h.scopes).1 hentry
    rw [hfresh] at hfind
    cases hfind
  live := by
    have hlive := liveVariables_congr (Sound.varCount_create graph scope)
      fun key hkey => hsound.isLive_create hscope hkey
    rw [hlive]
    exact h.live

theorem Counted.eraseVariable {graph : FactorGraph δ} (h : graph.Counted) (hsound : graph.Sound)
    {number : Nat} (hfree : graph.neighbors number = []) :
    (graph.eraseVariable number).Counted := by
  rcases hsound.eraseVariable_cases hfree with heq | ⟨hlt, hnode⟩
  · rw [heq]
    exact h
  · have hafter := eraseVariable_eq hnode
    have hcount := Sound.eraseVariable_varCount graph number
    have hwas : graph.slotOf number ∈ graph.liveVariables :=
      mem_liveVariables.2 ⟨hlt, isLive_of_node? hlt hnode⟩
    have hlive : (graph.eraseVariable number).liveVariables =
        graph.liveVariables.erase (graph.slotOf number) := by
      refine liveVariables_erase hcount fun key hkey => ?_
      have hslot := node?_eraseVariable hnode key
      by_cases heq : key = graph.slotOf number
      · rw [if_pos heq] at hslot
        rw [isLive_of_node? (hcount ▸ hkey) hslot]
        simp [heq]
      · rw [if_neg heq] at hslot
        rw [isLive_congr hcount hkey hslot]
        simp [heq]
    constructor
    · rw [hafter]
      exact h.scopes
    · rw [hlive, List.length_erase_of_mem hwas, ← h.live, hafter]

theorem Sound.degree_eq {graph : FactorGraph δ} (h : graph.Sound) {key : Nat}
    (hkey : key < graph.varCount) : graph.degree key = (graph.neighbors key).length := by
  obtain ⟨live, adjacent, hvar⟩ := h.var key hkey
  simp [degree, neighbors, slotOf_eq hkey, hvar]

private theorem Sound.byScope_perm {graph : FactorGraph δ} (h : graph.Sound)
    (hcounted : graph.Counted) :
    graph.byScope.Perm (graph.factors.map fun entry => (entry.2.scope, entry.1)) := by
  have hscopes :
      ((graph.factors.map fun entry => (entry.2.scope, entry.1)).map Prod.fst).Nodup := by
    rw [List.map_map]
    exact h.nodup_scopes
  refine (List.perm_ext_iff_of_nodup hcounted.scopes.of_map hscopes.of_map).2 ?_
  rintro ⟨scope, handle⟩
  rw [mem_iff_lookup hcounted.scopes]
  refine (h.index scope handle).trans ?_
  simp only [List.mem_map, Prod.exists, mem_factors, Prod.mk.injEq]
  constructor
  · intro hfactor
    obtain ⟨factor, hfactor, hscope⟩ := hfactor
    exact ⟨handle, factor, hfactor, hscope, rfl⟩
  · intro hentry
    obtain ⟨other, factor, hfactor, hscope, rfl⟩ := hentry
    exact ⟨factor, hfactor, hscope⟩

def issued (log : List (Event δ)) : List Handle :=
  (log.filterMap Event.answer?).eraseDups

/-- Handles are issued in the order of their serials, none is left out, and every factor has one. -/
structure Ranked (log : List (Event δ)) (graph : FactorGraph δ) : Prop where
  ranks : (issued log).map Handle.serial = List.range graph.nextSerial
  known : ∀ {handle factor}, graph.factor? handle = some factor → handle ∈ issued log

private theorem issued_silent {log : List (Event δ)} {event : Event δ} (h : event.answer? = none) :
    issued (log ++ [event]) = issued log := by
  simp [issued, List.filterMap_append, h]

private theorem issued_answer (log : List (Event δ)) {event : Event δ} {handle : Handle}
    (h : event.answer? = some handle) :
    issued (log ++ [event]) =
      if handle ∈ issued log then issued log else issued log ++ [handle] := by
  have hanswers : (log ++ [event]).filterMap Event.answer? =
      log.filterMap Event.answer? ++ [handle] := by
    rw [List.filterMap_append, List.filterMap_cons_some h, List.filterMap_nil]
  rw [issued, issued, hanswers, eraseDups_concat]

section Histories

variable [EmptyCollection δ] {graph after : FactorGraph δ} {event : Event δ}

theorem Step.counted (hstep : Step graph event after) (hsound : graph.Sound)
    (h : graph.Counted) : after.Counted := by
  cases hstep with
  | @ask middle _ scope _ hslots hscope hensure =>
    have hmiddle : middle.Counted := h.keep (hslots.byScope ▸ List.Sublist.refl _) hslots.varCount
      hslots.liveCount fun key _ => hslots.isLive_eq key
    rcases (hslots.sound hsound).ensure?_cases hensure with ⟨rfl, -⟩ | ⟨hfresh, hcreate⟩
    · exact hmiddle
    · have hafter : after = (middle.create scope).2 := congrArg Prod.snd hcreate
      rw [hafter]
      exact hmiddle.create (hslots.sound hsound) hscope hfresh
  | edit handle edit =>
    refine h.keep ?_ (Sound.modifyData_varCount graph handle edit) ?_
      fun key hkey => hsound.modifyData_isLive handle edit hkey
    · unfold modifyData
      split <;> exact List.Sublist.refl _
    · unfold modifyData
      split <;> rfl
  | erase handle herase =>
    obtain ⟨factor, hfactor, -, hcount, -, -, -, hindex⟩ := Sound.eraseFactor?_spec herase
    refine h.keep (hindex ▸ List.filter_sublist) hcount ?_
      fun key hkey => hsound.isLive_eraseFactor? herase hkey
    simp only [eraseFactor?, hfactor, Option.some.injEq, Prod.mk.injEq] at herase
    rw [← herase.2]
  | miss _ _ => exact h
  | remove _ hfree => exact h.eraseVariable hsound hfree

variable {varCount : Nat} {log : List (Event δ)}

theorem History.counted (h : History varCount log graph) : graph.Counted := by
  induction h with
  | new => exact counted_new varCount
  | step hbefore hstep ih => exact hstep.counted hbefore.sound ih

theorem Ranked.step {log : List (Event δ)} (h : Ranked log graph) (hsound : graph.Sound)
    (hstep : Step graph event after) : Ranked (log ++ [event]) after := by
  cases hevent : event.answer? with
  | none =>
    obtain ⟨hserial, hold⟩ := hstep.silent hsound hevent
    constructor
    · rw [issued_silent hevent, hserial, h.ranks]
    · intro handle factor hfactor
      obtain ⟨old, hwas, -⟩ := hold hfactor
      rw [issued_silent hevent]
      exact h.known hwas
  | some handle =>
    obtain ⟨scope, rfl⟩ : ∃ scope, event = .asked scope handle := by
      cases event <;> simp_all [Event.answer?]
    rcases hstep.asked_cases hsound with ⟨hfind, hserial, hsame⟩ | ⟨-, hrank, hserial, hafter⟩
    · obtain ⟨held, hheld, -⟩ := (hsound.index _ _).1 hfind
      have hissued := issued_answer log hevent
      rw [if_pos (h.known hheld)] at hissued
      constructor
      · rw [hissued, hserial, h.ranks]
      · intro other factor hfactor
        rw [hissued]
        exact h.known (hsame other ▸ hfactor)
    · -- The serial of a handle issued before is below the next one.
      have hnew : handle ∉ issued log := by
        intro hmem
        have hold : handle.serial ∈ (issued log).map Handle.serial := List.mem_map_of_mem hmem
        rw [h.ranks, hrank] at hold
        exact Nat.lt_irrefl _ (List.mem_range.1 hold)
      have hissued := issued_answer log hevent
      rw [if_neg hnew] at hissued
      constructor
      · rw [hissued, List.map_append, h.ranks, hserial, List.range_succ, ← hrank]
        rfl
      · intro other factor hfactor
        rw [hissued, List.mem_append]
        rw [hafter] at hfactor
        split at hfactor
        · rename_i heq
          exact .inr (by simp [heq])
        · exact .inl (h.known hfactor)

theorem History.ranked {varCount : Nat} {log : List (Event δ)} (h : History varCount log graph) :
    Ranked log graph := by
  induction h with
  | new => exact ⟨rfl, fun hfactor => by simp [factor?_new] at hfactor⟩
  | step hbefore hstep ih => exact ih.step hbefore.sound hstep

/-- Whatever a caller did, the parts of the graph agree, and serials are ranks of creation. -/
theorem graph_coherent {varCount : Nat} {log : List (Event δ)} {graph : FactorGraph δ}
    (h : History varCount log graph) :
    graph.Coherent varCount ∧ (issued log).map Handle.serial = List.range graph.nextSerial := by
  have hsound := h.sound
  have hcounted := h.counted
  obtain rfl := h.varCount_eq
  have hperm := hsound.byScope_perm hcounted
  refine ⟨?_, h.ranked.ranks⟩
  constructor
  case varCount_eq => rfl
  case listed => exact ⟨nodup_factors graph, fun _ _ => mem_factors⟩
  case distinct => exact List.pairwise_map.1 hsound.nodup_scopes
  case indexed => exact hperm
  case found =>
    intro scope handle
    rw [hsound.index, Option.map_eq_some_iff]
  case factorCount_eq =>
    rw [factorCount, hperm.length_eq, List.length_map]
  case adjacent => exact hsound.adjacent
  case sorted => exact hsound.sorted
  case degree_eq => exact fun _ hkey => hsound.degree_eq hkey
  case placed =>
    intro slot
    constructor
    · exact hsound.var slot
    · intro hvar
      obtain ⟨live, adjacent, hvar⟩ := hvar
      by_contra hge
      exact hsound.nonvar slot (Nat.not_lt.1 hge) live adjacent hvar
  case alive => exact fun hfactor => (hsound.scope hfactor).2
  case liveCount_eq => exact hcounted.live

/-- After a scope was given up and asked for again there were three creations. -/
theorem graph_coherent_reused : ∃ graph : FactorGraph (List Nat), History 3 reuseLog graph ∧
    graph.Coherent 3 ∧ graph.nextSerial = 3 := by
  obtain ⟨graph, h⟩ := exists_history_reuseLog
  obtain ⟨hcoherent, hranks⟩ := graph_coherent h
  have hissued : (issued reuseLog).map Handle.serial = [0, 1, 2] := by decide
  refine ⟨graph, h, hcoherent, ?_⟩
  rw [hissued] at hranks
  simpa using (congrArg List.length hranks).symm

end Histories

private theorem slotOf_of_le {graph : FactorGraph δ} {number : Nat} (hge : graph.varCount ≤ number)
    (hword : number < 4294967295) : graph.slotOf number = number := by
  rw [slotOf, if_neg (Nat.not_lt.2 hge), Nat.mod_eq_of_lt (by omega)]

/-- The slots behind the variables are vacant, or hold factors. -/
theorem Sound.node?_of_le {graph : FactorGraph δ} (h : graph.Sound) {slot : Nat}
    (hge : graph.varCount ≤ slot) :
    graph.node? slot = none ∨ ∃ factor, graph.node? slot = some (.factor factor) := by
  cases hnode : graph.node? slot with
  | none => exact .inl rfl
  | some node =>
    cases node with
    | var live adjacent => exact absurd hnode (h.nonvar slot hge live adjacent)
    | factor factor => exact .inr ⟨factor, rfl⟩

/-- What a graph answers for a number that is not a variable. Where the number is the slot of a
factor, the degree counts the variables of its scope. -/
structure Inert (graph : FactorGraph δ) (number : Nat) : Prop where
  not_live : graph.isLive number = false
  neighbors_eq : graph.neighbors number = []
  erase_eq : graph.eraseVariable number = graph
  degree_of_factor : ∀ handle factor, graph.factor? handle = some factor →
    handle.slot = number → graph.degree number = factor.scope.size ∧ 0 < graph.degree number
  degree_of_none : (∀ handle, handle.slot = number → graph.factor? handle = none) →
    graph.degree number = 0

theorem Sound.inert {graph : FactorGraph δ} (h : graph.Sound) {number : Nat}
    (hge : graph.varCount ≤ number) (hword : number < 4294967295) : graph.Inert number := by
  have hslot := slotOf_of_le hge hword
  constructor
  case not_live =>
    rcases h.node?_of_le hge with hnode | ⟨factor, hnode⟩
    · rw [isLive, hslot, hnode]
    · rw [isLive, hslot, hnode]
  case neighbors_eq =>
    rcases h.node?_of_le hge with hnode | ⟨factor, hnode⟩
    · rw [neighbors, hslot, hnode]
    · rw [neighbors, hslot, hnode]
  case erase_eq =>
    rcases h.node?_of_le hge with hnode | ⟨factor, hnode⟩
    · rw [FactorGraph.eraseVariable, hslot, hnode]
    · rw [FactorGraph.eraseVariable, hslot, hnode]
  case degree_of_factor =>
    rintro handle factor hfactor rfl
    have hdegree : graph.degree handle.slot = factor.scope.size := by
      rw [degree, hslot, (node?_of_factor? hfactor).1]
    exact ⟨hdegree, hdegree ▸ Scope.size_pos (h.scope hfactor).1⟩
  case degree_of_none =>
    intro hnone
    rcases h.node?_of_le hge with hnode | ⟨factor, hnode⟩
    · rw [degree, hslot, hnode]
    · have hfactor := factor?_of_node? hnode
      rw [hnone _ rfl] at hfactor
      cases hfactor

/-- Whatever a caller did, a number that is not a variable is not live, has no neighbors and cannot
be erased. Its degree is the number of its neighbors exactly if its slot does not hold a factor. -/
theorem other_numbers_inert [EmptyCollection δ] {varCount : Nat} {log : List (Event δ)}
    {graph : FactorGraph δ} (h : History varCount log graph) {number : Nat} (hge : varCount ≤ number)
    (hword : number < 4294967295) : graph.Inert number ∧
      (graph.degree number = (graph.neighbors number).length ↔
        ∀ handle, handle.slot = number → graph.factor? handle = none) := by
  have hinert := h.sound.inert (h.varCount_eq ▸ hge) hword
  refine ⟨hinert, ?_⟩
  rw [hinert.neighbors_eq, List.length_nil]
  constructor
  · intro hzero handle hslot
    cases hfactor : graph.factor? handle with
    | none => rfl
    | some factor =>
      have hpos := (hinert.degree_of_factor handle factor hfactor hslot).2
      omega
  · exact hinert.degree_of_none

/-- The slot of a factor, a freed slot and one that was never used. -/
theorem other_numbers_inert_reused : ∃ graph,
    History 3 (reuseLog.take 5 ++ [.erased ⟨1, 4⟩ (some [])]) graph ∧
    (graph.Inert 3 ∧ graph.degree 3 = 2) ∧ (graph.Inert 4 ∧ graph.degree 4 = 0) ∧
    graph.Inert 5 ∧ graph.degree 5 = 0 := by
  have h := history_reusedGraph.step (.erase ⟨1, 4⟩ rfl)
  obtain ⟨hused, -⟩ := other_numbers_inert h (le_refl 3) (by decide)
  obtain ⟨hfreed, hzero⟩ := other_numbers_inert h (by decide : 3 ≤ 4) (by decide)
  obtain ⟨hunused, hnone⟩ := other_numbers_inert h (by decide : 3 ≤ 5) (by decide)
  exact ⟨_, h, ⟨hused, (hused.degree_of_factor ⟨2, 3⟩ _ rfl rfl).1⟩, ⟨hfreed, rfl⟩, hunused, rfl⟩

/-- A factor over two variables has degree two in its slot, and no neighbors. -/
theorem degree_of_factor_slot : ∃ graph : FactorGraph (List Nat),
    History 2 [.asked (pairScope 0 1 Nat.zero_lt_one) ⟨0, 2⟩] graph ∧
    graph.degree 2 = 2 ∧ graph.neighbors 2 = [] ∧
    graph.degree 2 ≠ (graph.neighbors 2).length := by
  have hnew : History 2 [] (.new 2 : FactorGraph (List Nat)) := .new
  have h := hnew.ask (asked_pairScope Nat.zero_lt_one (by decide) rfl rfl) rfl
  exact ⟨_, h, rfl, rfl, by decide⟩

end JointDecision.FactorGraph

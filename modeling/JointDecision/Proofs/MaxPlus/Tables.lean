import JointDecision.MaxPlus
import JointDecision.Proofs.Odometer
import JointDecision.Proofs.Problem

/-! # Payoff tables

The tables of the graph of a problem add up to the objective: every rule was added to the one entry
that a valuation selects if the rule holds in it. -/

namespace JointDecision

open MixedRadix

namespace MaxPlus

def factorValue (space : Space) (factor : Factor (List Rat)) (x : Valuation) : Rat :=
  factor.data.getD
    (index (factor.scope.keys.map space.domain) (factor.scope.keys.map x)) 0

def tableSum (space : Space) (graph : FactorGraph (List Rat)) (x : Valuation) : Rat :=
  (graph.factors.map fun entry => factorValue space entry.2 x).sum

theorem factorValue_congr {space : Space} {factor : Factor (List Rat)} {x y : Valuation}
    (h : ∀ key ∈ factor.scope.keys, x key = y key) :
    factorValue space factor x = factorValue space factor y := by
  rw [factorValue, factorValue, List.map_congr_left h]

theorem tableSum_congr {space : Space} {graph : FactorGraph (List Rat)} {x y : Valuation}
    (h : ∀ entry ∈ graph.factors, ∀ key ∈ entry.2.scope.keys, x key = y key) :
    tableSum space graph x = tableSum space graph y := by
  rw [tableSum, tableSum]
  congr 1
  exact List.map_congr_left fun entry hentry => factorValue_congr (h entry hentry)

/-- The entry of a table over `keys` that a full assignment selects. There is none if a variable has
no value or the table is too short. -/
def selected? {α : Type} (space : Space) (keys : List Nat) (table : List α) (full : List Nat) :
    Option α := do
  let values ← keys.mapM fun key => full[key]?
  let index ← space.index? keys values
  table[index]?

theorem selected?_eq {α : Type} {space : Space} {keys : List Nat} {table : List α} {full : List Nat}
    (hkeys : ∀ key ∈ keys, key < space.length)
    (htable : space.jointSize? keys = some table.length) (hfull : space.Admits full)
    (default : α) : selected? space keys table full =
      some (table.getD (index (keys.map space.domain) (keys.map (valuation full))) default) := by
  obtain ⟨hlength, hrespects⟩ := Space.admits_iff.1 hfull
  have hvalues : keys.mapM (fun key => full[key]?) = some (keys.map (valuation full)) := by
    refine mapM_eq_some_map fun key hkey => ?_
    have hlt : key < full.length := hlength.symm ▸ hkeys key hkey
    simp [valuation, hlt]
  obtain ⟨hsize, hword⟩ := Space.of_jointSize? htable
  have hdigits := digits_map hrespects hkeys
  have hindex := hdigits.index_lt
  rw [← hsize] at hindex
  rw [selected?, hvalues]
  simp [Space.index?_eq hkeys hword hdigits, hindex]

def Tabled {α : Type} (space : Space) (graph : FactorGraph (List α)) : Prop :=
  ∀ entry ∈ graph.factors, space.jointSize? entry.2.scope.keys = some entry.2.data.length

theorem Tabled.length_eq {α : Type} {space : Space} {graph : FactorGraph (List α)}
    (h : Tabled space graph) {entry : Handle × Factor (List α)} (hentry : entry ∈ graph.factors) :
    entry.2.data.length = volume (entry.2.scope.keys.map space.domain) :=
  (Space.of_jointSize? (h entry hentry)).1

theorem Tabled.fitsWord {α : Type} {space : Space} {graph : FactorGraph (List α)}
    (h : Tabled space graph) {entry : Handle × Factor (List α)} (hentry : entry ∈ graph.factors) :
    space.FitsWord entry.2.scope.keys :=
  (Space.of_jointSize? (h entry hentry)).2

/-- Tables that are as large as they should be are passed over. -/
theorem checkTables_append {α : Type} {space : Space} {before : List (Factor (List α))}
    (hbefore : ∀ factor ∈ before, space.jointSize? factor.scope.keys = some factor.data.length)
    (later : List (Factor (List α))) :
    checkTables space (before ++ later) = checkTables space later := by
  induction before with
  | nil => rfl
  | cons factor before ih =>
    obtain ⟨hfactor, hbefore⟩ := List.forall_mem_cons.1 hbefore
    rw [List.cons_append, checkTables, hfactor]
    exact (if_pos rfl).trans (ih hbefore)

theorem checkTables_eq_ok_iff {α : Type} {space : Space} {factors : List (Factor (List α))} :
    checkTables space factors = .ok () ↔
      ∀ factor ∈ factors, space.jointSize? factor.scope.keys = some factor.data.length := by
  constructor
  · intro h
    induction factors with
    | nil => simp
    | cons factor factors ih =>
      rw [checkTables] at h
      split at h
      · cases h
      · rename_i expected hsize
        split at h
        · rename_i hlength
          exact List.forall_mem_cons.2 ⟨hlength ▸ hsize, ih h⟩
        · cases h
  · intro h
    rw [← List.append_nil factors, checkTables_append h]
    rfl

private theorem length_addEntry {α : Type} [Payoff α] {size : Nat} (index : Nat) (payoff : α)
    {table : List α} (htable : table = [] ∨ table.length = size) :
    (addEntry size index payoff table).length = size := by
  rw [addEntry, List.length_modify]
  rcases htable with rfl | hlength
  · exact List.length_replicate
  · split
    · exact List.length_replicate
    · exact hlength

private theorem length_foldl_addEntry {α : Type} [Payoff α] {size : Nat} (index : Rule α → Nat)
    {rules : List (Rule α)} {table : List α} (htable : table = [] ∨ table.length = size)
    (hsome : table.length = size ∨ rules ≠ []) :
    (rules.foldl (fun table rule => addEntry size (index rule) rule.payoff table)
      table).length = size := by
  induction rules generalizing table with
  | nil => exact hsome.resolve_right fun hne => hne rfl
  | cons rule rules ih =>
    have hlength := length_addEntry (index rule) rule.payoff htable
    exact ih (.inr hlength) (.inl hlength)

private theorem getD_addEntry {size index : Nat} (hindex : index < size) (payoff : Rat)
    {table : List Rat} (htable : table = [] ∨ table.length = size) (i : Nat) :
    (addEntry size index payoff table).getD i 0 =
      table.getD i 0 + if index = i then payoff else 0 := by
  have hfilled : ∃ filled : List Rat, addEntry size index payoff table =
      filled.modify index (· + payoff) ∧ filled.length = size ∧
        ∀ i, filled.getD i 0 = table.getD i 0 := by
    rcases htable with rfl | hlength
    · refine ⟨List.replicate size 0, rfl, by simp, fun i => ?_⟩
      by_cases hi : i < size
      · simp [hi]
      · simp [hi]
    · refine ⟨table, ?_, hlength, fun _ => rfl⟩
      cases table with
      | nil =>
        rw [List.length_nil] at hlength
        omega
      | cons entry entries => rfl
  obtain ⟨filled, hadd, hlength, hsame⟩ := hfilled
  rw [hadd, ← hsame, List.getD_eq_getElem?_getD, List.getD_eq_getElem?_getD, List.getElem?_modify]
  by_cases heq : index = i
  · subst heq
    simp [hlength, hindex]
  · simp [heq]

private theorem getD_foldl_addEntry {size : Nat} (index : Rule Rat → Nat) {rules : List (Rule Rat)}
    (hindex : ∀ rule ∈ rules, index rule < size) {table : List Rat}
    (htable : table = [] ∨ table.length = size) (i : Nat) :
    (rules.foldl (fun table rule => addEntry size (index rule) rule.payoff table)
        table).getD i 0 =
      table.getD i 0 + ((rules.filter fun rule => index rule = i).map Rule.payoff).sum := by
  induction rules generalizing table with
  | nil => simp
  | cons rule rules ih =>
    have hlength := length_addEntry (index rule) rule.payoff htable
    have hrest := ih (fun other hother => hindex other (List.mem_cons_of_mem _ hother))
      (.inr hlength)
    rw [List.foldl_cons, hrest, getD_addEntry (hindex rule List.mem_cons_self) rule.payoff htable]
    by_cases heq : index rule = i
    · simp [heq, add_assoc]
    · simp [heq]

def entryIndex {α : Type} (space : Space) (rule : Rule α) : Nat :=
  index (rule.assignment.keys.map space.domain) rule.assignment.values

def tableEdit {α : Type} [Payoff α] (space : Space) (rule : Rule α) : List α → List α :=
  addEntry (volume (rule.assignment.keys.map space.domain)) (entryIndex space rule) rule.payoff

theorem digits_values {space : Space} {a : Assignment} (h : a.Over space) :
    Digits (a.keys.map space.domain) a.values := by
  rw [Assignment.keys, Assignment.values, List.map_map]
  exact List.forall₂_map_left_iff.2 (List.forall₂_map_right_iff.2 (List.forall₂_same.2 h.value_lt))

theorem tableEdit?_eq {α : Type} [Payoff α] {space : Space} {rule : Rule α}
    (h : rule.assignment.Over space) (hword : space.FitsWord rule.assignment.keys) :
    tableEdit? space rule = some (tableEdit space rule) := by
  rw [tableEdit?, Space.jointSize?_eq h.keys_lt hword,
    Space.index?_eq h.keys_lt hword (digits_values h)]
  rfl

private theorem tableEdit?_eq_none {α : Type} [Payoff α] {space : Space} {rule : Rule α}
    (h : rule.assignment.Over space) (hword : ¬ space.FitsWord rule.assignment.keys) :
    tableEdit? space rule = none := by
  rw [tableEdit?, Space.jointSize?_eq_none h.keys_lt hword]
  rfl

private theorem holds_iff_values {a : Assignment} {x : Valuation} :
    a.holds x = true ↔ a.values = a.keys.map x := by
  rw [Assignment.holds_iff, Assignment.values, Assignment.keys, List.map_map, List.map_inj_left]
  constructor
  · intro h entry hentry
    exact (h entry hentry).symm
  · intro h entry hentry
    exact (h entry hentry).symm

/-- A rule is added to the entry that a valuation selects if and only if it holds there. -/
theorem entryIndex_eq_iff {space : Space} {rule : Rule Rat} (h : rule.assignment.Over space)
    {x : Valuation} (hx : space.Respects x) :
    entryIndex space rule =
        index (rule.assignment.keys.map space.domain) (rule.assignment.keys.map x) ↔
      rule.assignment.holds x = true := by
  rw [holds_iff_values]
  constructor
  · intro heq
    exact (digits_values h).index_injective (digits_map hx h.keys_lt) heq
  · intro heq
    rw [entryIndex, heq]

section Filed

open FactorGraph

variable {α : Type} [Payoff α] {space : Space}

theorem buildGraph_eq_error (hspace : space.Inhabited) {rules : List (Rule α)}
    (hrules : checkRules space rules = .ok ()) {rule : Rule α} (hrule : rule ∈ rules)
    (hword : ¬ space.FitsWord rule.assignment.keys) :
    buildGraph space rules = .error .outOfBounds :=
  ofRules_eq_error hspace hrules hrule
    (tableEdit?_eq_none (over_of_checkRules hrules rule hrule) hword)

theorem solve_eq_error (hspace : space.Inhabited) {rules : List (Rule α)}
    (hrules : checkRules space rules = .ok ()) {rule : Rule α} (hrule : rule ∈ rules)
    (hword : ¬ space.FitsWord rule.assignment.keys) (iterations : Nat) :
    solve iterations space rules = .error .outOfBounds := by
  rw [solve, buildGraph_eq_error hspace hrules hrule hword]
  rfl

/-- Two variables that have one joint value more than a word can count. -/
def wideSpace : Space := [4294967296, 4294967296]

def wideRule : Rule Rat := ⟨⟨[(0, 0), (1, 0)], by simp⟩, 1, []⟩

private theorem data_eq_foldl {rules : List (Rule α)} {graph : FactorGraph (List α)}
    (h : Filed space (tableEdit space) rules graph) {handle : Handle} {factor : Factor (List α)}
    (hfactor : graph.factor? handle = some factor) :
    factor.data = (rulesOver rules factor.scope).foldl (fun table rule =>
      addEntry (volume (factor.scope.keys.map space.domain)) (entryIndex space rule)
        rule.payoff table) [] := by
  rw [h.data hfactor]
  refine List.foldl_ext _ _ _ fun table rule hrule => ?_
  have hscope : rule.assignment.scope = factor.scope := by simpa using (List.mem_filter.1 hrule).2
  rw [tableEdit, show rule.assignment.keys = factor.scope.keys from congrArg Scope.keys hscope]

private theorem length_data {rules : List (Rule α)} {graph : FactorGraph (List α)}
    (h : Filed space (tableEdit space) rules graph) {handle : Handle} {factor : Factor (List α)}
    (hfactor : graph.factor? handle = some factor) :
    factor.data.length = volume (factor.scope.keys.map space.domain) := by
  rw [data_eq_foldl h hfactor]
  exact length_foldl_addEntry _ (.inl rfl) (.inr (h.used hfactor))

theorem filed_tabled {rules : List (Rule α)} {graph : FactorGraph (List α)}
    (h : Filed space (tableEdit space) rules graph)
    (hrules : ∀ rule ∈ rules, rule.assignment.Over space)
    (hwords : ∀ rule ∈ rules, space.FitsWord rule.assignment.keys) : Tabled space graph := by
  intro entry hentry
  have hfactor := mem_factors.1 hentry
  obtain ⟨rule, hrule⟩ := List.exists_mem_of_ne_nil _ (h.used hfactor)
  obtain ⟨hin, hscope⟩ := List.mem_filter.1 hrule
  have hscope : rule.assignment.scope = entry.2.scope := by simpa using hscope
  rw [length_data h hfactor, ← show rule.assignment.keys = entry.2.scope.keys from
    congrArg Scope.keys hscope]
  exact Space.jointSize?_eq (hrules rule hin).keys_lt (hwords rule hin)

variable {rules : List (Rule Rat)} {graph : FactorGraph (List Rat)}

/-- The table of a factor is as large as it should be, and an entry is what the rules over the scope
with its index add up to. -/
theorem factor_entries (h : Filed space (tableEdit space) rules graph)
    (hrules : ∀ rule ∈ rules, rule.assignment.Over space) {handle : Handle}
    {factor : Factor (List Rat)} (hfactor : graph.factor? handle = some factor) :
    factor.data.length = volume (factor.scope.keys.map space.domain) ∧
      ∀ i, factor.data.getD i 0 = (((rulesOver rules factor.scope).filter fun rule =>
        entryIndex space rule = i).map Rule.payoff).sum := by
  have hindex : ∀ rule ∈ rulesOver rules factor.scope,
      entryIndex space rule < volume (factor.scope.keys.map space.domain) := by
    intro rule hrule
    obtain ⟨hin, hscope⟩ := List.mem_filter.1 hrule
    have hscope : rule.assignment.scope = factor.scope := by simpa using hscope
    rw [← show rule.assignment.keys = factor.scope.keys from congrArg Scope.keys hscope]
    exact (digits_values (hrules rule hin)).index_lt
  refine ⟨length_data h hfactor, fun i => ?_⟩
  rw [data_eq_foldl h hfactor, getD_foldl_addEntry (entryIndex space) hindex (.inl rfl)]
  simp

/-- The table of a factor is as large as it should be, and a valuation selects from it what the
rules over the scope earn. -/
theorem factor_spec (h : Filed space (tableEdit space) rules graph)
    (hrules : ∀ rule ∈ rules, rule.assignment.Over space) {handle : Handle}
    {factor : Factor (List Rat)} (hfactor : graph.factor? handle = some factor) :
    factor.data.length = volume (factor.scope.keys.map space.domain) ∧
      ∀ x, space.Respects x →
        factorValue space factor x = objective (rulesOver rules factor.scope) x := by
  obtain ⟨hlength, hentries⟩ := factor_entries h hrules hfactor
  refine ⟨hlength, fun x hx => ?_⟩
  rw [factorValue, hentries, objective, earned]
  congr 2
  refine List.filter_congr fun rule hrule => ?_
  obtain ⟨hin, hscope⟩ := List.mem_filter.1 hrule
  have hscope : rule.assignment.scope = factor.scope := by simpa using hscope
  have hkeys : rule.assignment.keys = factor.scope.keys := congrArg Scope.keys hscope
  rw [← hkeys, Bool.eq_iff_iff, decide_eq_true_eq]
  exact entryIndex_eq_iff (hrules rule hin) hx

/-- The tables of the graph of a problem add up to its objective. -/
theorem filed_tableSum_eq (h : Filed space (tableEdit space) rules graph)
    (hrules : ∀ rule ∈ rules, rule.assignment.Over space) {x : Valuation}
    (hx : space.Respects x) : tableSum space graph x = objective rules x := by
  rw [objective_perm h.perm, objective_flatMap, tableSum]
  congr 1
  exact List.map_congr_left fun entry hentry =>
    (factor_spec h hrules (mem_factors.1 hentry)).2 x hx

end Filed

end MaxPlus

end JointDecision

import JointDecision.Proofs.FactorGraph.History
import JointDecision.Proofs.MaxPlus.Bounds

/-! # Max-plus sees only scopes and tables

The serials, the slots and the order of the factors of a graph, and so the rows of their messages,
come from the graph's history. Messages are the same without them: two graphs with the same tables
over the same scopes are solved alike. What the history may decide is whether a table of the wrong
length is met before one that is too large to be measured. -/

namespace JointDecision

open MixedRadix

namespace FactorGraph

variable {δ : Type}

def Holds (graph : FactorGraph δ) (scope : Scope) (data : δ) : Prop :=
  ∃ entry ∈ graph.factors, entry.2.scope = scope ∧ entry.2.data = data

def contents (graph : FactorGraph δ) : List (Scope × δ) :=
  graph.factors.map fun entry => (entry.2.scope, entry.2.data)

theorem mem_contents {graph : FactorGraph δ} {scope : Scope} {data : δ} :
    (scope, data) ∈ graph.contents ↔ graph.Holds scope data := by
  rw [contents, List.mem_map]
  constructor
  · intro h
    obtain ⟨entry, hentry, heq⟩ := h
    exact ⟨entry, hentry, congrArg Prod.fst heq, congrArg Prod.snd heq⟩
  · intro h
    obtain ⟨entry, hentry, rfl, rfl⟩ := h
    exact ⟨entry, hentry, rfl⟩

theorem contents_perm {graph other : FactorGraph δ} (hsound : graph.Sound) (hother : other.Sound)
    (hsame : ∀ scope data, graph.Holds scope data ↔ other.Holds scope data) :
    graph.contents.Perm other.contents := by
  have hnodup : ∀ {graph : FactorGraph δ}, graph.Sound → graph.contents.Nodup := by
    intro graph hsound
    refine List.Nodup.of_map Prod.fst ?_
    rw [contents, List.map_map]
    exact hsound.nodup_scopes
  refine (List.perm_ext_iff_of_nodup (hnodup hsound) (hnodup hother)).2 ?_
  rintro ⟨scope, data⟩
  rw [mem_contents, mem_contents, hsame]

theorem Sound.neighbors_perm {graph : FactorGraph δ} (hsound : graph.Sound) {key : Nat}
    (hkey : key < graph.varCount) :
    (graph.neighbors key).Perm
      ((graph.factors.filter fun entry => key ∈ entry.2.scope.keys).map Prod.fst) := by
  have hnodup : ((graph.factors.filter fun entry => key ∈ entry.2.scope.keys).map
      Prod.fst).Nodup := (nodup_handles graph).sublist (List.filter_sublist.map _)
  refine (List.perm_ext_iff_of_nodup (hsound.nodup_neighbors hkey) hnodup).2 fun handle => ?_
  rw [hsound.adjacent key hkey, List.mem_map]
  constructor
  · intro h
    obtain ⟨factor, hfactor, hin⟩ := h
    exact ⟨(handle, factor), List.mem_filter.2 ⟨mem_factors.2 hfactor, by simpa using hin⟩, rfl⟩
  · intro h
    obtain ⟨⟨held, factor⟩, hentry, rfl⟩ := h
    obtain ⟨hentry, hin⟩ := List.mem_filter.1 hentry
    exact ⟨factor, mem_factors.1 hentry, by simpa using hin⟩

end FactorGraph

namespace MaxPlus

open FactorGraph

section Graphs

variable {space : Space} {graph other : FactorGraph (List Rat)}

private theorem tableSum_eq_contents (x : Valuation) :
    tableSum space graph x =
      (graph.contents.map fun held => factorValue space ⟨held.1, 0, held.2⟩ x).sum := by
  rw [contents, List.map_map]
  rfl

theorem tabled_iff_contents : Tabled space graph ↔ ∀ scope data, graph.Holds scope data →
    space.jointSize? scope.keys = some data.length := by
  constructor
  · intro h scope data hheld
    obtain ⟨entry, hentry, rfl, rfl⟩ := hheld
    exact h entry hentry
  · intro h entry hentry
    exact h _ _ ⟨entry, hentry, rfl, rfl⟩

def toldBy (graph : FactorGraph (List Rat)) (inboxes : Array (Inbox Rat)) (scope : Scope)
    (key value : Nat) : Rat :=
  match graph.find? scope with
  | some handle => told graph inboxes handle key value
  | none => 0

theorem toldBy_eq (hsound : graph.Sound) (inboxes : Array (Inbox Rat))
    {entry : Handle × Factor (List Rat)} (hentry : entry ∈ graph.factors) :
    toldBy graph inboxes entry.2.scope = told graph inboxes entry.1 := by
  funext key value
  rw [toldBy, (hsound.index entry.2.scope entry.1).2 ⟨entry.2, mem_factors.1 hentry, rfl⟩]

/-- What a variable has been told is the sum of what it was told over each scope. -/
theorem belief_eq_contents (hsound : graph.Sound) (hcount : graph.varCount = space.length)
    (sweeps : Nat) {key value : Nat} (hkey : key < space.length)
    (hvalue : value < space.domain key) :
    belief ((networkOf space graph).inboxes sweeps) key value =
      ((graph.contents.filter fun held => key ∈ held.1.keys).map fun held =>
        toldBy graph ((networkOf space graph).inboxes sweeps) held.1 key value).sum := by
  rw [belief_inboxes hsound hcount sweeps hkey hvalue,
    ((hsound.neighbors_perm (hcount ▸ hkey)).map _).sum_eq, List.map_map, contents,
    List.filter_map, List.map_map]
  congr 1
  refine List.map_congr_left fun entry hentry => ?_
  simp only [Function.comp]
  rw [toldBy_eq hsound _ (List.mem_filter.1 hentry).1]

private theorem sum_told_sweep (hspace : space.Inhabited) (hsound : graph.Sound)
    (hcount : graph.varCount = space.length) (htabled : Tabled space graph)
    (inboxes : Array (Inbox Rat)) {entry : Handle × Factor (List Rat)}
    (hentry : entry ∈ graph.factors) {key : Nat} (hkey : key ∈ entry.2.scope.keys) :
    ((List.range (space.domain key)).map
      (told graph ((networkOf space graph).sweep inboxes) entry.1 key)).sum = 0 := by
  obtain ⟨inbox, message, hinbox, hrow, hbalanced⟩ :=
    balanced_sweep hspace hsound hcount htabled inboxes hentry hkey
  have hread : inbox.rows.getD (rowOf graph entry.1 key) #[] = message := by
    rw [Array.getD_eq_getD_getElem?, hrow, Option.getD_some]
  rw [← hbalanced.sum]
  congr 1
  refine List.ext_getElem (by simp [hbalanced.size]) fun value hvalue hother => ?_
  rw [Array.length_toList] at hother
  rw [List.getElem_map, List.getElem_range, told_of_inbox hinbox, hread]
  simp [hother]

/-- Factors that offer the same say the same: the best offers fix what is said up to the mean, and
the sum fixes the mean. -/
theorem told_eq_of_offer (hspace : space.Inhabited) (hsound : graph.Sound) (hsound' : other.Sound)
    (hcount : graph.varCount = space.length) (hcount' : other.varCount = space.length)
    (htabled : Tabled space graph) (htabled' : Tabled space other)
    {inboxes inboxes' : Array (Inbox Rat)} {entry found : Handle × Factor (List Rat)}
    (hentry : entry ∈ graph.factors) (hfound : found ∈ other.factors) {key : Nat}
    (hkey : key ∈ entry.2.scope.keys) (hkey' : key ∈ found.2.scope.keys)
    (hoffer : ∀ x, space.Respects x →
      offer space other inboxes' found key x = offer space graph inboxes entry key x)
    {value : Nat} (hvalue : value < space.domain key) :
    told other ((networkOf space other).sweep inboxes') found.1 key value =
      told graph ((networkOf space graph).sweep inboxes) entry.1 key value := by
  obtain ⟨mean, hleast, hattained⟩ := told_sweep hspace hsound hcount htabled inboxes hentry hkey
  obtain ⟨mean', hleast', hattained'⟩ :=
    told_sweep hspace hsound' hcount' htabled' inboxes' hfound hkey'
  have hshift : ∀ value < space.domain key,
      told other ((networkOf space other).sweep inboxes') found.1 key value =
        told graph ((networkOf space graph).sweep inboxes) entry.1 key value - (mean' - mean) := by
    intro value hvalue
    obtain ⟨x, hx, rfl, htold⟩ := hattained value hvalue
    obtain ⟨y, hy, heq, htold'⟩ := hattained' (x key) hvalue
    have hforth := hleast' x hx
    have hback := hleast y hy
    rw [hoffer x hx] at hforth
    rw [hoffer y hy] at htold'
    rw [heq] at hback
    linarith
  have hsum := sum_told_sweep hspace hsound hcount htabled inboxes hentry hkey
  have hsum' := sum_told_sweep hspace hsound' hcount' htabled' inboxes' hfound hkey'
  rw [List.map_congr_left fun value hvalue => hshift value (List.mem_range.1 hvalue)] at hsum'
  have hmeans : mean' - mean = 0 := by
    have hpos : ((List.range (space.domain key)).length : Rat) ≠ 0 := by
      have hdomain := hspace.domain_pos (scope_lt hsound hcount hentry key hkey)
      rw [List.length_range]
      exact_mod_cast hdomain.ne'
    have hconst := sum_sub_const ((List.range (space.domain key)).map
      (told graph ((networkOf space graph).sweep inboxes) entry.1 key)) (mean' - mean)
    rw [List.map_map, hsum, List.length_map] at hconst
    have hzero := hsum'.symm.trans hconst
    rw [zero_sub, zero_eq_neg] at hzero
    exact (mul_eq_zero.1 hzero).resolve_left hpos
  rw [hshift value hvalue, hmeans, sub_zero]

end Graphs

section Runs

variable {space : Space} {graph other : FactorGraph (List Rat)} (hspace : space.Inhabited)
  (hsound : graph.Sound) (hsound' : other.Sound) (hcount : graph.varCount = space.length)
  (hcount' : other.varCount = space.length) (htabled : Tabled space graph)
  (hsame : ∀ scope data, graph.Holds scope data ↔ other.Holds scope data)

include hsound hsound' hsame

private theorem tableSum_eq_of_same (x : Valuation) :
    tableSum space other x = tableSum space graph x := by
  rw [tableSum_eq_contents, tableSum_eq_contents,
    ((contents_perm hsound hsound' hsame).map _).sum_eq]

include hcount hcount'

/-- Variables that were told the same over every scope believe the same. -/
theorem belief_eq_of_told {sweeps : Nat}
    (htold : ∀ scope data, graph.Holds scope data → ∀ key ∈ scope.keys,
      ∀ value < space.domain key,
        toldBy other ((networkOf space other).inboxes sweeps) scope key value =
          toldBy graph ((networkOf space graph).inboxes sweeps) scope key value)
    {key value : Nat} (hkey : key < space.length) (hvalue : value < space.domain key) :
    belief ((networkOf space other).inboxes sweeps) key value =
      belief ((networkOf space graph).inboxes sweeps) key value := by
  have hperm := contents_perm hsound hsound' hsame
  rw [belief_eq_contents hsound' hcount' sweeps hkey hvalue,
    belief_eq_contents hsound hcount sweeps hkey hvalue, ((hperm.filter _).map _).sum_eq]
  congr 1
  refine List.map_congr_left fun held hheld => ?_
  obtain ⟨hin, hmem⟩ := List.mem_filter.1 hheld
  exact htold held.1 held.2 ((hsame _ _).2 (mem_contents.1 hin)) key (by simpa using hmem) value
    hvalue

include hspace htabled

theorem toldBy_inboxes (sweeps : Nat) : ∀ scope data, graph.Holds scope data →
    ∀ key ∈ scope.keys, ∀ value < space.domain key,
      toldBy other ((networkOf space other).inboxes sweeps) scope key value =
        toldBy graph ((networkOf space graph).inboxes sweeps) scope key value := by
  have htabled' : Tabled space other := tabled_iff_contents.2 fun scope data hheld =>
    tabled_iff_contents.1 htabled scope data ((hsame scope data).2 hheld)
  induction sweeps with
  | zero =>
    intro scope data hheld key hkey value hvalue
    obtain ⟨found, hfound, hscope, -⟩ := (hsame scope data).1 hheld
    obtain ⟨entry, hentry, rfl, rfl⟩ := hheld
    have hlt := scope_lt hsound hcount hentry key hkey
    rw [toldBy_eq hsound _ hentry, ← hscope, toldBy_eq hsound' _ hfound]
    simp only [Network.inboxes]
    rw [told_blank hlt hvalue, told_blank hlt hvalue]
  | succ sweeps ih =>
    intro scope data hheld key hkey value hvalue
    obtain ⟨found, hfound, hscope, hdata⟩ := (hsame scope data).1 hheld
    obtain ⟨entry, hentry, rfl, rfl⟩ := hheld
    rw [toldBy_eq hsound _ hentry, ← hscope, toldBy_eq hsound' _ hfound]
    refine told_eq_of_offer hspace hsound hsound' hcount hcount' htabled htabled' hentry hfound hkey
      (hscope ▸ hkey) (fun x hx => ?_) hvalue
    have helsewhere : ∀ key ∈ entry.2.scope.keys,
        elsewhere other ((networkOf space other).inboxes sweeps) found.1 key (x key) =
          elsewhere graph ((networkOf space graph).inboxes sweeps) entry.1 key (x key) := by
      intro key hkey
      have hlt := scope_lt hsound hcount hentry key hkey
      have htold := ih _ _ ⟨entry, hentry, rfl, rfl⟩ key hkey (x key) (hx key hlt)
      rw [toldBy_eq hsound _ hentry, ← hscope, toldBy_eq hsound' _ hfound] at htold
      rw [elsewhere, elsewhere, htold,
        belief_eq_of_told hsound hsound' hcount hcount' hsame ih hlt (hx key hlt)]
    have hvalues : factorValue space found.2 x = factorValue space entry.2 x := by
      rw [factorValue, factorValue, hscope, hdata]
    rw [offer, offer, hvalues, hscope, List.map_congr_left helsewhere, helsewhere key hkey]

/-- The sweeps lead to the same full assignments: the first value that a variable believes in most
does not depend on who told it what. -/
theorem candidate_eq_of_same (sweep : Nat) :
    (networkOf space other).candidate sweep = (networkOf space graph).candidate sweep := by
  have hadmits := @candidate_admits space graph hspace sweep
  have hadmits' := @candidate_admits space other hspace sweep
  have hbelief := fun key value => @belief_eq_of_told space graph other hsound hsound' hcount
    hcount' hsame (sweep + 1)
    (toldBy_inboxes hspace hsound hsound' hcount hcount' htabled hsame (sweep + 1)) key value
  refine hadmits'.ext hadmits fun key hkey => ?_
  have hlt := (Space.admits_iff.1 hadmits).2 key hkey
  have hlt' := (Space.admits_iff.1 hadmits').2 key hkey
  obtain ⟨hgreatest, hfirst⟩ := @candidate_belief space graph hspace sweep key hkey
  obtain ⟨hgreatest', hfirst'⟩ := @candidate_belief space other hspace sweep key hkey
  rcases Nat.lt_trichotomy (valuation ((networkOf space other).candidate sweep) key)
    (valuation ((networkOf space graph).candidate sweep) key) with h | h | h
  · have hless := hfirst _ h
    have hmost := hgreatest' _ hlt
    rw [hbelief key _ hkey hlt, hbelief key _ hkey hlt'] at hmost
    exact absurd hmost hless.not_ge
  · exact h
  · have hless := hfirst' _ h
    have hmost := hgreatest _ hlt'
    rw [hbelief key _ hkey hlt, hbelief key _ hkey hlt'] at hless
    exact absurd hmost hless.not_ge

private theorem run_eq_of_same (iterations : Nat) :
    run iterations (networkOf space other) = run iterations (networkOf space graph) := by
  have hevaluate : ∀ full, (networkOf space other).evaluate full =
      (networkOf space graph).evaluate full := by
    intro full
    rw [evaluate_eq, evaluate_eq, tableSum_eq_of_same hsound hsound' hsame]
  induction iterations with
  | zero =>
    have hstart := hevaluate space.origin
    simp only [run, Network.candidates, List.foldl_nil, Progress.start]
    rw [show (networkOf space other).space = space from rfl,
      show (networkOf space graph).space = space from rfl, hstart]
  | succ iterations ih =>
    rw [run_succ, run_succ, ih, hevaluate,
      candidate_eq_of_same hspace hsound hsound' hcount hcount' htabled hsame]

end Runs

section Counts

variable {α : Type} {space : Space} {graph : FactorGraph (List α)}

/-- The first count of a graph that is not what the space expects: the number of variables, then the
length of a table. -/
inductive Misfit (space : Space) (graph : FactorGraph (List α)) : Nat → Nat → Prop
  | count : graph.varCount ≠ space.length → Misfit space graph space.length graph.varCount
  | table {before later : List (Handle × Factor (List α))} {entry : Handle × Factor (List α)}
      {expected : Nat} : graph.varCount = space.length →
      graph.factors = before ++ entry :: later →
      (∀ other ∈ before, space.jointSize? other.2.scope.keys = some other.2.data.length) →
      space.jointSize? entry.2.scope.keys = some expected → entry.2.data.length ≠ expected →
      Misfit space graph expected entry.2.data.length

/-- The graph has the variables of the space, and the first of its tables that is not as long as it
should be is over a scope with more joint values than a word can count. -/
inductive Overflow (space : Space) (graph : FactorGraph (List α)) : Prop
  | table {before later : List (Handle × Factor (List α))} {entry : Handle × Factor (List α)} :
      graph.varCount = space.length → graph.factors = before ++ entry :: later →
      (∀ other ∈ before, space.jointSize? other.2.scope.keys = some other.2.data.length) →
      space.jointSize? entry.2.scope.keys = none → Overflow space graph

private theorem exists_misfit (h : ¬ (graph.varCount = space.length ∧ Tabled space graph)) :
    (∃ expected found, Misfit space graph expected found) ∨ Overflow space graph := by
  by_cases hcount : graph.varCount = space.length
  · obtain ⟨before, entry, later, hfactors, hbefore, hentry⟩ :=
      exists_first_mismatch fun htabled => h ⟨hcount, htabled⟩
    cases hsize : space.jointSize? entry.2.scope.keys with
    | none => exact .inr (.table hcount hfactors hbefore hsize)
    | some expected =>
      rw [hsize] at hentry
      exact .inl ⟨_, _, .table hcount hfactors hbefore hsize fun h => hentry (congrArg some h.symm)⟩
  · exact .inl ⟨_, _, .count hcount⟩

theorem solveGraph_of_checkTables [Payoff α] (hspace : space.Inhabited)
    (hcount : graph.varCount = space.length) {failure : Failure}
    (htables : checkTables space (graph.factors.map Prod.snd) = .error failure) (iterations : Nat) :
    solveGraph iterations space graph = .error failure := by
  simp [solveGraph, checkSpace_eq_ok hspace hcount, htables, bind, Except.bind]

private theorem checkTables_of_factors {before later : List (Handle × Factor (List α))}
    (hfactors : graph.factors = before ++ later)
    (hbefore : ∀ other ∈ before, space.jointSize? other.2.scope.keys = some other.2.data.length) :
    checkTables space (graph.factors.map Prod.snd) = checkTables space (later.map Prod.snd) := by
  rw [hfactors, List.map_append, checkTables_append (List.forall_mem_map.2 hbefore)]

theorem Misfit.solveGraph_eq [Payoff α] (hspace : space.Inhabited) {expected found : Nat}
    (h : Misfit space graph expected found) (iterations : Nat) :
    solveGraph iterations space graph = .error (.sizeMismatch expected found) := by
  cases h with
  | count hcount =>
    simp [solveGraph, checkSpace, Space.validate_eq_ok hspace, hcount, bind, Except.bind]
  | table hcount hfactors hbefore hsize hentry =>
    apply solveGraph_of_checkTables hspace hcount
    rw [checkTables_of_factors hfactors hbefore, List.map_cons, checkTables, hsize]
    exact if_neg hentry

theorem Overflow.solveGraph_eq [Payoff α] (hspace : space.Inhabited) (h : Overflow space graph)
    (iterations : Nat) : solveGraph iterations space graph = .error .outOfBounds := by
  obtain ⟨hcount, hfactors, hbefore, hsize⟩ := h
  apply solveGraph_of_checkTables hspace hcount
  rw [checkTables_of_factors hfactors hbefore, List.map_cons, checkTables, hsize]

theorem not_overflow (hsound : graph.Sound)
    (hwords : ∀ entry ∈ graph.factors, space.FitsWord entry.2.scope.keys) :
    ¬ Overflow space graph := by
  rintro ⟨hcount, hfactors, -, hsize⟩
  have hentry := hfactors ▸ List.mem_append_right _ List.mem_cons_self
  rw [Space.jointSize?_eq (scope_lt hsound hcount hentry) (hwords _ hentry)] at hsize
  cases hsize

end Counts

def Refused {β : Type} (result : Except Failure β) : Prop :=
  ∃ expected found, result = .error (.sizeMismatch expected found)

section Histories

/-- A graph is refused for its first count that does not fit, has a table too large to be measured
before, or is solved. -/
theorem solveGraph_cases {α : Type} [Payoff α] {space : Space} {graph : FactorGraph (List α)}
    (hspace : space.Inhabited) (hsound : graph.Sound) (iterations : Nat) :
    (∃ expected found, Misfit space graph expected found ∧
        solveGraph iterations space graph = .error (.sizeMismatch expected found)) ∨
      (Overflow space graph ∧ solveGraph iterations space graph = .error .outOfBounds) ∨
      (graph.varCount = space.length ∧ Tabled space graph ∧
        solveGraph iterations space graph =
          .ok ((run iterations (networkOf space graph)).best,
            (run iterations (networkOf space graph)).report)) := by
  by_cases hfits : graph.varCount = space.length ∧ Tabled space graph
  · obtain ⟨hcount, htabled⟩ := hfits
    exact .inr (.inr
      ⟨hcount, htabled, solveGraph_of_tabled hspace hsound hcount htabled iterations⟩)
  · obtain ⟨expected, found, hmisfit⟩ | hoverflow := exists_misfit hfits
    · exact .inl ⟨expected, found, hmisfit, hmisfit.solveGraph_eq hspace iterations⟩
    · exact .inr (.inl ⟨hoverflow, hoverflow.solveGraph_eq hspace iterations⟩)

variable {space : Space} {graph other : FactorGraph (List Rat)}

theorem solveGraph_ok_of_same (hsound : graph.Sound) (hsound' : other.Sound)
    (hcounts : graph.varCount = other.varCount)
    (hsame : ∀ scope data, graph.Holds scope data ↔ other.Holds scope data) {iterations : Nat}
    {result : Solution Rat × Report} (h : solveGraph iterations space graph = .ok result) :
    solveGraph iterations space other = .ok result := by
  obtain ⟨hspace, hcount, htabled⟩ := accepted_of_solveGraph h
  have htabled' : Tabled space other := by
    rw [tabled_iff_contents] at htabled ⊢
    exact fun scope data hheld => htabled scope data ((hsame scope data).2 hheld)
  rw [solveGraph_of_tabled hspace hsound hcount htabled] at h
  rw [solveGraph_of_tabled hspace hsound' (hcounts ▸ hcount) htabled', ← h,
    run_eq_of_same hspace hsound hsound' hcount (hcounts ▸ hcount) htabled hsame]

/-- Graphs that hold the same are both refused, or solved alike. -/
theorem solveGraph_same (hspace : space.Inhabited) (hsound : graph.Sound) (hsound' : other.Sound)
    (hcounts : graph.varCount = other.varCount)
    (hsame : ∀ scope data, graph.Holds scope data ↔ other.Holds scope data)
    (hwords : ∀ scope data, graph.Holds scope data → space.FitsWord scope.keys)
    (iterations : Nat) :
    (Refused (solveGraph iterations space graph) ∧ Refused (solveGraph iterations space other)) ∨
      ∃ result, solveGraph iterations space graph = .ok result ∧
        solveGraph iterations space other = .ok result := by
  have hfits : ¬ Overflow space graph := not_overflow hsound
    fun entry hentry => hwords _ _ ⟨entry, hentry, rfl, rfl⟩
  have hfits' : ¬ Overflow space other := not_overflow hsound'
    fun entry hentry => hwords _ _ ((hsame _ _).2 ⟨entry, hentry, rfl, rfl⟩)
  obtain ⟨expected, found, -, hrefused⟩ | ⟨hoverflow, -⟩ | ⟨-, -, hsolve⟩ :=
    solveGraph_cases hspace hsound iterations
  · obtain ⟨expected', found', -, hrefused'⟩ | ⟨hoverflow, -⟩ | ⟨-, -, hsolve⟩ :=
      solveGraph_cases hspace hsound' iterations
    · exact .inl ⟨⟨_, _, hrefused⟩, _, _, hrefused'⟩
    · exact absurd hoverflow hfits'
    · have hsolve' := solveGraph_ok_of_same hsound' hsound hcounts.symm
        (fun scope data => (hsame scope data).symm) hsolve
      exact .inr ⟨_, hsolve', hsolve⟩
  · exact absurd hoverflow hfits
  · exact .inr ⟨_, hsolve, solveGraph_ok_of_same hsound hsound' hcounts hsame hsolve⟩

end Histories

section Problems

variable {space : Space} {rules others : List (Rule Rat)} {graph other : FactorGraph (List Rat)}

/-- The graph of the rules in another order holds what the graph of the rules holds: the payoffs
that an entry is made of are added up in another order. -/
theorem holds_of_perm (hfiled : Filed space (tableEdit space) rules graph)
    (hfiled' : Filed space (tableEdit space) others other)
    (hrules : ∀ rule ∈ rules, rule.assignment.Over space) (hperm : rules.Perm others) {scope : Scope}
    {data : List Rat} (hheld : graph.Holds scope data) : other.Holds scope data := by
  obtain ⟨⟨handle, factor⟩, hentry, rfl, rfl⟩ := hheld
  have hfactor := mem_factors.1 hentry
  obtain ⟨rule, hrule⟩ := List.exists_mem_of_ne_nil _ (hfiled.used hfactor)
  obtain ⟨hin, hscope⟩ := List.mem_filter.1 hrule
  obtain ⟨handle', factor', hfactor', hsame⟩ := hfiled'.found rule (hperm.mem_iff.1 hin)
  have hsame : factor'.scope = factor.scope := hsame.trans (by simpa using hscope)
  obtain ⟨hlength, hentries⟩ := factor_entries hfiled hrules hfactor
  obtain ⟨hlength', hentries'⟩ := factor_entries hfiled'
    (fun rule hrule => hrules rule (hperm.mem_iff.2 hrule)) hfactor'
  refine ⟨_, mem_factors.2 hfactor', hsame, ?_⟩
  refine List.ext_getElem (by rw [hlength', hlength, hsame]) fun i hi hi' => ?_
  have hread : factor'.data.getD i 0 = factor.data.getD i 0 := by
    rw [hentries', hentries, hsame]
    exact (((hperm.symm.filter _).filter _).map Rule.payoff).sum_eq
  rw [List.getD_eq_getElem?_getD, List.getD_eq_getElem?_getD, List.getElem?_eq_getElem hi,
    List.getElem?_eq_getElem hi'] at hread
  exact hread

private theorem checkRules_perm (hperm : rules.Perm others)
    (hrules : checkRules space rules = .ok ()) :
    checkRules space others = .ok () :=
  checkRules_eq_ok_iff.2 fun rule hrule =>
    checkRules_eq_ok_iff.1 hrules rule (hperm.mem_iff.2 hrule)

theorem solve_perm (hspace : space.Inhabited) (hrules : checkRules space rules = .ok ())
    (hperm : rules.Perm others)
    (hwords : ∀ rule ∈ rules, space.FitsWord rule.assignment.keys) (iterations : Nat) :
    ∃ result, solve iterations space rules = .ok result ∧
      solve iterations space others = .ok result := by
  have hrules' := checkRules_perm hperm hrules
  have hwords' : ∀ rule ∈ others, space.FitsWord rule.assignment.keys :=
    fun rule hrule => hwords rule (hperm.mem_iff.2 hrule)
  obtain ⟨graph, -, hfiled, hsolve⟩ := solve_of_fitsWord hspace hrules hwords
  obtain ⟨other, -, hfiled', hsolve'⟩ := solve_of_fitsWord hspace hrules' hwords'
  have hsame : ∀ scope data, graph.Holds scope data ↔ other.Holds scope data :=
    fun scope data =>
      ⟨holds_of_perm hfiled hfiled' (over_of_checkRules hrules) hperm,
        holds_of_perm hfiled' hfiled (over_of_checkRules hrules') hperm.symm⟩
  have hsound := hfiled.reachable.sound
  have hsound' := hfiled'.reachable.sound
  have hcounts := hfiled.reachable.varCount_eq.trans hfiled'.reachable.varCount_eq.symm
  obtain ⟨hbuilt, hrun⟩ := hsolve iterations
  refine ⟨_, hbuilt.trans hrun, ?_⟩
  rw [(hsolve' iterations).1]
  exact solveGraph_ok_of_same hsound hsound' hcounts hsame hrun

/-- Where a table would be too large, it is in any order of the rules. -/
theorem solve_eq_of_perm (hspace : space.Inhabited) (hrules : checkRules space rules = .ok ())
    (hperm : rules.Perm others) (iterations : Nat) :
    solve iterations space rules = solve iterations space others := by
  by_cases hwords : ∀ rule ∈ rules, space.FitsWord rule.assignment.keys
  · obtain ⟨result, hsolve, hsolve'⟩ := solve_perm hspace hrules hperm hwords iterations
    rw [hsolve, hsolve']
  · obtain ⟨rule, hrule, hword⟩ : ∃ rule ∈ rules, ¬ space.FitsWord rule.assignment.keys := by
      simpa using hwords
    rw [solve_eq_error hspace hrules hrule hword,
      solve_eq_error hspace (checkRules_perm hperm hrules) (hperm.mem_iff.1 hrule) hword]

end Problems

/-- The tables of the chain in a graph whose first slot was used before, so that slots and serials
are ordered differently. -/
theorem exists_detour : ∃ graph : FactorGraph (List Rat), Reachable 4 graph ∧ graph.factors =
    [(⟨2, 4⟩, ⟨linkScope 1, 2, [0, 0, 0, 3]⟩), (⟨1, 5⟩, ⟨linkScope 0, 1, [0, 0, 0, 2]⟩)] := by
  have hclosing : Reachable 4 ((FactorGraph.new 4).create closingScope).2 :=
    .ensure .new (asked_closingScope rfl rfl rfl) rfl
  have hfirst := reachable_link hclosing (by decide : 0 < 4 ∧ _) (by decide) rfl 2
  have herased := Reachable.eraseFactor hfirst (rfl : eraseFactor? _ ⟨0, 4⟩ = _)
  exact ⟨_, reachable_link herased (by decide : 1 < 4 ∧ _) (by decide) rfl 3, rfl⟩

def soleScope : Scope := ⟨[1], by simp⟩

/-- Two factors with empty tables, of which the one over both variables comes first or last. -/
theorem exists_empty_tables : ∃ graph other : FactorGraph (List Rat),
    Reachable 2 graph ∧ Reachable 2 other ∧
    graph.factors = [(⟨0, 2⟩, ⟨linkScope 0, 0, []⟩), (⟨1, 3⟩, ⟨soleScope, 1, []⟩)] ∧
    other.factors = [(⟨0, 2⟩, ⟨soleScope, 0, []⟩), (⟨1, 3⟩, ⟨linkScope 0, 1, []⟩)] := by
  have hboth : (FactorGraph.new 2 : FactorGraph (List Rat)).Asked (linkScope 0) :=
    ⟨by decide, by decide⟩
  have hsole : (FactorGraph.new 2 : FactorGraph (List Rat)).Asked soleScope :=
    ⟨by decide, by decide⟩
  have hgraph := Reachable.new.ensure hboth rfl
  have hother := Reachable.new.ensure hsole rfl
  exact ⟨_, _, hgraph.ensure ⟨by decide, by decide⟩ (rfl : ensure? _ soleScope = _),
    hother.ensure ⟨by decide, by decide⟩ (rfl : ensure? _ (linkScope 0) = _), rfl, rfl⟩

end MaxPlus

end JointDecision

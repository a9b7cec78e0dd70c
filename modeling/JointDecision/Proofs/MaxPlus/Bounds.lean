import JointDecision.Proofs.MaxPlus.Exactness
import Mathlib.Algebra.Order.BigOperators.Group.List
import Mathlib.Tactic.Ring

/-! # Messages stay bounded

On any graph, and after any number of sweeps, the message of a factor to a variable adds up to zero,
and its entries are no further apart than the entries of the factor's table. -/

namespace JointDecision.MaxPlus

open FactorGraph MixedRadix

def spread (table : List Rat) : Rat :=
  table.max?.getD 0 - table.min?.getD 0

private theorem sub_le_spread {table : List Rat} {a b : Rat} (ha : a ∈ table) (hb : b ∈ table) :
    a - b ≤ spread table := by
  obtain ⟨greatest, hgreatest⟩ :=
    Option.isSome_iff_exists.1 (List.isSome_max?_iff.2 (List.ne_nil_of_mem ha))
  obtain ⟨least, hleast⟩ :=
    Option.isSome_iff_exists.1 (List.isSome_min?_iff.2 (List.ne_nil_of_mem ha))
  have hle := (List.max?_eq_some_iff.1 hgreatest).2 a ha
  have hge := (List.min?_eq_some_iff.1 hleast).2 b hb
  rw [spread, hgreatest, hleast, Option.getD_some, Option.getD_some]
  exact sub_le_sub hle hge

theorem sum_sub_const (payoffs : List Rat) (mean : Rat) :
    (payoffs.map (· - mean)).sum = payoffs.sum - payoffs.length * mean := by
  induction payoffs with
  | nil => simp
  | cons payoff payoffs ih =>
    rw [List.map_cons, List.sum_cons, List.sum_cons, List.length_cons, ih]
    push_cast
    ring

theorem sum_centered {message : Array Rat} (h : 0 < message.size) :
    (centered message).toList.sum = 0 := by
  have hsize : (message.size : Rat) ≠ 0 := by exact_mod_cast h.ne'
  rw [centered, Array.toList_map, sum_sub_const, Payoff.total_rat, Array.length_toList]
  exact sub_eq_zero.2 (mul_div_cancel₀ _ hsize).symm

/-- Payoffs that add up to zero are no further from zero than they are apart. -/
theorem abs_le_of_sum_zero {payoffs : List Rat} {bound : Rat} (hsum : payoffs.sum = 0)
    (hapart : ∀ a ∈ payoffs, ∀ b ∈ payoffs, a - b ≤ bound) {a : Rat} (ha : a ∈ payoffs) :
    |a| ≤ bound := by
  have hne := List.ne_nil_of_mem ha
  obtain ⟨low, hlow, hle⟩ : ∃ low ∈ payoffs, low ≤ 0 :=
    List.exists_le_of_sum_le hne id (fun _ => 0) (by simp [hsum])
  obtain ⟨high, hhigh, hge⟩ : ∃ high ∈ payoffs, 0 ≤ high :=
    List.exists_le_of_sum_le hne (fun _ => 0) id (by simp [hsum])
  have habove := hapart a ha low hlow
  have hbelow := hapart high hhigh a ha
  exact abs_le.2 ⟨by linarith, by linarith⟩

section Sweep

variable {space : Space} {graph : FactorGraph (List Rat)}

private theorem factorValue_mem {factor : Factor (List Rat)}
    (hkeys : ∀ key ∈ factor.scope.keys, key < space.length)
    (htable : factor.data.length = volume (factor.scope.keys.map space.domain)) {x : Valuation}
    (hx : space.Respects x) : factorValue space factor x ∈ factor.data := by
  have hlt := (digits_map hx hkeys).index_lt
  rw [← htable] at hlt
  rw [factorValue, List.getD_eq_getElem?_getD, List.getElem?_eq_getElem hlt, Option.getD_some]
  exact List.getElem_mem hlt

/-- What a factor offers a variable depends on the variable only through the factor's table. -/
theorem offer_eq_sum_others {inboxes : Array (Inbox Rat)} {entry : Handle × Factor (List Rat)}
    {key : Nat} (hkey : key ∈ entry.2.scope.keys) (x : Valuation) :
    offer space graph inboxes entry key x = factorValue space entry.2 x +
      ((entry.2.scope.keys.erase key).map fun other =>
        elsewhere graph inboxes entry.1 other (x other)).sum := by
  rw [offer,
    ← List.sum_map_erase (fun other => elsewhere graph inboxes entry.1 other (x other)) hkey]
  ring

private theorem offer_update {inboxes : Array (Inbox Rat)} {entry : Handle × Factor (List Rat)}
    {key : Nat} (hkey : key ∈ entry.2.scope.keys) (x : Valuation) (value : Nat) :
    offer space graph inboxes entry key x - offer space graph inboxes entry key
        (Function.update x key value) =
      factorValue space entry.2 x - factorValue space entry.2 (Function.update x key value) := by
  have hsame : (entry.2.scope.keys.erase key).map (fun other =>
      elsewhere graph inboxes entry.1 other (Function.update x key value other)) =
        (entry.2.scope.keys.erase key).map fun other =>
          elsewhere graph inboxes entry.1 other (x other) := by
    refine List.map_congr_left fun other hother => ?_
    have hne : other ≠ key := (entry.2.scope.nodup.mem_erase_iff.1 hother).1
    rw [Function.update_of_ne hne]
  rw [offer_eq_sum_others hkey, offer_eq_sum_others hkey, hsame]
  ring

variable (hspace : space.Inhabited) (hsound : graph.Sound)
  (hcount : graph.varCount = space.length) (htabled : Tabled space graph)

include hspace hsound hcount htabled

/-- Whatever the variables have heard before, what a factor tells a variable about two values is no
further apart than two entries of the factor's table. -/
theorem told_sub_le (inboxes : Array (Inbox Rat)) {entry : Handle × Factor (List Rat)}
    (hentry : entry ∈ graph.factors) {key : Nat} (hkey : key ∈ entry.2.scope.keys)
    {value other : Nat} (hvalue : value < space.domain key) (hother : other < space.domain key) :
    told graph ((networkOf space graph).sweep inboxes) entry.1 key value -
        told graph ((networkOf space graph).sweep inboxes) entry.1 key other ≤
      spread entry.2.data := by
  have hkeys := scope_lt hsound hcount hentry
  obtain ⟨mean, hleast, hattained⟩ := told_sweep hspace hsound hcount htabled inboxes hentry hkey
  obtain ⟨x, hx, -, htold⟩ := hattained value hvalue
  have hy := hx.update hother
  have hbelow := hleast _ hy
  rw [Function.update_self] at hbelow
  have hoffers := @offer_update space graph inboxes entry key hkey x other
  have hspread := sub_le_spread (factorValue_mem hkeys (htabled.length_eq hentry) hx)
    (factorValue_mem hkeys (htabled.length_eq hentry) hy)
  linarith

/-- A message with an entry for every value that adds up to zero, and whose entries are at most
`bound` apart and at most `bound` from zero. -/
structure Balanced (bound : Rat) (width : Nat) (message : Array Rat) : Prop where
  size : message.size = width
  sum : message.toList.sum = 0
  apart : ∀ a ∈ message.toList, ∀ b ∈ message.toList, a - b ≤ bound
  abs_le : ∀ a ∈ message.toList, |a| ≤ bound

theorem balanced_sweep (inboxes : Array (Inbox Rat)) {entry : Handle × Factor (List Rat)}
    (hentry : entry ∈ graph.factors) {key : Nat} (hkey : key ∈ entry.2.scope.keys) :
    ∃ inbox message, ((networkOf space graph).sweep inboxes)[key]? = some inbox ∧
      inbox.rows[rowOf graph entry.1 key]? = some message ∧
      Balanced (spread entry.2.data) (space.domain key) message := by
  obtain ⟨position, hposition⟩ := List.mem_iff_getElem?.1 hkey
  obtain ⟨inbox, hinbox, hrow⟩ := rows_sweep hsound hcount inboxes hentry hposition
  generalize hmessage : centered (Station.bestMessages
    ((stationOf space graph entry).appraisals inboxes) position (space.domain key)) = message
    at hrow
  have hsize : message.size = space.domain key := by
    rw [← hmessage, centered, Array.size_map, size_bestMessages]
  have hsum : message.toList.sum = 0 := by
    rw [← hmessage]
    apply sum_centered
    rw [size_bestMessages]
    exact hspace.domain_pos (scope_lt hsound hcount hentry key hkey)
  have htold : ∀ a ∈ message.toList, ∃ value < space.domain key,
      told graph ((networkOf space graph).sweep inboxes) entry.1 key value = a := by
    intro a ha
    obtain ⟨value, hvalue, rfl⟩ := List.getElem_of_mem ha
    rw [Array.length_toList] at hvalue
    have hread : inbox.rows.getD (rowOf graph entry.1 key) #[] = message := by
      rw [Array.getD_eq_getD_getElem?, hrow, Option.getD_some]
    refine ⟨value, hsize ▸ hvalue, ?_⟩
    rw [told_of_inbox hinbox, hread]
    simp [hvalue]
  have hapart : ∀ a ∈ message.toList, ∀ b ∈ message.toList, a - b ≤ spread entry.2.data := by
    intro a ha b hb
    obtain ⟨value, hvalue, rfl⟩ := htold a ha
    obtain ⟨other, hother, rfl⟩ := htold b hb
    exact told_sub_le hspace hsound hcount htabled inboxes hentry hkey hvalue hother
  exact ⟨inbox, message, hinbox, hrow, hsize, hsum, hapart,
    fun a ha => abs_le_of_sum_zero hsum hapart ha⟩

end Sweep

/-- On every graph that is accepted, and however many sweeps were made, the row of a factor at a
variable of its scope adds up to zero, and its entries are no further apart, nor from zero, than the
greatest and the least entry of the factor's table. The sum row is the sum of these rows. -/
theorem messages_bounded {space : Space} {graph : FactorGraph (List Rat)} {varCount iterations : Nat}
    {result : Solution Rat × Report} (hgraph : Reachable varCount graph)
    (haccepted : solveGraph iterations space graph = .ok result) :
    ∃ network, Network.ofGraph? space graph = some network ∧ ∀ sweeps, 0 < sweeps →
      (∀ entry ∈ graph.factors, ∀ key ∈ entry.2.scope.keys, ∃ inbox row message,
        (network.inboxes sweeps)[key]? = some inbox ∧
        (graph.neighbors key).idxOf? entry.1 = some row ∧ inbox.rows[row]? = some message ∧
        Balanced (spread entry.2.data) (space.domain key) message) ∧
      ∀ key < space.length, ∃ inbox, (network.inboxes sweeps)[key]? = some inbox ∧
        inbox.rows.size = (graph.neighbors key).length ∧
        inbox.sum.toList = (List.range (space.domain key)).map fun value =>
          (inbox.rows.toList.map fun row => row.getD value 0).sum := by
  have hsound := hgraph.sound
  obtain ⟨hspace, hcount, htabled⟩ := accepted_of_solveGraph haccepted
  refine ⟨networkOf space graph, ofGraph?_eq hsound hcount, ?_⟩
  intro sweeps hsweeps
  obtain ⟨done, rfl⟩ := Nat.exists_eq_add_one.2 hsweeps
  constructor
  · intro entry hentry key hkey
    obtain ⟨inbox, message, hinbox, hrow, hbalanced⟩ := balanced_sweep hspace hsound hcount htabled
      ((networkOf space graph).inboxes done) hentry hkey
    cases hplace : (graph.neighbors key).idxOf? entry.1 with
    | none =>
      exact absurd (mem_neighbors hsound hcount hentry hkey) (List.idxOf?_eq_none_iff.1 hplace)
    | some row =>
      rw [rowOf, hplace, Option.getD_some] at hrow
      exact ⟨inbox, row, message, hinbox, rfl, hrow, hbalanced⟩
  · intro key hkey
    obtain ⟨inbox, hinbox, hrows, hsize, hsum⟩ :=
      @inbox_sweep space graph ((networkOf space graph).inboxes done) key hkey
    refine ⟨inbox, hinbox, hrows, List.ext_getElem (by simp [hsize]) fun value hvalue hother => ?_⟩
    rw [Array.length_toList, hsize] at hvalue
    rw [List.getElem_map, List.getElem_range, ← hsum value hvalue]
    simp [hsize, hvalue]

def closingScope : Scope := ⟨[0, 2], by simp⟩

def loopGraph : FactorGraph (List Rat) :=
  (chainGraph.create closingScope).2.modifyData (chainGraph.create closingScope).1
    (· ++ [1, 0, 0, -4])

theorem asked_closingScope {graph : FactorGraph (List Rat)} (hcount : graph.varCount = 4)
    (hfirst : graph.isLive 0 = true) (hlast : graph.isLive 2 = true) :
    graph.Asked closingScope := by
  refine ⟨by decide, fun key hkey => ?_⟩
  obtain rfl | rfl : key = 0 ∨ key = 2 := by simpa [closingScope] using hkey
  · exact ⟨by omega, hfirst⟩
  · exact ⟨by omega, hlast⟩

theorem reachable_loopGraph : Reachable 4 loopGraph := by
  have hensure : chainGraph.ensure? closingScope = some (chainGraph.create closingScope) := rfl
  exact .modifyData _ _ (.ensure reachable_chainGraph (asked_closingScope rfl rfl rfl) hensure)

theorem loopGraph_factors : loopGraph.factors =
    [(⟨0, 4⟩, ⟨linkScope 0, 0, [0, 0, 0, 2]⟩), (⟨1, 5⟩, ⟨linkScope 1, 1, [0, 0, 0, 3]⟩),
      (⟨2, 6⟩, ⟨closingScope, 2, [1, 0, 0, -4]⟩)] := rfl

/-- On the loop the factor over both ends never says more than five. -/
theorem messages_bounded_loop : ∃ network, Network.ofGraph? [2, 2, 2, 3] loopGraph = some network ∧
    ∀ sweeps, 0 < sweeps → ∃ inbox, ∃ row : Nat, ∃ message,
      (network.inboxes sweeps)[2]? = some inbox ∧ inbox.rows[row]? = some message ∧
      Balanced 5 2 message := by
  have htabled : Tabled [2, 2, 2, 3] loopGraph := tabled_iff.2 rfl
  have hsolve := solveGraph_of_tabled (by decide) reachable_loopGraph.sound rfl htabled 3
  obtain ⟨network, hnetwork, hsweeps⟩ := messages_bounded reachable_loopGraph hsolve
  refine ⟨network, hnetwork, fun sweeps hpos => ?_⟩
  obtain ⟨inbox, row, message, hinbox, -, hrow, hbalanced⟩ := (hsweeps sweeps hpos).1
    (⟨2, 6⟩, ⟨closingScope, 2, [1, 0, 0, -4]⟩) (by simp [loopGraph_factors]) 2
    (by simp [closingScope])
  have hspread : spread [1, 0, 0, -4] = 5 := by
    norm_num [spread, List.max?_cons, List.min?_cons]
  rw [hspread] at hbalanced
  exact ⟨inbox, row, message, hinbox, hrow, hbalanced⟩

end JointDecision.MaxPlus

import JointDecision.Proofs.MaxPlus.Network
import JointDecision.Proofs.Elimination.Optimality

/-! # Max-plus can be stopped at any time

A run keeps the earliest of the best among the origin and the candidates of its sweeps, reports
which it was, and more sweeps never make the result worse. -/

namespace JointDecision.MaxPlus

open FactorGraph

def records (score : List Nat → Rat) (origin : List Nat) (candidates : List (List Nat)) : Nat :=
  ((List.range candidates.length).filter fun sweep =>
    ((origin :: candidates).take (sweep + 1)).all fun earlier =>
      score earlier < score (candidates.getD sweep [])).length

/-- Progress holds the earliest of the best among the origin and some candidates, and reports which
it is and how often the best has changed. -/
structure Keeps (score : List Nat → Rat) (origin : List Nat) (candidates : List (List Nat))
    (progress : Progress Rat) : Prop where
  earliest : ∃ position,
    Payoff.FirstGreatest ((origin :: candidates).map score) (progress.best.payoff, position) ∧
      (origin :: candidates)[position]? = some progress.best.assignment ∧
      progress.report.lastImprovement = if position = 0 then none else some (position - 1)
  iterationsRun : progress.report.iterationsRun = candidates.length
  improvements : progress.report.improvements = records score origin candidates

section Kept

variable {score : List Nat → Rat} {origin : List Nat} {candidates : List (List Nat)}
  {progress : Progress Rat} (h : Keeps score origin candidates progress)

include h

theorem Keeps.mem : progress.best.assignment ∈ origin :: candidates := by
  obtain ⟨position, -, hstands, -⟩ := h.earliest
  exact List.mem_of_getElem? hstands

theorem Keeps.payoff_eq : progress.best.payoff = score progress.best.assignment := by
  obtain ⟨position, hgreatest, hstands, -⟩ := h.earliest
  have hpayoff := hgreatest.stands
  rw [List.getElem?_map, hstands, Option.map_some] at hpayoff
  exact (Option.some.inj hpayoff).symm

theorem Keeps.score_le {full : List Nat} (hfull : full ∈ origin :: candidates) :
    score full ≤ progress.best.payoff := by
  obtain ⟨position, hgreatest, -, -⟩ := h.earliest
  exact hgreatest.greatest _ (List.mem_map_of_mem hfull)

end Kept

private theorem records_concat (score : List Nat → Rat) (origin : List Nat)
    (candidates : List (List Nat)) (candidate : List Nat) :
    records score origin (candidates ++ [candidate]) = records score origin candidates +
      if ∀ earlier ∈ origin :: candidates, score earlier < score candidate then 1 else 0 := by
  have hlast : (((origin :: (candidates ++ [candidate])).take (candidates.length + 1)).all
      fun earlier => score earlier < score ((candidates ++ [candidate]).getD candidates.length [])) =
        decide (∀ earlier ∈ origin :: candidates, score earlier < score candidate) := by
    rw [Bool.eq_iff_iff]
    simp
  have hearlier : ∀ sweep ∈ List.range candidates.length,
      (((origin :: (candidates ++ [candidate])).take (sweep + 1)).all fun earlier =>
        score earlier < score ((candidates ++ [candidate]).getD sweep [])) =
      (((origin :: candidates).take (sweep + 1)).all fun earlier =>
        score earlier < score (candidates.getD sweep [])) := by
    intro sweep hsweep
    have hlt := List.mem_range.1 hsweep
    rw [List.getD_eq_getElem?_getD, List.getElem?_append_left hlt, ← List.getD_eq_getElem?_getD,
      List.take_succ_cons, List.take_succ_cons, List.take_append_of_le_length (by omega)]
  rw [records, List.length_append, List.length_singleton, List.range_succ, List.filter_append,
    List.length_append, List.filter_congr hearlier, records]
  congr 1
  rw [List.filter_singleton, hlast]
  by_cases hall : ∀ earlier ∈ origin :: candidates, score earlier < score candidate
  · rw [if_pos hall, decide_eq_true hall]
    rfl
  · rw [if_neg hall, decide_eq_false hall]
    rfl

private theorem keeps_start (score : List Nat → Rat) (origin : List Nat) :
    Keeps score origin [] ⟨⟨origin, score origin⟩, ⟨0, 0, none⟩⟩ where
  earliest := ⟨0, ⟨rfl, by simp, by simp⟩, rfl, rfl⟩
  iterationsRun := rfl
  improvements := rfl

theorem Keeps.offer {score : List Nat → Rat} {origin : List Nat} {candidates : List (List Nat)}
    {progress : Progress Rat} (h : Keeps score origin candidates progress)
    (candidate : List Nat) :
    Keeps score origin (candidates ++ [candidate])
      (progress.offer ⟨candidate, score candidate⟩) := by
  obtain ⟨⟨position, hgreatest, hstands, hlast⟩, hruns, himproved⟩ := h
  have hmap : (origin :: (candidates ++ [candidate])).map score =
      (origin :: candidates).map score ++ [score candidate] := by simp
  have hlt := hgreatest.position_lt
  rw [List.length_map, List.length_cons] at hlt
  by_cases hbeats : progress.best.payoff < score candidate
  · have hall : ∀ earlier ∈ origin :: candidates, score earlier < score candidate :=
      fun earlier hearlier =>
        (hgreatest.greatest _ (List.mem_map_of_mem hearlier)).trans_lt hbeats
    simp only [Progress.offer, Payoff.less_rat, hbeats, decide_true, if_true]
    constructor
    · refine ⟨candidates.length + 1, ?_, by simp, by simp [hruns]⟩
      have hfirst := hgreatest.concat_lt hbeats
      rw [List.length_map, List.length_cons] at hfirst
      rw [hmap]
      exact hfirst
    · simp [hruns]
    · rw [records_concat, if_pos hall, himproved]
  · have hsome : ¬ ∀ earlier ∈ origin :: candidates, score earlier < score candidate := by
      intro hall
      obtain ⟨earlier, hearlier, heq⟩ :=
        List.mem_map.1 (List.mem_of_getElem? hgreatest.stands)
      have hless := hall earlier hearlier
      rw [heq] at hless
      exact hbeats hless
    simp only [Progress.offer, Payoff.less_rat, hbeats, decide_false, Bool.false_eq_true, if_false]
    constructor
    · refine ⟨position, ?_, ?_, hlast⟩
      · rw [hmap]
        exact hgreatest.concat_le (not_lt.1 hbeats)
      · rw [← List.cons_append, List.getElem?_append_left (by simpa using hlt)]
        exact hstands
    · simp [hruns]
    · rw [records_concat, if_neg hsome, himproved, Nat.add_zero]

theorem run_succ (network : Network Rat) (sweeps : Nat) :
    run (sweeps + 1) network = (run sweeps network).offer
      ⟨network.candidate sweeps, network.evaluate (network.candidate sweeps)⟩ := by
  rw [run, run, network.candidates_eq, network.candidates_eq, List.range_succ, List.map_append,
    List.foldl_append]
  rfl

/-- A run keeps the earliest of the best. -/
theorem run_keeps {network : Network Rat} {score : List Nat → Rat}
    (horigin : network.evaluate network.space.origin = score network.space.origin)
    (hscore : ∀ sweep, network.evaluate (network.candidate sweep) =
      score (network.candidate sweep)) (sweeps : Nat) :
    Keeps score network.space.origin ((List.range sweeps).map network.candidate)
      (run sweeps network) := by
  induction sweeps with
  | zero =>
    have hstart := keeps_start score network.space.origin
    rw [← horigin] at hstart
    exact hstart
  | succ sweeps ih =>
    rw [run_succ, List.range_succ, List.map_append, hscore]
    exact ih.offer (network.candidate sweeps)

private theorem payoff_le_offer (progress : Progress Rat) (candidate : Solution Rat) :
    progress.best.payoff ≤ (progress.offer candidate).best.payoff := by
  by_cases hbeats : progress.best.payoff < candidate.payoff
  · simpa [Progress.offer, hbeats] using hbeats.le
  · simp [Progress.offer, hbeats]

/-- More sweeps never make the result worse. -/
theorem payoff_le_run (network : Network Rat) {fewer sweeps : Nat} (h : fewer ≤ sweeps) :
    (run fewer network).best.payoff ≤ (run sweeps network).best.payoff := by
  induction h with
  | refl => exact le_rfl
  | step _ ih =>
    rw [run_succ]
    exact ih.trans (payoff_le_offer _ _)

theorem solveGraph_of_tabled {α : Type} [Payoff α] {space : Space} (hspace : space.Inhabited)
    {graph : FactorGraph (List α)} (hsound : graph.Sound) (hcount : graph.varCount = space.length)
    (htabled : Tabled space graph) (iterations : Nat) :
    solveGraph iterations space graph =
      .ok ((run iterations (networkOf space graph)).best,
        (run iterations (networkOf space graph)).report) := by
  have htables := tabled_iff.1 htabled
  simp [solveGraph, checkSpace_eq_ok hspace hcount, htables, ofGraph?_eq hsound hcount,
    Failure.unlessOutOfBounds, bind, Except.bind, pure, Except.pure]

/-- Accepted rules are solved on their graph, if words can count the joint values of every scope. -/
theorem solve_of_fitsWord {α : Type} [Payoff α] {space : Space} (hspace : space.Inhabited)
    {rules : List (Rule α)} (hrules : checkRules space rules = .ok ())
    (hwords : ∀ rule ∈ rules, space.FitsWord rule.assignment.keys) :
    ∃ graph, buildGraph space rules = .ok graph ∧ Filed space (tableEdit space) rules graph ∧
      ∀ iterations, solve iterations space rules = solveGraph iterations space graph ∧
        solveGraph iterations space graph =
          .ok ((run iterations (networkOf space graph)).best,
            (run iterations (networkOf space graph)).report) := by
  have hover := over_of_checkRules hrules
  obtain ⟨graph, hgraph, hfiled⟩ := ofRules_spec hspace hrules
    fun rule hrule => tableEdit?_eq (hover rule hrule) (hwords rule hrule)
  refine ⟨graph, hgraph, hfiled, fun iterations => ⟨?_, ?_⟩⟩
  · rw [solve, show buildGraph space rules = .ok graph from hgraph]
    rfl
  · exact solveGraph_of_tabled hspace hfiled.reachable.sound hfiled.reachable.varCount_eq
      (filed_tabled hfiled hover hwords) iterations

theorem accepted_of_solveGraph {α : Type} [Payoff α] {space : Space} {graph : FactorGraph (List α)}
    {iterations : Nat} {result : Solution α × Report}
    (h : solveGraph iterations space graph = .ok result) :
    space.Inhabited ∧ graph.varCount = space.length ∧ Tabled space graph := by
  unfold solveGraph checkSpace at h
  cases hvalid : space.validate with
  | error failure => simp [hvalid, bind, Except.bind] at h
  | ok _ =>
    by_cases hcount : graph.varCount = space.length
    · cases htables : checkTables space (graph.factors.map Prod.snd) with
      | error failure => simp [hvalid, hcount, htables, bind, Except.bind] at h
      | ok _ =>
        exact ⟨Space.inhabited_of_validate hvalid, hcount, tabled_iff.2 htables⟩
    · simp [hvalid, hcount, bind, Except.bind] at h

def scoreOf (rules : List (Rule Rat)) (full : List Nat) : Rat :=
  (score? rules full).getD 0

/-- What is promised of the result of some sweeps: it is a full assignment with its score, the
earliest of the best among the origin and the candidates of the sweeps. -/
structure Anytime (space : Space) (rules : List (Rule Rat)) (candidate : Nat → List Nat)
    (sweeps : Nat) (result : Solution Rat × Report) : Prop where
  admits : space.Admits result.1.assignment
  score : score? rules result.1.assignment = some result.1.payoff
  keeps : Keeps (scoreOf rules) space.origin ((List.range sweeps).map candidate)
    ⟨result.1, result.2⟩
  origin_le : ∃ payoff, score? rules space.origin = some payoff ∧ payoff ≤ result.1.payoff
  iterationsRun : result.2.iterationsRun = sweeps

/-- What holds of the origin and of every candidate holds of all that a run considers. -/
theorem forall_considered {space : Space} {graph : FactorGraph (List Rat)}
    {P : List Nat → Prop} (horigin : P space.origin)
    (hcandidate : ∀ sweep, P ((networkOf space graph).candidate sweep)) (sweeps : Nat) :
    ∀ full ∈ space.origin :: (List.range sweeps).map (networkOf space graph).candidate, P full := by
  rw [List.forall_mem_cons, List.forall_mem_map]
  exact ⟨horigin, fun sweep _ => hcandidate sweep⟩

theorem run_anytime {space : Space} (hspace : space.Inhabited) {rules : List (Rule Rat)}
    (hrules : checkRules space rules = .ok ()) {graph : FactorGraph (List Rat)}
    (hfiled : Filed space (tableEdit space) rules graph) (sweeps : Nat) :
    Anytime space rules (networkOf space graph).candidate sweeps
      ((run sweeps (networkOf space graph)).best, (run sweeps (networkOf space graph)).report) := by
  have hover := overSpace_of_checkRules hrules
  have hscore : ∀ full, space.Admits full →
      score? rules full = some ((networkOf space graph).evaluate full) := by
    intro full hfull
    obtain ⟨hlength, hrespects⟩ := Space.admits_iff.1 hfull
    rw [score?_eq hover hlength, evaluate_eq,
      filed_tableSum_eq hfiled (over_of_checkRules hrules) hrespects]
  have hevaluate : ∀ full, space.Admits full →
      (networkOf space graph).evaluate full = scoreOf rules full := by
    intro full hfull
    rw [scoreOf, hscore full hfull, Option.getD_some]
  have horigin := hspace.admits_origin
  have hcandidate := @candidate_admits space graph hspace
  have hkeeps : Keeps (scoreOf rules) space.origin
      ((List.range sweeps).map (networkOf space graph).candidate)
      (run sweeps (networkOf space graph)) :=
    run_keeps (hevaluate _ horigin) (fun sweep => hevaluate _ (hcandidate sweep)) sweeps
  have hadmits := forall_considered horigin hcandidate sweeps _ hkeeps.mem
  refine ⟨hadmits, ?_, hkeeps, ?_, ?_⟩
  · rw [hscore _ hadmits, hevaluate _ hadmits]
    exact congrArg some hkeeps.payoff_eq.symm
  · refine ⟨_, hscore _ horigin, ?_⟩
    rw [hevaluate _ horigin]
    exact hkeeps.score_le List.mem_cons_self
  · simpa using hkeeps.iterationsRun

/-- Max-plus returns the earliest of the best among the origin and the candidates of its sweeps,
which do not depend on how many there are. Its result is never worse than the origin or than with
fewer sweeps, and never better than what elimination finds. -/
theorem maxPlus_anytime {space : Space} (hspace : space.Inhabited) {rules : List (Rule Rat)}
    (hrules : checkRules space rules = .ok ())
    (hwords : ∀ rule ∈ rules, space.FitsWord rule.assignment.keys) :
    ∃ graph network, ∃ result : Nat → Solution Rat × Report,
      buildGraph space rules = .ok graph ∧
      Network.ofGraph? space graph = some network ∧
      (∀ sweeps, network.candidates sweeps network.blank =
        (List.range sweeps).map network.candidate) ∧
      (∀ sweeps, solve sweeps space rules = .ok (result sweeps) ∧
        Anytime space rules network.candidate sweeps (result sweeps)) ∧
      (∀ fewer sweeps, fewer ≤ sweeps → (result fewer).1.payoff ≤ (result sweeps).1.payoff) ∧
      ((∀ rule ∈ rules, rule.tags = []) → ∀ order, ∃ best report,
        Elimination.solve order space rules = .ok (best, report) ∧
        ∀ sweeps, (result sweeps).1.payoff ≤ best.payoff) := by
  obtain ⟨graph, hgraph, hfiled, hsolve⟩ := solve_of_fitsWord hspace hrules hwords
  have hanytime := run_anytime hspace hrules hfiled
  refine ⟨graph, networkOf space graph, fun sweeps => ((run sweeps (networkOf space graph)).best,
    (run sweeps (networkOf space graph)).report), hgraph,
    ofGraph?_eq hfiled.reachable.sound hfiled.reachable.varCount_eq,
    Network.candidates_eq _, ?_, ?_, ?_⟩
  · intro sweeps
    exact ⟨(hsolve sweeps).1.trans (hsolve sweeps).2, hanytime sweeps⟩
  · intro fewer sweeps hle
    exact payoff_le_run _ hle
  · intro htags order
    obtain ⟨-, final, y, -, -, hsolve, hbest, -⟩ :=
      Elimination.solve_spec hspace order hrules htags
    have hoptimal := optimal_tabulate (overSpace_of_checkRules hrules) hbest.respects
      hbest.greatest
    refine ⟨_, _, hsolve, fun sweeps => ?_⟩
    obtain ⟨payoff, hpayoff, hle⟩ := hoptimal.greatest _ (hanytime sweeps).admits
    rw [(hanytime sweeps).score] at hpayoff
    rw [Option.some.inj hpayoff]
    exact hle

/-- With the pair of rules, any number of sweeps stays between the origin and elimination. -/
theorem maxPlus_anytime_pair : ∃ result : Nat → Solution Rat × Report,
    (∀ sweeps, solve sweeps [2, 3, 2] Elimination.pairRules = .ok (result sweeps)) ∧
    (∀ fewer sweeps, fewer ≤ sweeps → (result fewer).1.payoff ≤ (result sweeps).1.payoff) ∧
    ∃ best report,
      Elimination.solve .lastFirst [2, 3, 2] Elimination.pairRules = .ok (best, report) ∧
      ∀ sweeps, (result sweeps).1.payoff ≤ best.payoff := by
  obtain ⟨graph, network, result, -, -, -, hsolve, hmore, hbound⟩ :=
    @maxPlus_anytime [2, 3, 2] (by decide) Elimination.pairRules rfl (by decide)
  exact ⟨result, fun sweeps => (hsolve sweeps).1, hmore, hbound (by decide) .lastFirst⟩

/-- Without a word for the size of a table there is no result, for any number of sweeps. -/
theorem maxPlus_overflows_wide : wideSpace.Inhabited ∧
    checkRules wideSpace [wideRule] = .ok () ∧ wideRule.tags = [] ∧
    ∀ iterations, solve iterations wideSpace [wideRule] = .error .outOfBounds :=
  ⟨by decide, rfl, rfl, solve_eq_error (by decide) rfl List.mem_cons_self (by decide)⟩

end JointDecision.MaxPlus

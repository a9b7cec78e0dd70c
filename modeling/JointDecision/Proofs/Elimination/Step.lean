import JointDecision.Proofs.Elimination.Response
import JointDecision.Proofs.FactorGraph.Unions
import JointDecision.Proofs.Odometer

/-! # One step of elimination

A step on a sound graph always goes through. It leaves a sound graph in which the variable is gone,
and the rules that are left, in the graph and among the finals, fold the variable into the others. -/

namespace JointDecision

variable {α : Type}

namespace FactorGraph

def rules (graph : FactorGraph (List (Rule α))) : List (Rule α) :=
  graph.factors.flatMap fun entry => entry.2.data

/-- Whether every rule of a factor mentions only variables of the factor's scope, with values of
their domains. -/
def Fits (graph : FactorGraph (List (Rule α))) (space : Space) : Prop :=
  ∀ entry ∈ graph.factors, ∀ rule ∈ entry.2.data, rule.assignment.Within space entry.2.scope

theorem mem_rules {graph : FactorGraph (List (Rule α))} {rule : Rule α} :
    rule ∈ graph.rules ↔
      ∃ handle factor, graph.factor? handle = some factor ∧ rule ∈ factor.data := by
  rw [rules, List.mem_flatMap]
  constructor
  · intro h
    obtain ⟨⟨handle, factor⟩, hentry, hrule⟩ := h
    exact ⟨handle, factor, mem_factors.1 hentry, hrule⟩
  · intro h
    obtain ⟨handle, factor, hfactor, hrule⟩ := h
    exact ⟨(handle, factor), mem_factors.2 hfactor, hrule⟩

theorem rules_perm {graph after : FactorGraph (List (Rule α))}
    (h : graph.factors.Perm after.factors) : graph.rules.Perm after.rules :=
  h.flatMap_right _

theorem rules_of_factors {graph : FactorGraph (List (Rule α))}
    {entries : List (Handle × Factor (List (Rule α)))} (h : graph.factors.Perm entries) :
    graph.rules.Perm (entries.flatMap fun entry => entry.2.data) :=
  h.flatMap_right _

end FactorGraph

namespace Elimination

open FactorGraph

/-- What is known once some factors were consumed: the graph without them, and their rules group by
group. -/
structure Consumes (space : Space) (neighborhood : Scope) (handles : List Handle)
    (graph after : FactorGraph (List (Rule α))) (factors : List (ConsumedFactor α))
    (groups : List (List (Rule α))) : Prop where
  sound : after.Sound
  varCount : after.varCount = graph.varCount
  live : ∀ key < graph.varCount, after.isLive key = graph.isLive key
  left : ∀ handle, after.factor? handle = if handle ∈ handles then none else graph.factor? handle
  groups_eq : groups = (handles.filterMap graph.factor?).map Factor.data
  rules : graph.rules.Perm (groups.flatten ++ after.rules)
  around : ∀ rule ∈ groups.flatten, ∀ entry ∈ rule.assignment.entries, entry.1 ∈ neighborhood.keys
  matching : ∀ x, space.Respects x → matchingAll? factors (neighborhood.keys.map x) =
    some (groups.map fun rules => earned rules x)

/-- What a graph is once some of its factors were consumed, whatever their rules are: each of them
could be read, and is gone. -/
theorem consume?_graph {space : Space} {neighborhood : Scope} {handles : List Handle}
    {graph after : FactorGraph (List (Rule α))} {factors : List (ConsumedFactor α)}
    (hsound : graph.Sound)
    (h : consume? space neighborhood handles graph = some (factors, after)) :
    after.Sound ∧ after.varCount = graph.varCount ∧
      (∀ key < graph.varCount, after.isLive key = graph.isLive key) ∧
      (∀ handle, after.factor? handle = if handle ∈ handles then none else graph.factor? handle) ∧
      ∀ handle ∈ handles, ∃ factor consumed, graph.factor? handle = some factor ∧
        ConsumedFactor.ofRules? space neighborhood factor.scope factor.data = some consumed := by
  induction handles generalizing graph factors with
  | nil =>
    cases h
    exact ⟨hsound, rfl, fun _ _ => rfl, by simp, by simp⟩
  | cons handle handles ih =>
    simp only [consume?, Option.bind_eq_bind, Option.bind_eq_some_iff, Prod.exists] at h
    obtain ⟨factor, hfactor, rules, middle, herase, consumed, hconsumed, rest, last, hrest, h⟩ := h
    cases h
    obtain ⟨found, hfound, rfl, hcount, -⟩ := Sound.eraseFactor?_spec herase
    obtain rfl := Option.some.inj (hfactor.symm.trans hfound)
    have hleft := hsound.factor?_eraseFactor? herase
    obtain ⟨hafter, hkept, hlive, hgone, hread⟩ := ih (hsound.eraseFactor? herase) hrest
    refine ⟨hafter, hkept.trans hcount, ?_, ?_, ?_⟩
    · intro key hkey
      rw [hlive key (hcount ▸ hkey), hsound.isLive_eraseFactor? herase hkey]
    · intro other
      rw [hgone, hleft]
      by_cases heq : other = handle
      · simp [heq]
      · simp [heq]
    · refine List.forall_mem_cons.2 ⟨⟨factor, consumed, hfactor, hconsumed⟩, fun other hother => ?_⟩
      obtain ⟨held, filed, hheld, hfiled⟩ := hread other hother
      rw [hleft] at hheld
      split at hheld
      · cases hheld
      · exact ⟨held, filed, hheld, hfiled⟩

private theorem consume?_spec {space : Space} {neighborhood : Scope} {handles : List Handle}
    {graph : FactorGraph (List (Rule α))} (hsound : graph.Sound)
    (hcount : graph.varCount = space.length) (hfits : graph.Fits space) (hnodup : handles.Nodup)
    (hhandles : ∀ handle ∈ handles, ∃ factor, graph.factor? handle = some factor ∧
      ∀ key ∈ factor.scope.keys, key ∈ neighborhood.keys) :
    ∃ factors after groups, consume? space neighborhood handles graph = some (factors, after) ∧
      Consumes space neighborhood handles graph after factors groups := by
  suffices hreads : ∃ factors after, ∃ groups : List (List (Rule α)),
      consume? space neighborhood handles graph = some (factors, after) ∧
      groups = (handles.filterMap graph.factor?).map Factor.data ∧
      graph.rules.Perm (groups.flatten ++ after.rules) ∧
      (∀ rule ∈ groups.flatten, ∀ entry ∈ rule.assignment.entries,
        entry.1 ∈ neighborhood.keys) ∧
      ∀ x, space.Respects x → matchingAll? factors (neighborhood.keys.map x) =
        some (groups.map fun rules => earned rules x) by
    obtain ⟨factors, after, groups, hconsume, hgroups, hrules, haround, hmatching⟩ := hreads
    obtain ⟨hafter, hkept, hlive, hleft, -⟩ := consume?_graph hsound hconsume
    exact ⟨factors, after, groups, hconsume, hafter, hkept, hlive, hleft, hgroups, hrules, haround,
      hmatching⟩
  induction handles generalizing graph with
  | nil => exact ⟨[], graph, [], rfl, rfl, by simp, by simp, fun _ _ => rfl⟩
  | cons handle handles ih =>
    obtain ⟨hhandle, hnodup⟩ := List.nodup_cons.1 hnodup
    obtain ⟨factor, hfactor, hscope⟩ := hhandles handle List.mem_cons_self
    have hasked := hsound.scope hfactor
    have hrules := hfits _ (mem_factors.2 hfactor)
    obtain ⟨middle, herase⟩ : ∃ middle, graph.eraseFactor? handle = some (factor.data, middle) := by
      simp [eraseFactor?, hfactor]
    obtain ⟨-, -, -, hsame, -⟩ := Sound.eraseFactor?_spec herase
    have hmiddle := hsound.eraseFactor? herase
    have hleft := hsound.factor?_eraseFactor? herase
    obtain ⟨consumed, hconsumed, hmatch⟩ := ConsumedFactor.ofRules?_spec hscope
      (fun key hkey => hcount ▸ (hasked.2 key hkey).1) hrules
    have hfits' : middle.Fits space := by
      rintro ⟨other, found⟩ hentry
      rw [mem_factors, hleft] at hentry
      split at hentry
      · cases hentry
      · exact hfits _ (mem_factors.2 hentry)
    obtain ⟨factors, after, groups, hrest, hgroups, hperm, haround, hmatching⟩ :=
      ih hmiddle (hsame.trans hcount) hfits' hnodup
      fun other hother => by
        obtain ⟨found, hfound, hin⟩ := hhandles other (List.mem_cons_of_mem _ hother)
        have hne : other ≠ handle := fun heq => hhandle (heq ▸ hother)
        exact ⟨found, by rw [hleft, if_neg hne, hfound], hin⟩
    refine ⟨consumed :: factors, after, factor.data :: groups, ?_, ?_, ?_, ?_, ?_⟩
    · simp [consume?, hfactor, herase, hconsumed, hrest]
    · have hothers : handles.filterMap middle.factor? = handles.filterMap graph.factor? := by
        refine List.filterMap_congr fun other hother => ?_
        have hne : other ≠ handle := fun heq => hhandle (heq ▸ hother)
        rw [hleft, if_neg hne]
      rw [List.filterMap_cons_some hfactor, List.map_cons, hgroups, hothers]
    · have hone := rules_of_factors (hsound.factors_eraseFactor? hfactor herase)
      rw [List.flatMap_cons] at hone
      rw [List.flatten_cons, List.append_assoc]
      exact hone.trans (hperm.append_left _)
    · intro rule hrule entry hentry
      rw [List.flatten_cons] at hrule
      rcases List.mem_append.1 hrule with hrule | hrule
      · exact hscope _ (hrules rule hrule entry hentry).1
      · exact haround rule hrule entry hentry
    · intro x hx
      have htail := hmatching x hx
      simp only [matchingAll?] at htail ⊢
      rw [List.mapM_cons, hmatch x hx, htail]
      rfl

def Run.rules (run : Run α) : List (Rule α) :=
  run.finals ++ run.graph.rules

/-- What every run keeps to: the graph is sound, it is over the space together with its rules, and
the finals are over no variables. -/
structure Run.Intact (space : Space) (run : Run α) : Prop where
  sound : run.graph.Sound
  varCount : run.graph.varCount = space.length
  fits : run.graph.Fits space
  finals : ∀ rule ∈ run.finals, rule.assignment.entries = []

theorem intact_start {space : Space} {graph : FactorGraph (List (Rule α))} (hsound : graph.Sound)
    (hcount : graph.varCount = space.length) (hfits : graph.Fits space) :
    (Run.start graph).Intact space :=
  ⟨hsound, hcount, hfits, fun _ h => by cases h⟩

/-- What a graph is once rules were deposited in it: the factors keep their rules, and the scope is
there unless it is empty. -/
theorem deposit?_graph {run after : Run α} (hsound : run.graph.Sound) {scope : Scope}
    {rules : List (Rule α)}
    (hscope : ∀ key ∈ scope.keys, key < run.graph.varCount ∧ run.graph.isLive key = true)
    (h : run.deposit? scope rules = some after) :
    after.graph.Sound ∧ after.graph.varCount = run.graph.varCount ∧
      (∀ key < run.graph.varCount, after.graph.isLive key = run.graph.isLive key) ∧
      (∀ other, after.graph.HasScope other ↔
        run.graph.HasScope other ∨ (scope ≠ .empty ∧ other = scope)) ∧
      ∀ handle factor, run.graph.factor? handle = some factor →
        ∃ found, after.graph.factor? handle = some found ∧ found.scope = factor.scope ∧
          factor.data ⊆ found.data := by
  by_cases hempty : scope = .empty
  · rw [Run.deposit?, if_pos hempty] at h
    cases h
    exact ⟨hsound, rfl, fun _ _ => rfl, by simp [hempty],
      fun _ factor hfactor => ⟨factor, hfactor, rfl, List.Subset.refl _⟩⟩
  · have hasked : run.graph.Asked scope := ⟨hempty, hscope⟩
    obtain ⟨handle, grown, hensure⟩ := Sound.ensure?_eq run.graph hasked
    rw [Run.deposit?, if_neg hempty, hensure] at h
    cases h
    have hgrown := hsound.ensure? hasked hensure
    have hcount := hsound.ensure?_varCount hensure
    obtain ⟨edited, -, hold, hedited⟩ := hsound.factor?_edited hasked hensure (· ++ rules)
    refine ⟨hgrown.modifyData handle (· ++ rules), ?_, ?_, fun other => ?_, ?_⟩
    · rw [Sound.modifyData_varCount, hcount]
    · intro key hkey
      rw [hgrown.modifyData_isLive handle _ (hcount.symm ▸ hkey),
        hsound.isLive_ensure? hasked hensure hkey]
    · rw [hsound.hasScope_ensure? hasked hensure (· ++ rules) other]
      simp [hempty]
    · intro held factor hfactor
      by_cases heq : held = handle
      · refine ⟨_, (hedited held).trans (if_pos heq), ?_⟩
        rcases hold with hold | ⟨-, hnone, -⟩
        · obtain rfl := Option.some.inj (hfactor.symm.trans (heq ▸ hold))
          exact ⟨rfl, List.subset_append_left ..⟩
        · rw [heq, hnone] at hfactor
          cases hfactor
      · exact ⟨factor, by rw [hedited, if_neg heq, hfactor], rfl, List.Subset.refl _⟩

theorem deposit?_spec {space : Space} {run : Run α} (hrun : run.Intact space) {scope : Scope}
    {rules : List (Rule α)}
    (hscope : ∀ key ∈ scope.keys, key < space.length ∧ run.graph.isLive key = true)
    (hrules : ∀ rule ∈ rules, rule.assignment.Within space scope) :
    ∃ after, run.deposit? scope rules = some after ∧ after.Intact space ∧
      after.steps = run.steps ∧
      (∀ key < space.length, after.graph.isLive key = run.graph.isLive key) ∧
      (∀ other, after.graph.HasScope other ↔
        run.graph.HasScope other ∨ (scope ≠ .empty ∧ other = scope)) ∧
      after.rules.Perm (rules ++ run.rules) := by
  obtain ⟨hsound, hcount, hfits, hfinals⟩ := hrun
  by_cases hempty : scope = .empty
  · have hpure : ∀ rule ∈ rules, rule.assignment.entries = [] := by
      intro rule hrule
      refine List.eq_nil_iff_forall_not_mem.2 fun entry hentry => ?_
      have hmem := (hrules rule hrule entry hentry).1
      rw [hempty] at hmem
      cases hmem
    refine ⟨{ run with finals := run.finals ++ rules }, by rw [Run.deposit?, if_pos hempty],
      ⟨hsound, hcount, hfits, ?_⟩, rfl, fun _ _ => rfl, by simp [hempty], ?_⟩
    · intro rule hrule
      exact (List.mem_append.1 hrule).elim (hfinals rule) (hpure rule)
    · rw [Run.rules, Run.rules, ← List.append_assoc]
      exact List.perm_append_comm.append_right _
  · have hasked : run.graph.Asked scope :=
      ⟨hempty, fun key hkey => ⟨hcount.symm ▸ (hscope key hkey).1, (hscope key hkey).2⟩⟩
    obtain ⟨handle, grown, hensure⟩ := Sound.ensure?_eq run.graph hasked
    have hdeposit : run.deposit? scope rules =
        some { run with graph := grown.modifyData handle (· ++ rules) } := by
      rw [Run.deposit?, if_neg hempty, hensure]
      rfl
    obtain ⟨hafter, hkept, hlive, hscopes, -⟩ := deposit?_graph hsound hasked.2 hdeposit
    obtain ⟨serial, data, rest, hbefore, hedited⟩ :=
      hsound.factors_ensure? hasked hensure (· ++ rules)
    have hold : run.graph.rules.Perm (data ++ rest.flatMap fun entry => entry.2.data) := by
      rcases hbefore with hbefore | ⟨rfl, hbefore⟩
      · exact rules_of_factors hbefore
      · exact rules_of_factors hbefore
    have hnew := rules_of_factors hedited
    refine ⟨_, hdeposit, ⟨hafter, hkept.trans hcount, ?_, hfinals⟩, rfl,
      fun key hkey => hlive key (hcount ▸ hkey), hscopes, ?_⟩
    · intro entry hentry rule hrule
      rcases List.mem_cons.1 (hedited.mem_iff.1 hentry) with rfl | hentry
      · rcases List.mem_append.1 hrule with hrule | hrule
        · rcases hbefore with hbefore | ⟨rfl, -⟩
          · exact hfits _ (hbefore.mem_iff.2 List.mem_cons_self) rule hrule
          · cases hrule
        · exact hrules rule hrule
      · rcases hbefore with hbefore | ⟨-, hbefore⟩
        · exact hfits _ (hbefore.mem_iff.2 (List.mem_cons_of_mem _ hentry)) rule hrule
        · exact hfits _ (hbefore.mem_iff.2 hentry) rule hrule
    · have hrest : (data ++ rules ++ rest.flatMap fun entry => entry.2.data).Perm
          (rules ++ run.graph.rules) := by
        rw [List.append_assoc]
        refine (List.perm_append_comm_assoc data rules _).trans (hold.symm.append_left rules)
      exact ((hnew.trans hrest).append_left _).trans (List.perm_append_comm_assoc ..)

def Step.removed : Step → Nat
  | .skipped removed => removed
  | .eliminated removed _ _ => removed

structure Advances (space : Space) (key : Nat) (run after : Run Rat) : Prop where
  intact : after.Intact space
  live : ∀ other < space.length,
    after.graph.isLive other = (run.graph.isLive other && decide (other ≠ key))
  steps : after.steps.map Step.removed = run.steps.map Step.removed ++ [key]
  folds : ∀ x, space.Respects x → ∃ choice, Folds space key run.rules after.rules x choice

/-- A rule that is left looks at a variable only if a factor around the variable holds it. -/
theorem Run.Intact.off_free {space : Space} {run : Run α} (hrun : run.Intact space) {key : Nat}
    (hfree : run.graph.neighbors key = []) {rule : Rule α} (hrule : rule ∈ run.rules) :
    ∀ entry ∈ rule.assignment.entries, entry.1 ≠ key := by
  rintro entry hentry rfl
  rcases List.mem_append.1 hrule with hrule | hrule
  · rw [hrun.finals rule hrule] at hentry
    cases hentry
  · obtain ⟨handle, factor, hfactor, hin⟩ := mem_rules.1 hrule
    have hkey := (hrun.fits _ (mem_factors.2 hfactor) rule hin entry hentry).1
    have hlt := ((hrun.sound.scope hfactor).2 _ hkey).1
    have hmem := (hrun.sound.adjacent _ hlt handle).2 ⟨factor, hfactor, hkey⟩
    rw [hfree] at hmem
    cases hmem

theorem Run.Intact.eraseVariable {space : Space} {run : Run α} (hrun : run.Intact space)
    {key : Nat} (hfree : run.graph.neighbors key = []) (steps : List Step) :
    Run.Intact space ⟨run.graph.eraseVariable key, run.finals, steps⟩ where
  sound := hrun.sound.eraseVariable hfree
  varCount := (Sound.eraseVariable_varCount run.graph key).trans hrun.varCount
  fits := fun entry hentry =>
    hrun.fits entry ((hrun.sound.factors_eraseVariable hfree).mem_iff.1 hentry)
  finals := hrun.finals

private theorem within_pairing {space : Space} {remaining : Scope} {others : List Nat}
    (hothers : MixedRadix.Digits (remaining.keys.map space.domain) others) :
    (Assignment.pairing remaining others).Within space remaining := by
  intro entry hentry
  have hmem : entry ∈ remaining.keys.zip others := hentry
  exact ⟨(List.of_mem_zip hmem).1, value_lt_of_mem_zip hothers hmem⟩

private theorem neighbors_eq_nil_of_left {graph after : FactorGraph (List (Rule α))}
    (hsound : graph.Sound)
    (hafter : after.Sound) (hcount : after.varCount = graph.varCount) {key : Nat}
    (hkey : key < graph.varCount) (hleft : ∀ handle, after.factor? handle =
      if handle ∈ graph.neighbors key then none else graph.factor? handle) :
    after.neighbors key = [] := by
  refine List.eq_nil_iff_forall_not_mem.2 fun handle hhandle => ?_
  obtain ⟨factor, hfactor, hin⟩ := (hafter.adjacent key (hcount.symm ▸ hkey) handle).1 hhandle
  rw [hleft] at hfactor
  split at hfactor
  · cases hfactor
  · rename_i hout
    exact hout ((hsound.adjacent key hkey handle).2 ⟨factor, hfactor, hin⟩)

/-- The run between consuming the factors around a variable and depositing the new rules. -/
structure Clears (space : Space) (key : Nat) (neighborhood : Scope) (run : Run α)
    (consumed : FactorGraph (List (Rule α))) (factors : List (ConsumedFactor α))
    (groups : List (List (Rule α))) : Prop where
  pivot : key ∈ neighborhood.keys
  live : ∀ other ∈ neighborhood.keys, other < space.length ∧ run.graph.isLive other = true
  consumes : Consumes space neighborhood (run.graph.neighbors key) run.graph consumed factors groups
  intact : Run.Intact space ⟨consumed, run.finals, run.steps⟩
  free : consumed.neighbors key = []

theorem clear_spec {space : Space} {run : Run α} (hrun : run.Intact space) {key : Nat}
    (hkey : key < space.length) (hbusy : run.graph.neighbors key ≠ []) :
    ∃ factors consumed groups,
      consume? space (run.graph.unionScope (run.graph.neighbors key)) (run.graph.neighbors key)
        run.graph = some (factors, consumed) ∧
      Clears space key (run.graph.unionScope (run.graph.neighbors key)) run consumed factors
        groups := by
  obtain ⟨hsound, hcount, hfits, hfinals⟩ := hrun
  rw [← hcount] at hkey
  have hadjacent := hsound.adjacent key hkey
  have hnodup := hsound.nodup_neighbors hkey
  have hcovered : ∀ handle ∈ run.graph.neighbors key,
      ∃ factor, run.graph.factor? handle = some factor ∧ ∀ other ∈ factor.scope.keys,
        other ∈ (run.graph.unionScope (run.graph.neighbors key)).keys := by
    intro handle hhandle
    obtain ⟨factor, hfactor, -⟩ := (hadjacent handle).1 hhandle
    exact ⟨factor, hfactor, fun other hother =>
      mem_unionScope.2 ⟨handle, hhandle, factor, hfactor, hother⟩⟩
  obtain ⟨factors, consumed, groups, hconsume, hspec⟩ :=
    consume?_spec hsound hcount hfits hnodup hcovered
  refine ⟨factors, consumed, groups, hconsume, ?_, ?_, hspec,
    ⟨hspec.sound, hspec.varCount.trans hcount, ?_, hfinals⟩, ?_⟩
  · obtain ⟨handle, hhandle⟩ := List.exists_mem_of_ne_nil _ hbusy
    obtain ⟨factor, hfactor, hin⟩ := (hadjacent handle).1 hhandle
    exact mem_unionScope.2 ⟨handle, hhandle, factor, hfactor, hin⟩
  · rw [← hcount]
    exact hsound.unionScope_live _
  · rintro ⟨handle, factor⟩ hentry
    rw [mem_factors, hspec.left] at hentry
    split at hentry
    · cases hentry
    · exact hfits _ (mem_factors.2 hentry)
  · exact neighbors_eq_nil_of_left hsound hspec.sound hspec.varCount hkey hspec.left

section Clears

variable {space : Space} {key : Nat} {neighborhood : Scope} {run : Run α}
  {consumed : FactorGraph (List (Rule α))} {factors : List (ConsumedFactor α)}
  {groups : List (List (Rule α))}

theorem Clears.isLive_eq (h : Clears space key neighborhood run consumed factors groups)
    (hkey : key < space.length) : ∀ other < space.length,
      (consumed.eraseVariable key).isLive other =
        (run.graph.isLive other && decide (other ≠ key)) := by
  have hcount : consumed.varCount = space.length := h.intact.varCount
  intro other hother
  rw [h.consumes.sound.isLive_eraseVariable h.free (hcount ▸ hkey) (hcount ▸ hother),
    h.consumes.live other (h.consumes.varCount ▸ hcount ▸ hother)]

theorem Clears.remaining_live (h : Clears space key neighborhood run consumed factors groups)
    (hkey : key < space.length) : ∀ other ∈ (neighborhood.erase key).keys,
      other < space.length ∧ (consumed.eraseVariable key).isLive other = true := by
  intro other hother
  obtain ⟨hin, hne⟩ := mem_eraseKey.1 hother
  obtain ⟨hlt, halive⟩ := h.live other hin
  exact ⟨hlt, by simp [h.isLive_eq hkey other hlt, halive, hne]⟩

private theorem Clears.hasScope_iff (h : Clears space key neighborhood run consumed factors groups)
    (hsound : run.graph.Sound) (scope : Scope) :
    consumed.HasScope scope ↔ run.graph.HasScope scope ∧ key ∉ scope.keys := by
  have hcount : run.graph.varCount = space.length :=
    h.consumes.varCount.symm.trans h.intact.varCount
  have hadjacent := hsound.adjacent key (hcount ▸ (h.live key h.pivot).1)
  constructor
  · intro hhas
    obtain ⟨handle, factor, hfactor, rfl⟩ := hhas
    rw [h.consumes.left] at hfactor
    split at hfactor
    · cases hfactor
    · rename_i hout
      exact ⟨⟨handle, factor, hfactor, rfl⟩,
        fun hkey => hout ((hadjacent handle).2 ⟨factor, hfactor, hkey⟩)⟩
  · intro hhas
    obtain ⟨⟨handle, factor, hfactor, rfl⟩, hout⟩ := hhas
    refine ⟨handle, factor, ?_, rfl⟩
    rw [h.consumes.left, if_neg, hfactor]
    intro hin
    obtain ⟨found, hfound, hkey⟩ := (hadjacent handle).1 hin
    obtain rfl := Option.some.inj (hfactor.symm.trans hfound)
    exact hout hkey

theorem Clears.rules_perm (h : Clears space key neighborhood run consumed factors groups) :
    run.rules.Perm (groups.flatten ++ (run.finals ++ consumed.rules)) :=
  (h.consumes.rules.append_left run.finals).trans (List.perm_append_comm_assoc ..)

theorem Clears.deposit? (h : Clears space key neighborhood run consumed factors groups)
    (hsound : run.graph.Sound) (hkey : key < space.length) {rules : List (Rule α)}
    (hrules : ∀ rule ∈ rules, rule.assignment.Within space (neighborhood.erase key))
    (step : Step) :
    ∃ after, Run.deposit? ⟨consumed.eraseVariable key, run.finals, run.steps ++ [step]⟩
        (neighborhood.erase key) rules = some after ∧
      after.Intact space ∧ after.steps = run.steps ++ [step] ∧
      (∀ other < space.length,
        after.graph.isLive other = (run.graph.isLive other && decide (other ≠ key))) ∧
      (∀ scope, after.graph.HasScope scope ↔ (run.graph.HasScope scope ∧ key ∉ scope.keys) ∨
        (neighborhood.erase key ≠ .empty ∧ scope = neighborhood.erase key)) ∧
      run.rules.Perm (groups.flatten ++ (run.finals ++ consumed.rules)) ∧
      after.rules.Perm (rules ++ (run.finals ++ consumed.rules)) := by
  obtain ⟨after, hdeposit, hafter, hsteps, hsame, hscopes, hbehind⟩ :=
    deposit?_spec (h.intact.eraseVariable h.free (run.steps ++ [step])) (h.remaining_live hkey)
      hrules
  have herased := FactorGraph.rules_perm (h.consumes.sound.factors_eraseVariable h.free)
  refine ⟨after, hdeposit, hafter, hsteps,
    fun other hother => (hsame other hother).trans (h.isLive_eq hkey other hother),
    fun scope => ?_, h.rules_perm, hbehind.trans ((herased.append_left run.finals).append_left _)⟩
  rw [hscopes, h.consumes.sound.hasScope_eraseVariable h.free,
    h.hasScope_iff hsound]

structure Responds [Payoff α] (space : Space) (key : Nat) (neighborhood : Scope) (pivot : Nat)
    (factors : List (ConsumedFactor α)) (groups : List (List (Rule α))) (joints : List (List Nat))
    (rules : List (Rule α)) : Prop where
  pivot_eq : neighborhood.position? key = some pivot
  joints_eq : space.jointValues? (neighborhood.erase key).keys = some joints
  rules_eq :
    joints.mapM (bestResponse? space key factors pivot (neighborhood.erase key)) = some rules
  enumerates : MixedRadix.Enumerates ((neighborhood.erase key).keys.map space.domain) joints
  answers : ∃ found : List Nat → α × Nat,
    rules = joints.map (fun joint =>
      answer key (neighborhood.erase key) groups.flatten (found joint) joint) ∧
    ∀ joint ∈ joints, (found joint).2 < space.domain key

section Responds

variable [Payoff α] {pivot : Nat} {joints : List (List Nat)} {rules : List (Rule α)}

theorem Responds.within (h : Responds space key neighborhood pivot factors groups joints rules) :
    ∀ rule ∈ rules, rule.assignment.Within space (neighborhood.erase key) := by
  obtain ⟨found, rfl, -⟩ := h.answers
  intro rule hrule
  obtain ⟨joint, hjoint, rfl⟩ := List.mem_map.1 hrule
  exact within_pairing (h.enumerates.digits joint hjoint)

theorem Responds.chosen (h : Responds space key neighborhood pivot factors groups joints rules) :
    ∀ rule ∈ rules, ∃ x, ∃ choice < space.domain key,
      rule.tags = tagsAt groups.flatten x ++ [(key, choice)] := by
  obtain ⟨found, rfl, hfound⟩ := h.answers
  intro rule hrule
  obtain ⟨joint, hjoint, rfl⟩ := List.mem_map.1 hrule
  exact ⟨_, _, hfound joint hjoint, rfl⟩

end Responds

private theorem Clears.exists_responds [Payoff α] (hspace : space.Inhabited)
    (h : Clears space key neighborhood run consumed factors groups) (hkey : key < space.length) :
    ∃ pivot joints rules, Responds space key neighborhood pivot factors groups joints rules := by
  obtain ⟨pivot, hpivot⟩ := Scope.position?_of_mem h.pivot
  obtain ⟨joints, hjoints, henumerates⟩ :=
    Space.jointValues?_eq fun other hother => (h.remaining_live hkey other hother).1
  have : Nonempty (α × Nat) := ⟨(Payoff.zero, 0)⟩
  choose! found hfound hbest using fun joint (hjoint : joint ∈ joints) =>
    bestResponse?_answer hspace hkey hpivot h.consumes.matching (henumerates.digits joint hjoint)
  exact ⟨pivot, joints, _, hpivot, hjoints, mapM_eq_some_map hbest, henumerates, found, rfl,
    hfound⟩

end Clears

theorem eliminate?_busy [Payoff α] {space : Space} (hspace : space.Inhabited) {run : Run α}
    (hrun : run.Intact space) {key : Nat} (hkey : key < space.length)
    (hbusy : run.graph.neighbors key ≠ []) {neighborhood : Scope}
    (hneighborhood : neighborhood = run.graph.unionScope (run.graph.neighbors key)) :
    ∃ factors consumed groups pivot joints rules,
      consume? space neighborhood (run.graph.neighbors key) run.graph = some (factors, consumed) ∧
      Clears space key neighborhood run consumed factors groups ∧
      Responds space key neighborhood pivot factors groups joints rules ∧
      run.eliminate? space key = Run.deposit?
        ⟨consumed.eraseVariable key, run.finals,
          run.steps ++ [.eliminated key neighborhood rules.length]⟩
        (neighborhood.erase key) rules := by
  subst hneighborhood
  obtain ⟨factors, consumed, groups, hconsume, hclear⟩ := clear_spec hrun hkey hbusy
  obtain ⟨pivot, joints, rules, hresponds⟩ := hclear.exists_responds hspace hkey
  refine ⟨factors, consumed, groups, pivot, joints, rules, hconsume, hclear, hresponds, ?_⟩
  obtain ⟨hpivot, hjoints, hrules, -⟩ := hresponds
  obtain ⟨first, others, hhandles⟩ := List.exists_cons_of_ne_nil hbusy
  rw [hhandles] at hconsume hpivot hjoints hrules
  simp [Run.eliminate?, hhandles, hpivot, hconsume, hjoints, hrules]

/-- Eliminating a variable goes through. Either no factor is around it and the rules stay, or the
best responses take the place of the rules around it, and one scope that of all scopes around it. -/
theorem eliminate?_cases [Payoff α] {space : Space} (hspace : space.Inhabited) {run : Run α}
    (hrun : run.Intact space) {key : Nat} (hkey : key < space.length) :
    ∃ after, run.eliminate? space key = some after ∧ after.Intact space ∧
      (∀ other < space.length,
        after.graph.isLive other = (run.graph.isLive other && decide (other ≠ key))) ∧
      after.steps.map Step.removed = run.steps.map Step.removed ++ [key] ∧
      (run.graph.neighbors key = [] ∧ after.steps = run.steps ++ [.skipped key] ∧
          (∀ scope, after.graph.HasScope scope ↔ run.graph.HasScope scope) ∧
          after.rules.Perm run.rules ∨
        ∃ neighborhood consumed factors groups pivot joints rules,
          neighborhood = run.graph.unionScope (run.graph.neighbors key) ∧
          Clears space key neighborhood run consumed factors groups ∧
          Responds space key neighborhood pivot factors groups joints rules ∧
          after.steps = run.steps ++ [.eliminated key neighborhood rules.length] ∧
          (∀ scope, after.graph.HasScope scope ↔
            (run.graph.HasScope scope ∧ key ∉ scope.keys) ∨
              (neighborhood.erase key ≠ .empty ∧ scope = neighborhood.erase key)) ∧
          run.rules.Perm (groups.flatten ++ (run.finals ++ consumed.rules)) ∧
          after.rules.Perm (rules ++ (run.finals ++ consumed.rules))) := by
  cases hhandles : run.graph.neighbors key with
  | nil =>
    have hintact := hrun.eraseVariable hhandles (run.steps ++ [.skipped key])
    refine ⟨_, by simp only [Run.eliminate?, hhandles], hintact, ?_, ?_, .inl ⟨rfl, rfl, ?_, ?_⟩⟩
    · intro other hother
      exact hrun.sound.isLive_eraseVariable hhandles (hrun.varCount ▸ hkey)
        (hrun.varCount ▸ hother)
    · simp [Step.removed]
    · exact hrun.sound.hasScope_eraseVariable hhandles
    · exact (rules_perm (hrun.sound.factors_eraseVariable hhandles)).append_left run.finals
  | cons first others =>
    obtain ⟨factors, consumed, groups, pivot, joints, rules, -, hclear, hresponds, heliminate⟩ :=
      eliminate?_busy hspace hrun hkey (by simp [hhandles]) rfl
    obtain ⟨after, hdeposit, hafter, hsteps, hlive, hscopes, hbefore, hbehind⟩ :=
      hclear.deposit? hrun.sound hkey hresponds.within
        (.eliminated key (run.graph.unionScope (run.graph.neighbors key)) rules.length)
    exact ⟨after, heliminate.trans hdeposit, hafter, hlive, by simp [hsteps, Step.removed], .inr
      ⟨_, _, _, _, _, _, _, hhandles ▸ rfl, hclear, hresponds, hsteps, hscopes, hbefore, hbehind⟩⟩

/-- What the graph is after any step that went through, whatever the rules are. The life of the
variable alone ended, and each factor could be read or is still there with its rules. -/
theorem eliminate?_graph [Payoff α] {space : Space} {run after : Run α}
    (hsound : run.graph.Sound) {key : Nat} (hkey : key < run.graph.varCount)
    (h : run.eliminate? space key = some after) :
    after.graph.Sound ∧ after.graph.varCount = run.graph.varCount ∧
      (∀ other < run.graph.varCount,
        after.graph.isLive other = (run.graph.isLive other && decide (other ≠ key))) ∧
      ∀ handle factor, run.graph.factor? handle = some factor →
        (∃ neighborhood consumed,
          ConsumedFactor.ofRules? space neighborhood factor.scope factor.data = some consumed) ∨
        ∃ found, after.graph.factor? handle = some found ∧ found.scope = factor.scope ∧
          factor.data ⊆ found.data := by
  cases hhandles : run.graph.neighbors key with
  | nil =>
    simp only [Run.eliminate?, hhandles, Option.some.injEq] at h
    subst h
    refine ⟨hsound.eraseVariable hhandles, Sound.eraseVariable_varCount .., ?_, ?_⟩
    · exact fun other hother => hsound.isLive_eraseVariable hhandles hkey hother
    · intro handle factor hfactor
      refine .inr ⟨factor, ?_, rfl, List.Subset.refl _⟩
      rw [hsound.factor?_eraseVariable hhandles, hfactor]
  | cons first others =>
    simp only [Run.eliminate?, hhandles, Option.bind_eq_bind, Option.bind_eq_some_iff,
      Prod.exists] at h
    obtain ⟨pivot, -, factors, consumed, hconsume, joints, -, rules, -, hdeposit⟩ := h
    rw [← hhandles] at hconsume hdeposit
    obtain ⟨hleft, hcount, hsame, hgone, hread⟩ := consume?_graph hsound hconsume
    have hfree := neighbors_eq_nil_of_left hsound hleft hcount hkey hgone
    have herased := hleft.eraseVariable hfree
    have hlive : ∀ other < run.graph.varCount, (consumed.eraseVariable key).isLive other =
        (run.graph.isLive other && decide (other ≠ key)) := by
      intro other hother
      rw [hleft.isLive_eraseVariable hfree (hcount ▸ hkey) (hcount ▸ hother), hsame other hother]
    have hkept : (consumed.eraseVariable key).varCount = run.graph.varCount := by
      rw [Sound.eraseVariable_varCount, hcount]
    have hremaining : ∀ other ∈ ((run.graph.unionScope (run.graph.neighbors key)).erase key).keys,
        other < (consumed.eraseVariable key).varCount ∧
          (consumed.eraseVariable key).isLive other = true := by
      intro other hother
      obtain ⟨hin, hne⟩ := mem_eraseKey.1 hother
      obtain ⟨hlt, halive⟩ := hsound.unionScope_live _ other hin
      exact ⟨hkept ▸ hlt, by simp [hlive other hlt, halive, hne]⟩
    obtain ⟨hafter, hdeposited, hunchanged, -, hfactors⟩ :=
      deposit?_graph herased hremaining hdeposit
    refine ⟨hafter, hdeposited.trans hkept, ?_, ?_⟩
    · intro other hother
      rw [hunchanged other (hkept ▸ hother), hlive other hother]
    · intro handle factor hfactor
      by_cases haround : handle ∈ run.graph.neighbors key
      · obtain ⟨found, filed, hfound, hfiled⟩ := hread handle haround
        obtain rfl := Option.some.inj (hfactor.symm.trans hfound)
        exact .inl ⟨_, filed, hfiled⟩
      · refine .inr (hfactors handle factor ?_)
        rw [hleft.factor?_eraseVariable hfree, hgone, if_neg haround, hfactor]

theorem Responds.folds {space : Space} (hspace : space.Inhabited) {key : Nat}
    (hkey : key < space.length) {neighborhood : Scope} {run : Run Rat}
    {consumed : FactorGraph (List (Rule Rat))} {factors : List (ConsumedFactor Rat)}
    {groups : List (List (Rule Rat))} {pivot : Nat} {joints : List (List Nat)}
    {rules : List (Rule Rat)}
    (h : Responds space key neighborhood pivot factors groups joints rules)
    (hclear : Clears space key neighborhood run consumed factors groups) {x : Valuation}
    (hx : space.Respects x) : ∃ choice, Folds space key groups.flatten rules x choice := by
  have hresponses := mapM_eq_some_map fun joint hjoint => bestResponse?_eq hspace hkey h.pivot_eq
    hclear.consumes.matching (h.enumerates.digits joint hjoint)
  obtain rfl := Option.some.inj (h.rules_eq.symm.trans hresponses)
  exact folds_responses hspace hkey hclear.consumes.around h.enumerates
    fun other hother => hx other (hclear.live other hother).1

/-- Eliminating a variable goes through and folds it into the others. -/
theorem eliminate?_spec {space : Space} (hspace : space.Inhabited) {run : Run Rat}
    (hrun : run.Intact space) {key : Nat} (hkey : key < space.length) :
    ∃ after, run.eliminate? space key = some after ∧ Advances space key run after := by
  obtain ⟨after, heliminate, hafter, hlive, hremoved, hcases⟩ := eliminate?_cases hspace hrun hkey
  refine ⟨after, heliminate, hafter, hlive, hremoved, fun x hx => ?_⟩
  obtain ⟨hfree, -, -, hsame⟩ |
    ⟨_, _, _, _, _, _, _, -, hclear, hresponds, -, -, hbefore, hbehind⟩ := hcases
  · exact ⟨0, (folds_skip hspace hkey x).beside (fun _ => hrun.off_free hfree) (.refl run.rules)
      hsame⟩
  · obtain ⟨choice, hfolds⟩ := hresponds.folds hspace hkey hclear hx
    exact ⟨choice, hfolds.beside (fun rule hrule => hclear.intact.off_free hclear.free hrule)
      hbefore hbehind⟩

end Elimination

end JointDecision

import JointDecision.Proofs.FactorGraph.Incidence
import JointDecision.Proofs.MaxPlus.Anytime
import JointDecision.Proofs.MaxPlus.Message

/-! # What a variable is told in a forest

Hang a forest up at a variable. What the variable has been told after some sweeps is, level by level
and up to a constant, the best that the tables further down can add to its value. Once every level
has been passed, this is the best that all tables hanging on the variable can reach. -/

namespace JointDecision.MaxPlus

open FactorGraph

section Sums

variable {space : Space} {graph : FactorGraph (List Rat)}

def valueOf (space : Space) (graph : FactorGraph (List Rat)) (handle : Handle) (x : Valuation) :
    Rat :=
  match graph.factor? handle with
  | some factor => factorValue space factor x
  | none => 0

theorem valueOf_eq {handle : Handle} {factor : Factor (List Rat)}
    (hfactor : graph.factor? handle = some factor) :
    valueOf space graph handle = factorValue space factor := by
  funext x
  rw [valueOf, hfactor]

theorem valueOf_congr {handle : Handle} {x y : Valuation}
    (h : ∀ key ∈ graph.scopeOf handle, x key = y key) :
    valueOf space graph handle x = valueOf space graph handle y := by
  cases hfactor : graph.factor? handle with
  | none => rw [valueOf, valueOf, hfactor]
  | some factor =>
    rw [valueOf_eq hfactor]
    exact factorValue_congr fun key hkey => h key (mem_scopeOf.2 ⟨factor, hfactor, hkey⟩)

theorem tableSum_eq (x : Valuation) :
    tableSum space graph x = ∑ handle ∈ graph.handles, valueOf space graph handle x := by
  have hnodup : (graph.factors.map Prod.fst).Nodup := by
    refine (List.nodup_map_iff_inj_on (nodup_factors graph)).2 ?_
    intro a ha b hb hsame
    exact eq_of_mem_factors ha hb hsame
  rw [handles, List.sum_toFinset _ hnodup, List.map_map, tableSum]
  congr 1
  refine List.map_congr_left fun entry hentry => ?_
  rw [Function.comp, valueOf_eq (mem_factors.1 hentry)]

private theorem sum_neighbors (hsound : graph.Sound) {key : Nat} (hkey : key < graph.varCount)
    (term : Handle → Rat) :
    ((graph.neighbors key).map term).sum = ∑ handle ∈ graph.around key, term handle := by
  have hset : graph.around key = (graph.neighbors key).toFinset := by
    ext handle
    rw [mem_around, List.mem_toFinset, hsound.adjacent key hkey, mem_scopeOf]
  rw [hset, List.sum_toFinset _ (hsound.nodup_neighbors hkey)]

end Sums

section Messages

variable {space : Space} {graph : FactorGraph (List Rat)}

def toldAfter (space : Space) (graph : FactorGraph (List Rat)) (sweeps : Nat) (handle : Handle)
    (key value : Nat) : Rat :=
  told graph ((networkOf space graph).inboxes sweeps) handle key value

/-- What a factor makes of a valuation for one variable of its scope: its own payoff, and what the
other variables have been told by the other factors. -/
def reply (space : Space) (graph : FactorGraph (List Rat)) (sweeps : Nat) (handle : Handle)
    (head : Nat) (x : Valuation) : Rat :=
  valueOf space graph handle x +
    ∑ key ∈ (graph.scopeOf handle).erase head, ∑ other ∈ (graph.around key).erase handle,
      toldAfter space graph sweeps other key (x key)

private theorem reply_congr {sweeps : Nat} {handle : Handle} {head : Nat} {x y : Valuation}
    (h : ∀ key ∈ graph.scopeOf handle, x key = y key) :
    reply space graph sweeps handle head x = reply space graph sweeps handle head y := by
  rw [reply, reply, valueOf_congr h, add_right_inj]
  refine Finset.sum_congr rfl fun key hkey => ?_
  rw [h key (Finset.mem_of_mem_erase hkey)]

theorem belief_eq_sum (hsound : graph.Sound) (hcount : graph.varCount = space.length)
    (sweeps : Nat) {key value : Nat} (hkey : key < space.length)
    (hvalue : value < space.domain key) :
    belief ((networkOf space graph).inboxes sweeps) key value =
      ∑ handle ∈ graph.around key, toldAfter space graph sweeps handle key value := by
  rw [belief_inboxes hsound hcount sweeps hkey hvalue, sum_neighbors hsound (hcount ▸ hkey)]
  rfl

private theorem elsewhere_eq_sum (hsound : graph.Sound) (hcount : graph.varCount = space.length)
    (sweeps : Nat) {handle : Handle} {key value : Nat} (hin : key ∈ graph.scopeOf handle)
    (hkey : key < space.length) (hvalue : value < space.domain key) :
    elsewhere graph ((networkOf space graph).inboxes sweeps) handle key value =
      ∑ other ∈ (graph.around key).erase handle, toldAfter space graph sweeps other key value := by
  rw [elsewhere, belief_eq_sum hsound hcount sweeps hkey hvalue,
    Finset.sum_erase_eq_sub (mem_around.2 hin)]
  rfl

private theorem offer_eq_reply (hsound : graph.Sound) (hcount : graph.varCount = space.length)
    (sweeps : Nat) {entry : Handle × Factor (List Rat)} (hentry : entry ∈ graph.factors)
    {key : Nat} (hkey : key ∈ entry.2.scope.keys) {x : Valuation} (hx : space.Respects x) :
    offer space graph ((networkOf space graph).inboxes sweeps) entry key x =
      reply space graph sweeps entry.1 key x := by
  have hfactor := mem_factors.1 hentry
  have hscope : graph.scopeOf entry.1 = entry.2.scope.keys.toFinset := by
    rw [scopeOf, hfactor]
  have hin : key ∈ graph.scopeOf entry.1 := mem_scopeOf.2 ⟨entry.2, hfactor, hkey⟩
  rw [offer, reply, valueOf_eq hfactor, ← List.sum_toFinset _ entry.2.scope.nodup, ← hscope,
    add_sub_assoc, ← Finset.sum_erase_eq_sub hin, add_right_inj]
  refine Finset.sum_congr rfl fun other hother => ?_
  have hmem := Finset.mem_of_mem_erase hother
  have hlt : other < space.length := by
    rw [hscope, List.mem_toFinset] at hmem
    exact scope_lt hsound hcount hentry other hmem
  exact elsewhere_eq_sum hsound hcount sweeps hmem hlt (hx other hlt)

/-- One more sweep: up to a constant, a factor tells a variable its best reply. -/
theorem toldAfter_succ (hspace : space.Inhabited) (hsound : graph.Sound)
    (hcount : graph.varCount = space.length) (htabled : Tabled space graph) (sweeps : Nat)
    {handle : Handle} {key : Nat} (hkey : key ∈ graph.scopeOf handle) :
    ∃ mean, (∀ x, space.Respects x → reply space graph sweeps handle key x - mean ≤
        toldAfter space graph (sweeps + 1) handle key (x key)) ∧
      ∀ value < space.domain key, ∃ x, space.Respects x ∧ x key = value ∧
        toldAfter space graph (sweeps + 1) handle key value =
          reply space graph sweeps handle key x - mean := by
  obtain ⟨factor, hfactor, hin⟩ := mem_scopeOf.1 hkey
  have hentry : (handle, factor) ∈ graph.factors := mem_factors.2 hfactor
  obtain ⟨mean, hupper, hreached⟩ := told_sweep hspace hsound hcount htabled
    ((networkOf space graph).inboxes sweeps) hentry hin
  refine ⟨mean, ?_, ?_⟩
  · intro x hx
    rw [← offer_eq_reply hsound hcount sweeps hentry hin hx]
    exact hupper x hx
  · intro value hvalue
    obtain ⟨x, hx, hequal, htold⟩ := hreached value hvalue
    refine ⟨x, hx, hequal, ?_⟩
    rw [← offer_eq_reply hsound hcount sweeps hentry hin hx]
    exact htold

end Messages

section Levels

variable {space : Space} {graph : FactorGraph (List Rat)} {root : Nat} {reached : Finset Handle}
  {level head : Handle → Nat}

/-- The tables above a level, and what the factors on the level have told their heads. -/
def layered (space : Space) (graph : FactorGraph (List Rat)) (reached : Finset Handle)
    (level head : Handle → Nat) (depth sweeps : Nat) (x : Valuation) : Rat :=
  ∑ handle ∈ reached with level handle < depth, valueOf space graph handle x +
    ∑ handle ∈ reached with level handle = depth,
      toldAfter space graph sweeps handle (head handle) (x (head handle))

/-- The level below, seen from the level: the tables above, and the replies on the level. -/
theorem layered_succ (h : graph.Hung root reached level head) (depth sweeps : Nat)
    (x : Valuation) :
    layered space graph reached level head (depth + 1) sweeps x =
      ∑ handle ∈ reached with level handle < depth, valueOf space graph handle x +
        ∑ handle ∈ reached with level handle = depth,
          reply space graph sweeps handle (head handle) x := by
  have hsplit : reached.filter (fun handle => level handle < depth + 1) =
      reached.filter (fun handle => level handle < depth) ∪
        reached.filter fun handle => level handle = depth := by
    ext handle
    simp only [Finset.mem_union, Finset.mem_filter, ← and_or_left]
    refine and_congr_right fun _ => ?_
    omega
  have hdisjoint : Disjoint (reached.filter fun handle => level handle < depth)
      (reached.filter fun handle => level handle = depth) := by
    rw [Finset.disjoint_left]
    intro handle hlt hequal
    have hlt := (Finset.mem_filter.1 hlt).2
    have hequal := (Finset.mem_filter.1 hequal).2
    omega
  have hbelow := h.sum_level_succ
    (fun lower key => toldAfter space graph sweeps lower key (x key)) depth
  rw [layered, hsplit, Finset.sum_union hdisjoint, hbelow, add_assoc,
    ← Finset.sum_add_distrib]
  rfl

/-- Going down one level costs one sweep and a constant. -/
theorem layered_step (hspace : space.Inhabited) (hsound : graph.Sound)
    (hcount : graph.varCount = space.length) (htabled : Tabled space graph)
    (h : graph.Hung root reached level head) (depth sweeps : Nat) :
    ∃ shift, (∀ x, space.Respects x →
        layered space graph reached level head (depth + 1) sweeps x - shift ≤
          layered space graph reached level head depth (sweeps + 1) x) ∧
      ∀ x, space.Respects x → ∃ y, space.Respects y ∧ y root = x root ∧
        layered space graph reached level head depth (sweeps + 1) x =
          layered space graph reached level head (depth + 1) sweeps y - shift := by
  have hmeans := fun handle hin =>
    toldAfter_succ hspace hsound hcount htabled sweeps (h.head_mem handle hin)
  choose! mean hmean using hmeans
  have hshift : ∀ x : Valuation,
      layered space graph reached level head (depth + 1) sweeps x -
          ∑ handle ∈ reached with level handle = depth, mean handle =
        ∑ handle ∈ reached with level handle < depth, valueOf space graph handle x +
          ∑ handle ∈ reached with level handle = depth,
            (reply space graph sweeps handle (head handle) x - mean handle) := by
    intro x
    rw [layered_succ h, Finset.sum_sub_distrib, add_sub_assoc]
  refine ⟨∑ handle ∈ reached with level handle = depth, mean handle, ?_, ?_⟩
  · intro x hx
    rw [hshift, layered]
    apply add_le_add_right
    apply Finset.sum_le_sum
    intro handle hhandle
    exact (hmean handle (Finset.mem_filter.1 hhandle).1).1 x hx
  · intro x hx
    have hchoices : ∀ handle ∈ reached, ∃ choice : Valuation, space.Respects choice ∧
        choice (head handle) = x (head handle) ∧
        toldAfter space graph (sweeps + 1) handle (head handle) (x (head handle)) =
          reply space graph sweeps handle (head handle) choice - mean handle := by
      intro handle hin
      obtain ⟨factor, hfactor, hkey⟩ := mem_scopeOf.1 (h.head_mem handle hin)
      have hlt := scope_lt hsound hcount (mem_factors.2 hfactor) _ hkey
      exact (hmean handle hin).2 _ (hx _ hlt)
    choose! choice hchoice using hchoices
    obtain ⟨y, hfrom, hlevel, habove, hroot⟩ := h.exists_glue x choice depth
      fun handle hin _ => (hchoice handle hin).2.1
    refine ⟨y, ?_, hroot, ?_⟩
    · intro key hkey
      rcases hfrom key with hsame | ⟨handle, hin, -, hsame⟩
      · rw [hsame]
        exact hx key hkey
      · rw [hsame]
        exact (hchoice handle hin).1 key hkey
    · rw [hshift, layered]
      apply congrArg₂
      · refine Finset.sum_congr rfl fun handle hhandle => ?_
        obtain ⟨hin, hlt⟩ := Finset.mem_filter.1 hhandle
        exact valueOf_congr fun key hkey => (habove handle hin hlt key hkey).symm
      · refine Finset.sum_congr rfl fun handle hhandle => ?_
        obtain ⟨hin, hdepth⟩ := Finset.mem_filter.1 hhandle
        rw [(hchoice handle hin).2.2, reply_congr (hlevel handle hin hdepth)]

private theorem layered_descend (hspace : space.Inhabited) (hsound : graph.Sound)
    (hcount : graph.varCount = space.length) (htabled : Tabled space graph)
    (h : graph.Hung root reached level head) (depth sweeps : Nat) :
    ∃ shift, (∀ x, space.Respects x →
        layered space graph reached level head depth sweeps x - shift ≤
          layered space graph reached level head 0 (depth + sweeps) x) ∧
      ∀ x, space.Respects x → ∃ y, space.Respects y ∧ y root = x root ∧
        layered space graph reached level head 0 (depth + sweeps) x =
          layered space graph reached level head depth sweeps y - shift := by
  induction depth generalizing sweeps with
  | zero =>
    rw [Nat.zero_add]
    refine ⟨0, fun x _ => by rw [sub_zero], fun x hx => ⟨x, hx, rfl, by rw [sub_zero]⟩⟩
  | succ depth ih =>
    obtain ⟨first, hfirst, hreached⟩ := ih (sweeps + 1)
    obtain ⟨last, hlast, hattained⟩ := layered_step hspace hsound hcount htabled h depth sweeps
    have hsweeps : depth + 1 + sweeps = depth + (sweeps + 1) := by omega
    rw [hsweeps]
    refine ⟨last + first, ?_, ?_⟩
    · intro x hx
      rw [← sub_sub]
      exact (sub_le_sub_right (hlast x hx) first).trans (hfirst x hx)
    · intro x hx
      obtain ⟨y, hy, hyroot, hyvalue⟩ := hreached x hx
      obtain ⟨z, hz, hzroot, hzvalue⟩ := hattained y hy
      refine ⟨z, hz, hzroot.trans hyroot, ?_⟩
      rw [hyvalue, hzvalue, sub_sub]

private theorem layered_zero (hsound : graph.Sound) (hcount : graph.varCount = space.length)
    (h : graph.Hung root reached level head) (sweeps : Nat) (hroot : root < space.length)
    {x : Valuation} (hx : space.Respects x) :
    layered space graph reached level head 0 sweeps x =
      belief ((networkOf space graph).inboxes sweeps) root (x root) := by
  have hfirst : reached.filter (fun handle => level handle = 0) = graph.around root := by
    ext handle
    rw [Finset.mem_filter, h.around_root]
    exact and_congr_right fun hin => h.level_zero handle hin
  have habove : reached.filter (fun handle => level handle < 0) = ∅ := by
    rw [Finset.filter_eq_empty_iff]
    intro handle _
    omega
  rw [layered, hfirst, habove, Finset.sum_empty, zero_add,
    belief_eq_sum hsound hcount sweeps hroot (hx root hroot)]
  refine Finset.sum_congr rfl fun handle hhandle => ?_
  rw [((h.around_root handle).1 hhandle).2]

/-- Below all levels there are only tables. -/
theorem layered_of_card_le (h : graph.Hung root reached level head) {depth : Nat}
    (hdepth : reached.card ≤ depth) (sweeps : Nat) (x : Valuation) :
    layered space graph reached level head depth sweeps x =
      ∑ handle ∈ reached, valueOf space graph handle x := by
  have hall : reached.filter (fun handle => level handle < depth) = reached := by
    rw [Finset.filter_eq_self]
    intro handle hin
    exact (h.level_lt_card hin).trans_le hdepth
  have hnone : reached.filter (fun handle => level handle = depth) = ∅ := by
    rw [Finset.filter_eq_empty_iff]
    intro handle hin hequal
    have hlt := h.level_lt_card hin
    omega
  rw [layered, hall, hnone, Finset.sum_empty, add_zero]

/-- After as many sweeps as there are factors, the belief in a value of the root is, up to a
constant, the best that the tables hanging on the root can reach with it. -/
theorem belief_of_card_le (hspace : space.Inhabited) (hsound : graph.Sound)
    (hcount : graph.varCount = space.length) (htabled : Tabled space graph)
    (h : graph.Hung root reached level head) (hroot : root < space.length) {sweeps : Nat}
    (hsweeps : reached.card ≤ sweeps) :
    ∃ shift, (∀ x, space.Respects x →
        ∑ handle ∈ reached, valueOf space graph handle x - shift ≤
          belief ((networkOf space graph).inboxes sweeps) root (x root)) ∧
      ∀ x, space.Respects x → ∃ y, space.Respects y ∧ y root = x root ∧
        belief ((networkOf space graph).inboxes sweeps) root (x root) =
          ∑ handle ∈ reached, valueOf space graph handle y - shift := by
  obtain ⟨shift, hupper, hattained⟩ :=
    layered_descend hspace hsound hcount htabled h sweeps 0
  rw [Nat.add_zero] at hupper hattained
  refine ⟨shift, ?_, ?_⟩
  · intro x hx
    rw [← layered_of_card_le h hsweeps 0 x, ← layered_zero hsound hcount h sweeps hroot hx]
    exact hupper x hx
  · intro x hx
    obtain ⟨y, hy, hsame, hvalue⟩ := hattained x hx
    refine ⟨y, hy, hsame, ?_⟩
    rw [← layered_of_card_le h hsweeps 0 y, ← layered_zero hsound hcount h sweeps hroot hx]
    exact hvalue

end Levels

end JointDecision.MaxPlus

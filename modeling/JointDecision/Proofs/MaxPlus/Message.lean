import JointDecision.Proofs.MaxPlus.Network

/-! # What messages say

After a sweep, a factor has told each variable of its scope, up to a constant, the best it can make
of every value of the variable together with what the other variables have heard elsewhere. -/

namespace JointDecision.MaxPlus

open FactorGraph MixedRadix

theorem size_bestMessages {α : Type} [Payoff α] (appraisals : List (List Nat × List α × α))
    (position width : Nat) :
    (Station.bestMessages appraisals position width).size = width := by
  rw [Station.bestMessages, Array.size_map]
  refine List.foldlRecOn (motive := fun (best : Array (Option α)) => best.size = width)
    appraisals _ Array.size_replicate ?_
  intro best hbest appraisal _
  rw [Array.size_modify, hbest]

def BestOf (offers : List Rat) (held : Option Rat) : Prop :=
  match held with
  | none => offers = []
  | some best => best ∈ offers ∧ ∀ offer ∈ offers, offer ≤ best

theorem BestOf.raise {offers : List Rat} {held : Option Rat} (h : BestOf offers held)
    (offer : Rat) : BestOf (offers ++ [offer]) (Payoff.raise held offer) := by
  cases held with
  | none =>
    have hnil : offers = [] := h
    rw [hnil]
    simp [Payoff.raise, BestOf]
  | some best =>
    obtain ⟨hin, hbest⟩ := h
    by_cases hlt : best < offer
    · simp only [Payoff.raise, Payoff.beats_some_rat, hlt, decide_true, if_true, BestOf]
      constructor
      · simp
      · intro other hother
        rcases List.mem_append.1 hother with hother | hother
        · exact (hbest other hother).trans hlt.le
        · exact (List.mem_singleton.1 hother).le
    · simp only [Payoff.raise, Payoff.beats_some_rat, hlt, decide_false, Bool.false_eq_true,
        if_false, BestOf]
      constructor
      · exact List.mem_append_left _ hin
      · intro other hother
        rcases List.mem_append.1 hother with hother | hother
        · exact hbest other hother
        · rw [List.mem_singleton.1 hother]
          exact not_lt.1 hlt

def offersFor (appraisals : List (List Nat × List Rat × Rat)) (position value : Nat) : List Rat :=
  (appraisals.filter fun appraisal => appraisal.1.getD position 0 = value).map fun appraisal =>
    appraisal.2.2 - appraisal.2.1.getD position 0

private theorem foldl_raise_spec (appraisals : List (List Nat × List Rat × Rat)) (position : Nat)
    {width value : Nat} (hvalue : value < width) :
    ∃ held, (appraisals.foldl
        (fun best (joint, heard, combined) =>
          best.modify (joint.getD position 0) fun held =>
            Payoff.raise held (combined - heard.getD position Payoff.zero))
        (Array.replicate width none))[value]? = some held ∧
      BestOf (offersFor appraisals position value) held := by
  induction appraisals using List.reverseRecOn with
  | nil => exact ⟨none, by simp [hvalue], rfl⟩
  | append_singleton appraisals appraisal ih =>
    obtain ⟨held, hheld, hbest⟩ := ih
    rw [List.foldl_append, List.foldl_cons, List.foldl_nil, Array.getElem?_modify, hheld]
    by_cases heq : appraisal.1.getD position 0 = value
    · refine ⟨_, by rw [if_pos heq, Option.map_some], ?_⟩
      have hoffers : offersFor (appraisals ++ [appraisal]) position value =
          offersFor appraisals position value ++
            [appraisal.2.2 - appraisal.2.1.getD position 0] := by
        rw [offersFor, List.filter_append, List.map_append, List.filter_singleton,
          decide_eq_true heq]
        rfl
      rw [hoffers]
      exact hbest.raise _
    · refine ⟨held, by rw [if_neg heq], ?_⟩
      have hoffers : offersFor (appraisals ++ [appraisal]) position value =
          offersFor appraisals position value := by
        rw [offersFor, List.filter_append, List.map_append, List.filter_singleton,
          decide_eq_false heq]
        exact List.append_nil _
      rw [hoffers]
      exact hbest

/-- A message says, up to its mean, the best that is offered for each value. -/
theorem centered_bestMessages (appraisals : List (List Nat × List Rat × Rat))
    (position width : Nat) :
    ∃ mean, ∀ value < width, offersFor appraisals position value ≠ [] →
      ∃ best, best ∈ offersFor appraisals position value ∧
        (∀ offer ∈ offersFor appraisals position value, offer ≤ best) ∧
        (centered (Station.bestMessages appraisals position width)).getD value 0 = best - mean := by
  refine ⟨Payoff.share (Payoff.total
    (Station.bestMessages appraisals position width).toList)
    (Station.bestMessages appraisals position width).size, fun value hvalue hoffers => ?_⟩
  obtain ⟨held, hheld, hbest⟩ := foldl_raise_spec appraisals position hvalue
  cases held with
  | none => exact absurd hbest hoffers
  | some best =>
    refine ⟨best, hbest.1, hbest.2, ?_⟩
    have hmessage : (Station.bestMessages appraisals position width)[value]? = some best := by
      rw [Station.bestMessages, Array.getElem?_map, hheld]
      rfl
    rw [centered, Array.getD_eq_getD_getElem?, Array.getElem?_map, hmessage]
    rfl

theorem zip_map_self {β γ : Type} (list : List β) (f : β → γ) :
    list.zip (list.map f) = list.map fun b => (b, f b) := by
  simpa using @List.zip_map' β β γ id f list

def rowOf {δ : Type} (graph : FactorGraph δ) (handle : Handle) (key : Nat) : Nat :=
  ((graph.neighbors key).idxOf? handle).getD 0

def told {δ : Type} (graph : FactorGraph δ) (inboxes : Array (Inbox Rat)) (handle : Handle)
    (key value : Nat) : Rat :=
  ((inboxes.getD key (.blank 0 0)).rows.getD (rowOf graph handle key) #[]).getD value 0

def belief (inboxes : Array (Inbox Rat)) (key value : Nat) : Rat :=
  (inboxes.getD key (.blank 0 0)).sum.getD value 0

theorem told_of_inbox {δ : Type} {graph : FactorGraph δ} {inboxes : Array (Inbox Rat)}
    {key : Nat} {inbox : Inbox Rat} (h : inboxes[key]? = some inbox) (handle : Handle)
    (value : Nat) :
    told graph inboxes handle key value =
      (inbox.rows.getD (rowOf graph handle key) #[]).getD value 0 := by
  have hget : inboxes.getD key (.blank 0 0) = inbox := by
    rw [Array.getD_eq_getD_getElem?, h, Option.getD_some]
  rw [told, hget]

theorem belief_of_inbox {inboxes : Array (Inbox Rat)} {key : Nat} {inbox : Inbox Rat}
    (h : inboxes[key]? = some inbox) (value : Nat) :
    belief inboxes key value = inbox.sum.getD value 0 := by
  have hget : inboxes.getD key (.blank 0 0) = inbox := by
    rw [Array.getD_eq_getD_getElem?, h, Option.getD_some]
  rw [belief, hget]

/-- What a variable has been told about one of its values by all factors but one. -/
def elsewhere {δ : Type} (graph : FactorGraph δ) (inboxes : Array (Inbox Rat)) (handle : Handle)
    (key value : Nat) : Rat :=
  belief inboxes key value - told graph inboxes handle key value

/-- What a factor offers a variable in a valuation: its own payoff, and what the other variables of
its scope have been told elsewhere. -/
def offer (space : Space) (graph : FactorGraph (List Rat)) (inboxes : Array (Inbox Rat))
    (entry : Handle × Factor (List Rat)) (key : Nat) (x : Valuation) : Rat :=
  factorValue space entry.2 x +
    (entry.2.scope.keys.map fun other => elsewhere graph inboxes entry.1 other (x other)).sum -
    elsewhere graph inboxes entry.1 key (x key)

section Offers

variable {space : Space} {graph : FactorGraph (List Rat)} {inboxes : Array (Inbox Rat)}
  {entry : Handle × Factor (List Rat)}

private theorem heard_eq (x : Valuation) :
    (stationOf space graph entry).heard inboxes (entry.2.scope.keys.map x) =
      entry.2.scope.keys.map fun key => elsewhere graph inboxes entry.1 key (x key) := by
  rw [Station.heard, stationOf, List.zip_map', zip_map_self, List.map_map]
  refine List.map_congr_left fun key _ => ?_
  simp only [Function.comp, elsewhere, belief, told, rowOf, Array.getD_eq_getD_getElem?]
  cases inboxes[key]? with
  | none => simp [Inbox.blank]
  | some inbox => simp [Inbox.excluding, Array.getD_eq_getD_getElem?]

/-- In the order of the joint values, the table has what each of them selects. -/
theorem zip_table {radix : List Nat} {joints : List (List Nat)} (hjoints : Enumerates radix joints)
    {table : List Rat} (htable : table.length = volume radix) :
    joints.zip table = joints.map fun joint => (joint, table.getD (index radix joint) 0) := by
  have hlength := hjoints.length_eq
  refine List.ext_getElem (by simp [htable, hlength]) fun i hi hj => ?_
  rw [List.length_map] at hj
  have hindex : index radix joints[i] = i := by
    have hget := congrArg (·[i]?) hjoints.indices
    simp only [List.getElem?_map, List.getElem?_eq_getElem hj, Option.map_some] at hget
    rw [List.getElem?_range (hlength ▸ hj)] at hget
    exact Option.some.inj hget
  have hi : i < table.length := by omega
  simp [hindex, hi]

private theorem appraisals_eq {joints : List (List Nat)}
    (hsome : space.jointValues? entry.2.scope.keys = some joints)
    (hjoints : Enumerates (entry.2.scope.keys.map space.domain) joints)
    (htable : entry.2.data.length = volume (entry.2.scope.keys.map space.domain)) :
    (stationOf space graph entry).appraisals inboxes = joints.map fun joint =>
      (joint, (stationOf space graph entry).heard inboxes joint,
        entry.2.data.getD (index (entry.2.scope.keys.map space.domain) joint) 0 +
          ((stationOf space graph entry).heard inboxes joint).sum) := by
  have hstation : (stationOf space graph entry).joints.zip (stationOf space graph entry).table =
      joints.map fun joint => (joint,
        entry.2.data.getD (index (entry.2.scope.keys.map space.domain) joint) 0) := by
    rw [← zip_table hjoints htable]
    simp [stationOf, hsome]
  rw [Station.appraisals, hstation, List.map_map]
  simp only [Payoff.total_rat]
  rfl

private theorem mem_offersFor (hspace : space.Inhabited)
    (hkeys : ∀ key ∈ entry.2.scope.keys, key < space.length)
    (htable : entry.2.data.length = volume (entry.2.scope.keys.map space.domain))
    {key position value : Nat} (hposition : entry.2.scope.keys[position]? = some key)
    {payoff : Rat} :
    payoff ∈ offersFor ((stationOf space graph entry).appraisals inboxes) position value ↔
      ∃ x, space.Respects x ∧ x key = value ∧ offer space graph inboxes entry key x = payoff := by
  obtain ⟨joints, hsome, hjoints⟩ := Space.jointValues?_eq hkeys
  have hread : ∀ x : Valuation, (entry.2.scope.keys.map x).getD position 0 = x key := by
    intro x
    simp [hposition]
  have hheard : ∀ x : Valuation, (entry.2.scope.keys.map fun other =>
      elsewhere graph inboxes entry.1 other (x other)).getD position 0 =
        elsewhere graph inboxes entry.1 key (x key) := by
    intro x
    simp [hposition]
  rw [offersFor, appraisals_eq hsome hjoints htable, List.mem_map]
  constructor
  · intro h
    obtain ⟨appraisal, hin, rfl⟩ := h
    obtain ⟨hin, hcoordinate⟩ := List.mem_filter.1 hin
    obtain ⟨joint, hjoint, rfl⟩ := List.mem_map.1 hin
    have hdigits := hjoints.digits joint hjoint
    have hmap := map_overlay entry.2.scope.nodup (by simpa using hdigits.length_eq)
    have hrespects := respects_overlay hspace hdigits
    generalize overlay entry.2.scope.keys joint = x at hmap hrespects
    subst hmap
    rw [decide_eq_true_eq, hread] at hcoordinate
    refine ⟨x, hrespects, hcoordinate, ?_⟩
    simp only [heard_eq, hheard, offer, factorValue]
  · intro h
    obtain ⟨x, hx, hvalue, rfl⟩ := h
    have hmem := hjoints.mem_iff.2 (digits_map hx hkeys)
    refine ⟨_, List.mem_filter.2 ⟨List.mem_map_of_mem hmem, ?_⟩, ?_⟩
    · rw [decide_eq_true_eq, hread, hvalue]
    · simp only [heard_eq, hheard, offer, factorValue]

end Offers

/-- A letter stays in its row unless another letter overwrites it with something else. -/
theorem foldl_setIfInBounds {α : Type} {letters : List (Letter α)} {letter : Letter α}
    (hsame : ∀ other ∈ letters, other.row = letter.row → other.message = letter.message)
    {rows : Array (Array α)} (hrow : letter.row < rows.size)
    (hin : letter ∈ letters ∨ rows[letter.row]? = some letter.message) :
    (letters.foldl (fun rows letter => rows.setIfInBounds letter.row letter.message)
      rows)[letter.row]? = some letter.message := by
  induction letters generalizing rows with
  | nil => exact hin.resolve_left List.not_mem_nil
  | cons first letters ih =>
    rw [List.foldl_cons]
    apply ih
    · exact fun other hother => hsame other (List.mem_cons_of_mem _ hother)
    · rw [Array.size_setIfInBounds]
      exact hrow
    · by_cases heq : first.row = letter.row
      · apply Or.inr
        rw [heq, Array.getElem?_setIfInBounds_self_of_lt hrow, hsame first List.mem_cons_self heq]
      · rcases hin with hin | hin
        · rcases List.mem_cons.1 hin with rfl | hin
          · exact absurd rfl heq
          · exact .inl hin
        · apply Or.inr
          rw [Array.getElem?_setIfInBounds_ne heq]
          exact hin

theorem letters_eq {α : Type} [Payoff α] {space : Space} {graph : FactorGraph (List α)}
    {inboxes : Array (Inbox α)} {entry : Handle × Factor (List α)} :
    (stationOf space graph entry).letters inboxes = entry.2.scope.keys.mapIdx fun position key =>
      ⟨key, rowOf graph entry.1 key, centered (Station.bestMessages
        ((stationOf space graph entry).appraisals inboxes) position (space.domain key))⟩ := by
  have hzip : (stationOf space graph entry).scope.zip
      ((stationOf space graph entry).rows.zip (stationOf space graph entry).radix) =
        entry.2.scope.keys.map fun key => (key, rowOf graph entry.1 key, space.domain key) := by
    rw [stationOf, List.zip_map', zip_map_self]
    rfl
  rw [Station.letters, hzip, List.mapIdx_eq_zipIdx_map, List.mapIdx_eq_zipIdx_map, List.zipIdx_map,
    List.map_map]
  rfl

theorem mem_letters {α : Type} [Payoff α] {space : Space} {graph : FactorGraph (List α)}
    {inboxes : Array (Inbox α)} {entry : Handle × Factor (List α)} {letter : Letter α} :
    letter ∈ (stationOf space graph entry).letters inboxes ↔
      ∃ position key, entry.2.scope.keys[position]? = some key ∧
        letter = ⟨key, rowOf graph entry.1 key, centered (Station.bestMessages
          ((stationOf space graph entry).appraisals inboxes) position (space.domain key))⟩ := by
  rw [letters_eq, List.mem_mapIdx]
  constructor
  · intro h
    obtain ⟨position, hposition, rfl⟩ := h
    exact ⟨position, entry.2.scope.keys[position], List.getElem?_eq_getElem hposition, rfl⟩
  · intro h
    obtain ⟨position, key, hposition, rfl⟩ := h
    obtain ⟨hlt, rfl⟩ := List.getElem?_eq_some_iff.1 hposition
    exact ⟨position, hlt, rfl⟩

theorem getElem?_rowOf {δ : Type} {graph : FactorGraph δ} {handle : Handle} {key : Nat}
    (h : handle ∈ graph.neighbors key) :
    (graph.neighbors key)[rowOf graph handle key]? = some handle := by
  rw [rowOf]
  cases hrow : (graph.neighbors key).idxOf? handle with
  | none => exact absurd h (List.idxOf?_eq_none_iff.1 hrow)
  | some row =>
    obtain ⟨hlt, heq, -⟩ := List.findIdx?_eq_some_iff_getElem.1 hrow
    rw [Option.getD_some, List.getElem?_eq_getElem hlt]
    congr 1
    simpa using heq

theorem eq_of_rowOf_eq {δ : Type} {graph : FactorGraph δ} {key : Nat} {a b : Handle}
    (ha : a ∈ graph.neighbors key) (hb : b ∈ graph.neighbors key)
    (h : rowOf graph a key = rowOf graph b key) : a = b := by
  have hplace := getElem?_rowOf ha
  rw [h, getElem?_rowOf hb] at hplace
  exact (Option.some.inj hplace).symm

theorem mem_neighbors {α : Type} {space : Space} {graph : FactorGraph (List α)}
    (hsound : graph.Sound) (hcount : graph.varCount = space.length)
    {entry : Handle × Factor (List α)} (hentry : entry ∈ graph.factors) {key : Nat}
    (hkey : key ∈ entry.2.scope.keys) : entry.1 ∈ graph.neighbors key := by
  have hlt := scope_lt hsound hcount hentry key hkey
  rw [← hcount] at hlt
  exact (hsound.adjacent key hlt entry.1).2 ⟨entry.2, mem_factors.1 hentry, hkey⟩

section Rows

variable {α : Type} [Payoff α] {space : Space} {graph : FactorGraph (List α)}

omit [Payoff α] in
theorem rowOf_getElem (hsound : graph.Sound) {key : Nat} (hkey : key < graph.varCount) {i : Nat}
    (hi : i < (graph.neighbors key).length) : rowOf graph (graph.neighbors key)[i] key = i := by
  have hplace := getElem?_rowOf (List.getElem_mem hi)
  have hlt := (List.getElem?_eq_some_iff.1 hplace).1
  apply (List.getElem?_inj hlt (hsound.nodup_neighbors hkey)).1
  rw [hplace, List.getElem?_eq_getElem hi]

/-- No two letters of a sweep are for the same row. -/
theorem letters_unique (hsound : graph.Sound) (hcount : graph.varCount = space.length)
    {inboxes : Array (Inbox α)} {a b : Letter α}
    (ha : a ∈ (networkOf space graph).stations.flatMap (·.letters inboxes))
    (hb : b ∈ (networkOf space graph).stations.flatMap (·.letters inboxes))
    (hkey : a.key = b.key) (hrow : a.row = b.row) : a = b := by
  obtain ⟨station, hstation, ha⟩ := List.mem_flatMap.1 ha
  obtain ⟨entry, hentry, rfl⟩ := List.mem_map.1 hstation
  obtain ⟨other, hother, hb⟩ := List.mem_flatMap.1 hb
  obtain ⟨found, hfound, rfl⟩ := List.mem_map.1 hother
  obtain ⟨i, key, hi, rfl⟩ := mem_letters.1 ha
  obtain ⟨j, there, hj, rfl⟩ := mem_letters.1 hb
  dsimp only at hkey hrow
  subst hkey
  have hsame := eq_of_rowOf_eq (mem_neighbors hsound hcount hentry (List.mem_of_getElem? hi))
    (mem_neighbors hsound hcount hfound (List.mem_of_getElem? hj)) hrow
  obtain rfl : entry = found := eq_of_mem_factors hentry hfound hsame
  have hlt := (List.getElem?_eq_some_iff.1 hi).1
  obtain rfl : i = j := (List.getElem?_inj hlt entry.2.scope.nodup).1 (hi.trans hj.symm)
  rfl

/-- After a sweep a row has the message of its factor. -/
theorem rows_sweep (hsound : graph.Sound) (hcount : graph.varCount = space.length)
    (inboxes : Array (Inbox α)) {entry : Handle × Factor (List α)}
    (hentry : entry ∈ graph.factors) {position key : Nat}
    (hposition : entry.2.scope.keys[position]? = some key) :
    ∃ inbox, ((networkOf space graph).sweep inboxes)[key]? = some inbox ∧
      inbox.rows[rowOf graph entry.1 key]? =
        some (centered (Station.bestMessages ((stationOf space graph entry).appraisals inboxes)
          position (space.domain key))) := by
  have hin := List.mem_of_getElem? hposition
  have hkey := scope_lt hsound hcount hentry key hin
  refine ⟨_, getElem?_sweep inboxes hkey, ?_⟩
  generalize hmessage : centered (Station.bestMessages
    ((stationOf space graph entry).appraisals inboxes) position (space.domain key)) = message
  have hmem : ⟨key, rowOf graph entry.1 key, message⟩ ∈
      (networkOf space graph).stations.flatMap (·.letters inboxes) := by
    rw [List.mem_flatMap]
    refine ⟨_, List.mem_map_of_mem hentry, mem_letters.2 ⟨position, key, hposition, ?_⟩⟩
    rw [hmessage]
  have hrow : rowOf graph entry.1 key < (Inbox.blank (graph.neighbors key).length
      (space.domain key) : Inbox α).rows.size := by
    have hplace := getElem?_rowOf (mem_neighbors hsound hcount hentry hin)
    simpa [Inbox.blank] using (List.getElem?_eq_some_iff.1 hplace).1
  refine @foldl_setIfInBounds α _ ⟨key, rowOf graph entry.1 key, message⟩ ?_ _ hrow (.inl ?_)
  · intro other hother hsame
    obtain ⟨hother, hthere⟩ := List.mem_filter.1 hother
    rw [letters_unique hsound hcount hother hmem (by simpa using hthere) hsame]
  · exact List.mem_filter.2 ⟨hmem, by simp⟩

end Rows

section Delivery

variable {space : Space} {graph : FactorGraph (List Rat)}

/-- After a sweep a factor has told a variable, up to a constant, the best offer for each value. -/
theorem told_sweep (hspace : space.Inhabited) (hsound : graph.Sound)
    (hcount : graph.varCount = space.length) (htabled : Tabled space graph)
    (inboxes : Array (Inbox Rat)) {entry : Handle × Factor (List Rat)}
    (hentry : entry ∈ graph.factors) {key : Nat} (hkey : key ∈ entry.2.scope.keys) :
    ∃ mean, (∀ x, space.Respects x → offer space graph inboxes entry key x - mean ≤
        told graph ((networkOf space graph).sweep inboxes) entry.1 key (x key)) ∧
      ∀ value < space.domain key, ∃ x, space.Respects x ∧ x key = value ∧
        told graph ((networkOf space graph).sweep inboxes) entry.1 key value =
          offer space graph inboxes entry key x - mean := by
  have hkeys := scope_lt hsound hcount hentry
  obtain ⟨position, hposition⟩ := List.mem_iff_getElem?.1 hkey
  obtain ⟨inbox, hinbox, hrow⟩ := rows_sweep hsound hcount inboxes hentry hposition
  obtain ⟨mean, hmean⟩ := centered_bestMessages
    ((stationOf space graph entry).appraisals inboxes) position (space.domain key)
  have hoffers := fun value payoff => @mem_offersFor space graph inboxes entry hspace hkeys
    (htabled.length_eq hentry) key position value hposition payoff
  have htold : ∀ value, told graph ((networkOf space graph).sweep inboxes) entry.1 key value =
      (centered (Station.bestMessages ((stationOf space graph entry).appraisals inboxes)
        position (space.domain key))).getD value 0 := by
    intro value
    have hget : inbox.rows.getD (rowOf graph entry.1 key) #[] = centered (Station.bestMessages
        ((stationOf space graph entry).appraisals inboxes) position (space.domain key)) := by
      rw [Array.getD_eq_getD_getElem?, hrow, Option.getD_some]
    rw [told_of_inbox hinbox, hget]
  have hbest : ∀ value < space.domain key, ∃ best,
      best ∈ offersFor ((stationOf space graph entry).appraisals inboxes) position value ∧
      (∀ payoff ∈ offersFor ((stationOf space graph entry).appraisals inboxes) position value,
        payoff ≤ best) ∧
      told graph ((networkOf space graph).sweep inboxes) entry.1 key value = best - mean := by
    intro value hvalue
    have hrespects := hspace.respects_zero.update hvalue
    have hmem := (hoffers value _).2 ⟨_, hrespects, Function.update_self .., rfl⟩
    obtain ⟨best, hin, hgreatest, hmessage⟩ := hmean value hvalue (List.ne_nil_of_mem hmem)
    exact ⟨best, hin, hgreatest, (htold value).trans hmessage⟩
  refine ⟨mean, ?_, ?_⟩
  · intro x hx
    obtain ⟨best, -, hgreatest, hmessage⟩ := hbest (x key) (hx key (hkeys key hkey))
    rw [hmessage]
    exact sub_le_sub_right (hgreatest _ ((hoffers _ _).2 ⟨x, hx, rfl, rfl⟩)) mean
  · intro value hvalue
    obtain ⟨best, hin, -, hmessage⟩ := hbest value hvalue
    obtain ⟨x, hx, heq, rfl⟩ := (hoffers _ _).1 hin
    exact ⟨x, hx, heq, hmessage⟩

/-- After a sweep an inbox has a row per factor and the sum of its rows. -/
theorem inbox_sweep (inboxes : Array (Inbox Rat)) {key : Nat} (hkey : key < space.length) :
    ∃ inbox, ((networkOf space graph).sweep inboxes)[key]? = some inbox ∧
      inbox.rows.size = (graph.neighbors key).length ∧
      inbox.sum.size = space.domain key ∧
      ∀ value < space.domain key,
        inbox.sum.getD value 0 = (inbox.rows.toList.map fun row => row.getD value 0).sum := by
  have hfold : ∀ (letters : List (Letter Rat)) (rows : Array (Array Rat)),
      (letters.foldl (fun rows letter => rows.setIfInBounds letter.row letter.message)
        rows).size = rows.size := by
    intro letters
    induction letters with
    | nil => intro rows; rfl
    | cons letter letters ih =>
      intro rows
      rw [List.foldl_cons, ih, Array.size_setIfInBounds]
  refine ⟨_, getElem?_sweep inboxes hkey, ?_, ?_, ?_⟩
  · simp only [Inbox.refresh, Inbox.collect, hfold]
    simp [Inbox.blank]
  · simp [Inbox.refresh, Inbox.collect, Inbox.blank]
  · intro value hvalue
    simp [Inbox.refresh, Inbox.collect, Inbox.blank, hvalue]

private theorem belief_sweep (hsound : graph.Sound) (hcount : graph.varCount = space.length)
    (inboxes : Array (Inbox Rat)) {key value : Nat} (hkey : key < space.length)
    (hvalue : value < space.domain key) :
    belief ((networkOf space graph).sweep inboxes) key value =
      ((graph.neighbors key).map fun handle =>
        told graph ((networkOf space graph).sweep inboxes) handle key value).sum := by
  obtain ⟨inbox, hinbox, hsize, -, hsum⟩ := @inbox_sweep space graph inboxes key hkey
  rw [belief_of_inbox hinbox, hsum value hvalue]
  congr 1
  refine List.ext_getElem (by simpa using hsize) fun i hi hj => ?_
  rw [List.length_map] at hj
  have hrow := rowOf_getElem hsound (hcount.symm ▸ hkey) hj
  rw [List.getElem_map, List.getElem_map, told_of_inbox hinbox, hrow]
  simp [hsize, hj]

theorem told_blank {key value : Nat} (hkey : key < space.length)
    (hvalue : value < space.domain key) (handle : Handle) :
    told graph (networkOf space graph).blank handle key value = 0 := by
  rw [told_of_inbox (@getElem?_blank Rat _ space graph key hkey)]
  by_cases hrow : rowOf graph handle key < (graph.neighbors key).length
  · simp [Inbox.blank, hrow, hvalue]
  · simp [Inbox.blank, hrow]

theorem belief_inboxes (hsound : graph.Sound) (hcount : graph.varCount = space.length)
    (sweeps : Nat) {key value : Nat} (hkey : key < space.length)
    (hvalue : value < space.domain key) :
    belief ((networkOf space graph).inboxes sweeps) key value =
      ((graph.neighbors key).map fun handle =>
        told graph ((networkOf space graph).inboxes sweeps) handle key value).sum := by
  cases sweeps with
  | zero =>
    simp only [Network.inboxes, told_blank hkey hvalue,
      belief_of_inbox (@getElem?_blank Rat _ space graph key hkey)]
    simp [Inbox.blank, hvalue]
  | succ sweeps => exact belief_sweep hsound hcount _ hkey hvalue

/-- The value of a candidate is the first that its variable believes in most. -/
theorem candidate_belief (hspace : space.Inhabited) (sweep : Nat) {key : Nat}
    (hkey : key < space.length) :
    (∀ value < space.domain key,
      belief ((networkOf space graph).inboxes (sweep + 1)) key value ≤
        belief ((networkOf space graph).inboxes (sweep + 1)) key
          (valuation ((networkOf space graph).candidate sweep) key)) ∧
    ∀ value < valuation ((networkOf space graph).candidate sweep) key,
      belief ((networkOf space graph).inboxes (sweep + 1)) key value <
        belief ((networkOf space graph).inboxes (sweep + 1)) key
          (valuation ((networkOf space graph).candidate sweep) key) := by
  obtain ⟨inbox, greatest, hinbox, hsize, hfirst⟩ :=
    @candidate_choice space graph hspace sweep key hkey
  have hbelief : ∀ {value payoff}, inbox.sum.toList[value]? = some payoff →
      belief ((networkOf space graph).inboxes (sweep + 1)) key value = payoff := by
    intro value payoff hget
    rw [belief_of_inbox hinbox, Array.getD_eq_getD_getElem?, ← Array.getElem?_toList, hget]
    rfl
  have hfound : ∀ value < space.domain key, ∃ payoff,
      inbox.sum.toList[value]? = some payoff := by
    intro value hvalue
    rw [← hsize, ← Array.length_toList] at hvalue
    exact ⟨_, List.getElem?_eq_getElem hvalue⟩
  have hlt := hfirst.position_lt
  rw [Array.length_toList, hsize] at hlt
  rw [hbelief hfirst.stands]
  constructor
  · intro value hvalue
    obtain ⟨payoff, hpayoff⟩ := hfound value hvalue
    rw [hbelief hpayoff]
    exact hfirst.greatest payoff (List.mem_of_getElem? hpayoff)
  · intro value hvalue
    obtain ⟨payoff, hpayoff⟩ := hfound value (hvalue.trans hlt)
    rw [hbelief hpayoff]
    exact hfirst.first value hvalue payoff hpayoff

end Delivery

end JointDecision.MaxPlus

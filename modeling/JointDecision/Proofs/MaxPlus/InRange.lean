import JointDecision.Proofs.MaxPlus.Contents

/-! # Max-plus stays in range

The solver checks a graph once, before the first sweep. Here every sweep looks at an index before it
uses it, and gives up on one that is out of range. On a graph that passed the check no sweep ever
gives up, so the solver, which does not look, computes the same. -/

namespace JointDecision.MaxPlus

open FactorGraph MixedRadix

variable {α : Type}

section Checked

variable [Payoff α]

namespace Inbox

def excluding? (inbox : Inbox α) (row value : Nat) : Option α := do
  let sum ← inbox.sum[value]?
  let message ← inbox.rows[row]?
  let told ← message[value]?
  return sum - told

def refresh? (inbox : Inbox α) : Option (Inbox α) := do
  let sums ← (List.range inbox.sum.size).mapM fun value =>
    (inbox.rows.toList.mapM fun row => row[value]?).map Payoff.total
  return { inbox with sum := sums.toArray }

def choice? (inbox : Inbox α) : Option Nat :=
  if inbox.choice < inbox.sum.size then some inbox.choice else none

end Inbox

def Letter.deliver? (inboxes : Array (Inbox α)) (letter : Letter α) :
    Option (Array (Inbox α)) := do
  let inbox ← inboxes[letter.key]?
  let row ← inbox.rows[letter.row]?
  if row.size = letter.message.size then some (Letter.deliver inboxes letter) else none

namespace Station

def heard? (station : Station α) (inboxes : Array (Inbox α)) (joint : List Nat) :
    Option (List α) :=
  (station.scope.zip (station.rows.zip joint)).mapM fun (key, row, value) =>
    (inboxes[key]?).bind fun inbox => inbox.excluding? row value

/-- `Station.appraisals` as a walk of an odometer beside a running index into the table, unless the
index leaves the table or the odometer has more than `limit` joint values left. -/
def appraisals? (station : Station α) (inboxes : Array (Inbox α)) :
    Nat → Odometer → Nat → Option (List (List Nat × List α × α))
  | 0, odometer, _ => if odometer.valid then none else some []
  | limit + 1, odometer, place =>
    if odometer.valid then do
      let heard ← station.heard? inboxes odometer.values
      let payoff ← station.table[place]?
      let later ← station.appraisals? inboxes limit odometer.advance (place + 1)
      return (odometer.values, heard, payoff + Payoff.total heard) :: later
    else some []

def improve? (position : Nat) (best : Array (Option α)) :
    List Nat × List α × α → Option (Array (Option α))
  | (joint, heard, combined) => do
    let value ← joint[position]?
    let own ← heard[position]?
    if value < best.size then
      some (best.modify value fun held => Payoff.raise held (combined - own))
    else none

def bestMessages? (appraisals : List (List Nat × List α × α)) (position width : Nat) :
    Option (Array α) := do
  let best ← appraisals.foldlM (improve? position) (Array.replicate width none)
  return best.map fun held => held.getD Payoff.bottom

def letters? (station : Station α) (inboxes : Array (Inbox α)) : Option (List (Letter α)) := do
  let appraisals ← station.appraisals? inboxes station.table.length
    (.start station.scope station.radix) 0
  (station.scope.zip (station.rows.zip station.radix)).zipIdx.mapM
    fun ((key, row, width), position) =>
      (bestMessages? appraisals position width).map fun message => ⟨key, row, centered message⟩

end Station

namespace Network

def sweep? (network : Network α) (inboxes : Array (Inbox α)) : Option (Array (Inbox α)) := do
  let letters ← network.stations.mapM fun station => station.letters? inboxes
  let delivered ← letters.flatten.foldlM Letter.deliver? network.blank
  let refreshed ← delivered.toList.mapM Inbox.refresh?
  return refreshed.toArray

def evaluate? (network : Network α) (full : List Nat) : Option α :=
  (network.stations.mapM fun station =>
    selected? network.space station.scope station.table full).map Payoff.total

def advance? (network : Network α) : Nat → Array (Inbox α) → Progress α → Option (Progress α)
  | 0, _, progress => some progress
  | sweeps + 1, inboxes, progress => do
    let inboxes ← network.sweep? inboxes
    let candidate ← inboxes.toList.mapM Inbox.choice?
    let payoff ← network.evaluate? candidate
    network.advance? sweeps inboxes (progress.offer ⟨candidate, payoff⟩)

def run? (iterations : Nat) (network : Network α) : Option (Progress α) := do
  let payoff ← network.evaluate? network.space.origin
  network.advance? iterations network.blank ⟨⟨network.space.origin, payoff⟩, ⟨0, 0, none⟩⟩

end Network

end Checked

structure Inbox.Shaped (degree width : Nat) (inbox : Inbox α) : Prop where
  rows : inbox.rows.size = degree
  row : ∀ {row : Nat} {message : Array α}, inbox.rows[row]? = some message → message.size = width
  sum : inbox.sum.size = width

/-- Whether every variable has an inbox with a row for each of its factors and an entry for each of
its values. -/
structure Shaped (space : Space) (degree : Nat → Nat) (inboxes : Array (Inbox α)) : Prop where
  size : inboxes.size = space.length
  inbox : ∀ {key : Nat} {inbox : Inbox α}, inboxes[key]? = some inbox →
    inbox.Shaped (degree key) (space.domain key)

structure Letter.Fits (space : Space) (degree : Nat → Nat) (letter : Letter α) : Prop where
  key : letter.key < space.length
  row : letter.row < degree letter.key
  size : letter.message.size = space.domain letter.key

/-- Whether a station is over the space, has a table entry for each joint value, and has a row in
the inbox of each of its variables. -/
structure Station.Fits (space : Space) (degree : Nat → Nat) (station : Station α) : Prop where
  keys : ∀ key ∈ station.scope, key < space.length
  radix : station.radix = station.scope.map space.domain
  row : ∀ {position key row : Nat}, station.scope[position]? = some key →
    station.rows[position]? = some row → row < degree key
  joints : station.joints = (Odometer.start station.scope station.radix).drain.1
  size : space.jointSize? station.scope = some station.table.length

structure Network.Fits [Payoff α] (degree : Nat → Nat) (network : Network α) : Prop where
  inhabited : network.space.Inhabited
  station : ∀ station ∈ network.stations, station.Fits network.space degree
  blank : Shaped network.space degree network.blank

section Fits

variable {space : Space} {degree : Nat → Nat} {inboxes : Array (Inbox α)}

theorem Shaped.exists_inbox (h : Shaped space degree inboxes) {key : Nat}
    (hkey : key < space.length) :
    ∃ inbox, inboxes[key]? = some inbox ∧ inbox.Shaped (degree key) (space.domain key) := by
  have hlt : key < inboxes.size := h.size ▸ hkey
  exact ⟨_, Array.getElem?_eq_getElem hlt, h.inbox (Array.getElem?_eq_getElem hlt)⟩

theorem Station.Fits.table {station : Station α} (h : station.Fits space degree) :
    station.table.length = volume station.radix := by
  rw [h.radix]
  exact (Space.of_jointSize? h.size).1

theorem Station.Fits.radix_pos {station : Station α} (h : station.Fits space degree)
    (hspace : space.Inhabited) : ∀ r ∈ station.radix, 0 < r := by
  rw [h.radix]
  exact hspace.radix_pos h.keys

private theorem Station.Fits.radix_getElem? {station : Station α} (h : station.Fits space degree)
    {position key : Nat} (hkey : station.scope[position]? = some key) :
    station.radix[position]? = some (space.domain key) := by
  rw [h.radix, List.getElem?_map, hkey]
  rfl

end Fits

section Sweep

variable [Payoff α] {space : Space} {degree : Nat → Nat} {inboxes : Array (Inbox α)}

private theorem Inbox.Shaped.excluding?_eq {inbox : Inbox α} {rows width row value : Nat}
    (h : inbox.Shaped rows width) (hrow : row < rows) (hvalue : value < width) :
    inbox.excluding? row value = some (inbox.excluding row value) := by
  have hsum : value < inbox.sum.size := h.sum ▸ hvalue
  have hin : row < inbox.rows.size := h.rows ▸ hrow
  have hmessage : value < inbox.rows[row].size :=
    (h.row (Array.getElem?_eq_getElem hin)).symm ▸ hvalue
  simp [excluding?, excluding, hsum, hin, hmessage]

private theorem Inbox.Shaped.refresh?_eq {inbox : Inbox α} {rows width : Nat}
    (h : inbox.Shaped rows width) :
    inbox.refresh? = some inbox.refresh ∧ inbox.refresh.Shaped rows width := by
  have hsums : ((List.range inbox.sum.size).mapM fun value =>
      (inbox.rows.toList.mapM fun row => row[value]?).map Payoff.total) =
        some ((List.range inbox.sum.size).map fun value =>
          Payoff.total (inbox.rows.toList.map fun row => row.getD value Payoff.zero)) := by
    refine mapM_eq_some_map fun value hvalue => ?_
    have hrows : (inbox.rows.toList.mapM fun row => row[value]?) =
        some (inbox.rows.toList.map fun row => row.getD value Payoff.zero) := by
      refine mapM_eq_some_map fun message hmessage => ?_
      obtain ⟨row, hrow⟩ := Array.mem_iff_getElem?.1 (Array.mem_toList_iff.1 hmessage)
      have hlt : value < message.size := by
        rw [h.row hrow, ← h.sum]
        exact List.mem_range.1 hvalue
      simp [hlt]
    rw [hrows, Option.map_some]
  constructor
  · rw [refresh?, hsums]
    simp [refresh, ← Array.toList_inj]
  · exact ⟨h.rows, h.row, by simp [refresh, h.sum]⟩

private theorem Inbox.Shaped.choice?_eq {inbox : Inbox α} {rows width : Nat}
    (h : inbox.Shaped rows width)
    (hwidth : 0 < width) : inbox.choice? = some inbox.choice ∧ inbox.choice < width := by
  have hlt : inbox.choice < inbox.sum.size := by
    rw [← Array.length_toList]
    apply Payoff.leader_lt
    rw [Array.length_toList, h.sum]
    exact hwidth
  exact ⟨if_pos hlt, h.sum ▸ hlt⟩

omit [Payoff α] in
/-- A letter that fits is delivered, and leaves the shape of the inboxes as it is. -/
theorem Letter.Fits.deliver?_eq {letter : Letter α} (hletter : letter.Fits space degree)
    (h : Shaped space degree inboxes) :
    Letter.deliver? inboxes letter = some (Letter.deliver inboxes letter) ∧
      Shaped space degree (Letter.deliver inboxes letter) := by
  obtain ⟨inbox, hinbox, hshaped⟩ := h.exists_inbox hletter.key
  have hrow : letter.row < inbox.rows.size := hshaped.rows ▸ hletter.row
  have hlong : inbox.rows[letter.row].size = letter.message.size := by
    rw [hshaped.row (Array.getElem?_eq_getElem hrow), hletter.size]
  refine ⟨by simp [deliver?, hinbox, hrow, hlong], ?_, ?_⟩
  · rw [deliver, Array.size_modify, h.size]
  · intro key found hfound
    rw [deliver, Array.getElem?_modify] at hfound
    split at hfound
    · rename_i heq
      subst heq
      rw [hinbox] at hfound
      cases hfound
      refine ⟨by rw [Array.size_setIfInBounds, hshaped.rows], fun {row message} hget => ?_,
        hshaped.sum⟩
      rw [Array.getElem?_setIfInBounds] at hget
      split at hget
      · cases hget
        exact hletter.size
      · exact hshaped.row hget
    · exact h.inbox hfound

private theorem Station.Fits.heard?_eq {station : Station α} (h : station.Fits space degree)
    (hinboxes : Shaped space degree inboxes) {joint : List Nat}
    (hjoint : Digits station.radix joint) :
    station.heard? inboxes joint = some (station.heard inboxes joint) := by
  refine mapM_eq_some_map ?_
  rintro ⟨key, row, value⟩ hin
  obtain ⟨position, hposition⟩ := List.mem_iff_getElem?.1 hin
  obtain ⟨hkey, hposition⟩ := List.getElem?_zip_eq_some.1 hposition
  obtain ⟨hrow, hvalue⟩ := List.getElem?_zip_eq_some.1 hposition
  obtain ⟨found, hfound, hlt⟩ := hjoint.exists_getElem? (h.radix_getElem? hkey)
  obtain rfl := Option.some.inj (hvalue.symm.trans hfound)
  obtain ⟨inbox, hinbox, hshaped⟩ := hinboxes.exists_inbox (h.keys key (List.mem_of_getElem? hkey))
  dsimp only
  rw [hinbox, Option.bind_some, hshaped.excluding?_eq (h.row hkey hrow) hlt]
  rfl

/-- The walk from any joint value on: the running index is the index of the joint value, so it stays
in the table until the odometer is exhausted, and both end together. -/
theorem Station.Fits.appraisals?_of_standsAt {station : Station α} (h : station.Fits space degree)
    (hinboxes : Shaped space degree inboxes) (limit : Nat) {o : Odometer} {place : Nat}
    (hradix : o.radix = station.radix) (ho : o.StandsAt place)
    (hlimit : place + limit = volume station.radix) :
    station.appraisals? inboxes limit o place =
      some (((o.visit limit).1.zip (station.table.drop place)).map fun (joint, payoff) =>
        (joint, station.heard inboxes joint,
          payoff + Payoff.total (station.heard inboxes joint))) := by
  induction limit generalizing o place with
  | zero =>
    have hdone : o.valid = false := by
      rw [ho.valid, hradix]
      exact decide_eq_false (by omega)
    simp [appraisals?, hdone, Odometer.visit]
  | succ limit ih =>
    have hplace : place < volume o.radix := by
      rw [hradix]
      omega
    have hvalid : o.valid = true := by rw [ho.valid, decide_eq_true hplace]
    have htable : place < station.table.length := by
      rw [h.table, ← hradix]
      exact hplace
    have hheard := h.heard?_eq hinboxes (hradix ▸ ho.digits)
    have hlater := ih (show o.advance.radix = station.radix from hradix) (ho.advance hplace)
      (by omega)
    have hvisit : (o.visit (limit + 1)).1 = o.values :: (o.advance.visit limit).1 := by
      simp [Odometer.visit, hvalid]
    rw [hvisit, List.drop_eq_getElem_cons htable, List.zip_cons_cons, List.map_cons, appraisals?,
      if_pos hvalid, hheard, List.getElem?_eq_getElem htable, hlater]
    rfl

private theorem Station.Fits.appraisals?_eq {station : Station α} (hspace : space.Inhabited)
    (h : station.Fits space degree) (hinboxes : Shaped space degree inboxes) :
    station.appraisals? inboxes station.table.length (.start station.scope station.radix) 0 =
      some (station.appraisals inboxes) := by
  have hstart := Odometer.standsAt_start station.scope (h.radix_pos hspace)
  rw [h.appraisals?_of_standsAt hinboxes _ rfl hstart (by rw [h.table, Nat.zero_add])]
  rw [appraisals, h.joints, List.drop_zero, h.table]
  rfl

private theorem Station.bestMessages?_eq {appraisals : List (List Nat × List α × α)}
    {position width : Nat}
    (h : ∀ appraisal ∈ appraisals, (∃ value, appraisal.1[position]? = some value ∧ value < width) ∧
      position < appraisal.2.1.length) :
    bestMessages? appraisals position width = some (bestMessages appraisals position width) := by
  have hstep : ∀ appraisal ∈ appraisals, ∀ best : Array (Option α), best.size = width →
      improve? position best appraisal = some (best.modify (appraisal.1.getD position 0) fun held =>
        Payoff.raise held (appraisal.2.2 - appraisal.2.1.getD position Payoff.zero)) ∧
      (best.modify (appraisal.1.getD position 0) fun held => Payoff.raise held
        (appraisal.2.2 - appraisal.2.1.getD position Payoff.zero)).size = width := by
    intro appraisal hin best hbest
    obtain ⟨⟨value, hvalue, hlt⟩, hheard⟩ := h _ hin
    refine ⟨?_, by rw [Array.size_modify, hbest]⟩
    simp [improve?, hvalue, hheard, hbest, hlt]
  have hfold := @foldlM_eq_some_foldl _ _ (fun best => best.size = width) _ _ appraisals
    (Array.replicate width none) Array.size_replicate hstep
  rw [bestMessages?, hfold.1]
  rfl

private theorem Station.Fits.letters?_eq {station : Station α} (hspace : space.Inhabited)
    (h : station.Fits space degree) (hinboxes : Shaped space degree inboxes) :
    station.letters? inboxes = some (station.letters inboxes) ∧
      ∀ letter ∈ station.letters inboxes, letter.Fits space degree := by
  have hplaces : ∀ {position key row width : Nat}, (station.scope.zip
      (station.rows.zip station.radix))[position]? = some (key, row, width) →
      station.scope[position]? = some key ∧ row < degree key ∧
        station.radix[position]? = some width ∧ width = space.domain key := by
    intro position key row width hposition
    obtain ⟨hkey, hposition⟩ := List.getElem?_zip_eq_some.1 hposition
    obtain ⟨hrow, hwidth⟩ := List.getElem?_zip_eq_some.1 hposition
    exact ⟨hkey, h.row hkey hrow, hwidth,
      Option.some.inj (hwidth.symm.trans (h.radix_getElem? hkey))⟩
  have hjoints : ∀ joint ∈ station.joints, Digits station.radix joint := by
    rw [h.joints]
    exact (Odometer.drain_start station.scope station.radix).digits
  constructor
  · rw [letters?, h.appraisals?_eq hspace hinboxes, letters, List.mapIdx_eq_zipIdx_map]
    refine mapM_eq_some_map ?_
    rintro ⟨⟨key, row, width⟩, position⟩ hin
    obtain ⟨hkey, -, hwidth, -⟩ := hplaces (List.mem_zipIdx_iff_getElem?.1 hin)
    have hbest := @bestMessages?_eq α _ (station.appraisals inboxes) position width (by
      intro appraisal happraisal
      obtain ⟨⟨joint, payoff⟩, hpair, rfl⟩ := List.mem_map.1 happraisal
      have hjoint := hjoints joint (List.of_mem_zip hpair).1
      refine ⟨hjoint.exists_getElem? hwidth, ?_⟩
      have hlt := (List.getElem?_eq_some_iff.1 (List.mem_zipIdx_iff_getElem?.1 hin)).1
      rw [length_of_mapM (h.heard?_eq hinboxes hjoint)]
      simp only [List.length_zip, hjoint.length_eq] at hlt ⊢
      exact hlt)
    dsimp only
    rw [hbest, Option.map_some]
  · intro letter hletter
    obtain ⟨position, hposition, rfl⟩ := List.mem_mapIdx.1 hletter
    have hget := List.getElem?_eq_getElem hposition
    generalize (station.scope.zip (station.rows.zip station.radix))[position] = triple at hget
    obtain ⟨key, row, width⟩ := triple
    obtain ⟨hkey, hrow, -, rfl⟩ := hplaces hget
    refine ⟨h.keys _ (List.mem_of_getElem? hkey), hrow, ?_⟩
    dsimp only
    rw [centered, Array.size_map, size_bestMessages]

variable {network : Network α}

/-- A sweep of a network that fits goes through, and leaves the shape of the inboxes as it is. -/
theorem Network.Fits.sweep?_eq (h : network.Fits degree)
    (hinboxes : Shaped network.space degree inboxes) :
    network.sweep? inboxes = some (network.sweep inboxes) ∧
      Shaped network.space degree (network.sweep inboxes) := by
  have hletters := mapM_eq_some_map fun station hstation =>
    ((h.station station hstation).letters?_eq h.inhabited hinboxes).1
  have hfit : ∀ letter ∈ network.stations.flatMap (·.letters inboxes),
      letter.Fits network.space degree := by
    intro letter hletter
    obtain ⟨station, hstation, hletter⟩ := List.mem_flatMap.1 hletter
    exact ((h.station station hstation).letters?_eq h.inhabited hinboxes).2 letter hletter
  obtain ⟨hdelivered, hshaped⟩ := foldlM_eq_some_foldl h.blank
    fun letter hletter boxes hboxes => (hfit letter hletter).deliver?_eq hboxes
  have hrefreshed := mapM_eq_some_map fun inbox hinbox => by
    obtain ⟨key, hkey⟩ := Array.mem_iff_getElem?.1 (Array.mem_toList_iff.1 hinbox)
    exact (hshaped.inbox hkey).refresh?_eq.1
  constructor
  · rw [sweep?, hletters]
    simp only [Option.bind_eq_bind, Option.bind_some, ← List.flatMap_def, hdelivered, hrefreshed]
    simp [sweep, ← Array.toList_inj]
  · refine ⟨by rw [sweep, Array.size_map, hshaped.size], fun {key inbox} hinbox => ?_⟩
    rw [sweep, Array.getElem?_map] at hinbox
    obtain ⟨before, hbefore, rfl⟩ := Option.map_eq_some_iff.1 hinbox
    exact (hshaped.inbox hbefore).refresh?_eq.2

end Sweep

section Run

variable [Payoff α] {degree : Nat → Nat} {network : Network α}

private theorem Network.Fits.shaped_inboxes (h : network.Fits degree) (sweeps : Nat) :
    Shaped network.space degree (network.inboxes sweeps) := by
  induction sweeps with
  | zero => exact h.blank
  | succ sweeps ih => exact (h.sweep?_eq ih).2

private theorem Network.Fits.choices_eq (h : network.Fits degree) {inboxes : Array (Inbox α)}
    (hinboxes : Shaped network.space degree inboxes) :
    inboxes.toList.mapM Inbox.choice? = some (inboxes.map Inbox.choice).toList ∧
      network.space.Admits (inboxes.map Inbox.choice).toList := by
  have hchoice : ∀ {key : Nat} {inbox : Inbox α}, inboxes[key]? = some inbox →
      inbox.choice? = some inbox.choice ∧ inbox.choice < network.space.domain key := by
    intro key inbox hinbox
    have hkey : key < network.space.length := by
      rw [← hinboxes.size]
      exact (Array.getElem?_eq_some_iff.1 hinbox).1
    exact (hinboxes.inbox hinbox).choice?_eq (h.inhabited.domain_pos hkey)
  constructor
  · rw [Array.toList_map]
    refine mapM_eq_some_map fun inbox hinbox => ?_
    obtain ⟨key, hkey⟩ := Array.mem_iff_getElem?.1 (Array.mem_toList_iff.1 hinbox)
    exact (hchoice hkey).1
  · refine Space.admits_iff.2 ⟨by simp [hinboxes.size], fun key hkey => ?_⟩
    obtain ⟨inbox, hinbox, -⟩ := hinboxes.exists_inbox hkey
    simpa [valuation, hinbox] using (hchoice hinbox).2

private theorem Network.Fits.admits_candidate (h : network.Fits degree) (sweep : Nat) :
    network.space.Admits (network.candidate sweep) :=
  (h.choices_eq (h.shaped_inboxes (sweep + 1))).2

private theorem Network.Fits.evaluate?_eq (h : network.Fits degree) {full : List Nat}
    (hfull : network.space.Admits full) :
    network.evaluate? full = some (network.evaluate full) := by
  have hselected : (network.stations.mapM fun station =>
      selected? network.space station.scope station.table full) =
        some (network.stations.map fun station => station.payoffAt full.toArray) := by
    refine mapM_eq_some_map fun station hstation => ?_
    have hfits := h.station station hstation
    rw [selected?_eq hfits.keys hfits.size hfull Payoff.zero,
      Station.payoffAt, hfits.radix, map_getD_toArray]
  rw [evaluate?, hselected]
  rfl

private theorem Network.Fits.advance?_eq (h : network.Fits degree) (sweeps : Nat)
    {inboxes : Array (Inbox α)} (hinboxes : Shaped network.space degree inboxes)
    (progress : Progress α) :
    network.advance? sweeps inboxes progress =
      some ((network.candidates sweeps inboxes).foldl
        (fun progress candidate => progress.offer ⟨candidate, network.evaluate candidate⟩)
        progress) := by
  induction sweeps generalizing inboxes progress with
  | zero => rfl
  | succ sweeps ih =>
    obtain ⟨hsweep, hshaped⟩ := h.sweep?_eq hinboxes
    obtain ⟨hchoices, hadmits⟩ := h.choices_eq hshaped
    rw [advance?, hsweep]
    simp only [Option.bind_eq_bind, Option.bind_some, hchoices, h.evaluate?_eq hadmits]
    exact ih hshaped _

/-- The run that looks at every index before it uses it computes what the run does. -/
theorem Network.Fits.run?_eq (h : network.Fits degree) (iterations : Nat) :
    network.run? iterations = some (run iterations network) := by
  rw [run?, h.evaluate?_eq h.inhabited.admits_origin]
  exact h.advance?_eq iterations h.blank _

end Run

section Graph

variable [Payoff α] {space : Space} {graph : FactorGraph (List α)}

omit [Payoff α] in
theorem exists_row (hsound : graph.Sound) (hcount : graph.varCount = space.length)
    {entry : Handle × Factor (List α)} (hentry : entry ∈ graph.factors) {key : Nat}
    (hkey : key ∈ entry.2.scope.keys) :
    ∃ row, (graph.neighbors key).idxOf? entry.1 = some row ∧
      row < (graph.neighbors key).length := by
  have hin := mem_neighbors hsound hcount hentry hkey
  have hplace := getElem?_rowOf hin
  cases hrow : (graph.neighbors key).idxOf? entry.1 with
  | none => exact absurd hin (List.idxOf?_eq_none_iff.1 hrow)
  | some row =>
    rw [rowOf, hrow, Option.getD_some] at hplace
    exact ⟨row, rfl, (List.getElem?_eq_some_iff.1 hplace).1⟩

/-- The network of a checked graph fits together. -/
theorem networkOf_fits (hspace : space.Inhabited) (hsound : graph.Sound)
    (hcount : graph.varCount = space.length) (htabled : Tabled space graph) :
    (networkOf space graph).Fits fun key => (graph.neighbors key).length := by
  refine ⟨hspace, ?_, ?_⟩
  · intro station hstation
    obtain ⟨entry, hentry, rfl⟩ := List.mem_map.1 hstation
    have hkeys := scope_lt hsound hcount hentry
    refine ⟨hkeys, rfl, fun {position key row} hkey hrow => ?_, ?_, htabled entry hentry⟩
    · have hkey : entry.2.scope.keys[position]? = some key := hkey
      obtain ⟨found, hfound, hlt⟩ :=
        exists_row hsound hcount hentry (List.mem_of_getElem? hkey)
      have hsame : (stationOf space graph entry).rows[position]? = some found := by
        rw [stationOf, List.getElem?_map, hkey, Option.map_some, hfound, Option.getD_some]
      obtain rfl := Option.some.inj (hrow.symm.trans hsame)
      exact hlt
    · simp [stationOf, Space.jointValues?, Odometer.new?, Space.radix?_eq hkeys]
  · have hsize : (networkOf space graph).blank.size = space.length := by
      simp [Network.blank, networkOf]
    refine ⟨hsize, fun {key inbox} hinbox => ?_⟩
    have hkey : key < space.length := hsize ▸ (Array.getElem?_eq_some_iff.1 hinbox).1
    rw [getElem?_blank hkey] at hinbox
    cases hinbox
    refine ⟨by simp [Inbox.blank], fun {row message} hrow => ?_, by simp [Inbox.blank]; rfl⟩
    simp only [Inbox.blank, Array.getElem?_replicate] at hrow
    split at hrow
    · cases hrow
      exact Array.size_replicate
    · cases hrow

/-- What is promised of the indices that a solve computes. -/
structure InRange (space : Space) (graph : FactorGraph (List α)) (iterations : Nat)
    (network : Network α) : Prop where
  /-- No sweep and no score gives up on an index. -/
  run : network.run? iterations = some (run iterations network)
  /-- The running index into a table is the index of the joint value that the odometer shows, and
  both end with the table. -/
  walk : ∀ entry ∈ graph.factors, ∃ o, Odometer.new? space entry.2.scope.keys = some o ∧
    ∀ place ≤ entry.2.data.length,
      (Odometer.advance^[place] o).valid = decide (place < entry.2.data.length) ∧
        (place < entry.2.data.length → space.index? entry.2.scope.keys
          (Odometer.advance^[place] o).values = some place)
  /-- Every factor is among the neighbors of its variables, so its row is not a default. -/
  row : ∀ entry ∈ graph.factors, ∀ key ∈ entry.2.scope.keys, ∃ row,
    (graph.neighbors key).idxOf? entry.1 = some row ∧ row < (graph.neighbors key).length
  /-- After any number of sweeps the inboxes have a row per neighbor and an entry per value. -/
  shaped : ∀ sweeps,
    Shaped space (fun key => (graph.neighbors key).length) (network.inboxes sweeps)
  /-- What is scored is a full assignment with an index in every table. -/
  selected : ∀ full ∈ space.origin :: network.candidates iterations network.blank,
    space.Admits full ∧ ∀ entry ∈ graph.factors, ∃ index,
      space.index? entry.2.scope.keys (entry.2.scope.keys.map (valuation full)) = some index ∧
        index < entry.2.data.length

theorem networkOf_inRange (hspace : space.Inhabited) (hsound : graph.Sound)
    (hcount : graph.varCount = space.length) (htabled : Tabled space graph) (iterations : Nat) :
    InRange space graph iterations (networkOf space graph) := by
  have hfits := networkOf_fits hspace hsound hcount htabled
  refine ⟨hfits.run?_eq iterations, fun entry hentry => ?_,
    fun _ hentry _ => exists_row hsound hcount hentry, hfits.shaped_inboxes, fun full hfull => ?_⟩
  · rw [htabled.length_eq hentry]
    exact Space.exists_walk hspace (scope_lt hsound hcount hentry) (htabled.fitsWord hentry)
  have hadmits : space.Admits full := by
    rw [Network.candidates_eq] at hfull
    rcases List.mem_cons.1 hfull with rfl | hfull
    · exact hspace.admits_origin
    · obtain ⟨sweep, -, rfl⟩ := List.mem_map.1 hfull
      exact hfits.admits_candidate sweep
  refine ⟨hadmits, fun entry hentry => ?_⟩
  have hkeys := scope_lt hsound hcount hentry
  have hdigits := digits_map (Space.admits_iff.1 hadmits).2 hkeys
  refine ⟨_, Space.index?_eq hkeys (htabled.fitsWord hentry) hdigits, ?_⟩
  rw [htabled.length_eq hentry]
  exact hdigits.index_lt

end Graph

/-- Max-plus on a graph with any history refuses an empty domain, then the first count that does not
fit. Where words can count the joint values of every scope it refuses nothing else, and solves what
it does not refuse with every index in range. -/
theorem solveGraph_in_range [Payoff α] {varCount : Nat} {log : List (Event (List α))}
    {graph : FactorGraph (List α)} (hgraph : History varCount log graph) (space : Space)
    (iterations : Nat) :
    (¬ space.Inhabited → ∃ key, space.FirstEmpty key ∧
      solveGraph iterations space graph = .error (.emptyDomain key)) ∧
    (space.Inhabited →
      (∀ expected found, Misfit space graph expected found ↔
        solveGraph iterations space graph = .error (.sizeMismatch expected found)) ∧
      ((∀ entry ∈ graph.factors, space.FitsWord entry.2.scope.keys) →
        (Refused (solveGraph iterations space graph) ↔ graph.varCount ≠ space.length ∨
          ∃ entry ∈ graph.factors,
            space.jointSize? entry.2.scope.keys ≠ some entry.2.data.length) ∧
        (¬ Refused (solveGraph iterations space graph) → ∃ network,
          Network.ofGraph? space graph = some network ∧ InRange space graph iterations network ∧
            solveGraph iterations space graph =
              .ok ((run iterations network).best, (run iterations network).report)))) := by
  have hsound := hgraph.sound
  constructor
  · intro hempty
    obtain ⟨key, hkey⟩ := Space.exists_firstEmpty hempty
    refine ⟨key, hkey, ?_⟩
    simp [solveGraph, checkSpace, hkey.validate_eq, bind, Except.bind]
  intro hspace
  obtain ⟨expected, found, hmisfit, hsolve⟩ | ⟨hoverflow, hsolve⟩ | ⟨hcount, htabled, hsolve⟩ :=
    solveGraph_cases hspace hsound iterations
  · refine ⟨fun expected' found' => ⟨fun h => h.solveGraph_eq hspace iterations, fun h => ?_⟩,
      fun _ => ⟨iff_of_true ⟨_, _, hsolve⟩ ?_, fun h => absurd ⟨_, _, hsolve⟩ h⟩⟩
    · rw [hsolve] at h
      cases h
      exact hmisfit
    · cases hmisfit with
      | count hcount => exact .inl hcount
      | @table before later entry expected hcount hfactors hbefore hsize hentry =>
        refine .inr ⟨entry, by simp [hfactors], ?_⟩
        rw [hsize]
        exact fun h => hentry (Option.some.inj h).symm
  · refine ⟨fun expected found => ⟨fun h => h.solveGraph_eq hspace iterations, fun h => ?_⟩,
      fun hwords => absurd hoverflow (not_overflow hsound hwords)⟩
    rw [hsolve] at h
    cases h
  · have hnot : ¬ Refused (solveGraph iterations space graph) := by
      rintro ⟨expected, found, hrefused⟩
      rw [hsolve] at hrefused
      cases hrefused
    refine ⟨fun expected found => ⟨fun h => h.solveGraph_eq hspace iterations,
      fun h => absurd ⟨_, _, h⟩ hnot⟩, fun _ => ⟨iff_of_false hnot ?_, fun _ => ⟨_,
      ofGraph?_eq hsound hcount, networkOf_inRange hspace hsound hcount htabled iterations,
      hsolve⟩⟩⟩
    rintro (hother | ⟨entry, hentry, hsize⟩)
    · exact hother hcount
    · exact hsize (htabled entry hentry)

/-- The loop over four spaces: one with an empty domain, one without the last variable, one where
the second table is too short, and one that it fits. -/
theorem solveGraph_in_range_loop :
    solveGraph 3 [2, 0, 2, 3] loopGraph = .error (.emptyDomain 1) ∧
    solveGraph 3 [2, 2, 2] loopGraph = .error (.sizeMismatch 3 4) ∧
    solveGraph 3 [2, 2, 3, 3] loopGraph = .error (.sizeMismatch 6 4) ∧
    ∃ network, Network.ofGraph? [2, 2, 2, 3] loopGraph = some network ∧
      InRange [2, 2, 2, 3] loopGraph 3 network ∧
      solveGraph 3 [2, 2, 2, 3] loopGraph =
        .ok ((run 3 network).best, (run 3 network).report) := by
  obtain ⟨log, hlog⟩ := reachable_loopGraph.history
  have hempty := solveGraph_in_range hlog [2, 0, 2, 3] 3
  have hfewer := solveGraph_in_range hlog [2, 2, 2] 3
  have hshort := solveGraph_in_range hlog [2, 2, 3, 3] 3
  have hfits := ((solveGraph_in_range hlog [2, 2, 2, 3] 3).2 (by decide)).2
    (by rw [loopGraph_factors]; decide)
  refine ⟨?_, ((hfewer.2 (by decide)).1 _ _).1 (.count (by decide)), ?_, ?_⟩
  · obtain ⟨key, ⟨hkey, -⟩, herror⟩ := hempty.1 (by decide)
    obtain rfl : key = 1 := by
      rcases key with _ | _ | _ | _ | key <;> simp at hkey ⊢
    exact herror
  · have hfactors : loopGraph.factors = [(⟨0, 4⟩, ⟨linkScope 0, 0, [0, 0, 0, 2]⟩)] ++
        (⟨1, 5⟩, ⟨linkScope 1, 1, [0, 0, 0, 3]⟩) ::
          [(⟨2, 6⟩, ⟨closingScope, 2, [1, 0, 0, -4]⟩)] := loopGraph_factors
    have hmisfit : Misfit [2, 2, 3, 3] loopGraph 6 4 :=
      .table rfl hfactors (by simp; rfl) rfl (by decide)
    exact ((hshort.2 (by decide)).1 _ _).1 hmisfit
  · refine hfits.2 fun hrefused => ?_
    obtain hcount | ⟨entry, hentry, hsize⟩ := hfits.1.1 hrefused
    · exact hcount rfl
    · rw [loopGraph_factors] at hentry
      fin_cases hentry <;> exact hsize rfl

end JointDecision.MaxPlus

import JointDecision.Proofs.FactorGraph.Representation
import JointDecision.Proofs.MaxPlus.InRange

/-! # Rows are private

The stations of a network come in the order of slots, the rows of a variable in the order of serials.
All the same, every factor has a row of its own at each of its variables, and these are all the rows
there are. So a sweep writes every row once, and the factors may have their turns in any order. -/

namespace JointDecision.MaxPlus

open FactorGraph

variable {α : Type}

def Station.rowAt? (station : Station α) (key : Nat) : Option Nat :=
  (station.scope.zip station.rows).lookup key

def owned (graph : FactorGraph (List α)) (network : Network α) : List (Handle × Station α) :=
  (graph.factors.map Prod.fst).zip network.stations

def storedRow? (graph : FactorGraph (List α)) (network : Network α) (key : Nat)
    (handle : Handle) : Option Nat :=
  ((owned graph network).lookup handle).bind fun station => station.rowAt? key

section Stored

variable {space : Space} {graph : FactorGraph (List α)}

private theorem rowAt?_stationOf {entry : Handle × Factor (List α)} {key : Nat}
    (hkey : key ∈ entry.2.scope.keys) :
    (stationOf space graph entry).rowAt? key = some (rowOf graph entry.1 key) := by
  have hnodup : ((entry.2.scope.keys.map fun key =>
      (key, rowOf graph entry.1 key)).map Prod.fst).Nodup := by
    rw [List.map_map]
    simpa [Function.comp_def] using entry.2.scope.nodup
  rw [Station.rowAt?, stationOf, zip_map_self]
  exact (mem_iff_lookup hnodup).1 (List.mem_map_of_mem hkey)

theorem owned_networkOf : owned graph (networkOf space graph) =
    graph.factors.map fun entry => (entry.1, stationOf space graph entry) := by
  rw [owned, networkOf, List.zip_map']

theorem storedRow?_eq {handle : Handle} {factor : Factor (List α)}
    (hfactor : graph.factor? handle = some factor) {key : Nat} (hkey : key ∈ factor.scope.keys) :
    storedRow? graph (networkOf space graph) key handle = some (rowOf graph handle key) := by
  have hnodup : ((owned graph (networkOf space graph)).map Prod.fst).Nodup := by
    rw [owned_networkOf, List.map_map]
    exact nodup_handles graph
  have hstation : (handle, stationOf space graph (handle, factor)) ∈
      owned graph (networkOf space graph) := by
    rw [owned_networkOf]
    exact List.mem_map_of_mem (mem_factors.2 hfactor)
  rw [storedRow?, (mem_iff_lookup hnodup).1 hstation]
  exact rowAt?_stationOf hkey

/-- The factors of a variable and its rows are one to one. -/
theorem bijOn_storedRow? (hsound : graph.Sound) {key : Nat} (hkey : key < graph.varCount) :
    Set.BijOn (storedRow? graph (networkOf space graph) key)
      {handle | ∃ factor, graph.factor? handle = some factor ∧ key ∈ factor.scope.keys}
      (some '' Set.Iio (graph.degree key)) := by
  rw [hsound.degree_eq hkey]
  have hneighbor := hsound.adjacent key hkey
  refine ⟨?mapsTo, ?injOn, ?surjOn⟩
  case mapsTo =>
    intro handle hhandle
    obtain ⟨factor, hfactor, hin⟩ := hhandle
    have hplace := getElem?_rowOf ((hneighbor handle).2 ⟨factor, hfactor, hin⟩)
    rw [storedRow?_eq hfactor hin]
    exact ⟨_, (List.getElem?_eq_some_iff.1 hplace).1, rfl⟩
  case injOn =>
    intro a ha b hb hsame
    obtain ⟨f, hf, hfin⟩ := id ha
    obtain ⟨g, hg, hgin⟩ := id hb
    rw [storedRow?_eq hf hfin, storedRow?_eq hg hgin, Option.some.injEq] at hsame
    exact eq_of_rowOf_eq ((hneighbor a).2 ha) ((hneighbor b).2 hb) hsame
  case surjOn =>
    rintro _ ⟨row, hrow, rfl⟩
    obtain ⟨factor, hfactor, hin⟩ := (hneighbor _).1 (List.getElem_mem hrow)
    refine ⟨_, ⟨factor, hfactor, hin⟩, ?_⟩
    rw [storedRow?_eq hfactor hin, rowOf_getElem hsound hkey hrow]

end Stored

/-- The rows of an inbox and, behind them, their sum, as lines of one table. -/
def Inbox.lines (inbox : Inbox α) : Array (Array α) :=
  inbox.rows.push inbox.sum

def Letter.write (tables : Array (Array (Array α))) (letter : Letter α) :
    Array (Array (Array α)) :=
  tables.modify letter.key fun lines => lines.setIfInBounds letter.row letter.message

/-- Writes the sum of the other lines of a table into the last. -/
def settle [Payoff α] (lines : Array (Array α)) : Array (Array α) :=
  lines.pop.push <| (Array.range (lines.back?.getD #[]).size).map fun value =>
    Payoff.total (lines.pop.toList.map fun row => row.getD value Payoff.zero)

private theorem settle_lines [Payoff α] (inbox : Inbox α) :
    settle inbox.lines = inbox.refresh.lines := by
  simp [settle, Inbox.lines, Inbox.refresh]

private theorem lines_deliver {inboxes : Array (Inbox α)} {letter : Letter α}
    (hrow : ∀ inbox, inboxes[letter.key]? = some inbox → letter.row < inbox.rows.size) :
    (Letter.deliver inboxes letter).map Inbox.lines =
      Letter.write (inboxes.map Inbox.lines) letter := by
  apply Array.ext_getElem?
  intro key
  rw [Letter.deliver, Letter.write, Array.getElem?_map, Array.getElem?_modify,
    Array.getElem?_modify, Array.getElem?_map]
  by_cases heq : letter.key = key
  · subst heq
    cases hinbox : inboxes[letter.key]? with
    | none => simp
    | some inbox =>
      have hlt := hrow inbox hinbox
      have hpush : (inbox.rows.setIfInBounds letter.row letter.message).push inbox.sum =
          (inbox.rows.push inbox.sum).setIfInBounds letter.row letter.message := by
        simp [Array.setIfInBounds, hlt, Nat.lt_succ_of_lt hlt, Array.set_push]
      simp [Inbox.lines, hpush]
  · simp [heq]

private theorem rows_size_deliver {inboxes : Array (Inbox α)} {letter : Letter α} {key : Nat}
    {inbox : Inbox α} (h : (Letter.deliver inboxes letter)[key]? = some inbox) :
    ∃ before, inboxes[key]? = some before ∧ inbox.rows.size = before.rows.size := by
  rw [Letter.deliver, Array.getElem?_modify] at h
  split at h
  · obtain ⟨before, hbefore, rfl⟩ := Option.map_eq_some_iff.1 h
    exact ⟨before, hbefore, Array.size_setIfInBounds⟩
  · exact ⟨inbox, h, rfl⟩

private theorem lines_foldl_deliver {letters : List (Letter α)} {inboxes : Array (Inbox α)}
    (hrow : ∀ letter ∈ letters, ∀ inbox, inboxes[letter.key]? = some inbox →
      letter.row < inbox.rows.size) :
    (letters.foldl Letter.deliver inboxes).map Inbox.lines =
      letters.foldl Letter.write (inboxes.map Inbox.lines) := by
  induction letters generalizing inboxes with
  | nil => rfl
  | cons letter letters ih =>
    rw [List.foldl_cons, List.foldl_cons, ← lines_deliver (hrow letter List.mem_cons_self)]
    apply ih
    intro other hother inbox hinbox
    obtain ⟨before, hbefore, hsize⟩ := rows_size_deliver hinbox
    rw [hsize]
    exact hrow other (List.mem_cons_of_mem letter hother) before hbefore

/-- Letters with different rows may be put into an inbox in any order. -/
theorem Inbox.collect_perm {letters others : List (Letter α)} (hperm : letters.Perm others)
    (hunique : ∀ a ∈ letters, ∀ b ∈ letters, a.row = b.row → a.message = b.message)
    (inbox : Inbox α) : inbox.collect letters = inbox.collect others := by
  rw [collect, collect]
  congr 1
  apply hperm.foldl_eq'
  intro a ha b hb rows
  by_cases hrow : a.row = b.row
  · rw [hrow, hunique a ha b hb hrow]
  · exact Array.setIfInBounds_comm _ _ hrow

/-- Letters to different rows may be delivered in any order. -/
theorem foldl_deliver_perm {letters others : List (Letter α)} (hperm : letters.Perm others)
    (hunique : ∀ a ∈ letters, ∀ b ∈ letters, a.key = b.key → a.row = b.row → a = b)
    (inboxes : Array (Inbox α)) :
    letters.foldl Letter.deliver inboxes = others.foldl Letter.deliver inboxes := by
  apply Array.ext_getElem?
  intro key
  rw [getElem?_foldl_deliver, getElem?_foldl_deliver]
  congr 1
  funext inbox
  -- In one inbox only letters to the same variable meet.
  apply Inbox.collect_perm (hperm.filter _)
  intro a ha b hb hrow
  obtain ⟨ha, hkey⟩ := List.mem_filter.1 ha
  obtain ⟨hb, hkey'⟩ := List.mem_filter.1 hb
  rw [decide_eq_true_eq] at hkey hkey'
  rw [hunique a ha b hb (hkey.trans hkey'.symm) hrow]

section Written

variable [Payoff α] {space : Space} {graph : FactorGraph (List α)}

/-- The letters of a sweep in the order of delivery, each with the factor that it is from. -/
def posts (graph : FactorGraph (List α)) (network : Network α) (inboxes : Array (Inbox α)) :
    List (Handle × Letter α) :=
  (owned graph network).flatMap fun (handle, station) =>
    (station.letters inboxes).map fun letter => (handle, letter)

theorem posts_networkOf (inboxes : Array (Inbox α)) :
    posts graph (networkOf space graph) inboxes = graph.factors.flatMap fun entry =>
      ((stationOf space graph entry).letters inboxes).map fun letter => (entry.1, letter) := by
  rw [posts, owned_networkOf, List.flatMap_map]

private theorem map_posts (inboxes : Array (Inbox α)) :
    (posts graph (networkOf space graph) inboxes).map Prod.snd =
      (networkOf space graph).stations.flatMap (·.letters inboxes) := by
  rw [posts_networkOf, List.map_flatMap, networkOf, List.flatMap_map]
  simp [Function.comp_def]

private theorem mem_posts {inboxes : Array (Inbox α)} {handle : Handle} {letter : Letter α} :
    (handle, letter) ∈ posts graph (networkOf space graph) inboxes ↔ ∃ factor,
      graph.factor? handle = some factor ∧
        letter ∈ (stationOf space graph (handle, factor)).letters inboxes := by
  rw [posts_networkOf, List.mem_flatMap]
  constructor
  · rintro ⟨⟨other, factor⟩, hentry, hpost⟩
    obtain ⟨found, hletter, heq⟩ := List.mem_map.1 hpost
    cases heq
    exact ⟨factor, mem_factors.1 hentry, hletter⟩
  · rintro ⟨factor, hfactor, hletter⟩
    exact ⟨(handle, factor), mem_factors.2 hfactor, List.mem_map_of_mem hletter⟩

private theorem nodup_letters (inboxes : Array (Inbox α)) (entry : Handle × Factor (List α)) :
    ((stationOf space graph entry).letters inboxes).Nodup := by
  have hkeys : ((stationOf space graph entry).letters inboxes).map Letter.key =
      entry.2.scope.keys := by
    rw [letters_eq, List.mapIdx_eq_zipIdx_map, List.map_map]
    exact List.zipIdx_map_fst 0 entry.2.scope.keys
  apply List.Nodup.of_map Letter.key
  rw [hkeys]
  exact entry.2.scope.nodup

private theorem nodup_posts (inboxes : Array (Inbox α)) :
    (posts graph (networkOf space graph) inboxes).Nodup := by
  rw [posts_networkOf]
  apply List.nodup_flatMap.2
  constructor
  · intro entry _
    exact (nodup_letters inboxes entry).map fun a b hab => congrArg Prod.snd hab
  · apply (List.pairwise_map.1 (nodup_handles graph)).imp
    intro a b hne post ha hb
    obtain ⟨_, -, rfl⟩ := List.mem_map.1 ha
    obtain ⟨_, -, heq⟩ := List.mem_map.1 hb
    exact hne (congrArg Prod.fst heq).symm

theorem exists_sender {inboxes : Array (Inbox α)} {handle : Handle} {letter : Letter α}
    (hpost : (handle, letter) ∈ posts graph (networkOf space graph) inboxes) :
    ∃ factor, graph.factor? handle = some factor ∧ letter.key ∈ factor.scope.keys ∧
      letter.row = rowOf graph handle letter.key ∧
      letter.message.size = space.domain letter.key := by
  obtain ⟨factor, hfactor, hletter⟩ := mem_posts.1 hpost
  obtain ⟨position, key, hposition, rfl⟩ := mem_letters.1 hletter
  refine ⟨factor, hfactor, List.mem_of_getElem? hposition, rfl, ?_⟩
  rw [centered, Array.size_map, size_bestMessages]

variable (hsound : graph.Sound) (hcount : graph.varCount = space.length)

include hsound hcount

private theorem row_lt_of_mem_posts {inboxes : Array (Inbox α)} {handle : Handle}
    {letter : Letter α} (hpost : (handle, letter) ∈ posts graph (networkOf space graph) inboxes) :
    letter.key < space.length ∧ letter.row < graph.degree letter.key := by
  obtain ⟨factor, hfactor, hin, hrow, -⟩ := exists_sender hpost
  have hentry := mem_factors.2 hfactor
  have hkey := scope_lt hsound hcount hentry letter.key hin
  have hplace := getElem?_rowOf (mem_neighbors hsound hcount hentry hin)
  rw [← hrow] at hplace
  rw [hsound.degree_eq (hcount ▸ hkey)]
  exact ⟨hkey, (List.getElem?_eq_some_iff.1 hplace).1⟩

private theorem posts_unique {inboxes : Array (Inbox α)} {a b : Handle × Letter α}
    (ha : a ∈ posts graph (networkOf space graph) inboxes)
    (hb : b ∈ posts graph (networkOf space graph) inboxes)
    (hkey : a.2.key = b.2.key) (hrow : a.2.row = b.2.row) : a = b := by
  -- The row tells the sender, and sender and variable tell the message.
  apply Prod.ext
  · obtain ⟨f, hf, hfin, hfrow, -⟩ := exists_sender ha
    obtain ⟨g, hg, hgin, hgrow, -⟩ := exists_sender hb
    have hsender := mem_neighbors hsound hcount (mem_factors.2 hf) hfin
    have hother := mem_neighbors hsound hcount (mem_factors.2 hg) hgin
    rw [hfrow, hgrow, hkey] at hrow
    exact eq_of_rowOf_eq (hkey ▸ hsender) hother hrow
  · have hletter : ∀ post ∈ posts graph (networkOf space graph) inboxes,
        post.2 ∈ (networkOf space graph).stations.flatMap (·.letters inboxes) := by
      intro post hpost
      rw [← map_posts]
      exact List.mem_map_of_mem hpost
    exact letters_unique hsound hcount (hletter a ha) (hletter b hb) hkey hrow

/-- The row of a letter gets this letter and no other. -/
theorem filter_posts {inboxes : Array (Inbox α)} {post : Handle × Letter α}
    (hpost : post ∈ posts graph (networkOf space graph) inboxes) :
    (posts graph (networkOf space graph) inboxes).filter
      (fun other => other.2.key = post.2.key ∧ other.2.row = post.2.row) = [post] := by
  apply List.perm_singleton.1
  apply (List.perm_ext_iff_of_nodup ((nodup_posts inboxes).filter _) (List.nodup_singleton _)).2
  intro other
  rw [List.mem_filter, List.mem_singleton, decide_eq_true_eq]
  constructor
  · intro hother
    obtain ⟨hother, hkey, hrow⟩ := hother
    exact posts_unique hsound hcount hother hpost hkey hrow
  · rintro rfl
    exact ⟨hpost, rfl, rfl⟩

private theorem exists_post (inboxes : Array (Inbox α)) {key row : Nat} (hkey : key < space.length)
    (hrow : row < graph.degree key) : ∃ handle message inbox,
      storedRow? graph (networkOf space graph) key handle = some row ∧
      (posts graph (networkOf space graph) inboxes).filter
        (fun post => post.2.key = key ∧ post.2.row = row) = [(handle, ⟨key, row, message⟩)] ∧
      ((networkOf space graph).sweep inboxes)[key]? = some inbox ∧
      inbox.rows[row]? = some message := by
  have honto := (@bijOn_storedRow? α space graph hsound key (hcount ▸ hkey)).surjOn
  obtain ⟨handle, ⟨factor, hfactor, hin⟩, hstored⟩ := honto ⟨row, hrow, rfl⟩
  rw [storedRow?_eq hfactor hin] at hstored
  obtain rfl := Option.some.inj hstored
  obtain ⟨position, hposition⟩ := List.mem_iff_getElem?.1 hin
  have hpost : (handle, ⟨key, rowOf graph handle key, _⟩) ∈
      posts graph (networkOf space graph) inboxes :=
    mem_posts.2 ⟨factor, hfactor, mem_letters.2 ⟨position, key, hposition, rfl⟩⟩
  obtain ⟨inbox, hinbox, hwritten⟩ :=
    rows_sweep hsound hcount inboxes (mem_factors.2 hfactor) hposition
  exact ⟨handle, _, inbox, storedRow?_eq hfactor hin, filter_posts hsound hcount hpost, hinbox,
    hwritten⟩

theorem sweep_perm {stations : List (Station α)}
    (hperm : stations.Perm (networkOf space graph).stations) (inboxes : Array (Inbox α)) :
    ({ networkOf space graph with stations := stations } : Network α).sweep inboxes =
      (networkOf space graph).sweep inboxes := by
  have hletters := hperm.flatMap_right fun station => station.letters inboxes
  have hsame := foldl_deliver_perm hletters (fun a ha b hb => letters_unique hsound hcount
    (hletters.mem_iff.1 ha) (hletters.mem_iff.1 hb)) (networkOf space graph).blank
  rw [Network.sweep, Network.sweep, ← hsame]
  rfl

theorem candidates_perm {stations : List (Station α)}
    (hperm : stations.Perm (networkOf space graph).stations) (sweeps : Nat)
    (inboxes : Array (Inbox α)) :
    ({ networkOf space graph with stations := stations } : Network α).candidates sweeps inboxes =
      (networkOf space graph).candidates sweeps inboxes := by
  induction sweeps generalizing inboxes with
  | zero => rfl
  | succ sweeps ih =>
    rw [Network.candidates, Network.candidates, sweep_perm hsound hcount hperm, ih]

/-- A sweep over tables that have the sum as their last line. -/
theorem lines_sweep (inboxes : Array (Inbox α)) :
    ((networkOf space graph).sweep inboxes).map Inbox.lines =
      (((posts graph (networkOf space graph) inboxes).map Prod.snd).foldl Letter.write
        ((networkOf space graph).blank.map Inbox.lines)).map settle := by
  have hrow : ∀ letter ∈ (posts graph (networkOf space graph) inboxes).map Prod.snd, ∀ inbox,
      (networkOf space graph).blank[letter.key]? = some inbox → letter.row < inbox.rows.size := by
    intro letter hletter inbox hinbox
    obtain ⟨⟨handle, _⟩, hpost, rfl⟩ := List.mem_map.1 hletter
    obtain ⟨hkey, hlt⟩ := row_lt_of_mem_posts hsound hcount hpost
    rw [getElem?_blank hkey] at hinbox
    cases hinbox
    rw [hsound.degree_eq (hcount ▸ hkey)] at hlt
    simpa [Inbox.blank] using hlt
  -- No letter reaches the last line, so writing into the rows is writing into the table.
  rw [← lines_foldl_deliver hrow, map_posts, Network.sweep, Array.map_map, Array.map_map]
  congr 1
  funext inbox
  exact (settle_lines inbox).symm

end Written

/-- What is promised of the rows of a network. -/
structure PrivateRows [Payoff α] (space : Space) (graph : FactorGraph (List α))
    (network : Network α) : Prop where
  /-- A variable has a row for each of its factors, and the sum of the rows behind them. -/
  blank : ∀ key < space.length,
    network.blank[key]? = some (.blank (graph.degree key) (space.domain key))
  /-- The rows that its factors have stored for a variable are its rows, each for one factor. -/
  stored : ∀ key < space.length, Set.BijOn (storedRow? graph network key)
    {handle | ∃ factor, graph.factor? handle = some factor ∧ key ∈ factor.scope.keys}
    (some '' Set.Iio (graph.degree key))
  /-- What a factor has stored was found among the neighbors of the variable. -/
  found : ∀ {handle factor}, graph.factor? handle = some factor → ∀ key ∈ factor.scope.keys,
    ∃ row, (graph.neighbors key).idxOf? handle = some row ∧
      storedRow? graph network key handle = some row
  /-- A letter goes to the row that its factor has stored, and fills it. -/
  addressed : ∀ inboxes handle letter, (handle, letter) ∈ posts graph network inboxes →
    letter.key < space.length ∧ letter.row < graph.degree letter.key ∧
      storedRow? graph network letter.key handle = some letter.row ∧
      letter.message.size = space.domain letter.key
  /-- Where the sum is the last line of a table, a sweep writes these letters, none of them into the
  sum, and then the sums. -/
  lines : ∀ inboxes, (network.sweep inboxes).map Inbox.lines =
    (((posts graph network inboxes).map Prod.snd).foldl Letter.write
      (network.blank.map Inbox.lines)).map settle
  /-- Every row is written once, by the factor that has stored it, and then has what was written. -/
  written : ∀ inboxes, ∀ key < space.length, ∀ row < graph.degree key, ∃ handle message inbox,
    storedRow? graph network key handle = some row ∧
    (posts graph network inboxes).filter
      (fun post => post.2.key = key ∧ post.2.row = row) = [(handle, ⟨key, row, message⟩)] ∧
    (network.sweep inboxes)[key]? = some inbox ∧ inbox.rows[row]? = some message
  /-- The stations may have their turns in any order. -/
  reordered : ∀ stations : List (Station α), stations.Perm network.stations → ∀ inboxes,
    { network with stations := stations }.sweep inboxes = network.sweep inboxes ∧
      ∀ sweeps, { network with stations := stations }.candidates sweeps inboxes =
        network.candidates sweeps inboxes

/-- On every graph that max-plus accepts, whatever its history, the rows of a variable belong to its
factors one to one, and are found and not made up. So a sweep writes every row once and leaves the
sums alone, and it comes out the same whichever factor has its turn first. -/
theorem rows_private [Payoff α] {varCount : Nat} {log : List (Event (List α))}
    {graph : FactorGraph (List α)} (hgraph : History varCount log graph) {space : Space}
    {iterations : Nat} {result : Solution α × Report}
    (haccepted : solveGraph iterations space graph = .ok result) :
    ∃ network, Network.ofGraph? space graph = some network ∧ PrivateRows space graph network := by
  have hsound := hgraph.sound
  obtain ⟨-, hcount, -⟩ := accepted_of_solveGraph haccepted
  refine ⟨networkOf space graph, ofGraph?_eq hsound hcount, ?_⟩
  constructor
  case blank =>
    intro key hkey
    rw [hsound.degree_eq (hcount ▸ hkey)]
    exact getElem?_blank hkey
  case stored => exact fun key hkey => bijOn_storedRow? hsound (hcount ▸ hkey)
  case found =>
    intro handle factor hfactor key hkey
    obtain ⟨row, hrow, -⟩ := exists_row hsound hcount (mem_factors.2 hfactor) hkey
    refine ⟨row, hrow, ?_⟩
    rw [storedRow?_eq hfactor hkey, rowOf, hrow, Option.getD_some]
  case addressed =>
    intro inboxes handle letter hpost
    obtain ⟨factor, hfactor, hin, hrow, hsize⟩ := exists_sender hpost
    obtain ⟨hkey, hlt⟩ := row_lt_of_mem_posts hsound hcount hpost
    refine ⟨hkey, hlt, ?_, hsize⟩
    rw [storedRow?_eq hfactor hin, hrow]
  case lines => exact lines_sweep hsound hcount
  case written => exact fun inboxes _ hkey _ hrow => exists_post hsound hcount inboxes hkey hrow
  case reordered =>
    intro stations hperm inboxes
    exact ⟨sweep_perm hsound hcount hperm inboxes,
      fun sweeps => candidates_perm hsound hcount hperm sweeps inboxes⟩

/-- Where slots and serials are in different orders, the first station has the second row. -/
theorem rows_private_detour : ∃ graph : FactorGraph (List Rat), Reachable 4 graph ∧
    graph.factors.map Prod.fst = [⟨2, 4⟩, ⟨1, 5⟩] ∧ ∃ network,
      Network.ofGraph? [2, 2, 2, 3] graph = some network ∧
      PrivateRows [2, 2, 2, 3] graph network ∧
      storedRow? graph network 1 ⟨2, 4⟩ = some 1 ∧ storedRow? graph network 1 ⟨1, 5⟩ = some 0 := by
  obtain ⟨graph, hgraph, hfactors⟩ := exists_detour
  obtain ⟨log, hlog⟩ := hgraph.history
  have hsound := hgraph.sound
  have hcount : graph.varCount = [2, 2, 2, 3].length := hgraph.varCount_eq
  have htabled : Tabled [2, 2, 2, 3] graph := by
    apply tabled_iff.2
    rw [hfactors]
    rfl
  have hsolve := solveGraph_of_tabled (by decide) hsound hcount htabled 3
  have hneighbors : graph.neighbors 1 = [⟨1, 5⟩, ⟨2, 4⟩] := by
    have hkey : 1 < graph.varCount := by
      rw [hcount]
      decide
    have hperm := hsound.neighbors_perm hkey
    rw [hfactors] at hperm
    apply (hperm.trans (List.Perm.swap _ _ [])).eq_of_pairwise _ (hsound.sorted 1 hkey)
    · decide
    · intro a b _ _ hab hba
      exact absurd hab hba.asymm
  obtain ⟨network, hnetwork, hrows⟩ := rows_private hlog hsolve
  have hstored : ∀ entry ∈ graph.factors, 1 ∈ entry.2.scope.keys →
      storedRow? graph network 1 entry.1 = (graph.neighbors 1).idxOf? entry.1 := by
    intro entry hentry hkey
    obtain ⟨row, hrow, hsame⟩ := hrows.found (mem_factors.1 hentry) 1 hkey
    rw [hrow, hsame]
  rw [hneighbors, hfactors] at hstored
  refine ⟨graph, hgraph, by rw [hfactors]; rfl, network, hnetwork, hrows, ?_, ?_⟩
  · exact hstored (⟨2, 4⟩, ⟨linkScope 1, 2, [0, 0, 0, 3]⟩) (by simp) (by decide)
  · exact hstored (⟨1, 5⟩, ⟨linkScope 0, 1, [0, 0, 0, 2]⟩) (by simp) (by decide)

end JointDecision.MaxPlus

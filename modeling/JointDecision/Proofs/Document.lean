import JointDecision.Document.Read
import JointDecision.Document.Write
import JointDecision.Proofs.Assignment

/-! # What is stored and read again

Numbers, lists and scopes have one written form each, so a document is read as one of them only if
it is that form. A compound has the form of an object, with its fields in any order and others
between them, and that of a list. What is read can be stored, and what is stored is read as it
was. -/

namespace JointDecision

open Document (maxWord)

structure Scope.Storable (scope : Scope) : Prop where
  nonempty : scope.keys ≠ []
  key_lt : ∀ key ∈ scope.keys, key < maxWord

structure Assignment.Storable (a : Assignment) : Prop where
  scope : a.scope.Storable
  value_le : ∀ value ∈ a.values, value ≤ maxWord

structure Rule.Storable {α : Type} (rule : Rule α) : Prop where
  assignment : rule.assignment.Storable
  tag_le : ∀ tag ∈ rule.tags, tag.1 ≤ maxWord ∧ tag.2 ≤ maxWord

def Solution.Storable {α : Type} (solution : Solution α) : Prop :=
  ∀ value ∈ solution.assignment, value ≤ maxWord

namespace Document

variable {α β γ : Type}

theorem bind_eq_ok {ε : Type} {result : Except ε β} {rest : β → Except ε γ} {value : γ} :
    (result >>= rest) = .ok value ↔ ∃ first, result = .ok first ∧ rest first = .ok value := by
  cases result with
  | error failure => exact ⟨(nomatch ·), fun ⟨_, h, _⟩ => nomatch h⟩
  | ok first => exact ⟨fun h => ⟨first, rfl, h⟩, fun ⟨_, h, hrest⟩ => Except.ok.inj h ▸ hrest⟩

/-- Whether a document is read as a value only if the value is written so, and can be. -/
def Canonical (read : Document α → Except ReadError β) (write : β → Document α)
    (storable : β → Prop) : Prop :=
  ∀ document value, read document = .ok value ↔ document = write value ∧ storable value

private theorem canonical_word :
    Canonical (readWord (α := α)) (fun n => .whole (Int.ofNat n)) (· ≤ maxWord) := by
  intro document value
  unfold readWord
  split
  · split
    · grind
    · grind
  · rename_i hword
    exact ⟨(nomatch ·), fun h => (hword value h.1).elim⟩

private theorem mapM_eq_ok {read : Document α → Except ReadError β} {write : β → Document α}
    {storable : β → Prop} (h : Canonical read write storable) {items : List (Document α)}
    {values : List β} : items.mapM read = .ok values ↔
      items = values.map write ∧ ∀ value ∈ values, storable value := by
  induction items generalizing values with
  | nil => cases values <;> simp [pure, Except.pure]
  | cons item items ih =>
    simp only [List.mapM_cons, bind_eq_ok, h _ _, ih]
    cases values with
    | nil => simp [pure, Except.pure]
    | cons value values =>
      simp only [List.map_cons, List.cons.injEq, List.forall_mem_cons]
      constructor
      · rintro ⟨_, ⟨rfl, hvalue⟩, _, ⟨rfl, hvalues⟩, hsame⟩
        cases hsame
        exact ⟨⟨rfl, rfl⟩, hvalue, hvalues⟩
      · rintro ⟨⟨rfl, rfl⟩, hvalue, hvalues⟩
        exact ⟨value, ⟨rfl, hvalue⟩, values, ⟨rfl, hvalues⟩, rfl⟩

theorem Canonical.items {read : Document α → Except ReadError β} {write : β → Document α}
    {storable : β → Prop} (h : Canonical read write storable) :
    Canonical (readList read) (fun values => .list (values.map write))
      (fun values => ∀ value ∈ values, storable value) := by
  intro document values
  unfold readList
  split
  · rw [mapM_eq_ok h, Document.list.injEq]
  · rename_i hlist
    exact ⟨(nomatch ·), fun h => (hlist _ h.1).elim⟩

theorem canonical_words :
    Canonical (readList readWord) (writeWords (α := α)) (∀ word ∈ ·, word ≤ maxWord) :=
  canonical_word.items

private theorem canonical_pair :
    Canonical (readPair (α := α)) (fun tag => writeWords [tag.1, tag.2])
    (fun tag => tag.1 ≤ maxWord ∧ tag.2 ≤ maxWord) := by
  rintro document ⟨key, value⟩
  unfold readPair
  split
  · simp only [bind_eq_ok, canonical_word _ _, writeWords, List.map_cons, List.map_nil,
      Document.list.injEq, List.cons.injEq, and_true]
    constructor
    · rintro ⟨_, ⟨rfl, hkey⟩, _, ⟨rfl, hvalue⟩, hsame⟩
      cases hsame
      exact ⟨⟨rfl, rfl⟩, hkey, hvalue⟩
    · rintro ⟨⟨rfl, rfl⟩, hkey, hvalue⟩
      exact ⟨key, ⟨rfl, hkey⟩, value, ⟨rfl, hvalue⟩, rfl⟩
  · rename_i hpair
    exact ⟨(nomatch ·), fun h => (hpair _ _ h.1).elim⟩

theorem canonical_scope : Canonical (readScope (α := α)) writeScope Scope.Storable := by
  intro document scope
  rw [readScope, bind_eq_ok]
  constructor
  · rintro ⟨keys, hkeys, hscope⟩
    obtain ⟨rfl, -⟩ := (canonical_words _ _).1 hkeys
    cases hread : Scope.ofList keys maxWord with
    | error failure =>
      rw [hread] at hscope
      cases hscope
    | ok other =>
      rw [hread] at hscope
      cases hscope
      obtain ⟨rfl, hnonempty, hlt⟩ := Scope.ofList_eq_ok.1 hread
      exact ⟨rfl, hnonempty, hlt⟩
  · rintro ⟨rfl, hscope⟩
    refine ⟨scope.keys, (canonical_words _ _).2 ⟨rfl, ?_⟩, ?_⟩
    · exact fun key hkey => Nat.le_of_lt (hscope.key_lt key hkey)
    · rw [Scope.ofList_eq_ok.2 ⟨rfl, hscope.nonempty, hscope.key_lt⟩]
      rfl

def Carries (document : Document α) (names : List String) (parts : List (Document α)) : Prop :=
  (∃ fields, document = .object fields ∧ names.map (field? fields) = parts.map some) ∨
    document = .list parts

theorem readPart_eq_ok {read : Document α → Except ReadError β} {part? : Option (Document α)}
    {value : β} : readPart read part? = .ok (some value) ↔
      ∃ part, part? = some part ∧ read part = .ok value := by
  cases part? with
  | none => simp [readPart]
  | some part =>
    rw [readPart]
    cases hread : read part <;> simp [Except.map, hread]

private theorem joinAssignment_eq_ok {scope? : Option Scope} {values? : Option (List Nat)}
    {a : Assignment} : joinAssignment scope? values? = .ok a ↔
      scope? = some a.scope ∧ values? = some a.values := by
  rcases scope? with _ | scope
  · simp [joinAssignment]
  rcases values? with _ | values
  · simp [joinAssignment]
  rw [joinAssignment]
  split
  · rename_i hsize
    constructor
    · intro h
      obtain rfl := Except.ok.inj h
      rw [Assignment.scope_pairing hsize, Assignment.values_pairing hsize]
      exact ⟨rfl, rfl⟩
    · rintro ⟨hscope, hvalues⟩
      cases hscope
      cases hvalues
      rw [Except.ok.injEq, Assignment.pairing_scope_values]
  · rename_i hsize
    refine ⟨(nomatch ·), ?_⟩
    rintro ⟨hscope, hvalues⟩
    cases hscope
    cases hvalues
    simp [Assignment.scope, Assignment.values, Scope.size] at hsize

private theorem joinRule_eq_ok {assignment? : Option Assignment} {payoff? : Option α}
    {tags? : Option (List (Nat × Nat))} {rule : Rule α} :
    joinRule assignment? payoff? tags? = .ok rule ↔ assignment? = some rule.assignment ∧
      payoff? = some rule.payoff ∧ tags? = some rule.tags := by
  cases rule
  cases assignment? <;> cases payoff? <;> cases tags? <;> simp [joinRule]

private theorem joinSolution_eq_ok {assignment? : Option (List Nat)} {payoff? : Option α}
    {solution : Solution α} : joinSolution assignment? payoff? = .ok solution ↔
      assignment? = some solution.assignment ∧ payoff? = some solution.payoff := by
  cases solution
  cases assignment? <;> cases payoff? <;> simp [joinSolution]

@[simp] theorem carries_object {fields : List (String × Document α)} {names : List String}
    {parts : List (Document α)} :
    (Document.object fields).Carries names parts ↔ names.map (field? fields) = parts.map some := by
  simp [Carries]

@[simp] theorem carries_list {items parts : List (Document α)} {names : List String} :
    (Document.list items).Carries names parts ↔ items = parts := by
  simp [Carries]

theorem if_length_eq_ok {items : List (Document α)} {count : Nat} {result : Except ReadError β}
    {value : β} : (if items.length = count then result else throw .malformed) = .ok value ↔
      items.length = count ∧ result = .ok value := by
  split <;> simp_all [throw, throwThe, MonadExceptOf.throw]

/-- An object has the parts of a list that lists its fields. -/
theorem carries_object_iff_list {fields : List (String × Document α)} {items : List (Document α)}
    {names : List String} (h : names.map (field? fields) = items.map some)
    {parts : List (Document α)} :
    (Document.object fields).Carries names parts ↔ (Document.list items).Carries names parts := by
  rw [carries_object, carries_list, h]
  exact List.map_inj_right fun _ _ => Option.some.inj

theorem readAssignment_eq_ok {document : Document α} {a : Assignment} :
    readAssignment document = .ok a ↔
      ∃ keys values, document.Carries ["keys", "values"] [keys, values] ∧
        readScope keys = .ok a.scope ∧ readList readWord values = .ok a.values := by
  cases document with
  | object fields =>
    simp only [readAssignment, bind_eq_ok, joinAssignment_eq_ok, ↓existsAndEq, readPart_eq_ok,
      and_true, carries_object, List.map_cons, List.map_nil, List.cons.injEq]
    grind
  | list items =>
    simp only [readAssignment, bind_eq_ok, if_length_eq_ok, joinAssignment_eq_ok, carries_list]
    by_cases hlength : items.length = 2
    · obtain ⟨keys, values, rfl⟩ := List.length_eq_two.1 hlength
      simp [readPart_eq_ok]
    · simp only [hlength, false_and, and_false, exists_const, false_iff]
      rintro ⟨_, _, rfl, -⟩
      exact hlength rfl
  | _ => simp [readAssignment, Carries]

theorem readRule_eq_ok [Payoff α] {document : Document α} {rule : Rule α} :
    readRule document = .ok rule ↔ ∃ assignment payoff tags,
      document.Carries ["assignment", "value", "tags"] [assignment, payoff, tags] ∧
        readAssignment assignment = .ok rule.assignment ∧ readPayoff payoff = .ok rule.payoff ∧
        readList readPair tags = .ok rule.tags := by
  cases document with
  | object fields =>
    simp only [readRule, bind_eq_ok, joinRule_eq_ok, ↓existsAndEq, readPart_eq_ok, and_true,
      carries_object, List.map_cons, List.map_nil, List.cons.injEq]
    grind
  | list items =>
    simp only [readRule, bind_eq_ok, if_length_eq_ok, joinRule_eq_ok, carries_list]
    by_cases hlength : items.length = 3
    · obtain ⟨assignment, payoff, tags, rfl⟩ := List.length_eq_three.1 hlength
      simp [readPart_eq_ok]
    · simp only [hlength, false_and, and_false, exists_const, false_iff]
      rintro ⟨_, _, _, rfl, -⟩
      exact hlength rfl
  | _ => simp [readRule, Carries]

theorem readSolution_eq_ok [Payoff α] {document : Document α} {solution : Solution α} :
    readSolution document = .ok solution ↔ ∃ assignment payoff,
      document.Carries ["assignment", "value"] [assignment, payoff] ∧
        readList readWord assignment = .ok solution.assignment ∧
        readPayoff payoff = .ok solution.payoff := by
  cases document with
  | object fields =>
    simp only [readSolution, bind_eq_ok, joinSolution_eq_ok, ↓existsAndEq, readPart_eq_ok, and_true,
      carries_object, List.map_cons, List.map_nil, List.cons.injEq]
    grind
  | list items =>
    simp only [readSolution, bind_eq_ok, if_length_eq_ok, joinSolution_eq_ok, carries_list]
    by_cases hlength : items.length = 2
    · obtain ⟨assignment, payoff, rfl⟩ := List.length_eq_two.1 hlength
      simp [readPart_eq_ok]
    · simp only [hlength, false_and, and_false, exists_const, false_iff]
      rintro ⟨_, _, rfl, -⟩
      exact hlength rfl
  | _ => simp [readSolution, Carries]

theorem storable_of_readAssignment {document : Document α} {a : Assignment}
    (h : readAssignment document = .ok a) : a.Storable := by
  obtain ⟨keys, values, -, hkeys, hvalues⟩ := readAssignment_eq_ok.1 h
  exact ⟨((canonical_scope _ _).1 hkeys).2, ((canonical_words _ _).1 hvalues).2⟩

private theorem storable_of_readRule [Payoff α] {document : Document α} {rule : Rule α}
    (h : readRule document = .ok rule) : rule.Storable := by
  obtain ⟨_, _, _, -, hassignment, -, htags⟩ := readRule_eq_ok.1 h
  exact ⟨storable_of_readAssignment hassignment, ((canonical_pair.items _ _).1 htags).2⟩

private theorem storable_of_readSolution [Payoff α] {document : Document α} {solution : Solution α}
    (h : readSolution document = .ok solution) : solution.Storable := by
  obtain ⟨_, _, -, hassignment, -⟩ := readSolution_eq_ok.1 h
  exact ((canonical_words _ _).1 hassignment).2

theorem readAssignment_write {a : Assignment} (h : a.Storable) :
    readAssignment (writeAssignment a : Document α) = .ok a := by
  refine readAssignment_eq_ok.2 ⟨_, _, carries_object.2 rfl, ?_, ?_⟩
  · exact (canonical_scope _ _).2 ⟨rfl, h.scope⟩
  · exact (canonical_words _ _).2 ⟨rfl, h.value_le⟩

theorem readRule_write [Payoff α] {rule : Rule α} (h : rule.Storable) :
    readRule (writeRule rule) = .ok rule := by
  refine readRule_eq_ok.2 ⟨_, _, _, carries_object.2 rfl, ?_, rfl, ?_⟩
  · exact readAssignment_write h.assignment
  · exact (canonical_pair.items _ _).2 ⟨rfl, h.tag_le⟩

theorem readSolution_write [Payoff α] {solution : Solution α} (h : solution.Storable) :
    readSolution (writeSolution solution) = .ok solution :=
  readSolution_eq_ok.2 ⟨_, _, carries_object.2 rfl, (canonical_words _ _).2 ⟨rfl, h⟩, rfl⟩

end Document

open Document (field? readScope readAssignment readRule readSolution writeWords writeScope
  writeAssignment writeRule writeSolution)

/-- The assignments that a caller can make: over a space of numbers of 64 bits, of two others, and
of documents. -/
inductive Assignment.Built (α : Type) : Assignment → Prop
  | ofLists {space : Space} {keys values : List Nat} {a : Assignment} :
      space.length ≤ maxWord → (∀ size ∈ space, size ≤ maxWord) →
      Assignment.ofLists space keys values = .ok a → a.Built α
  | ofPairs {space : Space} {pairs : List (Nat × Nat)} {a : Assignment} :
      space.length ≤ maxWord → (∀ size ∈ space, size ≤ maxWord) →
      Assignment.ofPairs space pairs = .ok a → a.Built α
  | join {a b : Assignment} : a.Built α → b.Built α → (a.join b).Built α
  | read {document : Document α} {a : Assignment} : readAssignment document = .ok a → a.Built α

inductive Scope.Built (α : Type) : Scope → Prop
  | ofList {keys : List Nat} {varCount : Nat} {scope : Scope} :
      varCount ≤ maxWord → Scope.ofList keys varCount = .ok scope → scope.Built α
  | ofUnsorted {keys : List Nat} {varCount : Nat} {scope : Scope} :
      varCount ≤ maxWord → Scope.ofUnsorted keys varCount = .ok scope → scope.Built α
  | ofAssignment {a : Assignment} : a.Built α → a.scope.Built α
  | read {document : Document α} {scope : Scope} : readScope document = .ok scope → scope.Built α

inductive Rule.Built {α : Type} [Payoff α] : Rule α → Prop
  | new {a : Assignment} (payoff : α) : a.Built α → Rule.Built ⟨a, payoff, []⟩
  | read {document : Document α} {rule : Rule α} : readRule document = .ok rule → rule.Built

theorem Assignment.Over.storable {a : Assignment} {space : Space} (h : a.Over space)
    (hlength : space.length ≤ maxWord) (hsizes : ∀ size ∈ space, size ≤ maxWord) :
    a.Storable := by
  refine ⟨⟨by simpa [Assignment.scope] using h.nonempty, ?_⟩, ?_⟩
  · intro key hkey
    exact Nat.lt_of_lt_of_le (h.keys_lt key hkey) hlength
  · intro value hvalue
    obtain ⟨entry, hentry, rfl⟩ := List.mem_map.1 hvalue
    have hdomain : space.domain entry.1 ∈ space :=
      List.mem_of_getElem? (Space.getElem?_eq_domain (h.key_lt entry hentry))
    exact Nat.le_of_lt (Nat.lt_of_lt_of_le (h.value_lt entry hentry) (hsizes _ hdomain))

theorem Assignment.Storable.join {a b : Assignment} (ha : a.Storable) (hb : b.Storable) :
    (a.join b).Storable := by
  have hkeys : (a.join b).scope.keys = mergeKeys a.scope.keys b.scope.keys :=
    map_fst_joinEntries a.entries b.entries
  refine ⟨⟨?_, ?_⟩, ?_⟩
  · obtain ⟨key, hkey⟩ := List.exists_mem_of_ne_nil _ ha.scope.nonempty
    exact List.ne_nil_of_mem (hkeys ▸ mem_mergeKeys.2 (.inl hkey))
  · intro key hkey
    rw [hkeys] at hkey
    exact (mem_mergeKeys.1 hkey).elim (ha.scope.key_lt key) (hb.scope.key_lt key)
  · intro value hvalue
    obtain ⟨entry, hentry, rfl⟩ := List.mem_map.1 hvalue
    rcases mem_joinEntries hentry with hentry | hentry
    · exact ha.value_le _ (List.mem_map_of_mem hentry)
    · exact hb.value_le _ (List.mem_map_of_mem hentry)

theorem Assignment.Built.storable {α : Type} {a : Assignment} (h : a.Built α) : a.Storable := by
  induction h with
  | ofLists hlength hsizes hread =>
    exact (Assignment.ofLists_spec hread).2.2.storable hlength hsizes
  | ofPairs hlength hsizes hread =>
    exact (Assignment.ofLists_spec hread).2.2.storable hlength hsizes
  | join _ _ iha ihb => exact iha.join ihb
  | read hread => exact Document.storable_of_readAssignment hread

theorem Scope.Built.storable {α : Type} {scope : Scope} (h : scope.Built α) :
    scope.Storable := by
  have hlist : ∀ {keys : List Nat} {varCount : Nat} {scope : Scope}, varCount ≤ maxWord →
      Scope.ofList keys varCount = .ok scope → scope.Storable := by
    intro keys varCount scope hcount hread
    obtain ⟨rfl, hnonempty, hlt⟩ := Scope.ofList_eq_ok.1 hread
    exact ⟨hnonempty, fun key hkey => Nat.lt_of_lt_of_le (hlt key hkey) hcount⟩
  cases h with
  | ofList hcount hread => exact hlist hcount hread
  | ofUnsorted hcount hread => exact hlist hcount hread
  | ofAssignment ha => exact ha.storable.scope
  | read hread => exact ((Document.canonical_scope _ _).1 hread).2

theorem Rule.Built.storable {α : Type} [Payoff α] {rule : Rule α} (h : rule.Built) :
    rule.Storable := by
  cases h with
  | new payoff ha => exact ⟨ha.storable, by simp⟩
  | read hread => exact Document.storable_of_readRule hread

/-- A scope, an assignment, a rule or a solution that a caller can make is read as it was written.
What is read of any document can be stored, and read again it is the same: scopes have a first key,
increase and stay below the greatest number, and assignments have a value for every key. Compounds
are read of their parts, which are those of an object or of a list. -/
theorem documents_round_trip (α : Type) [Payoff α] :
    ((∀ scope : Scope, scope.Built α → readScope (writeScope scope : Document α) = .ok scope) ∧
      (∀ a : Assignment, a.Built α → readAssignment (writeAssignment a : Document α) = .ok a) ∧
      (∀ rule : Rule α, rule.Built → readRule (writeRule rule) = .ok rule) ∧
      (∀ solution : Solution α, (∀ value ∈ solution.assignment, value ≤ maxWord) →
        readSolution (writeSolution solution) = .ok solution)) ∧
    ((∀ (document : Document α) (scope : Scope), readScope document = .ok scope →
        scope.Storable ∧ scope.keys.Pairwise (· < ·) ∧
          readScope (writeScope scope : Document α) = .ok scope) ∧
      (∀ (document : Document α) (a : Assignment), readAssignment document = .ok a →
        a.scope.Storable ∧ a.scope.keys.Pairwise (· < ·) ∧
          a.values.length = a.scope.keys.length ∧
          document.Carries ["keys", "values"] [writeScope a.scope, writeWords a.values] ∧
          readAssignment (writeAssignment a : Document α) = .ok a) ∧
      (∀ (document : Document α) (rule : Rule α), readRule document = .ok rule →
        (∃ assignment payoff tags,
          document.Carries ["assignment", "value", "tags"] [assignment, payoff, tags] ∧
          readAssignment assignment = .ok rule.assignment) ∧
          rule.assignment.scope.Storable ∧ readRule (writeRule rule) = .ok rule) ∧
      (∀ (document : Document α) (solution : Solution α), readSolution document = .ok solution →
        readSolution (writeSolution solution) = .ok solution)) ∧
    (∀ (fields : List (String × Document α)) (items : List (Document α)),
      (["keys", "values"].map (field? fields) = items.map some → ∀ a : Assignment,
        readAssignment (.object fields) = .ok a ↔ readAssignment (.list items) = .ok a) ∧
      (["assignment", "value", "tags"].map (field? fields) = items.map some → ∀ rule : Rule α,
        readRule (.object fields) = .ok rule ↔ readRule (.list items) = .ok rule) ∧
      (["assignment", "value"].map (field? fields) = items.map some → ∀ solution : Solution α,
        readSolution (.object fields) = .ok solution ↔
          readSolution (.list items) = .ok solution)) := by
  refine ⟨⟨?_, ?_, ?_, ?_⟩, ⟨?_, ?_, ?_, ?_⟩, fun fields items => ⟨?_, ?_, ?_⟩⟩
  · exact fun scope hscope => (Document.canonical_scope _ _).2 ⟨rfl, hscope.storable⟩
  · exact fun a ha => Document.readAssignment_write ha.storable
  · exact fun rule hrule => Document.readRule_write hrule.storable
  · exact fun solution hsolution => Document.readSolution_write hsolution
  · intro document scope hread
    have hscope := ((Document.canonical_scope _ _).1 hread).2
    exact ⟨hscope, scope.increasing, (Document.canonical_scope _ _).2 ⟨rfl, hscope⟩⟩
  · intro document a hread
    have ha := Document.storable_of_readAssignment hread
    obtain ⟨keys, values, hparts, hkeys, hvalues⟩ := Document.readAssignment_eq_ok.1 hread
    obtain ⟨rfl, -⟩ := (Document.canonical_scope _ _).1 hkeys
    obtain ⟨rfl, -⟩ := (Document.canonical_words _ _).1 hvalues
    exact ⟨ha.scope, a.increasing, by simp [Assignment.values, Assignment.scope], hparts,
      Document.readAssignment_write ha⟩
  · intro document rule hread
    obtain ⟨assignment, payoff, tags, hparts, hassignment, -⟩ := Document.readRule_eq_ok.1 hread
    have hrule := Document.storable_of_readRule hread
    exact ⟨⟨assignment, payoff, tags, hparts, hassignment⟩, hrule.assignment.scope,
      Document.readRule_write hrule⟩
  · intro document solution hread
    exact Document.readSolution_write (Document.storable_of_readSolution hread)
  · intro hparts a
    simp only [Document.readAssignment_eq_ok, Document.carries_object_iff_list hparts]
  · intro hparts rule
    simp only [Document.readRule_eq_ok, Document.carries_object_iff_list hparts]
  · intro hparts solution
    simp only [Document.readSolution_eq_ok, Document.carries_object_iff_list hparts]

example : readRule (α := Rat) (.object [("note", .null),
    ("tags", .list [.list [.whole 4, .whole 0]]),
    ("assignment", .list [.list [.whole 0, .whole 2], .list [.whole 1, .whole 3]]),
    ("value", .whole 7)]) = .ok ⟨⟨[(0, 1), (2, 3)], by simp⟩, 7, [(4, 0)]⟩ := by
  rfl

end JointDecision

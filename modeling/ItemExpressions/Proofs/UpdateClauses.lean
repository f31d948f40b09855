import Mathlib.Logic.Relation
import ItemExpressions.Proofs.ClauseContents
import ItemExpressions.Proofs.DraftVerdicts
import ItemExpressions.Proofs.Rearrangement
import ItemExpressions.Proofs.WrittenParts

/-!
Updates by clauses. Changes of different clauses may change places, and no others. An update is
written clause by clause, a line for each that has changes. The changes are written one after the
other over the table that the one before leaves, so the lines have the texts of the changes in them,
each once and in order.
-/

namespace ItemExpressions

namespace Clause

def keyword : Clause → String
  | .add => "ADD"
  | .delete => "DELETE"
  | .remove => "REMOVE"
  | .set => "SET"

/-- The order in which clauses are written. -/
def inOrder : List Clause := [.add, .delete, .remove, .set]

def rank : Clause → Nat
  | .add => 0
  | .delete => 1
  | .remove => 2
  | .set => 3

theorem mem_inOrder (clause : Clause) : clause ∈ inOrder := by
  cases clause <;> decide

theorem inOrder_ranked : inOrder.Pairwise fun first second => first.rank < second.rank := by
  decide

end Clause

namespace Change

def phrase : Change → Phrase
  | .add path value | .delete path value => Update.valuePhrase (path, value)
  | .remove path => path.phrase
  | .set path operand => Update.assignmentPhrase (path, operand)

def paths : Change → List Path
  | .add path _ | .delete path _ | .remove path => [path]
  | .set path operand => path :: operand.paths

theorem phrase_fault (change : Change) :
    change.phrase.fault? = change.paths.findSome? Path.fault? := by
  cases change with
  | add path value | delete path value =>
      simp [phrase, paths, Update.valuePhrase, path.phrase_fault]
  | remove path => simp [phrase, paths, path.phrase_fault]
  | set path operand =>
      simp only [phrase, paths, Update.assignmentPhrase, Phrase.fault_append, Phrase.fault_text,
        Option.or_none, path.phrase_fault, operand.phrase_fault, List.findSome?_cons]
      cases path.fault? <;> rfl

end Change

namespace Clause

/-- The changes in the order in which they are written. -/
def sort (changes : List Change) : List Change :=
  inOrder.flatMap fun clause => clause.select changes

/-! ## Changes filed by their clauses -/

/-- A change joins those of its clause; if there are none, it opens an entry, in the order of the
clauses. -/
def file (change : Change) : List (Clause × List Change) → List (Clause × List Change)
  | [] => [(change.clause, [change])]
  | (clause, held) :: rest =>
      if change.clause = clause then (clause, held ++ [change]) :: rest
      else if change.clause.rank < clause.rank then
        (change.clause, [change]) :: (clause, held) :: rest
      else (clause, held) :: file change rest

def filed (changes : List Change) : List (Clause × List Change) :=
  changes.foldl (fun entries change => file change entries) []

/-- The clauses that have changes, each with all of them. -/
def entries (clauses : List Clause) (own : Clause → List Change) : List (Clause × List Change) :=
  (clauses.filter fun clause => own clause ≠ []).map fun clause => (clause, own clause)

theorem entries_cons (first : Clause) (rest : List Clause) (own : Clause → List Change) :
    entries (first :: rest) own =
      if own first = [] then entries rest own else (first, own first) :: entries rest own := by
  by_cases none : own first = [] <;> simp [entries, none]

theorem entries_congr (clauses : List Clause) (own more : Clause → List Change)
    (same : ∀ clause ∈ clauses, own clause = more clause) :
    entries clauses own = entries clauses more := by
  induction clauses with
  | nil => rfl
  | cons first rest ih =>
      obtain ⟨here, others⟩ := List.forall_mem_cons.mp same
      rw [entries_cons, entries_cons, here, ih others]

theorem file_first (change : Change) (table : List (Clause × List Change))
    (later : ∀ entry ∈ table, change.clause.rank < entry.1.rank) :
    file change table = (change.clause, [change]) :: table := by
  cases table with
  | nil => rfl
  | cons entry rest =>
      have behind := later entry List.mem_cons_self
      have other : change.clause ≠ entry.1 := fun same => by simp [same] at behind
      rw [file, if_neg other, if_pos behind]

/-- Only the entry of its own clause takes the change. -/
theorem file_entries (change : Change) (own more : Clause → List Change)
    (joined : ∀ clause, more clause = own clause ++ clause.select [change])
    (clauses : List Clause)
    (ranked : clauses.Pairwise fun first second => first.rank < second.rank)
    (member : change.clause ∈ clauses) :
    file change (entries clauses own) = entries clauses more := by
  have mine : more change.clause = own change.clause ++ [change] := by
    rw [joined, select, List.filter_cons_of_pos (by simp), List.filter_nil]
  have others (clause : Clause) (other : change.clause ≠ clause) : more clause = own clause := by
    rw [joined, select, List.filter_cons_of_neg (by simpa using other), List.filter_nil,
      List.append_nil]
  induction clauses with
  | nil => cases member
  | cons first rest ih =>
      obtain ⟨before, rankedRest⟩ := List.pairwise_cons.mp ranked
      rw [entries_cons, entries_cons]
      by_cases here : change.clause = first
      · have apart : ∀ clause ∈ rest, change.clause.rank < clause.rank := fun clause behind =>
          here ▸ before clause behind
        have later : ∀ clause ∈ rest, own clause = more clause := fun clause behind =>
          (others clause fun same => Nat.lt_irrefl _ (same ▸ apart clause behind)).symm
        have opened : ¬ own change.clause ++ [change] = [] := by simp
        rw [← entries_congr rest own more later, ← here, mine, if_neg opened]
        by_cases none : own change.clause = []
        · rw [if_pos none, none, file_first]
          · rfl
          · intro entry listed
            obtain ⟨clause, kept, rfl⟩ := List.mem_map.mp listed
            exact apart clause (List.mem_filter.mp kept).1
        · rw [if_neg none, file, if_pos rfl]
      · have inside : change.clause ∈ rest := (List.mem_cons.mp member).resolve_left here
        rw [others first here]
        by_cases none : own first = []
        · rw [if_pos none, if_pos none, ih rankedRest inside]
        · rw [if_neg none, if_neg none, file, if_neg here,
            if_neg (Nat.lt_asymm (before _ inside)), ih rankedRest inside]

theorem filed_eq (changes : List Change) :
    filed changes = entries inOrder fun clause => clause.select changes := by
  induction changes using List.reverseRecOn with
  | nil => rfl
  | append_singleton earlier last ih =>
      rw [filed, List.foldl_concat, ← filed, ih]
      exact file_entries last _ _ (fun clause => select_append clause earlier [last]) inOrder
        inOrder_ranked (mem_inOrder last.clause)

end Clause

namespace Update

/-! ## Changes that change places -/

/-- Two changes of different clauses that stand next to each other change places. -/
inductive Swap : List Change → List Change → Prop where
  | intro (before later : List Change) (first second : Change)
      (apart : first.clause ≠ second.clause) :
      Swap (before ++ first :: second :: later) (before ++ second :: first :: later)

theorem Swap.cons (change : Change) {first second : List Change} (swap : Swap first second) :
    Swap (change :: first) (change :: second) := by
  obtain ⟨before, later, one, other, apart⟩ := swap
  exact .intro (change :: before) later one other apart

theorem Swap.select {first second : List Change} (swap : Swap first second) (clause : Clause) :
    clause.select first = clause.select second := by
  obtain ⟨before, later, one, other, apart⟩ := swap
  by_cases here : one.clause = clause
  · have away : ¬ other.clause = clause := fun there => apart (here.trans there.symm)
    simp [Clause.select, here, away]
  · by_cases there : other.clause = clause <;> simp [Clause.select, here, there]

/-- A change moves to the front, past changes of other clauses. -/
theorem forward (front later : List Change) (change : Change)
    (apart : ∀ other ∈ front, other.clause ≠ change.clause) :
    Relation.ReflTransGen Swap (front ++ change :: later) (change :: front ++ later) := by
  induction front with
  | nil => exact .refl
  | cons first rest ih =>
      obtain ⟨here, others⟩ := List.forall_mem_cons.mp apart
      have moved := (ih others).lift (first :: ·) fun _ _ => Swap.cons first
      exact moved.tail (.intro [] (rest ++ later) first change here)

theorem swaps_of_select (first second : List Change)
    (same : ∀ clause : Clause, clause.select first = clause.select second) :
    Relation.ReflTransGen Swap second first := by
  induction first generalizing second with
  | nil =>
      have empty : second = [] := List.eq_nil_iff_forall_not_mem.mpr fun change member => by
        have kept : change ∈ change.clause.select second := List.mem_filter.mpr ⟨member, by simp⟩
        rw [← same] at kept
        cases kept
      rw [empty]
  | cons change rest ih =>
      have kept : change ∈ change.clause.select (change :: rest) :=
        List.mem_filter.mpr ⟨List.mem_cons_self, by simp⟩
      rw [same] at kept
      obtain ⟨front, later, rfl, absent⟩ := List.eq_append_cons_of_mem (List.mem_filter.mp kept).1
      have peeled (clause : Clause) :=
        filter_peel (fun other : Change => decide (other.clause = clause)) change rest front later
          absent (same clause)
      -- What stands in front of the first change of a clause is of other clauses.
      have moved := forward front later change fun other between => by
        simpa using (peeled change.clause).1 (by simp) other between
      have others := ih (front ++ later) fun clause => (peeled clause).2
      exact moved.trans (others.lift (change :: ·) fun _ _ => Swap.cons change)

theorem swaps_iff (first second : List Change) :
    Relation.ReflTransGen Swap first second ↔
      ∀ clause : Clause, clause.select first = clause.select second := by
  constructor
  · intro swaps clause
    induction swaps with
    | refl => rfl
    | tail _ last ih => exact ih.trans (last.select clause)
  · exact fun same => swaps_of_select second first fun clause => (same clause).symm

/-! ## Faults -/

theorem clause_fault (keyword : String) (changes : List Change) :
    (clause keyword (changes.map Change.phrase)).fault? =
      (changes.flatMap Change.paths).findSome? Path.fault? := by
  have listed := Phrase.fault_members _ _ Change.phrase_fault changes
  cases changes with
  | nil => rfl
  | cons first rest =>
      rw [clause, if_neg (by simp), Phrase.fault_append, Phrase.fault_append, Phrase.fault_text,
        Phrase.fault_text, Phrase.commaSeparated, Phrase.fault_separated, listed, Option.none_or,
        Option.or_none]

/-- The clauses in their order, where there is something in one of them. -/
theorem phrase_eq (update : Update) (given : update.isEmpty = false) :
    update.phrase = Clause.inOrder.flatMap fun each =>
      clause each.keyword ((update.changesIn each).map Change.phrase) := by
  simp [phrase, given, Clause.inOrder, Clause.keyword, changesIn, Change.phrase,
    Function.comp_def]

theorem phrase_fault (update : Update) (given : update.isEmpty = false) :
    update.phrase.fault? =
      (Clause.inOrder.flatMap fun each => (update.changesIn each).flatMap Change.paths).findSome?
        Path.fault? := by
  rw [update.phrase_eq given, Phrase.fault?, findSome?_flatMap, findSome?_flatMap]
  exact congrArg (List.findSome? · _) (funext fun each => clause_fault each.keyword _)

end Update

/-! ## Writing one after the other -/

/-- Each change has the text that it is written as over the table that the one before leaves. -/
inductive WrittenInTurn : Placeholders → List (Change × String) → Placeholders → Prop where
  | nil (table : Placeholders) : WrittenInTurn table [] table
  | cons {table middle last : Placeholders} {change : Change} {text : String}
      {rest : List (Change × String)} (head : change.phrase.write table = (.ok text, middle))
      (tail : WrittenInTurn middle rest last) : WrittenInTurn table ((change, text) :: rest) last

namespace WrittenInTurn

theorem append {table middle last : Placeholders} {first second : List (Change × String)}
    (begun : WrittenInTurn table first middle) (ended : WrittenInTurn middle second last) :
    WrittenInTurn table (first ++ second) last := by
  induction begun with
  | nil => exact ended
  | cons head _ ih => exact .cons head (ih ended)

theorem of_faultless (changes : List Change)
    (faultless : ∀ change ∈ changes, change.phrase.fault? = none) (table : Placeholders) :
    ∃ entries last, entries.map Prod.fst = changes ∧ WrittenInTurn table entries last := by
  induction changes generalizing table with
  | nil => exact ⟨[], table, rfl, .nil table⟩
  | cons first rest ih =>
      obtain ⟨here, others⟩ := List.forall_mem_cons.mp faultless
      obtain ⟨text, written⟩ := (first.phrase.write_returns table).mpr here
      obtain ⟨entries, last, listed, later⟩ := ih others (first.phrase.write table).2
      exact ⟨(first, text) :: entries, last, congrArg (first :: ·) listed,
        .cons (Prod.ext written rfl) later⟩

theorem separated (separator : String) {table last : Placeholders}
    {entries : List (Change × String)} (inTurn : WrittenInTurn table entries last) :
    (Phrase.separated separator (entries.map fun entry => entry.1.phrase)).write table =
      (.ok (separator.intercalate (entries.map Prod.snd)), last) := by
  induction inTurn with
  | nil => rfl
  | @cons _ _ _ change text rest head tail ih =>
      cases rest with
      | nil =>
          cases tail
          simpa [Phrase.separated] using head
      | cons next others =>
          have between := Phrase.write_append head (Phrase.write_text separator _)
          simpa [Phrase.separated, String.intercalate_cons_cons] using
            Phrase.write_append between ih

end WrittenInTurn

/-- A line of an update: changes of one clause, each with its text. -/
structure Line where
  clause : Clause
  entries : List (Change × String)

namespace Line

def changes (line : Line) : List Change := line.entries.map Prod.fst

def text (line : Line) : String :=
  line.clause.keyword ++ " " ++ ", ".intercalate (line.entries.map Prod.snd) ++ "\n"

end Line

/-- There is one line for each clause that has changes, and it has all of them, each once and in
order; the changes of all lines are written in turn. -/
structure Lined (own : Clause → List Change) (clauses : List Clause) (table : Placeholders)
    (lines : List Line) (last : Placeholders) : Prop where
  named : lines.map Line.clause = clauses.filter fun clause => own clause ≠ []
  held : ∀ line ∈ lines, line.changes = own line.clause
  inTurn : WrittenInTurn table (lines.flatMap Line.entries) last

namespace Update

theorem clause_written (line : Line) (given : line.entries ≠ []) {table last : Placeholders}
    (inTurn : WrittenInTurn table line.entries last) :
    (clause line.clause.keyword (line.changes.map Change.phrase)).write table =
      (.ok line.text, last) := by
  have some : (line.changes.map Change.phrase).isEmpty = false := by
    simpa [Line.changes] using given
  have listed := inTurn.separated ", "
  have keyword := Phrase.write_append (Phrase.write_text (line.clause.keyword ++ " ") table) listed
  have whole := Phrase.write_append keyword (Phrase.write_text "\n" last)
  rw [clause, some, Line.changes, List.map_map]
  exact whole

/-- Clauses without changes leave no trace. -/
theorem clauses_written (own : Clause → List Change)
    (faultless : ∀ clause, ∀ change ∈ own clause, change.phrase.fault? = none)
    (clauses : List Clause) (table : Placeholders) :
    ∃ lines last, Lined own clauses table lines last ∧
      Phrase.write (clauses.flatMap fun each =>
        clause each.keyword ((own each).map Change.phrase)) table =
          (.ok (String.join (lines.map Line.text)), last) := by
  induction clauses generalizing table with
  | nil => exact ⟨[], table, ⟨rfl, List.forall_mem_nil _, .nil table⟩, rfl⟩
  | cons first rest ih =>
      by_cases none : own first = []
      · obtain ⟨lines, last, lined, written⟩ := ih table
        refine ⟨lines, last, ⟨?_, lined.held, lined.inTurn⟩, ?_⟩
        · simpa [none] using lined.named
        · simpa [none, clause] using written
      · obtain ⟨entries, middle, listed, here⟩ :=
          WrittenInTurn.of_faultless (own first) (faultless first) table
        obtain ⟨lines, last, lined, written⟩ := ih middle
        have given : entries ≠ [] := fun empty => none (by rw [← listed, empty]; rfl)
        have opened := clause_written ⟨first, entries⟩ given here
        refine ⟨⟨first, entries⟩ :: lines, last, ⟨?_, ?_, here.append lined.inTurn⟩, ?_⟩
        · simpa [none] using lined.named
        · exact List.forall_mem_cons.mpr ⟨listed, lined.held⟩
        · rw [List.flatMap_cons, List.map_cons, String.join_cons, ← listed]
          exact Phrase.write_append opened written

/-- Updates are the same just when they have the same changes in each clause, that is, when changes
of different clauses have changed places and no others. Only an update without changes is empty, and
changes that are filed one by one leave no entry without changes. Any other update fails at the
first path that is refused, in the order in which the changes are written, or has a line for each
clause with changes, and in it each of these once, in the order in which they were asked for. -/
theorem clauses_decide (changes : List Change) :
    (∀ others, ofChanges changes = ofChanges others ↔
      ∀ clause : Clause, clause.select changes = clause.select others) ∧
    (∀ others, ofChanges changes = ofChanges others ↔
      Relation.ReflTransGen Swap changes others) ∧
    ((ofChanges changes).isEmpty = true ↔ changes = []) ∧
    Clause.filed changes = Clause.entries Clause.inOrder (Clause.select · changes) ∧
    (changes ≠ [] → ∀ table,
      (∀ fault, ((ofChanges changes).phrase.write table).1 = .error fault ↔
        ((Clause.sort changes).flatMap Change.paths).findSome? Path.fault? = some fault) ∧
      ((∀ path ∈ (Clause.sort changes).flatMap Change.paths, path.fault? = none) →
        ∃ lines last, Lined (Clause.select · changes) Clause.inOrder table lines last ∧
          (ofChanges changes).phrase.write table =
            (.ok (String.join (lines.map Line.text)), last))) := by
  refine ⟨fun others => ofChanges_eq_iff changes others, fun others => ?_,
    ofChanges_isEmpty changes, Clause.filed_eq changes, fun some table => ?_⟩
  · rw [ofChanges_eq_iff, swaps_iff]
  have given : (ofChanges changes).isEmpty = false :=
    Bool.eq_false_iff.mpr fun empty => some ((ofChanges_isEmpty changes).mp empty)
  constructor
  · intro fault
    rw [Phrase.write_error, phrase_fault _ given, Clause.sort, List.flatMap_assoc]
    simp only [changesIn_ofChanges]
  · intro accepted
    have faultless : ∀ clause : Clause, ∀ change ∈ clause.select changes,
        change.phrase.fault? = none := by
      intro clause change member
      rw [change.phrase_fault, List.findSome?_eq_none_iff]
      intro path inside
      have sorted : change ∈ Clause.sort changes :=
        List.mem_flatMap.mpr ⟨clause, Clause.mem_inOrder clause, member⟩
      exact accepted path (List.mem_flatMap.mpr ⟨change, sorted, inside⟩)
    rw [phrase_eq _ given]
    simp only [changesIn_ofChanges]
    exact clauses_written (fun clause => clause.select changes) faultless Clause.inOrder table

/-- Changes of all four clauses, with two assignments. -/
def mixed : List Change := [
  .set ⟨"name"⟩ (.literal (.string "x")), .remove ⟨"old"⟩, .delete ⟨"tags"⟩ (.stringSet ["a"]),
  .add ⟨"count"⟩ (.number "1"), .set ⟨"other"⟩ (.path ⟨"count"⟩)]

/-- The first path that is refused belongs to the later change, as additions are written first. -/
def refused : List Change := [.set ⟨"a"⟩ (.path ⟨"b..c"⟩), .add ⟨""⟩ (.number "1")]

theorem mixed_and_refused_clauses :
    mixed ≠ [] ∧ refused ≠ [] ∧ ofChanges mixed ≠ ofChanges mixed.reverse ∧
      (∃ lines last, Lined (Clause.select · mixed) Clause.inOrder .empty lines last ∧
        String.join (lines.map Line.text) =
          "ADD #0 :0\nDELETE #1 :1\nREMOVE #2\nSET #3 = :2, #4 = #0\n") ∧
      ((ofChanges refused).phrase.write .empty).1 = .error .emptyPath := by
  have given : mixed ≠ [] := by decide
  have other : refused ≠ [] := by decide
  obtain ⟨same, _, _, _, rendered⟩ := clauses_decide mixed
  obtain ⟨_, _, _, _, failed⟩ := clauses_decide refused
  obtain ⟨lines, last, lined, written⟩ := (rendered given .empty).2 (by decide)
  have text : ((ofChanges mixed).phrase.write .empty).1 =
      .ok "ADD #0 :0\nDELETE #1 :1\nREMOVE #2\nSET #3 = :2, #4 = #0\n" := by decide
  refine ⟨given, other, fun equal => ?_, ⟨lines, last, lined, ?_⟩,
    ((failed other .empty).1 _).mpr (by decide)⟩
  · exact absurd ((same mixed.reverse).mp equal .set) (by decide)
  · rw [written] at text
    exact Except.ok.inj text

end Update

end ItemExpressions

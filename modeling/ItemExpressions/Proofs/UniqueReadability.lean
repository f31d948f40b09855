import ItemExpressions.Proofs.ConditionReader
import ItemExpressions.Proofs.Numbering

/-!
Unique readability. Every phrase that can be written is read as the expression that it was written
for, so no two expressions are written alike. Texts and tables determine the phrases, and these
determine the whole draft. Sums inside sums are the one thing that the text does not show.
-/

namespace ItemExpressions

/-! ## Projections -/

namespace Projection

structure Legible (projection : Projection) : Prop where
  flawless : projection.phrase.Flawless
  indexed : ∀ path ∈ projection.paths, path.DecimallyIndexed

def read (limit : Nat) : Reader Projection := do
  return ⟨← Reader.commaSeparated Path.read limit⟩

theorem reads (limit : Nat) (projection : Projection) (legible : projection.Legible)
    (short : projection.paths.length ≤ limit) :
    (read limit).Reads projection.phrase projection [] := by
  obtain ⟨flawless, indexed⟩ := legible
  rw [phrase] at flawless ⊢
  split at flawless
  · exact absurd flawless (Phrase.not_flawless_flaw _)
  · next given =>
    simp only [Phrase.commaSeparated, Phrase.flawless_separated, List.forall_mem_map] at flawless
    have some : projection.paths ≠ [] := fun none => given (List.isEmpty_iff.mpr none)
    rw [if_neg given]
    exact .last mk (.commaSeparated projection.paths some limit short EndsPath
      (fun path member => path.reads ⟨flawless path member, indexed path member⟩)
      (fun _ ahead => .of_ahead (by decide) ahead) EndsOperand.end.path (by decide))

end Projection

/-! ## Updates -/

def Update.operands (update : Update) : List Operand := update.assignments.map Prod.snd

namespace Update

open Reader (branch commaSeparated)

def readValued : Reader (Path × AttributeValue) := do
  let path ← Path.read
  Reader.text " "
  return (path, ← Reader.literal)

def readAssignment (operand : Reader Operand) : Reader (Path × Operand) := do
  let path ← Path.read
  Reader.text " = "
  return (path, ← operand)

/-- A clause that is left out has no changes. -/
def readClause {β : Type} (keyword : String) (limit : Nat) (change : Reader β) :
    Reader (List β) :=
  branch (return []) [(keyword ++ " ", do
    let changes ← commaSeparated change limit
    Reader.text "\n"
    return changes)]

def read (limit : Nat) : Reader Update := do
  let additions ← readClause "ADD" limit readValued
  let deletions ← readClause "DELETE" limit readValued
  let removals ← readClause "REMOVE" limit Path.read
  return ⟨additions, deletions, removals,
    ← readClause "SET" limit (readAssignment (Operand.read limit))⟩

structure Legible (update : Update) : Prop where
  flawless : update.phrase.Flawless
  indexed : ∀ path ∈ update.paths, path.DecimallyIndexed
  flat : ∀ operand ∈ update.operands, operand.isFlat = true

theorem legible_assignment {change : Path × Operand} (flawless : (assignmentPhrase change).Flawless)
    (indexed : ∀ path ∈ change.1 :: change.2.paths, path.DecimallyIndexed)
    (flat : change.2.isFlat = true) : change.1.Legible ∧ change.2.Legible := by
  simp only [assignmentPhrase, Phrase.flawless_append] at flawless
  obtain ⟨target, inside⟩ := List.forall_mem_cons.mp indexed
  exact ⟨⟨flawless.1.1, target⟩, ⟨flawless.2, inside, flat⟩⟩

/-! ## Clauses -/

theorem clause_not_ahead {written keyword : String} (apart : Apart written (keyword ++ " "))
    (changes : List Phrase) {rest : List Piece} (behind : ¬ Ahead written rest) :
    ¬ Ahead written ((clause keyword changes).pieces ++ rest) := by
  rw [clause]
  split
  · exact behind
  · rw [List.append_assoc]
    exact apart.not_ahead (ahead_first (keyword ++ " ") _ rest)

variable {limit : Nat} {rest : List Piece}

theorem readClause_reads {β : Type} [SizeOf β] {reader : Reader β} {render : β → Phrase}
    (keyword : String) (changes : List β) (small : sizeOf changes ≤ limit)
    (each : ∀ change ∈ changes, ∀ rest, EndsOperand rest → reader.Reads (render change) change rest)
    (otherwise : ¬ Ahead (keyword ++ " ") rest) :
    (readClause keyword limit reader).Reads (clause keyword (changes.map render)) changes rest := by
  rw [clause]
  split
  · next none =>
    rw [List.map_eq_nil_iff.mp (List.isEmpty_iff.mp none)]
    exact .otherwise (List.forall_mem_singleton.mpr otherwise) (.done [] rest)
  · next given =>
    have some : changes ≠ [] := by
      rintro rfl
      exact given rfl
    have short := length_le_sizeOf changes
    have line := ahead_text "\n" rest
    have listed := Reader.Reads.commaSeparated changes some limit (by omega) EndsOperand each
      (fun _ ahead => .of_ahead (by decide) ahead) (.of_ahead (by decide) line)
      (Apart.not_ahead (by decide) line)
    rw [List.append_assoc]
    exact .branch (List.pairwise_singleton _ _) List.mem_cons_self
      (.bind listed (.last (fun _ => changes) (.text "\n" rest)))

theorem readValued_reads (keyword : String) (changes : List (Path × AttributeValue))
    (flawless : (clause keyword (changes.map valuePhrase)).Flawless)
    (indexed : ∀ change ∈ changes, change.1.DecimallyIndexed) (small : sizeOf changes ≤ limit)
    (otherwise : ¬ Ahead (keyword ++ " ") rest) :
    (readClause keyword limit readValued).Reads (clause keyword (changes.map valuePhrase)) changes
      rest := by
  apply readClause_reads keyword changes small _ otherwise
  intro change member rest _
  have written := (flawless_clause keyword changes valuePhrase).mp flawless change member
  simp only [valuePhrase, Phrase.flawless_append] at written
  have ends := EndsPath.of_ahead (by decide) (ahead_first " " (.literal change.2) rest)
  exact .around " " (change.1.reads ⟨written.1.1, indexed change member⟩ _ ends)
    (.last _ (.literal change.2 rest))

theorem readRemovals_reads (keyword : String) (changes : List Path)
    (flawless : (clause keyword (changes.map Path.phrase)).Flawless)
    (indexed : ∀ change ∈ changes, change.DecimallyIndexed) (small : sizeOf changes ≤ limit)
    (otherwise : ¬ Ahead (keyword ++ " ") rest) :
    (readClause keyword limit Path.read).Reads (clause keyword (changes.map Path.phrase)) changes
      rest := by
  apply readClause_reads keyword changes small _ otherwise
  intro path member rest ends
  have written := (flawless_clause keyword changes Path.phrase).mp flawless path member
  exact path.reads ⟨written, indexed path member⟩ rest ends.path

theorem readAssignments_reads (keyword : String) (changes : List (Path × Operand))
    (legible : ∀ change ∈ changes, change.1.Legible ∧ change.2.Legible)
    (small : sizeOf changes ≤ limit) (otherwise : ¬ Ahead (keyword ++ " ") rest) :
    (readClause keyword limit (readAssignment (Operand.read limit))).Reads
      (clause keyword (changes.map assignmentPhrase)) changes rest := by
  apply readClause_reads keyword changes small _ otherwise
  intro change member rest ends
  obtain ⟨target, operand⟩ := legible change member
  have inside := List.sizeOf_lt_of_mem member
  have part : sizeOf change.2 < sizeOf change := by
    cases change
    simp only [Prod.mk.sizeOf_spec]
    omega
  have equals := EndsPath.of_ahead (by decide) (ahead_first " = " change.2.phrase rest)
  exact .around " = " (change.1.reads target _ equals)
    (.last _ (change.2.reads limit operand (by omega) rest ends))

theorem reads (limit : Nat) (update : Update) (legible : update.Legible)
    (small : sizeOf update ≤ limit) : (read limit).Reads update.phrase update [] := by
  obtain ⟨flawless, indexed, flat⟩ := legible
  rw [phrase] at flawless ⊢
  split at flawless
  · exact absurd flawless (Phrase.not_flawless_flaw _)
  · next given =>
    simp only [Phrase.flawless_append] at flawless
    obtain ⟨⟨⟨added, deleted⟩, removed⟩, assigned⟩ := flawless
    simp only [paths, List.forall_mem_append, List.forall_mem_map] at indexed
    obtain ⟨⟨⟨addedTo, deletedFrom⟩, removedAt⟩, assignedTo⟩ := indexed
    have legible : ∀ change ∈ update.assignments, change.1.Legible ∧ change.2.Legible := by
      intro change member
      have paths := fun path inside =>
        assignedTo path (List.mem_flatMap.mpr ⟨change, member, inside⟩)
      exact legible_assignment ((flawless_clause _ _ _).mp assigned change member) paths
        (flat _ (List.mem_map_of_mem member))
    have sizes : sizeOf update = 1 + sizeOf update.additions + sizeOf update.deletions +
        sizeOf update.removals + sizeOf update.assignments := by
      cases update
      rfl
    -- A clause that is left out is not taken for a later one.
    rw [if_neg given, List.append_assoc, List.append_assoc]
    refine .bind (readValued_reads "ADD" _ added addedTo (by omega) ?_)
      (.bind (readValued_reads "DELETE" _ deleted deletedFrom (by omega) ?_)
        (.bind (readRemovals_reads "REMOVE" _ removed removedAt (by omega) ?_)
          (.last _ (readAssignments_reads "SET" _ legible (by omega) (by decide)))))
    · simp only [Phrase.pieces_append, List.append_assoc]
      exact clause_not_ahead (by decide) _ (clause_not_ahead (by decide) _
        (clause_not_ahead (by decide) _ (by decide)))
    · simp only [Phrase.pieces_append, List.append_assoc]
      exact clause_not_ahead (by decide) _ (clause_not_ahead (by decide) _ (by decide))
    · exact clause_not_ahead (by decide) _ (by decide)

end Update

/-! ## One phrase, one expression -/

theorem Condition.eq_of_pieces (first second : Condition) (here : first.Legible)
    (there : second.Legible) (same : first.phrase.pieces = second.phrase.pieces) :
    first = second := by
  have one := first.reads (sizeOf first + sizeOf second + 1) here (by omega) [] .end
  have two := second.reads (sizeOf first + sizeOf second + 1) there (by omega) [] .end
  exact one.unique two same

theorem KeyCondition.eq_of_pieces (first second : KeyCondition) (here : first.phrase.Flawless)
    (there : second.phrase.Flawless) (same : first.phrase.pieces = second.phrase.pieces) :
    first = second := by
  have one := first.reads (sizeOf first + sizeOf second + 1) here (by omega) []
  have two := second.reads (sizeOf first + sizeOf second + 1) there (by omega) []
  exact one.unique two same

theorem Projection.eq_of_pieces (first second : Projection) (here : first.Legible)
    (there : second.Legible) (same : first.phrase.pieces = second.phrase.pieces) :
    first = second := by
  have one := first.reads (first.paths.length + second.paths.length) here (by omega)
  have two := second.reads (first.paths.length + second.paths.length) there (by omega)
  exact one.unique two same

theorem Update.eq_of_pieces (first second : Update) (here : first.Legible)
    (there : second.Legible) (same : first.phrase.pieces = second.phrase.pieces) :
    first = second := by
  have one := first.reads (sizeOf first + sizeOf second) here (by omega)
  have two := second.reads (sizeOf first + sizeOf second) there (by omega)
  exact one.unique two same

/-! ## Drafts -/

theorem Phrase.given_unique {β : Type} (render : β → Phrase) (given other : Option β)
    (each : ∀ first ∈ given, ∀ second ∈ other,
      (render first).pieces = (render second).pieces → first = second)
    (same : (given.map render).map pieces = (other.map render).map pieces) : given = other := by
  cases given with
  | none =>
      cases other with
      | none => rfl
      | some second => cases same
  | some first =>
      cases other with
      | none => cases same
      | some second => exact congrArg some (each first rfl second rfl (Option.some.inj same))

/-- Looking up a label is all that resolving asks of the tables. -/
theorem Expression.resolve_congr {one two : Expression}
    (names : ∀ label, one.names.lookup label = two.names.lookup label)
    (values : ∀ label, one.values.lookup label = two.values.lookup label) :
    one.resolve = two.resolve := by
  have tokens : Token.resolve one.names one.values = Token.resolve two.names two.values := by
    funext token
    cases token with
    | char c => rfl
    | label spelled => rw [Token.resolve, Token.resolve, names, values]
  funext text
  rw [resolve, resolve, tokens]

namespace Draft

def operands (draft : Draft) : Slot → List Operand
  | .condition => (draft.condition.map Condition.operands).getD []
  | .filter => (draft.filter.map Condition.operands).getD []
  | .keyCondition | .projection => []
  | .update => (draft.update.map Update.operands).getD []

/-- Indices are decimal, and no sum is directly part of another sum. -/
structure Plain (draft : Draft) : Prop where
  indexed : ∀ slot, ∀ path ∈ draft.paths slot, path.DecimallyIndexed
  flat : ∀ slot, ∀ operand ∈ draft.operands slot, operand.isFlat = true

structure Legible (draft : Draft) : Prop where
  condition : ∀ condition ∈ draft.condition, condition.Legible
  filter : ∀ condition ∈ draft.filter, condition.Legible
  keyCondition : ∀ condition ∈ draft.keyCondition, condition.phrase.Flawless
  projection : ∀ projection ∈ draft.projection, projection.Legible
  update : ∀ update ∈ draft.update, update.Legible

theorem legible_of_flawless (draft : Draft) (plain : draft.Plain)
    (flawless : ∀ slot, ∀ phrase ∈ draft.phrase slot, phrase.Flawless) : draft.Legible where
  condition condition given := by
    have given : draft.condition = some condition := given
    exact ⟨flawless .condition _ (by simp [phrase, given]),
      by simpa [paths, given] using plain.indexed .condition,
      by simpa [operands, given] using plain.flat .condition⟩
  filter condition given := by
    have given : draft.filter = some condition := given
    exact ⟨flawless .filter _ (by simp [phrase, given]),
      by simpa [paths, given] using plain.indexed .filter,
      by simpa [operands, given] using plain.flat .filter⟩
  keyCondition condition given := by
    have given : draft.keyCondition = some condition := given
    exact flawless .keyCondition _ (by simp [phrase, given])
  projection projection given := by
    have given : draft.projection = some projection := given
    exact ⟨flawless .projection _ (by simp [phrase, given]),
      by simpa [paths, given] using plain.indexed .projection⟩
  update update given := by
    have given : draft.update = some update := given
    exact ⟨flawless .update _ (by simp [phrase, given]),
      by simpa [paths, given] using plain.indexed .update,
      by simpa [operands, given] using plain.flat .update⟩

theorem eq_of_pieces (first second : Draft) (here : first.Legible) (there : second.Legible)
    (same : ∀ slot,
      (first.phrase slot).map Phrase.pieces = (second.phrase slot).map Phrase.pieces) :
    first = second := by
  have condition := Phrase.given_unique Condition.phrase _ _ (fun one given two other =>
    one.eq_of_pieces two (here.condition one given) (there.condition two other)) (same .condition)
  have filter := Phrase.given_unique Condition.phrase _ _ (fun one given two other =>
    one.eq_of_pieces two (here.filter one given) (there.filter two other)) (same .filter)
  have keyCondition := Phrase.given_unique KeyCondition.phrase _ _ (fun one given two other =>
    one.eq_of_pieces two (here.keyCondition one given) (there.keyCondition two other))
    (same .keyCondition)
  have projection := Phrase.given_unique Projection.phrase _ _ (fun one given two other =>
    one.eq_of_pieces two (here.projection one given) (there.projection two other))
    (same .projection)
  have update := Phrase.given_unique Update.phrase _ _ (fun one given two other =>
    one.eq_of_pieces two (here.update one given) (there.update two other)) (same .update)
  cases first
  cases second
  simp only at condition filter keyCondition projection update
  rw [condition, filter, keyCondition, projection, update]

/-- Two drafts that are sent as the same texts and the same tables are the same draft, however
differently their expressions may be built up. -/
theorem uniquely_readable (first second : Draft) (one two : Expression)
    (firstPlain : first.Plain) (secondPlain : second.Plain)
    (firstBuilt : first.build = .ok one) (secondBuilt : second.build = .ok two)
    (texts : ∀ slot, one.text slot = two.text slot)
    (names : ∀ label, one.names.lookup label = two.names.lookup label)
    (values : ∀ label, one.values.lookup label = two.values.lookup label) : first = second := by
  have resolved (draft : Draft) (expression : Expression) (plain : draft.Plain)
      (built : draft.build = .ok expression) (slot : Slot) :
      (expression.text slot).map expression.resolve = (draft.phrase slot).map Phrase.pieces := by
    have written := draft.build_written expression built
    have grown : expression.placeholders.Extends (writeSlots draft.phrases .empty).2 :=
      written ▸ .refl _
    rw [← draft.phrases_lookup]
    exact writeSlots_resolved draft.phrases (draft.phrases_inert plain.indexed) .empty _
      expression.texts (congrArg Prod.fst written) grown slot
  have same (slot : Slot) :
      (first.phrase slot).map Phrase.pieces = (second.phrase slot).map Phrase.pieces := by
    rw [← resolved first one firstPlain firstBuilt, ← resolved second two secondPlain secondBuilt,
      texts, Expression.resolve_congr names values]
  have here := first.legible_of_flawless firstPlain (first.build_flawless one firstBuilt)
  have there := second.legible_of_flawless secondPlain (second.build_flawless two secondBuilt)
  exact eq_of_pieces first second here there same

/-- A range beside a negated choice, and two changes of which the second is written first. -/
def guarding : Draft where
  condition := some (.and
    (.between (.path ⟨"score"⟩) (.literal (.number "1")) (.size ⟨"scores"⟩))
    (.negated (.oneOf (.path ⟨"rank"⟩) [.literal (.number "1"), .path ⟨"score"⟩])))
  filter := none
  keyCondition := none
  projection := none
  update := some <| .ofChanges [
    .set ⟨"score"⟩ (.derived (.plus
      (.derived (.ifNotExists ⟨"score"⟩ (.literal (.number "0")))) (.literal (.number "1")))),
    .remove ⟨"rank"⟩]

def guarded : Expression where
  texts := [
    (.condition, "(#0 BETWEEN :0 AND size (#1)) AND (NOT (#2 IN (:1, #0)))"),
    (.update, "REMOVE #2\nSET #0 = if_not_exists(#0, :2) + :3\n")]
  placeholders :=
    ⟨["score", "scores", "rank"], [.number "1", .number "1", .number "0", .number "1"]⟩

theorem guarding_plain : guarding.Plain where
  indexed := by
    apply indexed_of_bare
    intro slot
    cases slot <;> decide
  flat := by
    intro slot
    cases slot <;> decide

/-- Asking for the removal first makes no other draft, as the text already tells. -/
theorem guarding_uniquely_readable :
    guarding.build = .ok guarded ∧
      guarding = { guarding with update := some <| .ofChanges [
        .remove ⟨"rank"⟩,
        .set ⟨"score"⟩ (.derived (.plus
          (.derived (.ifNotExists ⟨"score"⟩ (.literal (.number "0"))))
          (.literal (.number "1"))))] } := by
  have built : guarding.build = .ok guarded := by decide
  exact ⟨built,
    uniquely_readable guarding _ guarded guarded guarding_plain guarding_plain built built
    (fun _ => rfl) (fun _ => rfl) (fun _ => rfl)⟩

/-- Where sums are grouped is not written: two drafts are sent alike that are not the same. -/
example :
    let a := Operand.path ⟨"a"⟩
    let b := Operand.path ⟨"b"⟩
    let c := Operand.path ⟨"c"⟩
    let sending (operand : Operand) := ofUpdate (.ofChanges [.set ⟨"a"⟩ operand])
    (sending (.derived (.minus a (.derived (.plus b c))))).build =
      (sending (.derived (.plus (.derived (.minus a b)) c))).build := by
  decide

end Draft

end ItemExpressions

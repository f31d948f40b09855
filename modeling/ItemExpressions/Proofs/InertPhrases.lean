import ItemExpressions.Expression
import ItemExpressions.Proofs.Labels

/-!
Inert phrases. The words of the grammar are inert whatever expression they are taken from, and so
are indices as long as they are decimal. The document paths of an expression are therefore all that
has to be looked at; names, keys and values never become text.
-/

namespace ItemExpressions

theorem inertText_iff (written : String) :
    (written.toList.all (!Token.opensLabel ·) && written.toList.head?.all (!·.isDigit)) = true ↔
      InertText written := by
  constructor
  · intro passed
    constructor
    · simpa using (Bool.and_eq_true_iff.mp passed).1
    · intro c member
      have first := (Bool.and_eq_true_iff.mp passed).2
      rw [Option.mem_def.mp member] at first
      simpa using first
  · intro inert
    rw [Bool.and_eq_true_iff]
    constructor
    · simpa using inert.closed
    · cases found : written.toList.head? with
      | none => rfl
      | some c => simpa using inert.stops c found

/-- Grammar text is checked by running over its characters. -/
instance (written : String) : Decidable (InertText written) :=
  decidable_of_iff _ (inertText_iff written)

/-! ## Decimal indices -/

/-- Indices of list elements, each a decimal number in brackets, as in `[1][2]`. -/
inductive DecimalIndices : List Char → Prop where
  | none : DecimalIndices []
  | more (digits rest : List Char) (some : digits ≠ []) (decimal : ∀ c ∈ digits, c.isDigit)
      (others : DecimalIndices rest) : DecimalIndices ('[' :: digits ++ ']' :: rest)

theorem closed_of_digit (c : Char) (digit : c.isDigit) : Token.opensLabel c = false := by
  cases opens : Token.opensLabel c with
  | false => rfl
  | true =>
      have sign : c = '#' ∨ c = ':' := by simpa [Token.opensLabel] using opens
      rcases sign with rfl | rfl <;> exact absurd digit (by decide)

theorem DecimalIndices.inert {indices : List Char} (decimal : DecimalIndices indices) :
    InertText (String.ofList indices) where
  closed := by
    rw [String.toList_ofList]
    induction decimal with
    | none => simp
    | more digits rest _ decimal _ ih =>
        have inside : ∀ c ∈ digits, Token.opensLabel c = false :=
          fun c member => closed_of_digit c (decimal c member)
        intro c member
        simp only [List.cons_append, List.mem_cons, List.mem_append] at member
        rcases member with rfl | member | rfl | member
        · decide
        · exact inside c member
        · decide
        · exact ih c member
  stops := by
    rw [String.toList_ofList]
    cases decimal with
    | none => exact .nil
    | more digits rest => exact .cons _ (by decide)

def Path.DecimallyIndexed (path : Path) : Prop :=
  ∀ segment ∈ path.segments, DecimalIndices (Path.indices segment)

theorem Path.DecimallyIndexed.of_bare {path : Path}
    (bare : ∀ segment ∈ path.segments, Path.indices segment = []) : path.DecimallyIndexed := by
  intro segment inside
  rw [bare segment inside]
  exact .none

/-! ## Inert phrases and how they are put together -/

def Word.Inert : Word → Prop
  | .text written => InertText written
  | .name _ | .value _ | .flaw _ => True

def Phrase.Inert (phrase : Phrase) : Prop := ∀ word ∈ phrase, word.Inert

namespace Phrase

theorem Inert.nil : Inert [] := by
  intro word member
  simp at member

theorem Inert.append {first second : Phrase} (left : first.Inert) (right : second.Inert) :
    Inert (first ++ second) := by
  intro word member
  rcases List.mem_append.mp member with member | member
  · exact left word member
  · exact right word member

theorem Inert.text {written : String} (inert : InertText written) : Inert (.text written) := by
  intro word member
  rw [List.mem_singleton.mp member]
  exact inert

/-- Two phrases with grammar text between them. -/
theorem Inert.around {first second : Phrase} (between : String) (inert : InertText between)
    (left : first.Inert) (right : second.Inert) :
    Inert (first ++ .text between ++ second) :=
  (left.append (.text inert)).append right

theorem Inert.literal (value : AttributeValue) : Inert (.literal value) := by
  intro word member
  rw [List.mem_singleton.mp member]
  trivial

theorem Inert.flaw (fault : Fault) : Inert (.flaw fault) := by
  intro word member
  rw [List.mem_singleton.mp member]
  trivial

theorem Inert.key (name : String) : Inert (.key name) := by
  rw [Phrase.key]
  split
  · exact .flaw _
  · intro word member
    rw [List.mem_singleton.mp member]
    trivial

theorem Inert.enclosed {phrase : Phrase} (inert : phrase.Inert) : phrase.enclosed.Inert :=
  ((Inert.text (by decide)).append inert).append (.text (by decide))

theorem Inert.separated {separator : String} (between : InertText separator)
    (phrases : List Phrase) (inert : ∀ phrase ∈ phrases, phrase.Inert) :
    (Phrase.separated separator phrases).Inert := by
  induction phrases with
  | nil => exact .nil
  | cons first rest ih =>
      have head := inert first List.mem_cons_self
      have tail := ih fun phrase member => inert phrase (List.mem_cons_of_mem _ member)
      cases rest with
      | nil => exact head
      | cons second others => exact (head.append (.text between)).append tail

theorem Inert.commaSeparated {phrases : List Phrase} (inert : ∀ phrase ∈ phrases, phrase.Inert) :
    (Phrase.commaSeparated phrases).Inert :=
  .separated (by decide) phrases inert

end Phrase

theorem Path.segmentPhrase_inert (segment : List Char)
    (decimal : DecimalIndices (Path.indices segment)) :
    (Path.segmentPhrase segment).Inert := by
  rw [Path.segmentPhrase]
  split
  · exact .flaw _
  · intro word member
    simp only [List.mem_cons, List.not_mem_nil, or_false] at member
    rcases member with rfl | rfl
    · trivial
    · exact decimal.inert

theorem Path.phrase_inert (path : Path) (indexed : path.DecimallyIndexed) : path.phrase.Inert := by
  rw [Path.phrase]
  split
  · exact .flaw _
  · apply Phrase.Inert.separated (by decide)
    intro phrase member
    obtain ⟨segment, found, rfl⟩ := List.mem_map.mp member
    exact Path.segmentPhrase_inert segment (indexed segment found)

/-! ## The document paths of expressions -/

mutual

def Operand.paths : Operand → List Path
  | .path path | .size path => [path]
  | .literal _ => []
  | .derived value => value.paths

def Derived.paths : Derived → List Path
  | .listAppend first second | .plus first second | .minus first second =>
      first.paths ++ second.paths
  | .ifNotExists path fallback => path :: fallback.paths

end

def Condition.paths : Condition → List Path
  | .compare left _ right => left.paths ++ right.paths
  | .between operand low high => operand.paths ++ low.paths ++ high.paths
  | .oneOf operand candidates => operand.paths ++ candidates.flatMap Operand.paths
  | .joined _ left right => left.paths ++ right.paths
  | .negated condition => condition.paths
  | .holds _ path _ => [path]

def Update.paths (update : Update) : List Path :=
  update.additions.map Prod.fst ++ update.deletions.map Prod.fst ++ update.removals ++
    update.assignments.flatMap fun change => change.1 :: change.2.paths

/-- The key of a key condition is a name and not a path. -/
def Draft.paths (draft : Draft) : Slot → List Path
  | .condition => (draft.condition.map Condition.paths).getD []
  | .filter => (draft.filter.map Condition.paths).getD []
  | .keyCondition => []
  | .projection => (draft.projection.map Projection.paths).getD []
  | .update => (draft.update.map Update.paths).getD []

/-! ## Expressions have inert phrases -/

mutual

theorem Operand.phrase_inert (operand : Operand)
    (indexed : ∀ path ∈ operand.paths, path.DecimallyIndexed) : operand.phrase.Inert := by
  cases operand with
  | path path =>
      rw [Operand.phrase]
      exact path.phrase_inert (indexed path List.mem_cons_self)
  | literal value =>
      rw [Operand.phrase]
      exact .literal value
  | size path =>
      rw [Operand.phrase]
      have inert := path.phrase_inert (indexed path List.mem_cons_self)
      exact (Phrase.Inert.text (by decide)).append inert.enclosed
  | derived value =>
      rw [Operand.phrase]
      exact value.phrase_inert indexed

theorem Derived.phrase_inert (value : Derived)
    (indexed : ∀ path ∈ value.paths, path.DecimallyIndexed) : value.phrase.Inert := by
  cases value with
  | listAppend first second =>
      rw [Derived.paths, List.forall_mem_append] at indexed
      have left := first.phrase_inert indexed.1
      have right := second.phrase_inert indexed.2
      have arguments := left.around ", " (by decide) right
      exact (Phrase.Inert.text (by decide)).append arguments.enclosed
  | ifNotExists path fallback =>
      rw [Derived.paths, List.forall_mem_cons] at indexed
      have left := path.phrase_inert indexed.1
      have right := fallback.phrase_inert indexed.2
      have arguments := left.around ", " (by decide) right
      exact (Phrase.Inert.text (by decide)).append arguments.enclosed
  | plus left right =>
      rw [Derived.paths, List.forall_mem_append] at indexed
      have first := left.phrase_inert indexed.1
      have second := right.phrase_inert indexed.2
      exact first.around " + " (by decide) second
  | minus left right =>
      rw [Derived.paths, List.forall_mem_append] at indexed
      have first := left.phrase_inert indexed.1
      have second := right.phrase_inert indexed.2
      exact first.around " - " (by decide) second

end

theorem Condition.argumentPhrase_inert (argument : Option AttributeValue) :
    (Condition.argumentPhrase argument).Inert := by
  cases argument with
  | none => exact .nil
  | some value => exact (Phrase.Inert.text (by decide)).append (.literal value)

theorem Comparator.symbol_inert (comparator : Comparator) :
    InertText (" " ++ comparator.symbol ++ " ") := by
  cases comparator <;> decide

theorem Connective.word_inert (connective : Connective) :
    InertText (" " ++ connective.word ++ " ") := by
  cases connective <;> decide

theorem Predicate.word_inert (predicate : Predicate) : InertText (predicate.word ++ " ") := by
  cases predicate <;> decide

theorem Condition.phrase_inert (condition : Condition)
    (indexed : ∀ path ∈ condition.paths, path.DecimallyIndexed) : condition.phrase.Inert := by
  induction condition with
  | compare left comparator right =>
      rw [Condition.paths, List.forall_mem_append] at indexed
      have first := left.phrase_inert indexed.1
      have second := right.phrase_inert indexed.2
      exact first.around _ comparator.symbol_inert second
  | between operand low high =>
      rw [Condition.paths, List.forall_mem_append, List.forall_mem_append] at indexed
      have tested := operand.phrase_inert indexed.1.1
      have first := low.phrase_inert indexed.1.2
      have second := high.phrase_inert indexed.2
      have range := tested.around " BETWEEN " (by decide) first
      exact range.around " AND " (by decide) second
  | oneOf operand candidates =>
      rw [Condition.paths, List.forall_mem_append] at indexed
      rw [Condition.phrase]
      split
      · exact .flaw _
      · have tested := operand.phrase_inert indexed.1
        -- Each candidate has its own paths among those of the whole test.
        have listed : (Phrase.commaSeparated (candidates.map Operand.phrase)).Inert := by
          apply Phrase.Inert.commaSeparated
          intro phrase member
          obtain ⟨candidate, found, rfl⟩ := List.mem_map.mp member
          apply candidate.phrase_inert
          intro path inside
          exact indexed.2 path (List.mem_flatMap.mpr ⟨candidate, found, inside⟩)
        exact tested.around " IN " (by decide) listed.enclosed
  | joined connective left right ihLeft ihRight =>
      rw [Condition.paths, List.forall_mem_append] at indexed
      have first := (ihLeft indexed.1).enclosed
      have second := (ihRight indexed.2).enclosed
      exact first.around _ connective.word_inert second
  | negated condition ih => exact (Phrase.Inert.text (by decide)).append (ih indexed).enclosed
  | holds predicate path argument =>
      have subject := path.phrase_inert (indexed path List.mem_cons_self)
      have arguments := subject.append (Condition.argumentPhrase_inert argument)
      exact (Phrase.Inert.text predicate.word_inert).append arguments.enclosed

/-- A key is one name however it is spelled, so nothing is asked of key conditions. -/
theorem KeyCondition.phrase_inert (condition : KeyCondition) : condition.phrase.Inert := by
  induction condition with
  | compare key comparator value =>
      exact (Phrase.Inert.key key).around _ comparator.symbol_inert (.literal value)
  | between key low high =>
      have range := (Phrase.Inert.key key).around " BETWEEN " (by decide) (.literal low)
      exact range.around " AND " (by decide) (.literal high)
  | beginsWith key stem =>
      have arguments := (Phrase.Inert.key key).around ", " (by decide) (.literal stem)
      exact (Phrase.Inert.text (by decide)).append arguments.enclosed
  | and left right ihLeft ihRight =>
      rw [KeyCondition.phrase]
      split
      · exact ihLeft.enclosed.around " AND " (by decide) ihRight.enclosed
      · exact .flaw _

theorem Projection.phrase_inert (projection : Projection)
    (indexed : ∀ path ∈ projection.paths, path.DecimallyIndexed) : projection.phrase.Inert := by
  rw [Projection.phrase]
  split
  · exact .flaw _
  · apply Phrase.Inert.commaSeparated
    intro phrase member
    obtain ⟨path, found, rfl⟩ := List.mem_map.mp member
    exact path.phrase_inert (indexed path found)

theorem Update.clause_inert {β : Type} (keyword : String) (changes : List β) (render : β → Phrase)
    (word : InertText (keyword ++ " ")) (inert : ∀ change ∈ changes, (render change).Inert) :
    (Update.clause keyword (changes.map render)).Inert := by
  rw [Update.clause]
  split
  · exact .nil
  · have listed : (Phrase.commaSeparated (changes.map render)).Inert := by
      apply Phrase.Inert.commaSeparated
      intro phrase member
      obtain ⟨change, found, rfl⟩ := List.mem_map.mp member
      exact inert change found
    exact ((Phrase.Inert.text word).append listed).append (.text (by decide))

theorem Update.phrase_inert (update : Update)
    (indexed : ∀ path ∈ update.paths, path.DecimallyIndexed) : update.phrase.Inert := by
  simp only [Update.paths, List.forall_mem_append] at indexed
  obtain ⟨⟨⟨added, deleted⟩, removed⟩, assigned⟩ := indexed
  have valued (change : Path × AttributeValue) (inert : change.1.phrase.Inert) :
      (Update.valuePhrase change).Inert :=
    inert.around " " (by decide) (.literal change.2)
  rw [Update.phrase]
  split
  · exact .flaw _
  · apply Phrase.Inert.append
    · apply Phrase.Inert.append
      · apply Phrase.Inert.append
        · apply Update.clause_inert _ _ _ (by decide)
          intro change member
          exact valued change (change.1.phrase_inert (added _ (List.mem_map_of_mem member)))
        · apply Update.clause_inert _ _ _ (by decide)
          intro change member
          exact valued change (change.1.phrase_inert (deleted _ (List.mem_map_of_mem member)))
      · apply Update.clause_inert _ _ _ (by decide)
        intro path member
        exact path.phrase_inert (removed path member)
    · apply Update.clause_inert _ _ _ (by decide)
      intro change member
      have inside (path : Path) (found : path ∈ change.1 :: change.2.paths) :
          path.DecimallyIndexed :=
        assigned path (List.mem_flatMap.mpr ⟨change, member, found⟩)
      have target := change.1.phrase_inert (inside _ List.mem_cons_self)
      have operand := change.2.phrase_inert fun path found =>
        inside path (List.mem_cons_of_mem _ found)
      exact target.around " = " (by decide) operand

theorem Draft.phrase_inert (draft : Draft) (slot : Slot)
    (indexed : ∀ path ∈ draft.paths slot, path.DecimallyIndexed) :
    ∀ phrase ∈ draft.phrase slot, phrase.Inert := by
  intro phrase member
  cases slot with
  | condition =>
      obtain ⟨condition, given, rfl⟩ := Option.map_eq_some_iff.mp member
      exact condition.phrase_inert (by simpa [Draft.paths, given] using indexed)
  | filter =>
      obtain ⟨condition, given, rfl⟩ := Option.map_eq_some_iff.mp member
      exact condition.phrase_inert (by simpa [Draft.paths, given] using indexed)
  | keyCondition =>
      obtain ⟨condition, _, rfl⟩ := Option.map_eq_some_iff.mp member
      exact condition.phrase_inert
  | projection =>
      obtain ⟨projection, given, rfl⟩ := Option.map_eq_some_iff.mp member
      exact projection.phrase_inert (by simpa [Draft.paths, given] using indexed)
  | update =>
      obtain ⟨update, given, rfl⟩ := Option.map_eq_some_iff.mp member
      exact update.phrase_inert (by simpa [Draft.paths, given] using indexed)

end ItemExpressions

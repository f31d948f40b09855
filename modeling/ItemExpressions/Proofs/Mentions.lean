import ItemExpressions.Expression

/-!
Mentions. What an expression mentions are the field names of its paths, its keys and its literal
values, each as often as it occurs and in reading order. A phrase without a flaw leaves none of
them out, adds none and keeps their order, whatever grammar text it puts between them.
-/

namespace ItemExpressions

inductive Mention where
  | name (name : String)
  | value (value : AttributeValue)
  deriving DecidableEq

namespace Mention

def name? : Mention → Option String
  | .name field => some field
  | .value _ => none

def value? : Mention → Option AttributeValue
  | .name _ => none
  | .value literal => some literal

end Mention

/-! ## What expressions mention -/

/-- The indices of a path are no part of its field names. -/
def Path.mentions (path : Path) : List Mention :=
  path.segments.map fun segment => .name (String.ofList (Path.fieldName segment))

mutual

def Operand.mentions : Operand → List Mention
  | .path path | .size path => path.mentions
  | .literal value => [.value value]
  | .derived value => value.mentions

def Derived.mentions : Derived → List Mention
  | .listAppend first second | .plus first second | .minus first second =>
      first.mentions ++ second.mentions
  | .ifNotExists path fallback => path.mentions ++ fallback.mentions

end

def Condition.mentions : Condition → List Mention
  | .compare left _ right => left.mentions ++ right.mentions
  | .between operand low high => operand.mentions ++ low.mentions ++ high.mentions
  | .oneOf operand candidates => operand.mentions ++ candidates.flatMap Operand.mentions
  | .joined _ left right => left.mentions ++ right.mentions
  | .negated condition => condition.mentions
  | .holds _ path argument => path.mentions ++ argument.toList.map .value

def KeyCondition.mentions : KeyCondition → List Mention
  | .compare key _ value => [.name key, .value value]
  | .between key low high => [.name key, .value low, .value high]
  | .beginsWith key stem => [.name key, .value stem]
  | .and left right => left.mentions ++ right.mentions

def Projection.mentions (projection : Projection) : List Mention :=
  projection.paths.flatMap Path.mentions

/-- The clauses are read one after the other, not the changes as they were asked for. -/
def Update.mentions (update : Update) : List Mention :=
  update.additions.flatMap (fun change => change.1.mentions ++ [.value change.2]) ++
    update.deletions.flatMap (fun change => change.1.mentions ++ [.value change.2]) ++
    update.removals.flatMap Path.mentions ++
    update.assignments.flatMap fun change => change.1.mentions ++ change.2.mentions

/-- The order in which the expressions of a request are written. -/
def Slot.inOrder : List Slot := [.condition, .filter, .keyCondition, .projection, .update]

namespace Draft

def mentionsIn (draft : Draft) : Slot → List Mention
  | .condition => (draft.condition.map Condition.mentions).getD []
  | .filter => (draft.filter.map Condition.mentions).getD []
  | .keyCondition => (draft.keyCondition.map KeyCondition.mentions).getD []
  | .projection => (draft.projection.map Projection.mentions).getD []
  | .update => (draft.update.map Update.mentions).getD []

def mentions (draft : Draft) : List Mention := Slot.inOrder.flatMap draft.mentionsIn

/-- All field names and keys, as often as they occur. -/
def names (draft : Draft) : List String := draft.mentions.filterMap Mention.name?

/-- All literal values, equal ones as often as they occur. -/
def literals (draft : Draft) : List AttributeValue := draft.mentions.filterMap Mention.value?

end Draft

/-! ## What phrases mention -/

def Word.mention? : Word → Option Mention
  | .name field => some (.name field)
  | .value literal => some (.value literal)
  | .text _ | .flaw _ => none

def Word.isFlaw : Word → Bool
  | .flaw _ => true
  | .text _ | .name _ | .value _ => false

namespace Phrase

def mentions (phrase : Phrase) : List Mention := phrase.filterMap Word.mention?

def Flawless (phrase : Phrase) : Prop := ∀ word ∈ phrase, word.isFlaw = false

@[simp]
theorem mentions_append (first second : Phrase) :
    mentions (first ++ second) = first.mentions ++ second.mentions :=
  List.filterMap_append

@[simp]
theorem mentions_text (written : String) : mentions (.text written) = [] := rfl

@[simp]
theorem mentions_literal (value : AttributeValue) :
    mentions (.literal value) = [.value value] := rfl

@[simp]
theorem mentions_enclosed (phrase : Phrase) : phrase.enclosed.mentions = phrase.mentions := by
  simp [enclosed]

@[simp]
theorem mentions_separated (separator : String) (phrases : List Phrase) :
    (separated separator phrases).mentions = phrases.flatMap mentions := by
  induction phrases with
  | nil => rfl
  | cons first rest ih =>
      cases rest with
      | nil => simp [separated]
      | cons second others => simp [separated, ih]

@[simp]
theorem flawless_append (first second : Phrase) :
    Flawless (first ++ second) ↔ first.Flawless ∧ second.Flawless :=
  List.forall_mem_append

@[simp]
theorem flawless_text (written : String) : Flawless (.text written) := by
  simp [Flawless, text, Word.isFlaw]

@[simp]
theorem flawless_literal (value : AttributeValue) : Flawless (.literal value) := by
  simp [Flawless, literal, Word.isFlaw]

@[simp]
theorem not_flawless_flaw (fault : Fault) : ¬ Flawless (.flaw fault) := by
  simp [Flawless, flaw, Word.isFlaw]

@[simp]
theorem flawless_key (name : String) : (key name).Flawless ↔ name ≠ "" := by
  by_cases empty : name = "" <;> simp [key, empty, Flawless, flaw, Word.isFlaw]

@[simp]
theorem flawless_enclosed (phrase : Phrase) : phrase.enclosed.Flawless ↔ phrase.Flawless := by
  simp [enclosed]

@[simp]
theorem flawless_separated (separator : String) (phrases : List Phrase) :
    (separated separator phrases).Flawless ↔ ∀ phrase ∈ phrases, phrase.Flawless := by
  induction phrases with
  | nil => simp [separated, Flawless]
  | cons first rest ih =>
      cases rest with
      | nil => simp [separated]
      | cons second others => simp [separated, ih]

theorem mentions_key (name : String) (flawless : (key name).Flawless) :
    (key name).mentions = [.name name] := by
  have given : name ≠ "" := (flawless_key name).mp flawless
  simp [key, given, mentions, Word.mention?]

/-- Members that are written one by one between separators. -/
theorem mentions_members {β : Type} (separator : String) (members : List β) (render : β → Phrase)
    (read : β → List Mention)
    (each : ∀ member ∈ members, (render member).Flawless →
      (render member).mentions = read member)
    (flawless : (separated separator (members.map render)).Flawless) :
    (separated separator (members.map render)).mentions = members.flatMap read := by
  simp only [flawless_separated, List.forall_mem_map] at flawless
  rw [mentions_separated, List.flatMap_map, List.flatMap_def, List.flatMap_def]
  congr 1
  exact List.map_congr_left fun member inside => each member inside (flawless member inside)

theorem mentions_given {β : Type} (given : Option β) (render : β → Phrase)
    (read : β → List Mention)
    (each : ∀ member, (render member).Flawless → (render member).mentions = read member)
    (flawless : ∀ phrase ∈ given.map render, phrase.Flawless) :
    ((given.map render).map mentions).getD [] = (given.map read).getD [] := by
  cases given with
  | none => rfl
  | some member => exact each member (flawless _ rfl)

end Phrase

/-! ## Phrases mention what their expressions do -/

theorem Path.segmentPhrase_mentions (segment : List Char)
    (flawless : (Path.segmentPhrase segment).Flawless) :
    (Path.segmentPhrase segment).mentions = [.name (String.ofList (Path.fieldName segment))] := by
  rw [Path.segmentPhrase] at flawless ⊢
  split at flawless
  · exact absurd flawless (Phrase.not_flawless_flaw _)
  · next given => simp [Phrase.mentions, Word.mention?]

theorem Path.phrase_mentions (path : Path) (flawless : path.phrase.Flawless) :
    path.phrase.mentions = path.mentions := by
  rw [Path.phrase] at flawless ⊢
  split at flawless
  · exact absurd flawless (Phrase.not_flawless_flaw _)
  · next given =>
    have listed := Phrase.mentions_members "." path.segments Path.segmentPhrase _
      (fun segment _ => Path.segmentPhrase_mentions segment) flawless
    rw [if_neg given, listed]
    exact List.map_eq_flatMap.symm

mutual

theorem Operand.phrase_mentions (operand : Operand) (flawless : operand.phrase.Flawless) :
    operand.phrase.mentions = operand.mentions := by
  cases operand with
  | path path =>
      rw [Operand.phrase] at flawless ⊢
      exact path.phrase_mentions flawless
  | literal value => rfl
  | size path =>
      simp only [Operand.phrase, Phrase.flawless_append, Phrase.flawless_enclosed] at flawless
      simp [Operand.phrase, Operand.mentions, path.phrase_mentions flawless.2]
  | derived value =>
      rw [Operand.phrase] at flawless ⊢
      exact value.phrase_mentions flawless

theorem Derived.phrase_mentions (value : Derived) (flawless : value.phrase.Flawless) :
    value.phrase.mentions = value.mentions := by
  cases value with
  | listAppend first second =>
      simp only [Derived.phrase, Phrase.flawless_append, Phrase.flawless_enclosed] at flawless
      simp [Derived.phrase, Derived.mentions, first.phrase_mentions flawless.2.1.1,
        second.phrase_mentions flawless.2.2]
  | ifNotExists path fallback =>
      simp only [Derived.phrase, Phrase.flawless_append, Phrase.flawless_enclosed] at flawless
      simp [Derived.phrase, Derived.mentions, path.phrase_mentions flawless.2.1.1,
        fallback.phrase_mentions flawless.2.2]
  | plus left right =>
      simp only [Derived.phrase, Phrase.flawless_append] at flawless
      simp [Derived.phrase, Derived.mentions, left.phrase_mentions flawless.1.1,
        right.phrase_mentions flawless.2]
  | minus left right =>
      simp only [Derived.phrase, Phrase.flawless_append] at flawless
      simp [Derived.phrase, Derived.mentions, left.phrase_mentions flawless.1.1,
        right.phrase_mentions flawless.2]

end

theorem Condition.argumentPhrase_mentions (argument : Option AttributeValue) :
    (Condition.argumentPhrase argument).mentions = argument.toList.map .value := by
  cases argument <;> rfl

theorem Condition.phrase_mentions (condition : Condition) (flawless : condition.phrase.Flawless) :
    condition.phrase.mentions = condition.mentions := by
  induction condition with
  | compare left comparator right =>
      simp only [phrase, Phrase.flawless_append] at flawless
      simp [phrase, mentions, left.phrase_mentions flawless.1.1, right.phrase_mentions flawless.2]
  | between operand low high =>
      simp only [phrase, Phrase.flawless_append] at flawless
      simp [phrase, mentions, operand.phrase_mentions flawless.1.1.1.1,
        low.phrase_mentions flawless.1.1.2, high.phrase_mentions flawless.2]
  | oneOf operand candidates =>
      rw [phrase] at flawless ⊢
      split at flawless
      · exact absurd flawless (Phrase.not_flawless_flaw _)
      · next some =>
        simp only [Phrase.flawless_append, Phrase.flawless_enclosed] at flawless
        have listed := Phrase.mentions_members ", " candidates Operand.phrase Operand.mentions
          (fun candidate _ => candidate.phrase_mentions) flawless.2
        simp only [if_neg some, Phrase.mentions_append, Phrase.mentions_text,
          Phrase.mentions_enclosed, operand.phrase_mentions flawless.1.1, List.append_nil, mentions]
        exact congrArg _ listed
  | joined connective left right ihLeft ihRight =>
      simp only [phrase, Phrase.flawless_append, Phrase.flawless_enclosed] at flawless
      simp [phrase, mentions, ihLeft flawless.1.1, ihRight flawless.2]
  | negated condition ih =>
      simp only [phrase, Phrase.flawless_append, Phrase.flawless_enclosed] at flawless
      simp [phrase, mentions, ih flawless.2]
  | holds predicate path argument =>
      simp only [phrase, Phrase.flawless_append, Phrase.flawless_enclosed] at flawless
      simp [phrase, mentions, argumentPhrase_mentions, path.phrase_mentions flawless.2.1]

theorem KeyCondition.phrase_mentions (condition : KeyCondition)
    (flawless : condition.phrase.Flawless) : condition.phrase.mentions = condition.mentions := by
  induction condition with
  | compare key comparator value =>
      simp only [phrase, Phrase.flawless_append] at flawless
      simp [phrase, mentions, Phrase.mentions_key key flawless.1.1]
  | between key low high =>
      simp only [phrase, Phrase.flawless_append] at flawless
      simp [phrase, mentions, Phrase.mentions_key key flawless.1.1.1.1]
  | beginsWith key stem =>
      simp only [phrase, Phrase.flawless_append, Phrase.flawless_enclosed] at flawless
      simp [phrase, mentions, Phrase.mentions_key key flawless.2.1.1]
  | and left right ihLeft ihRight =>
      rw [phrase] at flawless ⊢
      split at flawless
      · next placed =>
        simp only [Phrase.flawless_append, Phrase.flawless_enclosed] at flawless
        simp [placed, mentions, ihLeft flawless.1.1, ihRight flawless.2]
      · exact absurd flawless (Phrase.not_flawless_flaw _)

theorem Projection.phrase_mentions (projection : Projection)
    (flawless : projection.phrase.Flawless) :
    projection.phrase.mentions = projection.mentions := by
  rw [phrase] at flawless ⊢
  split at flawless
  · exact absurd flawless (Phrase.not_flawless_flaw _)
  · next some =>
    rw [if_neg some]
    exact Phrase.mentions_members ", " projection.paths Path.phrase Path.mentions
      (fun path _ => path.phrase_mentions) flawless

namespace Update

@[simp]
theorem flawless_clause {β : Type} (keyword : String) (changes : List β) (render : β → Phrase) :
    (clause keyword (changes.map render)).Flawless ↔
      ∀ change ∈ changes, (render change).Flawless := by
  cases changes with
  | nil => simp [clause, Phrase.Flawless]
  | cons first rest =>
      rw [clause, if_neg (by simp)]
      simp [Phrase.commaSeparated]

theorem clause_mentions {β : Type} (keyword : String) (changes : List β) (render : β → Phrase)
    (read : β → List Mention)
    (each : ∀ change ∈ changes, (render change).Flawless →
      (render change).mentions = read change)
    (flawless : (clause keyword (changes.map render)).Flawless) :
    (clause keyword (changes.map render)).mentions = changes.flatMap read := by
  rw [clause] at flawless ⊢
  split at flawless
  · next none =>
    rw [if_pos none, List.map_eq_nil_iff.mp (List.isEmpty_iff.mp none)]
    rfl
  · next some =>
    simp only [Phrase.flawless_append] at flawless
    simp only [if_neg some, Phrase.mentions_append, Phrase.mentions_text, List.nil_append,
      List.append_nil]
    exact Phrase.mentions_members ", " changes render read each flawless.1.2

theorem valuePhrase_mentions (change : Path × AttributeValue)
    (flawless : (valuePhrase change).Flawless) :
    (valuePhrase change).mentions = change.1.mentions ++ [.value change.2] := by
  simp only [valuePhrase, Phrase.flawless_append] at flawless
  simp [valuePhrase, change.1.phrase_mentions flawless.1.1]

theorem assignmentPhrase_mentions (change : Path × Operand)
    (flawless : (assignmentPhrase change).Flawless) :
    (assignmentPhrase change).mentions = change.1.mentions ++ change.2.mentions := by
  simp only [assignmentPhrase, Phrase.flawless_append] at flawless
  simp [assignmentPhrase, change.1.phrase_mentions flawless.1.1,
    change.2.phrase_mentions flawless.2]

theorem phrase_mentions (update : Update) (flawless : update.phrase.Flawless) :
    update.phrase.mentions = update.mentions := by
  rw [phrase] at flawless ⊢
  split at flawless
  · exact absurd flawless (Phrase.not_flawless_flaw _)
  · next some =>
    simp only [Phrase.flawless_append] at flawless
    obtain ⟨⟨⟨added, deleted⟩, removed⟩, assigned⟩ := flawless
    rw [if_neg some, mentions, Phrase.mentions_append, Phrase.mentions_append,
      Phrase.mentions_append,
      clause_mentions "ADD" _ _ _ (fun change _ => valuePhrase_mentions change) added,
      clause_mentions "DELETE" _ _ _ (fun change _ => valuePhrase_mentions change) deleted,
      clause_mentions "REMOVE" _ _ _ (fun path _ => path.phrase_mentions) removed,
      clause_mentions "SET" _ _ _ (fun change _ => assignmentPhrase_mentions change) assigned]

end Update

namespace Draft

theorem phrase_mentions (draft : Draft) (slot : Slot)
    (flawless : ∀ phrase ∈ draft.phrase slot, phrase.Flawless) :
    ((draft.phrase slot).map Phrase.mentions).getD [] = draft.mentionsIn slot := by
  cases slot with
  | condition => exact Phrase.mentions_given _ _ _ Condition.phrase_mentions flawless
  | filter => exact Phrase.mentions_given _ _ _ Condition.phrase_mentions flawless
  | keyCondition => exact Phrase.mentions_given _ _ _ KeyCondition.phrase_mentions flawless
  | projection => exact Phrase.mentions_given _ _ _ Projection.phrase_mentions flawless
  | update => exact Phrase.mentions_given _ _ _ Update.phrase_mentions flawless

end Draft

end ItemExpressions

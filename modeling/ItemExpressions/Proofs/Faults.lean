import ItemExpressions.Proofs.Mentions

/-!
Faults of what is written. A phrase has a text just when there is no flaw in it, and otherwise its
first flaw is why it has none; the table that it is written over has no part in that. A draft fails
with the first flaw of the first of its phrases that has one.
-/

namespace ItemExpressions

theorem map_error {ε α β : Type} (change : α → β) (result : Except ε α) (error : ε) :
    result.map change = .error error ↔ result = .error error := by
  cases result <;> simp [Except.map]

/-- What fails for known reasons returns just when there is none of them. -/
theorem returns_iff {ε α : Type} {result : Except ε α} {reason? : Option ε}
    (failed : ∀ error, result = .error error ↔ reason? = some error) :
    (∃ answer, result = .ok answer) ↔ reason? = none := by
  cases result with
  | ok answer =>
      have sound : reason? = none :=
        Option.eq_none_iff_forall_ne_some.mpr fun error given => by cases (failed error).mpr given
      exact ⟨fun _ => sound, fun _ => ⟨answer, rfl⟩⟩
  | error error => simp [(failed error).mp rfl]

/-! ## The first flaw -/

def Word.fault? : Word → Option Fault
  | .flaw fault => some fault
  | .text _ | .name _ | .value _ => none

namespace Phrase

def fault? (phrase : Phrase) : Option Fault := phrase.findSome? Word.fault?

@[simp]
theorem fault_append (first second : Phrase) :
    fault? (first ++ second) = first.fault?.or second.fault? :=
  List.findSome?_append

@[simp]
theorem fault_text (written : String) : fault? (.text written) = none := rfl

@[simp]
theorem fault_literal (value : AttributeValue) : fault? (.literal value) = none := rfl

@[simp]
theorem fault_flaw (fault : Fault) : fault? (.flaw fault) = some fault := rfl

@[simp]
theorem fault_key (name : String) :
    (key name).fault? = if name = "" then some .emptyKey else none := by
  by_cases empty : name = ""
  · simp [key, empty]
  · simp [key, empty, fault?, Word.fault?]

@[simp]
theorem fault_enclosed (phrase : Phrase) : phrase.enclosed.fault? = phrase.fault? := by
  simp [enclosed]

@[simp]
theorem fault_separated (separator : String) (phrases : List Phrase) :
    (separated separator phrases).fault? = phrases.findSome? fault? := by
  induction phrases with
  | nil => rfl
  | cons first rest ih =>
      cases rest with
      | nil => cases found : first.fault? <;> simp [separated, found]
      | cons second others =>
          simp only [separated, fault_append, fault_text, Option.or_none, ih]
          cases found : first.fault? <;> simp [found]

theorem fault_of_flawless (phrase : Phrase) (flawless : phrase.Flawless) :
    phrase.fault? = none := by
  apply List.findSome?_eq_none_iff.mpr
  intro word member
  have sound := flawless word member
  cases word with
  | flaw => cases sound
  | text | name | value => rfl

theorem flawless_of_fault (phrase : Phrase) (clear : phrase.fault? = none) : phrase.Flawless := by
  intro word member
  have sound := List.findSome?_eq_none_iff.mp clear word member
  cases word with
  | flaw => cases sound
  | text | name | value => rfl

/-! ## Writing -/

theorem number_error (phrase : Phrase) (table : Placeholders) (fault : Fault) :
    (phrase.number table).1 = .error fault ↔ phrase.fault? = some fault := by
  induction phrase generalizing table with
  | nil => simp [number, fault?]
  | cons word rest ih =>
      rw [fault?, List.findSome?_cons]
      cases word with
      | flaw first => simp [number, Word.fault?]
      | text written => exact (map_error _ _ fault).trans (ih table)
      | name field => exact (map_error _ _ fault).trans (ih _)
      | value literal => exact (map_error _ _ fault).trans (ih _)

theorem write_error (phrase : Phrase) (table : Placeholders) (fault : Fault) :
    (phrase.write table).1 = .error fault ↔ phrase.fault? = some fault :=
  (map_error _ _ fault).trans (phrase.number_error table fault)

theorem write_returns (phrase : Phrase) (table : Placeholders) :
    (∃ text, (phrase.write table).1 = .ok text) ↔ phrase.fault? = none :=
  returns_iff (phrase.write_error table)

end Phrase

theorem writeSlots_error (phrases : List (Slot × Phrase)) (table : Placeholders) (fault : Fault) :
    (writeSlots phrases table).1 = .error fault ↔
      phrases.findSome? (fun entry => entry.2.fault?) = some fault := by
  induction phrases generalizing table with
  | nil => simp [writeSlots]
  | cons entry rest ih =>
      have head := entry.2.write_error table
      rw [writeSlots, List.findSome?_cons]
      cases found : entry.2.fault? with
      | some first =>
          have failed := (head first).mpr found
          split
          · next same =>
            rw [same] at failed
            cases failed
            simp
          · next same =>
            rw [same] at failed
            cases failed
      | none =>
          split
          · next failure last same =>
            have flawed := (head failure).mp (by rw [same])
            rw [found] at flawed
            cases flawed
          · exact (map_error _ _ fault).trans (ih _)

/-! ## Faults of parts -/

/-- There is nothing where an expression should be, as opposed to a flaw in one of its parts. -/
def Fault.ofWhole : Fault → Bool
  | .emptyProjection | .emptyUpdate | .emptyDraft => true
  | .emptyPath | .malformedPath | .emptyKey | .noCandidates | .misplacedKeyCondition => false

namespace Phrase

/-- If something is wrong with the phrase, then with one of its parts. -/
def OfParts (phrase : Phrase) : Prop := ∀ fault, phrase.fault? = some fault → fault.ofWhole = false

theorem OfParts.clear {phrase : Phrase} (clear : phrase.fault? = none) : phrase.OfParts := by
  intro fault flawed
  rw [clear] at flawed
  cases flawed

theorem OfParts.text (written : String) : OfParts (.text written) := .clear (fault_text written)

theorem OfParts.literal (value : AttributeValue) : OfParts (.literal value) :=
  .clear (fault_literal value)

theorem OfParts.flaw (fault : Fault) (part : fault.ofWhole = false) : OfParts (.flaw fault) := by
  intro other flawed
  cases flawed
  exact part

theorem OfParts.append {first second : Phrase} (left : first.OfParts) (right : second.OfParts) :
    OfParts (first ++ second) := by
  intro fault flawed
  rw [fault_append, Option.or_eq_some_iff] at flawed
  rcases flawed with here | ⟨_, there⟩
  · exact left fault here
  · exact right fault there

theorem OfParts.key (name : String) : OfParts (.key name) := by
  rw [Phrase.key]
  split
  · exact .flaw _ rfl
  · exact .clear rfl

theorem OfParts.enclosed {phrase : Phrase} (parts : phrase.OfParts) : phrase.enclosed.OfParts :=
  ((OfParts.text "(").append parts).append (.text ")")

theorem OfParts.separated (separator : String) (phrases : List Phrase)
    (parts : ∀ phrase ∈ phrases, phrase.OfParts) : (separated separator phrases).OfParts := by
  induction phrases with
  | nil => exact .clear rfl
  | cons first rest ih =>
      obtain ⟨head, tail⟩ := List.forall_mem_cons.mp parts
      cases rest with
      | nil => exact head
      | cons second others => exact (head.append (.text separator)).append (ih tail)

/-- Members that are written one by one between commas. -/
theorem OfParts.members {β : Type} (members : List β) (render : β → Phrase)
    (parts : ∀ member, (render member).OfParts) :
    (Phrase.commaSeparated (members.map render)).OfParts :=
  .separated ", " _ (List.forall_mem_map.mpr fun member _ => parts member)

end Phrase

open Phrase (OfParts)

theorem Path.phrase_ofParts (path : Path) : path.phrase.OfParts := by
  rw [Path.phrase]
  split
  · exact .flaw _ rfl
  · apply OfParts.separated
    intro phrase member
    obtain ⟨segment, _, rfl⟩ := List.mem_map.mp member
    rw [Path.segmentPhrase]
    split
    · exact .flaw _ rfl
    · exact .clear rfl

mutual

theorem Operand.phrase_ofParts (operand : Operand) : operand.phrase.OfParts := by
  cases operand with
  | path path =>
      rw [Operand.phrase]
      exact path.phrase_ofParts
  | literal value =>
      rw [Operand.phrase]
      exact .literal value
  | size path =>
      rw [Operand.phrase]
      exact (OfParts.text "size ").append path.phrase_ofParts.enclosed
  | derived value =>
      rw [Operand.phrase]
      exact value.phrase_ofParts

theorem Derived.phrase_ofParts (value : Derived) : value.phrase.OfParts := by
  cases value with
  | listAppend first second =>
      have arguments := (first.phrase_ofParts.append (.text ", ")).append second.phrase_ofParts
      exact (OfParts.text "list_append").append arguments.enclosed
  | ifNotExists path fallback =>
      have arguments := (path.phrase_ofParts.append (.text ", ")).append fallback.phrase_ofParts
      exact (OfParts.text "if_not_exists").append arguments.enclosed
  | plus left right => exact (left.phrase_ofParts.append (.text " + ")).append right.phrase_ofParts
  | minus left right => exact (left.phrase_ofParts.append (.text " - ")).append right.phrase_ofParts

end

theorem Condition.phrase_ofParts (condition : Condition) : condition.phrase.OfParts := by
  induction condition with
  | compare left comparator right =>
      exact (left.phrase_ofParts.append (.text _)).append right.phrase_ofParts
  | between operand low high =>
      have range := (operand.phrase_ofParts.append (.text " BETWEEN ")).append low.phrase_ofParts
      exact (range.append (.text " AND ")).append high.phrase_ofParts
  | oneOf operand candidates =>
      rw [Condition.phrase]
      split
      · exact .flaw _ rfl
      · have listed := OfParts.members candidates Operand.phrase Operand.phrase_ofParts
        exact (operand.phrase_ofParts.append (.text " IN ")).append listed.enclosed
  | joined connective left right ihLeft ihRight =>
      exact (ihLeft.enclosed.append (.text _)).append ihRight.enclosed
  | negated condition ih => exact (OfParts.text "NOT ").append ih.enclosed
  | holds predicate path argument =>
      have further : (Condition.argumentPhrase argument).OfParts := by
        cases argument <;> exact .clear rfl
      exact (OfParts.text _).append (path.phrase_ofParts.append further).enclosed

theorem KeyCondition.phrase_ofParts (condition : KeyCondition) : condition.phrase.OfParts := by
  induction condition with
  | compare key comparator value =>
      exact ((OfParts.key key).append (.text _)).append (.literal value)
  | between key low high =>
      have range := ((OfParts.key key).append (.text " BETWEEN ")).append (.literal low)
      exact (range.append (.text " AND ")).append (.literal high)
  | beginsWith key stem =>
      have arguments := ((OfParts.key key).append (.text ", ")).append (.literal stem)
      exact (OfParts.text "begins_with ").append arguments.enclosed
  | and left right ihLeft ihRight =>
      rw [KeyCondition.phrase]
      split
      · exact (ihLeft.enclosed.append (.text " AND ")).append ihRight.enclosed
      · exact .flaw _ rfl

theorem Projection.phrase_ofParts (projection : Projection) (given : projection.isEmpty = false) :
    projection.phrase.OfParts := by
  rw [Projection.phrase, given]
  exact .members projection.paths Path.phrase Path.phrase_ofParts

theorem Update.clause_ofParts {β : Type} (keyword : String) (changes : List β)
    (render : β → Phrase) (parts : ∀ change, (render change).OfParts) :
    (Update.clause keyword (changes.map render)).OfParts := by
  rw [Update.clause]
  split
  · exact .clear rfl
  · exact ((OfParts.text _).append (.members changes render parts)).append (.text "\n")

theorem Update.phrase_ofParts (update : Update) (given : update.isEmpty = false) :
    update.phrase.OfParts := by
  have valued (change : Path × AttributeValue) : (Update.valuePhrase change).OfParts :=
    (change.1.phrase_ofParts.append (.text " ")).append (.literal change.2)
  have assigned (change : Path × Operand) : (Update.assignmentPhrase change).OfParts :=
    (change.1.phrase_ofParts.append (.text " = ")).append change.2.phrase_ofParts
  rw [Update.phrase, given]
  have additions := Update.clause_ofParts "ADD" update.additions _ valued
  have deletions := Update.clause_ofParts "DELETE" update.deletions _ valued
  have removals := Update.clause_ofParts "REMOVE" update.removals _ Path.phrase_ofParts
  have assignments := Update.clause_ofParts "SET" update.assignments _ assigned
  exact ((additions.append deletions).append removals).append assignments

namespace Draft

theorem build_error (draft : Draft) (given : draft.phrases ≠ []) (fault : Fault) :
    draft.build = .error fault ↔
      draft.phrases.findSome? (fun entry => entry.2.fault?) = some fault := by
  have some : draft.phrases.isEmpty = false := by simpa using given
  rw [build, some]
  exact (map_error _ _ fault).trans (writeSlots_error draft.phrases .empty fault)

/-- Nothing is missing from the projection and the update of a draft where it has them. -/
structure Filled (draft : Draft) : Prop where
  projection : ∀ projection ∈ draft.projection, projection.isEmpty = false
  update : ∀ update ∈ draft.update, update.isEmpty = false

theorem Filled.phrase_ofParts {draft : Draft} (filled : draft.Filled) (slot : Slot) :
    ∀ phrase ∈ draft.phrase slot, phrase.OfParts := by
  intro phrase member
  cases slot with
  | condition | filter =>
      obtain ⟨condition, _, rfl⟩ := Option.map_eq_some_iff.mp member
      exact condition.phrase_ofParts
  | keyCondition =>
      obtain ⟨condition, _, rfl⟩ := Option.map_eq_some_iff.mp member
      exact condition.phrase_ofParts
  | projection =>
      obtain ⟨projection, given, rfl⟩ := Option.map_eq_some_iff.mp member
      exact projection.phrase_ofParts (filled.projection projection given)
  | update =>
      obtain ⟨update, given, rfl⟩ := Option.map_eq_some_iff.mp member
      exact update.phrase_ofParts (filled.update update given)

theorem phrases_nil (draft : Draft) : draft.phrases = [] ↔ draft = .empty := by
  obtain ⟨condition, filter, keyCondition, projection, update⟩ := draft
  simp [phrases, phrase, empty]

/-- A draft that has nothing empty in it is refused as a whole just when there is nothing in it. -/
theorem Filled.build_error {draft : Draft} (filled : draft.Filled) (fault : Fault)
    (failed : draft.build = .error fault) :
    (draft = .empty ∧ fault = .emptyDraft) ∨ (draft ≠ .empty ∧ fault.ofWhole = false) := by
  by_cases nothing : draft.phrases = []
  · rw [build, nothing] at failed
    exact Or.inl ⟨draft.phrases_nil.mp nothing, (Except.error.inj failed).symm⟩
  · refine Or.inr ⟨fun same => nothing (draft.phrases_nil.mpr same), ?_⟩
    obtain ⟨entry, member, flawed⟩ :=
      List.exists_of_findSome?_eq_some ((draft.build_error nothing fault).mp failed)
    obtain ⟨slot, _, given⟩ := List.mem_filterMap.mp member
    obtain ⟨phrase, chosen, rfl⟩ := Option.map_eq_some_iff.mp given
    exact filled.phrase_ofParts slot phrase chosen fault flawed

theorem ofKeyCondition_error (condition : KeyCondition) (fault : Fault) :
    (ofKeyCondition condition).build = .error fault ↔ condition.phrase.fault? = some fault := by
  have phrases : (ofKeyCondition condition).phrases = [(.keyCondition, condition.phrase)] := rfl
  rw [build_error _ (by simp [phrases]), phrases, List.findSome?_cons, List.findSome?_nil]
  cases condition.phrase.fault? <;> rfl

end Draft

end ItemExpressions

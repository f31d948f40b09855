import ItemExpressions.Proofs.KeyConditionGathering
import ItemExpressions.Proofs.PathTexts
import ItemExpressions.Proofs.SlotTexts

/-!
Parts of what was written. A phrase that is put together from others is written as their texts one
after the other, and each of these holds over the final table as it does where it was written. So
the predicates of a key condition stand in its text as they would alone, and a projection is the
list of the texts of its paths.
-/

namespace ItemExpressions

theorem Mark.spellAll_append (first second : List Mark) :
    spellAll (first ++ second) = spellAll first ++ spellAll second := by
  induction first with
  | nil => exact (String.empty_append).symm
  | cons mark rest ih => rw [List.cons_append, spellAll, spellAll, ih, String.append_assoc]

theorem Phrase.write_append {first second : Phrase} {table middle last : Placeholders}
    {front back : String} (begun : first.write table = (.ok front, middle))
    (ended : second.write middle = (.ok back, last)) :
    (first ++ second).write table = (.ok (front ++ back), last) := by
  obtain ⟨opening, numbered, rfl⟩ := map_ok (congrArg Prod.fst begun)
  obtain ⟨closing, behind, rfl⟩ := map_ok (congrArg Prod.fst ended)
  have between : (first.number table).2 = middle := congrArg Prod.snd begun
  have after : (second.number middle).2 = last := congrArg Prod.snd ended
  rw [Phrase.write, Phrase.number_append first second table opening numbered, between, behind, after,
    ← Mark.spellAll_append]
  rfl

theorem Phrase.write_text (written : String) (table : Placeholders) :
    (Phrase.text written).write table = (.ok written, table) := by
  simp [Phrase.write, Phrase.text, Phrase.number, Mark.spellAll, Mark.spell, Except.map]

namespace KeyCondition

/-- Either the part is all of the text, or it is one of two parts that the text joins. -/
inductive StandsIn (part : String) : String → Prop where
  | alone : StandsIn part part
  | first (other : String) : StandsIn part ("(" ++ part ++ ")" ++ " AND " ++ ("(" ++ other ++ ")"))
  | second (other : String) : StandsIn part ("(" ++ other ++ ")" ++ " AND " ++ ("(" ++ part ++ ")"))

end KeyCondition

namespace Placeholders.Wrote

variable {table : Placeholders} {whole : String}

theorem flawless {phrase : Phrase} (wrote : table.Wrote phrase whole) : phrase.Flawless := by
  obtain ⟨before, written, _⟩ := wrote
  obtain ⟨marks, numbered, _⟩ := map_ok written
  exact phrase.number_flawless before marks numbered

theorem append {first second : Phrase} (wrote : table.Wrote (first ++ second) whole) :
    ∃ front back, table.Wrote first front ∧ table.Wrote second back ∧ whole = front ++ back := by
  have sound := ((Phrase.flawless_append first second).mp wrote.flawless).1
  obtain ⟨before, written, grown⟩ := wrote
  obtain ⟨marks, numbered, rfl⟩ := map_ok written
  cases begun : (first.number before).1 with
  | error fault =>
      have flawed := (first.number_error before fault).mp begun
      rw [first.fault_of_flawless sound] at flawed
      cases flawed
  | ok opening =>
      have joined := first.number_append second before opening begun
      rw [joined] at numbered
      obtain ⟨closing, ended, rfl⟩ := map_ok numbered
      rw [Phrase.write, joined] at grown
      -- The table that the first part leaves is the one that the second part is written over.
      have kept := grown.trans (second.number_extends (first.number before).2)
      refine ⟨Mark.spellAll opening, Mark.spellAll closing, ⟨before, ?_, kept⟩,
        ⟨(first.number before).2, ?_, grown⟩, Mark.spellAll_append opening closing⟩
      · rw [Phrase.write, begun]
        rfl
      · rw [Phrase.write, ended]
        rfl

theorem text {written : String} (wrote : table.Wrote (.text written) whole) : whole = written := by
  obtain ⟨before, done, _⟩ := wrote
  rw [Phrase.write_text] at done
  exact (Except.ok.inj done).symm

theorem enclosed {phrase : Phrase} (wrote : table.Wrote phrase.enclosed whole) :
    ∃ inner, table.Wrote phrase inner ∧ whole = "(" ++ inner ++ ")" := by
  obtain ⟨front, closing, outer, last, rfl⟩ := wrote.append
  obtain ⟨opening, inner, first, inside, rfl⟩ := outer.append
  exact ⟨inner, inside, by rw [first.text, last.text]⟩

theorem literal {value : AttributeValue} (wrote : table.Wrote (.literal value) whole) :
    ∃ number, whole = Mark.valueLabel number ∧
      table.valueEntries.lookup (Mark.valueLabel number) = some value := by
  obtain ⟨before, written, grown⟩ := wrote
  have injective := Mark.label_injective Mark.valueLabel ':' Mark.valueLabel_chars
  refine ⟨before.values.length, ?_, ?_⟩
  · simpa [Phrase.write, Phrase.literal, Phrase.number, Placeholders.admitValue, Mark.spellAll,
      Mark.spell, Except.map, eq_comm] using written
  · rw [valueEntries, lookup_labelled _ injective]
    apply getElem?_of_extended grown.values
    simp [Phrase.write, Phrase.literal, Phrase.number, Placeholders.admitValue]

/-- Names and text are written with the labels that the names have in the end. -/
theorem inLabels {phrase : Phrase} (wrote : table.Wrote phrase whole)
    (plain : ∀ word ∈ phrase, word.isPlain = true) :
    whole = phrase.inLabels table.labelOf ∧ ∀ name, .name name ∈ phrase → name ∈ table.names := by
  obtain ⟨before, written, grown⟩ := wrote
  obtain ⟨labelled, known⟩ := phrase.write_inLabels plain before
  refine ⟨?_, fun name member => grown.names.subset (known name member)⟩
  rw [Except.ok.inj (written.symm.trans labelled)]
  exact phrase.inLabels_congr _ _ fun name member =>
    (Placeholders.labelOf_extends grown name (known name member)).symm

theorem key {name : String} (wrote : table.Wrote (.key name) whole) :
    whole = table.labelOf name ∧ name ∈ table.names := by
  have given : name ≠ "" := (Phrase.flawless_key name).mp wrote.flawless
  have alone : Phrase.key name = [.name name] := if_neg (by simpa using given)
  rw [alone] at wrote
  obtain ⟨labelled, known⟩ := wrote.inLabels (by simp [Word.isPlain])
  exact ⟨labelled.trans String.append_empty, known name List.mem_cons_self⟩

theorem compare {key : String} {comparator : Comparator} {value : AttributeValue}
    (wrote : table.Wrote (KeyCondition.compare key comparator value).phrase whole) :
    key ∈ table.names ∧ ∃ number,
      whole = table.labelOf key ++ (" " ++ comparator.symbol ++ " ") ++ Mark.valueLabel number ∧
        table.valueEntries.lookup (Mark.valueLabel number) = some value := by
  obtain ⟨front, last, compared, right, rfl⟩ := wrote.append
  obtain ⟨left, middle, keyed, symbol, rfl⟩ := compared.append
  obtain ⟨number, placed, bound⟩ := right.literal
  obtain ⟨labelled, known⟩ := keyed.key
  exact ⟨known, number, by rw [labelled, symbol.text, placed], bound⟩

theorem predicate {condition predicate : KeyCondition} (wrote : table.Wrote condition.phrase whole)
    (member : predicate ∈ condition.predicates) :
    ∃ part, table.Wrote predicate.phrase part ∧ KeyCondition.StandsIn part whole := by
  cases joined : condition.isConjunction with
  | false =>
      rw [condition.predicates_single joined] at member
      rw [List.mem_singleton.mp member]
      exact ⟨whole, wrote, .alone⟩
  | true =>
      cases condition with
      | compare | between | beginsWith => cases joined
      | and left right =>
          rw [KeyCondition.phrase] at wrote
          split at wrote
          next placed =>
            rw [KeyCondition.predicates_placed left right placed] at member
            obtain ⟨front, last, opened, closed, rfl⟩ := wrote.append
            obtain ⟨start, middle, begun, connective, rfl⟩ := opened.append
            obtain ⟨first, here, rfl⟩ := begun.enclosed
            obtain ⟨second, there, rfl⟩ := closed.enclosed
            rw [connective.text]
            rcases List.mem_cons.mp member with same | other
            · exact ⟨first, same ▸ here, .first second⟩
            · exact ⟨second, List.mem_singleton.mp other ▸ there, .second first⟩
          next => exact absurd wrote.flawless (Phrase.not_flawless_flaw _)

theorem projection {projection : Projection} (wrote : table.Wrote projection.phrase whole) :
    whole = ", ".intercalate (projection.paths.map fun path =>
        path.phrase.inLabels table.labelOf) ∧
      ∀ path ∈ projection.paths, path.phrase.Flawless := by
  have flawless := wrote.flawless
  rw [Projection.phrase] at wrote flawless
  split at wrote
  next => exact absurd wrote.flawless (Phrase.not_flawless_flaw _)
  next given =>
    rw [if_neg given] at flawless
    have paths := List.forall_mem_map.mp ((Phrase.flawless_separated ", " _).mp flawless)
    have plain := Phrase.separated_plain ", " (projection.paths.map Path.phrase)
      (List.forall_mem_map.mpr fun path listed => path.phrase_isPlain (paths path listed))
    refine ⟨?_, paths⟩
    rw [(wrote.inLabels plain).1, ← String.toList_inj, Phrase.commaSeparated,
      Phrase.inLabels_separated, String.toList_intercalate, List.map_map, List.map_map]
    rfl

end Placeholders.Wrote

/-- What a path is written as in an expression. -/
def Expression.pathText (expression : Expression) (path : Path) : String :=
  path.phrase.inLabels expression.placeholders.labelOf

namespace Draft

section Built

variable (draft : Draft) (expression : Expression) (built : draft.build = .ok expression)

include built

/-- A comparison stands in the text of the key condition with the label of its key, and its value is
bound. -/
theorem compared_in_text (condition : KeyCondition) (required : draft.keyCondition = some condition)
    (key : String) (comparator : Comparator) (value : AttributeValue)
    (included : .compare key comparator value ∈ condition.predicates) :
    key ∈ expression.placeholders.names ∧
      ∃ written number, expression.text .keyCondition = some written ∧
        KeyCondition.StandsIn (expression.placeholders.labelOf key ++
          (" " ++ comparator.symbol ++ " ") ++ Mark.valueLabel number) written ∧
        expression.values.lookup (Mark.valueLabel number) = some value := by
  have given : draft.phrase .keyCondition = some condition.phrase := by
    rw [phrase, required]
    rfl
  obtain ⟨written, found, wrote⟩ := draft.text_of_phrase expression built _ _ given
  obtain ⟨part, compared, stands⟩ := wrote.predicate included
  obtain ⟨known, number, rfl, bound⟩ := compared.compare
  exact ⟨known, written, number, found, stands, bound⟩

theorem paths_in_text (projection : Projection) (projected : draft.projection = some projection) :
    expression.text .projection =
        some (", ".intercalate (projection.paths.map expression.pathText)) ∧
      ∀ path ∈ projection.paths, path.phrase.Flawless := by
  have given : draft.phrase .projection = some projection.phrase := by
    rw [phrase, projected]
    rfl
  obtain ⟨written, found, wrote⟩ := draft.text_of_phrase expression built _ _ given
  obtain ⟨rfl, flawless⟩ := wrote.projection
  exact ⟨found, flawless⟩

end Built

end Draft

end ItemExpressions

import ItemExpressions.Proofs.Numbering
import ItemExpressions.Proofs.RoutePaths

/-!
Paths as they are written. A phrase of names and text is always written, with the label of each name
in its place. For a path that is made of plain names and indices, this spells out its steps: a label
for each field, the indices of list elements as they are. Labels are plain themselves, so the text
is read back like a path; and since each label stands for one name, the steps are known from it.
-/

namespace ItemExpressions

/-! ## Labels of names -/

namespace Placeholders

/-- What a name of the table is written as. -/
def labelOf (table : Placeholders) (name : String) : String :=
  Mark.nameLabel (table.names.idxOf name)

theorem labelOf_extends {later earlier : Placeholders} (grown : later.Extends earlier)
    (name : String) (known : name ∈ earlier.names) : later.labelOf name = earlier.labelOf name :=
  congrArg Mark.nameLabel (position_of_extends grown name known)

theorem labelOf_bound (table : Placeholders) (name : String) (known : name ∈ table.names) :
    table.nameEntries.lookup (table.labelOf name) = some name := by
  have injective := Mark.label_injective Mark.nameLabel '#' Mark.nameLabel_chars
  have inside : table.names.idxOf name < table.names.length := List.idxOf_lt_length_iff.mpr known
  rw [nameEntries, labelOf, lookup_labelled _ injective, List.getElem?_eq_getElem inside,
    List.getElem_idxOf]

theorem labelOf_plain (table : Placeholders) (name : String) : Path.Plain (table.labelOf name) := by
  have chars := Mark.nameLabel_chars (table.names.idxOf name)
  constructor
  · intro empty
    rw [labelOf, ← String.toList_eq_nil_iff, chars] at empty
    cases empty
  · intro c member
    rw [labelOf, chars] at member
    rcases List.mem_cons.mp member with rfl | digit
    · decide
    · have decimal := Nat.isDigit_of_mem_toDigits (by decide) (by decide) digit
      refine ⟨?_, ?_, ?_⟩ <;> (rintro rfl; cases decimal)

theorem labelOf_injective (table : Placeholders) (first second : String)
    (known : first ∈ table.names) (other : second ∈ table.names)
    (same : table.labelOf first = table.labelOf second) : first = second := by
  have bound := table.labelOf_bound first known
  rw [same, table.labelOf_bound second other] at bound
  exact (Option.some.inj bound).symm

end Placeholders

/-! ## Writing names and text -/

/-- There is neither a value nor a flaw. -/
def Word.isPlain : Word → Bool
  | .text _ | .name _ => true
  | .value _ | .flaw _ => false

namespace Phrase

/-- A phrase of names and text, with labels in the place of names. -/
def inLabels (label : String → String) : Phrase → String
  | [] => ""
  | .text written :: rest => written ++ inLabels label rest
  | .name name :: rest => label name ++ inLabels label rest
  | .value _ :: rest | .flaw _ :: rest => inLabels label rest

theorem inLabels_append (label : String → String) (first second : Phrase) :
    inLabels label (first ++ second) = first.inLabels label ++ second.inLabels label := by
  induction first with
  | nil => simp [inLabels]
  | cons word rest ih => cases word <;> simp [inLabels, ih, String.append_assoc]

theorem inLabels_congr (phrase : Phrase) (label other : String → String)
    (agree : ∀ name, .name name ∈ phrase → label name = other name) :
    phrase.inLabels label = phrase.inLabels other := by
  induction phrase with
  | nil => rfl
  | cons word rest ih =>
      have later := ih fun name member => agree name (List.mem_cons_of_mem word member)
      cases word with
      | name name => simp [inLabels, later, agree name List.mem_cons_self]
      | text | value | flaw => simp [inLabels, later]

theorem inLabels_separated (label : String → String) (separator : String) (phrases : List Phrase) :
    ((separated separator phrases).inLabels label).toList =
      separator.toList.intercalate (phrases.map fun phrase => (phrase.inLabels label).toList) := by
  induction phrases with
  | nil => rfl
  | cons first rest ih =>
      cases rest with
      | nil => simp [separated]
      | cons second others =>
          simp only [List.map_cons] at ih ⊢
          rw [List.intercalate_cons_cons, ← ih]
          simp [separated, inLabels_append, text, inLabels]

theorem mem_separated (separator : String) (phrases : List Phrase) (word : Word) :
    word ∈ separated separator phrases ↔ (∃ phrase ∈ phrases, word ∈ phrase) ∨
      word = .text separator ∧ 1 < phrases.length := by
  induction phrases with
  | nil => simp [separated]
  | cons first rest ih =>
      cases rest with
      | nil => simp [separated]
      | cons second others =>
          simp only [separated, List.append_assoc, List.mem_append, ih, text]
          grind

theorem separated_plain (separator : String) (phrases : List Phrase)
    (plain : ∀ phrase ∈ phrases, ∀ word ∈ phrase, word.isPlain = true) :
    ∀ word ∈ separated separator phrases, word.isPlain = true := by
  intro word member
  rcases (mem_separated separator phrases word).mp member with ⟨phrase, inside, found⟩ | ⟨rfl, _⟩
  · exact plain phrase inside word found
  · rfl

theorem number_inLabels (phrase : Phrase) (plain : ∀ word ∈ phrase, word.isPlain = true)
    (table : Placeholders) : ∃ marks, (phrase.number table).1 = .ok marks ∧
      Mark.spellAll marks = phrase.inLabels (phrase.number table).2.labelOf ∧
      ∀ name, .name name ∈ phrase → name ∈ (phrase.number table).2.names := by
  induction phrase generalizing table with
  | nil => exact ⟨[], rfl, rfl, by simp⟩
  | cons word rest ih =>
      obtain ⟨here, others⟩ := List.forall_mem_cons.mp plain
      cases word with
      | value | flaw => cases here
      | text written =>
          obtain ⟨marks, numbered, spelled, known⟩ := ih others table
          refine ⟨.text written :: marks, ?_, ?_, ?_⟩
          · simp [number, numbered, Except.map]
          · simp [Mark.spellAll, Mark.spell, inLabels, number, spelled]
          · simpa [number] using known
      | name name =>
          obtain ⟨marks, numbered, spelled, known⟩ := ih others (table.admitName name).2
          have grown := number_extends rest (table.admitName name).2
          have kept : (number rest (table.admitName name).2).2.labelOf name =
              Mark.nameLabel (table.admitName name).1 := by
            rw [Placeholders.labelOf_extends grown name (table.admitName_mem name),
              Placeholders.labelOf, table.admitName_position name]
          refine ⟨.name (table.admitName name).1 :: marks, ?_, ?_, ?_⟩
          · simp [number, numbered, Except.map]
          · simp [Mark.spellAll, Mark.spell, inLabels, number, spelled, kept]
          · intro other member
            rcases List.mem_cons.mp member with same | later
            · cases same
              exact grown.names.subset (table.admitName_mem name)
            · exact known other later

/-- Names and text are always written, and the table has all the names then. -/
theorem write_inLabels (phrase : Phrase) (plain : ∀ word ∈ phrase, word.isPlain = true)
    (table : Placeholders) :
    (phrase.write table).1 = .ok (phrase.inLabels (phrase.write table).2.labelOf) ∧
      ∀ name, .name name ∈ phrase → name ∈ (phrase.write table).2.names := by
  obtain ⟨marks, numbered, spelled, known⟩ := phrase.number_inLabels plain table
  refine ⟨?_, known⟩
  rw [write, numbered, ← spelled]
  rfl

end Phrase

/-! ## Routes as they are written -/

namespace Segment

/-- Steps behind a field: a point before each further field, indices in brackets without one. -/
def spellBehind (label : String → String) : List Segment → String
  | [] => ""
  | .field name :: rest => "." ++ label name ++ spellBehind label rest
  | .index position :: rest => Shape.indexName position ++ spellBehind label rest

def spellAll (label : String → String) : List Segment → String
  | .field name :: rest => label name ++ spellBehind label rest
  | others => spellBehind label others

def relabel (label : String → String) : Segment → Segment
  | .field name => .field (label name)
  | .index position => .index position

end Segment

namespace Part

def phrase (part : Part) : Phrase :=
  [.name part.name, .text (String.ofList (Path.bracketed part.indices))]

theorem spellBehind_indices (label : String → String) (indices : List Nat) (more : List Segment) :
    Segment.spellBehind label (indices.map .index ++ more) =
      String.ofList (Path.bracketed indices) ++ Segment.spellBehind label more := by
  induction indices with
  | nil => simp [Path.bracketed]
  | cons index rest ih =>
      simp [Segment.spellBehind, ih, Path.bracketed, String.append_assoc]

theorem spellAll_segments (label : String → String) (part : Part) (more : List Segment) :
    Segment.spellAll label (part.segments ++ more) =
      part.phrase.inLabels label ++ Segment.spellBehind label more := by
  simp [segments, Segment.spellAll, spellBehind_indices, phrase, Phrase.inLabels,
    String.append_assoc]

/-- A route is written part by part. -/
theorem inLabels_parts (label : String → String) (parts : List Part) :
    (Phrase.separated "." (parts.map phrase)).inLabels label =
      Segment.spellAll label (parts.flatMap segments) := by
  induction parts with
  | nil => rfl
  | cons first rest ih =>
      rw [List.flatMap_cons, spellAll_segments]
      cases rest with
      | nil => simp [Phrase.separated, Segment.spellBehind]
      | cons second others =>
          have behind : Segment.spellBehind label ((second :: others).flatMap segments) =
              "." ++ Segment.spellAll label ((second :: others).flatMap segments) := by
            simp [segments, Segment.spellBehind, Segment.spellAll, String.append_assoc]
          rw [behind, ← ih]
          simp [Phrase.separated, Phrase.inLabels_append, Phrase.text, Phrase.inLabels]

def relabel (label : String → String) (part : Part) : Part := ⟨label part.name, part.indices⟩

theorem segments_relabel (label : String → String) (parts : List Part) :
    (parts.map (relabel label)).flatMap segments =
      (parts.flatMap segments).map (Segment.relabel label) := by
  rw [List.flatMap_map, List.map_flatMap]
  apply List.flatMap_congr
  intro part _
  simp [segments, relabel, Segment.relabel]

theorem spellAll_chars (label : String → String) (parts : List Part) :
    (Segment.spellAll label (parts.flatMap segments)).toList =
      ['.'].intercalate (parts.map fun part => (part.relabel label).chars) := by
  rw [← inLabels_parts, Phrase.inLabels_separated, List.map_map]
  refine congrArg (['.'].intercalate) (List.map_congr_left fun part _ => ?_)
  simp [phrase, Phrase.inLabels, chars, relabel]

end Part

namespace Path

/-- Where labels are plain, the steps that were written with them are read back. -/
theorem address_spellAll (label : String → String) (plain : ∀ name, Plain (label name))
    (parts : List Part) : address ⟨Segment.spellAll label (parts.flatMap Part.segments)⟩ =
      (parts.flatMap Part.segments).map (Segment.relabel label) := by
  have parted : Parted ⟨Segment.spellAll label (parts.flatMap Part.segments)⟩
      (parts.map (Part.relabel label)) := by
    refine ⟨?_, List.forall_mem_map.mpr fun part _ => plain part.name⟩
    rw [Part.spellAll_chars, List.map_map]
    rfl
  rw [parted.address, Part.segments_relabel]

section Parted

variable {path : Path} {parts : List Part} (parted : path.Parted parts) (given : parts ≠ [])

include parted given

theorem Parted.phrase_eq : path.phrase = .separated "." (parts.map Part.phrase) := by
  have some : path.text.isEmpty = false := by simpa using parted.text_ne given
  rw [phrase, some, parted.segments_eq given, List.map_map]
  refine congrArg (Phrase.separated ".") (List.map_congr_left fun part member => ?_)
  have plain := parted.plain part member
  have name : part.name.toList ≠ [] :=
    fun none => plain.nonempty (String.toList_eq_nil_iff.mp none)
  obtain ⟨field, behind⟩ := fieldName_bracketed part.name.toList
    (fun c inside => (plain.unreserved c inside).2) part.indices
  rw [Function.comp_apply, Part.chars, segmentPhrase, behind]
  split
  · next none => exact absurd (field.symm.trans none) name
  · rw [field, String.ofList_toList]
    rfl

theorem Parted.phrase_plain : ∀ word ∈ path.phrase, word.isPlain = true := by
  rw [parted.phrase_eq given]
  refine Phrase.separated_plain "." _ (List.forall_mem_map.mpr fun part _ => ?_)
  simp [Part.phrase, Word.isPlain]

theorem Parted.phrase_flawless : path.phrase.Flawless := by
  intro word member
  have plain := parted.phrase_plain given word member
  cases word with
  | flaw => cases plain
  | text | name | value => rfl

theorem Parted.phrase_name (name : String) (member : .field name ∈ parts.flatMap Part.segments) :
    .name name ∈ path.phrase := by
  obtain ⟨part, inside, named⟩ := List.mem_flatMap.mp member
  have same : name = part.name := by simpa [Part.segments] using named
  rw [parted.phrase_eq given, Phrase.mem_separated, same]
  exact .inl ⟨part.phrase, List.mem_map_of_mem inside, List.mem_cons_self⟩

/-- Over any table, the path is written as the steps down to what it names. -/
theorem Parted.written (table : Placeholders) :
    (path.phrase.write table).1 = .ok (Segment.spellAll (path.phrase.write table).2.labelOf
        (parts.flatMap Part.segments)) ∧
      ∀ name, .field name ∈ parts.flatMap Part.segments →
        name ∈ (path.phrase.write table).2.names := by
  obtain ⟨text, known⟩ := path.phrase.write_inLabels (parted.phrase_plain given) table
  refine ⟨?_, fun name member => known name (parted.phrase_name given name member)⟩
  rw [text, ← Part.inLabels_parts, ← parted.phrase_eq given]

end Parted

/-- Steps are told apart by their labels where names are. -/
theorem relabel_injective (table : Placeholders) (first second : List Segment)
    (known : ∀ name, .field name ∈ first → name ∈ table.names)
    (other : ∀ name, .field name ∈ second → name ∈ table.names)
    (same : first.map (Segment.relabel table.labelOf) =
      second.map (Segment.relabel table.labelOf)) : first = second := by
  induction first generalizing second with
  | nil => exact (List.map_eq_nil_iff.mp same.symm).symm
  | cons head tail ih =>
      cases second with
      | nil => cases same
      | cons next rest =>
          obtain ⟨here, later⟩ := List.cons.inj same
          have tails := ih rest (fun name member => known name (List.mem_cons_of_mem head member))
            (fun name member => other name (List.mem_cons_of_mem next member)) later
          have heads : head = next := by
            cases head with
            | field name =>
                cases next with
                | field field =>
                    exact congrArg Segment.field (table.labelOf_injective name field
                      (known name List.mem_cons_self) (other field List.mem_cons_self)
                      (Segment.field.inj here))
                | index => cases here
            | index position =>
                cases next with
                | field => cases here
                | index => exact here
          rw [heads, tails]

/-- Two paths that are written alike over one table, which may have grown in between, are made of
the same steps. -/
theorem Parted.same_steps {first second : Path} {parts others : List Part}
    (parted : first.Parted parts) (given : parts ≠ []) (apart : second.Parted others)
    (more : others ≠ []) (table later : Placeholders)
    (grown : later.Extends (first.phrase.write table).2)
    (same : (first.phrase.write table).1 = (second.phrase.write later).1) :
    parts.flatMap Part.segments = others.flatMap Part.segments := by
  have known := (parted.written given table).2
  obtain ⟨text, last⟩ := apart.written more later
  have extended : (second.phrase.write later).2.Extends (first.phrase.write table).2 :=
    (second.phrase.number_extends later).trans grown
  -- The labels of the first text are still the same over the table in the end.
  obtain ⟨early, named⟩ := first.phrase.write_inLabels (parted.phrase_plain given) table
  have kept := first.phrase.inLabels_congr _ _ fun name member =>
    (Placeholders.labelOf_extends extended name (named name member)).symm
  have spelled := Part.inLabels_parts (second.phrase.write later).2.labelOf parts
  rw [← parted.phrase_eq given] at spelled
  rw [early, kept, spelled, text] at same
  have read := congrArg (fun text => Path.address ⟨text⟩) (Except.ok.inj same)
  simp only [address_spellAll _ (Placeholders.labelOf_plain _)] at read
  exact relabel_injective (second.phrase.write later).2 _ _
    (fun name member => extended.names.subset (known name member)) last read

end Path

end ItemExpressions

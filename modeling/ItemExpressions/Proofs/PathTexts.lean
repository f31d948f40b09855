import ItemExpressions.Proofs.SpelledPaths

/-!
Texts of paths. A path is written segment by segment: a label in the place of the field name, and
what is taken for indices as it stands. What stands between the brackets is not looked at. So the
text has nothing but labels and decimal indices in it just when all indices of the path are decimal,
and otherwise characters of a name stand in the text themselves.
-/

namespace ItemExpressions

theorem DecimalIndices.stops {indices : List Char} (decimal : DecimalIndices indices) :
    Token.StopsLabel indices := by
  have stops := decimal.inert.stops
  rwa [String.toList_ofList] at stops

namespace Path

/-! ## Segments as they are written -/

theorem split_pointless (text : List Char) : ∀ segment ∈ split text, '.' ∉ segment := by
  induction text with
  | nil => simp [split]
  | cons c rest ih =>
      obtain ⟨first, others, parts⟩ := List.exists_cons_of_ne_nil (split_ne_nil rest)
      rw [parts] at ih
      obtain ⟨head, tail⟩ := List.forall_mem_cons.mp ih
      by_cases point : c = '.'
      · rw [split, if_pos point, parts]
        exact List.forall_mem_cons.mpr ⟨List.not_mem_nil, ih⟩
      · rw [split, if_neg point, parts]
        refine List.forall_mem_cons.mpr ⟨fun member => ?_, tail⟩
        rcases List.mem_cons.mp member with same | later
        · exact point same.symm
        · exact head later

theorem split_eq_splitOn (text : List Char) : split text = text.splitOn '.' := by
  have parts := List.splitOn_intercalate '.' (split_pointless text) (split_ne_nil text)
  rw [split_joined] at parts
  exact parts.symm

/-- A segment with a label in the place of its field name. -/
def segmentText (label : String → String) (segment : List Char) : List Char :=
  (label (String.ofList (fieldName segment))).toList ++ indices segment

section Flawless

variable (path : Path) (flawless : path.phrase.Flawless)

include flawless

theorem phrase_eq : path.phrase = .separated "." (path.segments.map fun segment =>
    [.name (String.ofList (fieldName segment)), .text (String.ofList (indices segment))]) := by
  obtain ⟨written, each⟩ := segments_flawless path flawless
  rw [written]
  congr 1
  exact List.map_congr_left fun segment member => segmentPhrase_flawless segment (each segment member)

theorem phrase_isPlain : ∀ word ∈ path.phrase, word.isPlain = true := by
  rw [path.phrase_eq flawless]
  refine Phrase.separated_plain "." _ (List.forall_mem_map.mpr fun segment _ => ?_)
  simp [Word.isPlain]

theorem phrase_field (segment : List Char) (member : segment ∈ path.segments) :
    .name (String.ofList (fieldName segment)) ∈ path.phrase := by
  rw [path.phrase_eq flawless, Phrase.mem_separated]
  exact .inl ⟨_, List.mem_map_of_mem member, List.mem_cons_self⟩

/-- Labels have no point in them, so the text has the same segments as the path. -/
theorem split_inLabels (label : String → String) (plain : ∀ name, Plain (label name)) :
    split (path.phrase.inLabels label).toList = path.segments.map (segmentText label) := by
  have spelled : (path.phrase.inLabels label).toList =
      ['.'].intercalate (path.segments.map (segmentText label)) := by
    rw [path.phrase_eq flawless, Phrase.inLabels_separated, List.map_map]
    refine congrArg (['.'].intercalate) (List.map_congr_left fun segment _ => ?_)
    simp [segmentText, Phrase.inLabels]
  rw [spelled]
  apply split_intercalate
  · simpa [segments] using split_ne_nil path.text.toList
  · intro piece member
    obtain ⟨segment, inside, rfl⟩ := List.mem_map.mp member
    have whole := split_pointless path.text.toList segment inside
    rw [segmentText, List.mem_append]
    rintro (labelled | behind)
    · exact ((plain _).unreserved '.' labelled).1 rfl
    · rw [← fieldName_indices segment] at whole
      exact whole (List.mem_append_right _ behind)

end Flawless

/-! ## Nothing but placeholders -/

/-- The label of a name, with decimal indices behind it or none. -/
inductive PlaceholderItem : List Char → Prop where
  | intro (digits indices : List Char) (some : digits ≠ []) (decimal : ∀ c ∈ digits, c.isDigit)
      (indexed : DecimalIndices indices) : PlaceholderItem ('#' :: (digits ++ indices))

def OnlyPlaceholders (text : String) : Prop := ∀ item ∈ split text.toList, PlaceholderItem item

theorem PlaceholderItem.chars {item : List Char} (placeholder : PlaceholderItem item) :
    ∀ c ∈ item, c = '#' ∨ (Piece.char c).inPath = true := by
  obtain ⟨digits, indices, _, decimal, indexed⟩ := placeholder
  intro c member
  rcases List.mem_cons.mp member with sign | member
  · exact .inl sign
  · rcases List.mem_append.mp member with digit | behind
    · exact .inr (by simp [Piece.inPath, decimal c digit])
    · exact .inr (indices_inPath indices indexed c behind)

theorem indices_head (segment : List Char) : ∀ c ∈ (indices segment).head?, c = '[' := by
  intro c first
  rw [indices] at first
  split at first
  · have bracket := List.head?_dropWhile_not (· != '[') segment
    rw [Option.mem_def.mp first] at bracket
    simpa using bracket
  · cases first

theorem indices_stop (segment : List Char) : Token.StopsLabel (indices segment) := by
  intro c first
  rw [indices_head segment c first]
  decide

/-- The digits of a label end where the indices behind it begin. -/
theorem placeholderItem_label (index : Nat) (rest : List Char) (stops : Token.StopsLabel rest) :
    PlaceholderItem ((Mark.nameLabel index).toList ++ rest) ↔ DecimalIndices rest := by
  rw [Mark.nameLabel_chars, List.cons_append]
  have decimal : ∀ c ∈ Nat.toDigits 10 index, c.isDigit :=
    fun c member => Nat.isDigit_of_mem_toDigits (by decide) (by decide) member
  constructor
  · intro placeholder
    generalize same : '#' :: (Nat.toDigits 10 index ++ rest) = item at placeholder
    obtain ⟨digits, indices, _, others, indexed⟩ := placeholder
    have behind := (List.cons.inj same).2
    -- Brackets stop the digits on both sides, so the digits are the same, and what is behind them.
    have scanned := congrArg Token.scan behind
    rw [Token.scan_digits _ decimal stops, Token.scan_digits _ others indexed.stops] at scanned
    rw [(Prod.mk.inj scanned).1] at behind
    rwa [List.append_cancel_left behind]
  · intro indexed
    exact .intro _ rest Nat.toDigits_ne_nil decimal indexed

/-- A path that is written has a label for each of its field names, which the table has under that
label. All else in the text is what stood in the path behind the field names; so the text is made of
labels and decimal indices if and only if these indices were decimal. -/
theorem text_of_placeholders (path : Path) (table : Placeholders) (text : String)
    (written : (path.phrase.write table).1 = .ok text) :
    (OnlyPlaceholders text ↔ path.DecimallyIndexed) ∧
      split text.toList =
        path.segments.map (segmentText (path.phrase.write table).2.labelOf) ∧
      ∀ segment ∈ path.segments, (path.phrase.write table).2.nameEntries.lookup
        ((path.phrase.write table).2.labelOf (String.ofList (fieldName segment))) =
          some (String.ofList (fieldName segment)) := by
  obtain ⟨marks, numbered, _⟩ := map_ok written
  have flawless := path.phrase.number_flawless table marks numbered
  obtain ⟨labelled, known⟩ := path.phrase.write_inLabels (path.phrase_isPlain flawless) table
  have same := Except.ok.inj (written.symm.trans labelled)
  have items := path.split_inLabels flawless _ (path.phrase.write table).2.labelOf_plain
  rw [← same] at items
  refine ⟨?_, items, fun segment member => ?_⟩
  · rw [OnlyPlaceholders, items, List.forall_mem_map, DecimallyIndexed]
    exact forall₂_congr fun segment _ =>
      placeholderItem_label _ (indices segment) (indices_stop segment)
  · exact Placeholders.labelOf_bound _ _ (known _ (path.phrase_field flawless segment member))

/-- A field with two indices, over a table that has the other field already. -/
theorem matrix_only_placeholders :
    ((phrase ⟨"matrix[1][2].cell"⟩).write ⟨["cell"], []⟩).1 = .ok "#1[1][2].#0" ∧
      DecimallyIndexed ⟨"matrix[1][2].cell"⟩ ∧ OnlyPlaceholders "#1[1][2].#0" := by
  have written : ((phrase ⟨"matrix[1][2].cell"⟩).write ⟨["cell"], []⟩).1 = .ok "#1[1][2].#0" := by
    decide
  have indexed : DecimallyIndexed ⟨"matrix[1][2].cell"⟩ := by
    have second : DecimalIndices "[2]".toList := .more ['2'] [] (by decide) (by simp) .none
    have both : DecimalIndices "[1][2]".toList := .more ['1'] _ (by decide) (by simp) second
    have parts : segments ⟨"matrix[1][2].cell"⟩ = ["matrix[1][2]".toList, "cell".toList] := by
      decide
    rw [DecimallyIndexed, parts]
    exact List.forall_mem_cons.mpr ⟨both, List.forall_mem_singleton.mpr .none⟩
  exact ⟨written, indexed, (text_of_placeholders _ _ _ written).1.mpr indexed⟩

/-- Between the first and the last bracket of this path stands the name of another field, and it is
in the text of the path as well. -/
theorem bracketed_name_in_text :
    (phrase ⟨"a[0], secret[0]"⟩).write .empty = (.ok "#0[0], secret[0]", ⟨["a"], []⟩) ∧
      ¬ OnlyPlaceholders "#0[0], secret[0]" := by
  refine ⟨by decide, fun only => ?_⟩
  have item := only "#0[0], secret[0]".toList (by decide)
  exact absurd (item.chars ',' (by decide)) (by decide)

end Path

end ItemExpressions

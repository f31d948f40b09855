import ItemExpressions.Numeral
import ItemExpressions.Proofs.WrittenParts

/-!
Reading paths back. In the text of a path, each item between the points is a label, up to the first
bracket, with the rest of its segment behind it. The number of the label finds the field name in the
table, also when the table has grown since, and whatever characters the name has. So the text gives
the path back, and over one table no two paths have the same text.
-/

namespace ItemExpressions

theorem Numeral.readNatural_digits (number : Nat) :
    readNatural? (Nat.toDigits 10 number) = some number := by
  have given : (Nat.toDigits 10 number).isEmpty = false := by simp [Nat.toDigits_ne_nil]
  have decimal : (Nat.toDigits 10 number).all Char.isDigit = true :=
    List.all_eq_true.mpr fun c member => Nat.isDigit_of_mem_toDigits (by decide) (by decide) member
  have value : digitsValue (Nat.toDigits 10 number) = number := Nat.ofDigitChars_ten_toDigits
  simp [readNatural?, given, decimal, value]

theorem mapM_of_each {α β : Type} (read : β → Option α) (write : α → β) (members : List α)
    (each : ∀ member ∈ members, read (write member) = some member) :
    (members.map write).mapM read = some members := by
  induction members with
  | nil => rfl
  | cons first rest ih =>
      obtain ⟨head, tail⟩ := List.forall_mem_cons.mp each
      rw [List.map_cons, List.mapM_cons, head, ih tail]
      rfl

namespace Path

/-- The name that stands under the number of a label, and all from the first bracket on as it is. -/
def readItem (names : List String) (item : List Char) : Option (List Char) :=
  match item.takeWhile (· != '[') with
  | '#' :: digits => do
      let number ← Numeral.readNatural? digits
      let name ← names[number]?
      return name.toList ++ item.dropWhile (· != '[')
  | _ => none

def readText (names : List String) (text : String) : Option Path :=
  ((text.toList.splitOn '.').mapM (readItem names)).map fun segments =>
    ⟨String.ofList (['.'].intercalate segments)⟩

/-- A label has no bracket in it, and nothing but a bracket follows it. -/
theorem label_cut (index : Nat) (segment : List Char) :
    ((Mark.nameLabel index).toList ++ indices segment).takeWhile (· != '[') =
        (Mark.nameLabel index).toList ∧
      ((Mark.nameLabel index).toList ++ indices segment).dropWhile (· != '[') =
        indices segment := by
  have inside : ∀ c ∈ (Mark.nameLabel index).toList, (c != '[') = true := by
    intro c member
    rw [Mark.nameLabel_chars] at member
    rcases List.mem_cons.mp member with rfl | digit
    · decide
    · exact bne_iff_ne.mpr fun same => digits_unreserved index '[' (by decide) (same ▸ digit)
  rw [List.takeWhile_append_of_pos inside, List.dropWhile_append_of_pos inside]
  cases behind : indices segment with
  | nil => simp
  | cons c rest =>
      have bracket := indices_head segment c (by rw [behind]; rfl)
      simp [bracket]

theorem readItem_label (names : List String) (index : Nat) (segment : List Char)
    (found : names[index]? = some (String.ofList (fieldName segment))) :
    readItem names ((Mark.nameLabel index).toList ++ indices segment) = some segment := by
  obtain ⟨label, behind⟩ := label_cut index segment
  rw [readItem, label, behind, Mark.nameLabel_chars]
  simp [Numeral.readNatural_digits, found, fieldName_indices]

/-- Over every list of names that goes on from those of the table, the text is read as the path. -/
theorem readText_written (path : Path) (table : Placeholders) (text : String)
    (written : (path.phrase.write table).1 = .ok text) (names : List String)
    (grown : (path.phrase.write table).2.names <+: names) : readText names text = some path := by
  have wrote : (path.phrase.write table).2.Wrote path.phrase text := ⟨table, written, .refl _⟩
  have flawless := wrote.flawless
  obtain ⟨labelled, known⟩ := wrote.inLabels (path.phrase_isPlain flawless)
  have items := path.split_inLabels flawless _ (path.phrase.write table).2.labelOf_plain
  rw [← labelled, split_eq_splitOn] at items
  have each : ∀ segment ∈ path.segments, readItem names
      (segmentText (path.phrase.write table).2.labelOf segment) = some segment := by
    intro segment member
    have here := known _ (path.phrase_field flawless segment member)
    have inside := List.idxOf_lt_length_iff.mpr here
    apply readItem_label
    apply Placeholders.getElem?_of_extended grown
    rw [List.getElem?_eq_getElem inside, List.getElem_idxOf]
  rw [readText, items, mapM_of_each _ _ _ each, Option.map_some, segments, split_joined,
    String.ofList_toList]

/-- Names keep their labels, so a path is written over a grown table as it was before. -/
theorem write_again (path : Path) (table later : Placeholders) (text : String)
    (written : (path.phrase.write table).1 = .ok text)
    (grown : later.Extends (path.phrase.write table).2) :
    (path.phrase.write later).1 = .ok text := by
  have extended := (path.phrase.number_extends later).trans grown
  have wrote : (path.phrase.write later).2.Wrote path.phrase text := ⟨table, written, extended⟩
  have plain := path.phrase_isPlain wrote.flawless
  rw [(path.phrase.write_inLabels plain later).1, (wrote.inLabels plain).1]

/-- What a path was written as is read back with the names of the table, and also with those of any
later table. So of two paths that are written one after the other, both have the same text if and
only if they are the same. -/
theorem read_back (path : Path) (table : Placeholders) (text : String)
    (written : (path.phrase.write table).1 = .ok text) :
    (∀ names, (path.phrase.write table).2.names <+: names → readText names text = some path) ∧
      ∀ (other : Path) (later : Placeholders) (otherText : String),
        later.Extends (path.phrase.write table).2 → (other.phrase.write later).1 = .ok otherText →
          (otherText = text ↔ other = path) := by
  refine ⟨path.readText_written table text written, fun other later otherText grown next => ?_⟩
  have extended := (other.phrase.number_extends later).trans grown
  constructor
  · rintro rfl
    have first := path.readText_written table otherText written _ extended.names
    have second := other.readText_written later otherText next _ (List.prefix_refl _)
    exact Option.some.inj (second.symm.trans first)
  · rintro rfl
    have again := other.write_again table later text written grown
    exact Except.ok.inj (next.symm.trans again)

/-- A name that is spelled like a label, an open bracket in a name and an index of two digits, over
a table that has one of the names; afterwards another path makes the table grow. -/
theorem oddly_named_read_back :
    ((phrase ⟨"#0.a[b.matrix[10][2]"⟩).write ⟨["matrix"], []⟩).1 = .ok "#1.#2.#0[10][2]" ∧
      readText ["matrix", "#0", "a[b", "c"] "#1.#2.#0[10][2]" = some ⟨"#0.a[b.matrix[10][2]"⟩ ∧
      ((phrase ⟨"#0.a[b"⟩).write ⟨["matrix", "#0", "a[b", "c"], []⟩).1 = .ok "#1.#2" ∧
      "#1.#2" ≠ "#1.#2.#0[10][2]" := by
  have written : (phrase ⟨"#0.a[b.matrix[10][2]"⟩).write ⟨["matrix"], []⟩ =
      (.ok "#1.#2.#0[10][2]", ⟨["matrix", "#0", "a[b"], []⟩) := by decide
  have first : ((phrase ⟨"#0.a[b.matrix[10][2]"⟩).write ⟨["matrix"], []⟩).1 =
      .ok "#1.#2.#0[10][2]" := congrArg Prod.fst written
  have second : ((phrase ⟨"#0.a[b"⟩).write ⟨["matrix", "#0", "a[b", "c"], []⟩).1 =
      .ok "#1.#2" := by decide
  obtain ⟨read, apart⟩ := read_back _ _ _ first
  rw [written] at read apart
  have grown : Placeholders.Extends ⟨["matrix", "#0", "a[b", "c"], []⟩
      ⟨["matrix", "#0", "a[b"], []⟩ := ⟨List.prefix_append _ ["c"], List.prefix_refl _⟩
  refine ⟨first, read _ grown.names, second, ?_⟩
  rw [ne_eq, apart _ _ _ grown second]
  decide

end Path

end ItemExpressions

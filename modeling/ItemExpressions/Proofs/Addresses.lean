import ItemExpressions.Proofs.OperandReader
import ItemExpressions.Tree.Route
import ItemExpressions.Tree.Shape

/-!
Addresses of paths. The text of a path is read back as the steps down to what it names: a field for
each part between the points, and an index for each number in brackets behind it. Going below a path
by a plain name or by an index adds just that step at the end, so paths that were put together from
names and indices can be compared by their addresses.
-/

namespace ItemExpressions

namespace Path

/-! ## Reading addresses -/

/-- The numbers in brackets; inside of brackets together with what was read of the number there. -/
def readIndices : Option Nat → List Char → List Nat
  | _, [] => []
  | none, c :: rest => readIndices (if c = '[' then some 0 else none) rest
  | some number, c :: rest =>
      if c = ']' then number :: readIndices none rest
      else readIndices (some (10 * number + (c.toNat - '0'.toNat))) rest

/-- A part without a field name stands for no field: there are only indices in it. -/
def segmentAddress (segment : List Char) : List Segment :=
  (if fieldName segment = [] then [] else [.field (String.ofList (fieldName segment))]) ++
    (readIndices none (indices segment)).map .index

def address (path : Path) : List Segment := path.segments.flatMap segmentAddress

/-- The paths name the same place, or one of them a place inside of the other. -/
def Overlaps (first second : Path) : Prop :=
  first.address <+: second.address ∨ second.address <+: first.address

instance (first second : Path) : Decidable (first.Overlaps second) :=
  inferInstanceAs (Decidable (_ ∨ _))

theorem Overlaps.symm {first second : Path} (overlaps : first.Overlaps second) :
    second.Overlaps first :=
  Or.symm overlaps

/-! ## Names and indices as they are written -/

/-- A name that could not be taken for anything but one field. -/
structure Plain (name : String) : Prop where
  nonempty : name ≠ ""
  unreserved : ∀ c ∈ name.toList, c ≠ '.' ∧ c ≠ '[' ∧ c ≠ ']'

theorem plain_iff (name : String) :
    (name ≠ "" ∧ (name.toList.all fun c => c != '.' && c != '[' && c != ']') = true) ↔
      Plain name := by
  constructor
  · rintro ⟨nonempty, passed⟩
    exact ⟨nonempty, fun c member => by simpa [and_assoc] using List.all_eq_true.mp passed c member⟩
  · intro plain
    refine ⟨plain.nonempty, List.all_eq_true.mpr fun c member => ?_⟩
    simpa [and_assoc] using plain.unreserved c member

/-- Names are checked by running over their characters. -/
instance (name : String) : Decidable (Plain name) := decidable_of_iff _ (plain_iff name)

def bracketed (indices : List Nat) : List Char :=
  indices.flatMap fun index => (Shape.indexName index).toList

theorem indexName_chars (index : Nat) :
    (Shape.indexName index).toList = '[' :: (Nat.toDigits 10 index ++ [']']) := by
  simp [Shape.indexName]

/-- An index attaches without a point, also below the root. -/
theorem below_indexName (path : Path) (index : Nat) :
    path.below (Shape.indexName index) = ⟨path.text ++ Shape.indexName index⟩ := by
  have element : (Shape.indexName index).toList.getLast? = some ']' := by
    rw [indexName_chars, ← List.cons_append, List.getLast?_concat]
  rw [below, if_pos element]

theorem digits_unreserved (index : Nat) (reserved : Char) (sign : reserved.isDigit = false) :
    reserved ∉ Nat.toDigits 10 index := by
  intro member
  rw [Nat.isDigit_of_mem_toDigits (by decide) (by decide) member] at sign
  cases sign

theorem readIndices_digits (digits rest : List Char) (inside : ']' ∉ digits) (number : Nat) :
    readIndices (some number) (digits ++ rest) =
      readIndices (some (Nat.ofDigitChars 10 digits number)) rest := by
  induction digits generalizing number with
  | nil => rfl
  | cons c others ih =>
      have here : c ≠ ']' := Ne.symm (List.ne_of_not_mem_cons inside)
      have later : ']' ∉ others := List.not_mem_of_not_mem_cons inside
      rw [List.cons_append, readIndices, if_neg here, ih later, Nat.ofDigitChars_cons]

theorem readIndices_bracketed (indices : List Nat) :
    readIndices none (bracketed indices) = indices := by
  induction indices with
  | nil => rfl
  | cons index rest ih =>
      have digits := readIndices_digits (Nat.toDigits 10 index) (']' :: bracketed rest)
        (digits_unreserved index ']' (by decide)) 0
      have opened : bracketed (index :: rest) =
          '[' :: (Nat.toDigits 10 index ++ ']' :: bracketed rest) := by
        simp [bracketed, indexName_chars]
      rw [opened, readIndices, if_pos rfl, digits, Nat.ofDigitChars_ten_toDigits, readIndices,
        if_pos rfl, ih]

theorem isIndexed_bracketed (name : List Char) (closed : ']' ∉ name) (indices : List Nat) :
    isIndexed (name ++ bracketed indices) = !indices.isEmpty := by
  rcases List.eq_nil_or_concat indices with rfl | ⟨front, last, rfl⟩
  · have open_ended : name.getLast? ≠ some ']' :=
      fun last => closed (List.mem_of_getLast? last)
    simpa [isIndexed, bracketed] using open_ended
  · have ends : (bracketed (front ++ [last])).getLast? = some ']' := by
      have written : bracketed (front ++ [last]) =
          bracketed front ++ '[' :: Nat.toDigits 10 last ++ [']'] := by
        simp [bracketed, indexName_chars]
      rw [written, List.getLast?_concat]
    simp [isIndexed, List.getLast?_append, ends]

/-- A name ends where the indices behind it begin. -/
theorem fieldName_bracketed (name : List Char) (clear : ∀ c ∈ name, c ≠ '[' ∧ c ≠ ']')
    (indices : List Nat) : fieldName (name ++ bracketed indices) = name ∧
      Path.indices (name ++ bracketed indices) = bracketed indices := by
  have closed : ']' ∉ name := fun member => (clear ']' member).2 rfl
  have before : ∀ c ∈ name, (c != '[') = true := fun c member => by simpa using (clear c member).1
  rw [fieldName, Path.indices, isIndexed_bracketed name closed]
  cases indices with
  | nil => simp [bracketed]
  | cons index rest =>
      rw [List.takeWhile_append_of_pos before, List.dropWhile_append_of_pos before]
      simp [bracketed, indexName_chars]

theorem segmentAddress_bracketed (name : List Char) (clear : ∀ c ∈ name, c ≠ '[' ∧ c ≠ ']')
    (indices : List Nat) : segmentAddress (name ++ bracketed indices) =
      (if name = [] then [] else [.field (String.ofList name)]) ++ indices.map .index := by
  obtain ⟨field, behind⟩ := fieldName_bracketed name clear indices
  rw [segmentAddress, field, behind, readIndices_bracketed]

/-! ## Going below a path -/

theorem split_unreserved (text : List Char) (one : '.' ∉ text) : split text = [text] := by
  induction text with
  | nil => rfl
  | cons c rest ih =>
      have here : c ≠ '.' := Ne.symm (List.ne_of_not_mem_cons one)
      rw [split, if_neg here, ih (List.not_mem_of_not_mem_cons one)]

theorem split_point (first second : List Char) :
    split (first ++ '.' :: second) = split first ++ split second := by
  induction first with
  | nil => rfl
  | cons c rest ih =>
      obtain ⟨head, tail, parts⟩ := List.exists_cons_of_ne_nil (split_ne_nil rest)
      rw [List.cons_append, split, split, ih, parts]
      by_cases point : c = '.'
      · rw [if_pos point, if_pos point]
        rfl
      · rw [if_neg point, if_neg point]
        rfl

/-- Without a point in it, text behind a path goes on with the last part of that. -/
theorem split_more (text more last : List Char) (front : List (List Char)) (one : '.' ∉ more)
    (parts : split text = front ++ [last]) : split (text ++ more) = front ++ [last ++ more] := by
  induction text generalizing front last with
  | nil =>
      obtain ⟨rfl, rfl⟩ : front = [] ∧ last = [] := by
        cases front <;> simp_all [split]
      exact split_unreserved more one
  | cons c rest ih =>
      rw [split] at parts
      rw [List.cons_append, split]
      by_cases point : c = '.'
      · rw [if_pos point] at parts ⊢
        cases front with
        | nil => exact absurd (List.cons.inj parts).2 (split_ne_nil rest)
        | cons first others =>
            obtain ⟨rfl, later⟩ := List.cons.inj parts
            rw [ih last others later, List.cons_append]
      · obtain ⟨head, tail, inner⟩ := List.exists_cons_of_ne_nil (split_ne_nil rest)
        rw [if_neg point, inner] at parts
        rw [if_neg point]
        cases front with
        | nil =>
            obtain ⟨rfl, rfl⟩ := List.cons.inj parts
            rw [ih head [] inner]
            rfl
        | cons first others =>
            obtain ⟨rfl, rfl⟩ := List.cons.inj parts
            rw [ih last (head :: others) inner]
            rfl

/-- A path whose last part is a name with indices behind it, so that further indices join them. -/
def Regular (path : Path) : Prop :=
  ∃ front name indices, path.segments = front ++ [name ++ bracketed indices] ∧
    ∀ c ∈ name, c ≠ '[' ∧ c ≠ ']'

theorem regular_root : Regular root := ⟨[], [], [], rfl, by simp⟩

theorem address_of_empty (path : Path) (empty : path.text.isEmpty = true) : path.address = [] := by
  have root : path.text = "" := String.isEmpty_iff.mp empty
  simp [address, segments, root, split, segmentAddress, fieldName, indices, isIndexed, readIndices]

theorem segments_plain (path : Path) (name : String) (plain : Plain name) :
    (path.below name).segments =
      (if path.text.isEmpty then [] else path.segments) ++ [name.toList] := by
  have field : name.toList.getLast? ≠ some ']' :=
    fun last => (plain.unreserved ']' (List.mem_of_getLast? last)).2.2 rfl
  have part : split name.toList = [name.toList] :=
    split_unreserved _ fun member => (plain.unreserved '.' member).1 rfl
  rw [below, if_neg field]
  by_cases top : path.text.isEmpty
  · rw [if_pos top, if_pos top]
    exact part
  · have joined : (path.text ++ "." ++ name).toList = path.text.toList ++ '.' :: name.toList := by
      simp
    rw [if_neg top, if_neg top, segments, joined, split_point, part, segments]

/-- A field below any path begins a part of its own. -/
theorem below_plain (path : Path) (name : String) (plain : Plain name) :
    (path.below name).Regular ∧ (path.below name).address = path.address ++ [.field name] := by
  have clear : ∀ c ∈ name.toList, c ≠ '[' ∧ c ≠ ']' :=
    fun c member => (plain.unreserved c member).2
  have given : name.toList ≠ [] := fun none => plain.nonempty (String.toList_eq_nil_iff.mp none)
  have read : segmentAddress name.toList = [.field name] := by
    have alone := segmentAddress_bracketed name.toList clear []
    simpa [bracketed, given] using alone
  have parts := segments_plain path name plain
  refine ⟨⟨_, name.toList, [], by simpa [bracketed] using parts, clear⟩, ?_⟩
  rw [address, parts, List.flatMap_append, List.flatMap_singleton, read]
  by_cases top : path.text.isEmpty
  · rw [if_pos top, address_of_empty path top]
    rfl
  · rw [if_neg top]
    rfl

/-- An index joins those behind the last name. -/
theorem below_index (path : Path) (regular : path.Regular) (index : Nat) :
    (path.below (Shape.indexName index)).Regular ∧
      (path.below (Shape.indexName index)).address = path.address ++ [.index index] := by
  obtain ⟨front, name, indices, parts, clear⟩ := regular
  have one : '.' ∉ (Shape.indexName index).toList := by
    simp [indexName_chars, digits_unreserved index '.' (by decide)]
  have joined : segments (path.below (Shape.indexName index)) =
      front ++ [name ++ bracketed (indices ++ [index])] := by
    rw [below_indexName, segments, String.toList_append, split_more _ _ _ front one parts]
    simp [bracketed]
  refine ⟨⟨front, name, indices ++ [index], joined, clear⟩, ?_⟩
  rw [address, joined, address, parts]
  simp [segmentAddress_bracketed name clear]

example : address ⟨"bank.phones[10][2].number"⟩ =
    [.field "bank", .field "phones", .index 10, .index 2, .field "number"] := by decide

example : ¬ Overlaps ⟨"phones[1]"⟩ ⟨"phones[10]"⟩ := by decide

end Path

end ItemExpressions

import ItemExpressions.Proofs.Reader

/-!
Reading paths and operands. A path ends where something follows that cannot stand in one; spelling
its pieces gives its text back. An operand is told from the others by the text it begins with, and a
sum from its first summand by the sign behind it. As sums are written without parentheses, that is
enough only where no summand is a sum itself.
-/

namespace ItemExpressions

/-! ## Paths -/

namespace Piece

/-- Field names, the points between them, and indices. -/
def inPath : Piece → Bool
  | .name _ => true
  | .char c => c.isDigit || c == '.' || c == '[' || c == ']'
  | .value _ => false

def spelled : Piece → List Char
  | .char c => [c]
  | .name field => field.toList
  | .value _ => []

end Piece

/-- No path goes on here. -/
def EndsPath (rest : List Piece) : Prop := ∀ piece ∈ rest.head?, piece.inPath = false

/-- No path has in it what this text begins with. -/
def Delimits (written : String) : Bool :=
  match written.toList with
  | [] => false
  | c :: _ => !(Piece.char c).inPath

theorem EndsPath.of_ahead {written : String} (delimits : Delimits written = true)
    {rest : List Piece} (ahead : Ahead written rest) : EndsPath rest := by
  rw [Delimits] at delimits
  split at delimits
  · cases delimits
  · next c others spelled =>
    obtain ⟨more, rfl⟩ := ahead
    intro piece head
    have same : Piece.char c = piece := by simpa [spelled] using head
    rw [← same]
    exact (Bool.not_eq_true' _).mp delimits

namespace Path

def read : Reader Path := fun pieces =>
  some (⟨String.ofList ((pieces.takeWhile Piece.inPath).flatMap Piece.spelled)⟩,
    pieces.dropWhile Piece.inPath)

/-- A path that can be written, with nothing but decimal numbers for indices. -/
structure Legible (path : Path) : Prop where
  flawless : path.phrase.Flawless
  indexed : path.DecimallyIndexed

theorem split_ne_nil (text : List Char) : split text ≠ [] := by
  cases text with
  | nil => simp [split]
  | cons c rest =>
      rw [split]
      split
      · simp
      · split <;> simp

theorem split_joined (text : List Char) : ['.'].intercalate (split text) = text := by
  induction text with
  | nil => rfl
  | cons c rest ih =>
      obtain ⟨first, others, parts⟩ := List.exists_cons_of_ne_nil (split_ne_nil rest)
      rw [parts] at ih
      by_cases point : c = '.'
      · rw [split, if_pos point, parts, List.intercalate_cons_cons, ih, point]
        rfl
      · rw [split, if_neg point, parts]
        cases others with
        | nil => simpa using ih
        | cons second more => simpa [List.intercalate_cons_cons] using ih

theorem fieldName_indices (segment : List Char) :
    fieldName segment ++ indices segment = segment := by
  rw [fieldName, indices]
  split
  · exact List.takeWhile_append_dropWhile
  · exact List.append_nil segment

theorem segmentPhrase_flawless (segment : List Char) (flawless : (segmentPhrase segment).Flawless) :
    segmentPhrase segment =
      [.name (String.ofList (fieldName segment)), .text (String.ofList (indices segment))] := by
  rw [segmentPhrase] at flawless ⊢
  split at flawless
  · exact absurd flawless (Phrase.not_flawless_flaw _)
  · rfl

theorem segmentPhrase_spelled (segment : List Char) (flawless : (segmentPhrase segment).Flawless) :
    (segmentPhrase segment).pieces.flatMap Piece.spelled = segment := by
  have spelled (chars : List Char) : (chars.map Piece.char).flatMap Piece.spelled = chars := by
    rw [List.flatMap_map]
    exact List.flatMap_singleton' chars
  rw [segmentPhrase_flawless segment flawless]
  simpa [Phrase.pieces, Word.pieces, Piece.spelled, spelled] using fieldName_indices segment

theorem segments_spelled (segments : List (List Char))
    (flawless : ∀ segment ∈ segments, (segmentPhrase segment).Flawless) :
    (Phrase.separated "." (segments.map segmentPhrase)).pieces.flatMap Piece.spelled =
      ['.'].intercalate segments := by
  induction segments with
  | nil => rfl
  | cons first rest ih =>
      obtain ⟨head, tail⟩ := List.forall_mem_cons.mp flawless
      have here := segmentPhrase_spelled first head
      cases rest with
      | nil => simpa [Phrase.separated] using here
      | cons second others =>
          have later := ih tail
          rw [List.intercalate_cons_cons, ← later]
          simp [Phrase.separated, here, Piece.spelled]

theorem segments_flawless (path : Path) (flawless : path.phrase.Flawless) :
    path.phrase = .separated "." (path.segments.map segmentPhrase) ∧
      ∀ segment ∈ path.segments, (segmentPhrase segment).Flawless := by
  rw [phrase] at flawless ⊢
  split at flawless
  · exact absurd flawless (Phrase.not_flawless_flaw _)
  · next given => exact ⟨if_neg given, by simpa using flawless⟩

theorem phrase_spelled (path : Path) (flawless : path.phrase.Flawless) :
    path.phrase.pieces.flatMap Piece.spelled = path.text.toList := by
  obtain ⟨written, each⟩ := segments_flawless path flawless
  rw [written, segments_spelled path.segments each]
  exact split_joined path.text.toList

theorem indices_inPath (indices : List Char) (decimal : DecimalIndices indices) :
    ∀ c ∈ indices, (Piece.char c).inPath = true := by
  induction decimal with
  | none => simp
  | more digits rest _ decimal _ ih =>
      intro c member
      simp only [List.cons_append, List.mem_cons, List.mem_append] at member
      rcases member with rfl | member | rfl | member
      · rfl
      · simp [Piece.inPath, decimal c member]
      · rfl
      · exact ih c member

theorem phrase_inPath (path : Path) (legible : path.Legible) :
    ∀ piece ∈ path.phrase.pieces, piece.inPath = true := by
  obtain ⟨written, each⟩ := segments_flawless path legible.flawless
  have inside (segment : List Char) (member : segment ∈ path.segments) :
      ∀ piece ∈ (segmentPhrase segment).pieces, piece.inPath = true := by
    have indices := indices_inPath _ (legible.indexed segment member)
    rw [segmentPhrase_flawless segment (each segment member)]
    simpa [Phrase.pieces, Word.pieces, Piece.inPath] using indices
  rw [written]
  generalize path.segments = segments at inside
  induction segments with
  | nil => simp [Phrase.separated, Phrase.pieces]
  | cons first rest ih =>
      obtain ⟨head, tail⟩ := List.forall_mem_cons.mp inside
      cases rest with
      | nil => exact head
      | cons second others =>
          have point : ∀ piece ∈ (Phrase.text ".").pieces, piece.inPath = true := by decide
          have later := ih tail
          have parts : (Phrase.separated "." ((first :: second :: others).map segmentPhrase)).pieces =
              (segmentPhrase first).pieces ++ (Phrase.text ".").pieces ++
                (Phrase.separated "." ((second :: others).map segmentPhrase)).pieces := by
            simp [Phrase.separated]
          rw [parts, List.forall_mem_append, List.forall_mem_append]
          exact ⟨⟨head, point⟩, later⟩

theorem phrase_head (path : Path) (flawless : path.phrase.Flawless) :
    ∃ field more, path.phrase.pieces = .name field :: more := by
  obtain ⟨written, each⟩ := segments_flawless path flawless
  obtain ⟨first, rest, segments⟩ :=
    List.exists_cons_of_ne_nil (split_ne_nil path.text.toList)
  have segments : path.segments = first :: rest := segments
  have head := segmentPhrase_flawless first (each first (segments ▸ List.mem_cons_self))
  rw [written, segments]
  cases rest with
  | nil => exact ⟨_, _, congrArg Phrase.pieces head⟩
  | cons second others =>
      rw [List.map_cons, head]
      exact ⟨_, _, rfl⟩

theorem reads (path : Path) (legible : path.Legible) (rest : List Piece) (ends : EndsPath rest) :
    read.Reads path.phrase path rest := by
  have inside := path.phrase_inPath legible
  have none : rest.takeWhile Piece.inPath = [] ∧ rest.dropWhile Piece.inPath = rest := by
    cases rest with
    | nil => exact ⟨rfl, rfl⟩
    | cons piece others =>
        have out : piece.inPath = false := ends piece rfl
        simp [out]
  rw [Reader.Reads, read, List.takeWhile_append_of_pos inside, List.dropWhile_append_of_pos inside,
    none.1, none.2, List.append_nil, phrase_spelled path legible.flawless, String.ofList_toList]

end Path

/-! ## Operands -/

/-- No operand goes on here: neither a path nor a sum. -/
structure EndsOperand (rest : List Piece) : Prop where
  path : EndsPath rest
  plus : ¬ Ahead " + " rest
  minus : ¬ Ahead " - " rest

def Closes (written : String) : Prop :=
  Delimits written = true ∧ Apart " + " written ∧ Apart " - " written

instance (written : String) : Decidable (Closes written) :=
  inferInstanceAs (Decidable (_ ∧ _ ∧ _))

theorem EndsOperand.of_ahead {written : String} (closes : Closes written) {rest : List Piece}
    (ahead : Ahead written rest) : EndsOperand rest where
  path := .of_ahead closes.1 ahead
  plus := closes.2.1.not_ahead ahead
  minus := closes.2.2.not_ahead ahead

theorem EndsOperand.end : EndsOperand [] where
  path := by simp [EndsPath]
  plus := by decide
  minus := by decide

theorem EndsOperand.parenthesis (rest : List Piece) :
    EndsOperand ((Phrase.text ")").pieces ++ rest) :=
  .of_ahead (by decide) (ahead_text ")" rest)

def Operand.isSum : Operand → Bool
  | .derived (.plus _ _) | .derived (.minus _ _) => true
  | .derived (.listAppend _ _) | .derived (.ifNotExists _ _) => false
  | .path _ | .literal _ | .size _ => false

mutual

/-- No sum or difference is itself an operand of one. -/
def Operand.isFlat : Operand → Bool
  | .path _ | .literal _ | .size _ => true
  | .derived value => value.isFlat

def Derived.isFlat : Derived → Bool
  | .listAppend first second => first.isFlat && second.isFlat
  | .ifNotExists _ fallback => fallback.isFlat
  | .plus left right | .minus left right =>
      (!left.isSum && left.isFlat) && (!right.isSum && right.isFlat)

end

namespace Operand

/-- What a function is applied to. -/
def arguments : Operand → List Operand
  | .derived (.listAppend first second) => [first, second]
  | .derived (.ifNotExists _ fallback) => [fallback]
  | .derived (.plus _ _) | .derived (.minus _ _) => []
  | .path _ | .literal _ | .size _ => []

/-- The path of an operand that is not part of an argument or a summand. -/
def ownPaths : Operand → List Path
  | .path target | .size target | .derived (.ifNotExists target _) => [target]
  | .derived (.listAppend _ _) | .derived (.plus _ _) | .derived (.minus _ _) | .literal _ => []

open Reader (branch enclosed)

def readBare : Reader Operand
  | .value given :: rest => some (.literal given, rest)
  | pieces => (do return .path (← Path.read) : Reader Operand) pieces

/-- The texts that the functions begin with. -/
def openings : List String := ["size ", "list_append", "if_not_exists"]

def readTerm (inner : Reader Operand) : Reader Operand :=
  branch readBare [
    ("size ", enclosed do return .size (← Path.read)),
    ("list_append", enclosed do
      let first ← inner
      Reader.text ", "
      return .derived (.listAppend first (← inner))),
    ("if_not_exists", enclosed do
      let path ← Path.read
      Reader.text ", "
      return .derived (.ifNotExists path (← inner)))]

/-- What may follow the first summand. -/
def readSigns (inner : Reader Operand) (left : Operand) : List (String × Reader Operand) := [
  (" + ", do return .derived (.plus left (← readTerm inner))),
  (" - ", do return .derived (.minus left (← readTerm inner)))]

def readSum (inner : Reader Operand) : Reader Operand := do
  let left ← readTerm inner
  branch (return left) (readSigns inner left)

/-- Functions may be nested in one another to this depth. -/
def read : Nat → Reader Operand
  | 0 => Reader.fail
  | depth + 1 => readSum (read depth)

structure Legible (operand : Operand) : Prop where
  flawless : operand.phrase.Flawless
  indexed : ∀ path ∈ operand.paths, path.DecimallyIndexed
  flat : operand.isFlat = true

theorem legible_path {path : Path} (legible : (Operand.path path).Legible) : path.Legible where
  flawless := by simpa [phrase] using legible.flawless
  indexed := legible.indexed path List.mem_cons_self

theorem legible_size {path : Path} (legible : (Operand.size path).Legible) : path.Legible where
  flawless := by simpa [phrase] using legible.flawless
  indexed := legible.indexed path List.mem_cons_self

theorem legible_listAppend {first second : Operand}
    (legible : (Operand.derived (.listAppend first second)).Legible) :
    first.Legible ∧ second.Legible := by
  obtain ⟨flawless, indexed, flat⟩ := legible
  simp only [phrase, Derived.phrase, Phrase.flawless_append, Phrase.flawless_enclosed] at flawless
  simp only [paths, Derived.paths, List.forall_mem_append] at indexed
  simp only [isFlat, Derived.isFlat, Bool.and_eq_true] at flat
  exact ⟨⟨flawless.2.1.1, indexed.1, flat.1⟩, ⟨flawless.2.2, indexed.2, flat.2⟩⟩

theorem legible_ifNotExists {path : Path} {fallback : Operand}
    (legible : (Operand.derived (.ifNotExists path fallback)).Legible) :
    path.Legible ∧ fallback.Legible := by
  obtain ⟨flawless, indexed, flat⟩ := legible
  simp only [phrase, Derived.phrase, Phrase.flawless_append, Phrase.flawless_enclosed] at flawless
  simp only [paths, Derived.paths, List.forall_mem_cons] at indexed
  exact ⟨⟨flawless.2.1.1, indexed.1⟩, ⟨flawless.2.2, indexed.2, flat⟩⟩

theorem Legible.own {operand : Operand} (legible : operand.Legible) :
    ∀ path ∈ operand.ownPaths, path.Legible := by
  cases operand with
  | path path => exact List.forall_mem_singleton.mpr (legible_path legible)
  | literal value => exact List.forall_mem_nil _
  | size path => exact List.forall_mem_singleton.mpr (legible_size legible)
  | derived value =>
      cases value with
      | listAppend | plus | minus => exact List.forall_mem_nil _
      | ifNotExists path fallback =>
          exact List.forall_mem_singleton.mpr (legible_ifNotExists legible).1

theorem Legible.argument {operand : Operand} (legible : operand.Legible) :
    ∀ argument ∈ operand.arguments, argument.Legible := by
  cases operand with
  | path | literal | size => exact List.forall_mem_nil _
  | derived value =>
      cases value with
      | listAppend first second =>
          obtain ⟨head, tail⟩ := legible_listAppend legible
          exact List.forall_mem_cons.mpr ⟨head, List.forall_mem_singleton.mpr tail⟩
      | ifNotExists path fallback =>
          exact List.forall_mem_singleton.mpr (legible_ifNotExists legible).2
      | plus | minus => exact List.forall_mem_nil _

theorem sizeOf_argument (operand : Operand) :
    ∀ argument ∈ operand.arguments, sizeOf argument < sizeOf operand := by
  cases operand with
  | path | literal | size => exact List.forall_mem_nil _
  | derived value =>
      rw [derived.sizeOf_spec]
      cases value with
      | listAppend first second =>
          rw [Derived.listAppend.sizeOf_spec]
          exact List.forall_mem_cons.mpr ⟨by omega, List.forall_mem_singleton.mpr (by omega)⟩
      | ifNotExists path fallback =>
          rw [Derived.ifNotExists.sizeOf_spec]
          exact List.forall_mem_singleton.mpr (by omega)
      | plus | minus => exact List.forall_mem_nil _

theorem summands (operand : Operand) (sum : operand.isSum = true) : ∃ left right,
    operand = .derived (.plus left right) ∨ operand = .derived (.minus left right) := by
  cases operand with
  | path path => cases sum
  | literal value => cases sum
  | size path => cases sum
  | derived value =>
      cases value with
      | listAppend first second => cases sum
      | ifNotExists path fallback => cases sum
      | plus left right => exact ⟨left, right, .inl rfl⟩
      | minus left right => exact ⟨left, right, .inr rfl⟩

theorem legible_sum {left right : Operand} {sum : Derived}
    (made : sum = .plus left right ∨ sum = .minus left right)
    (legible : (Operand.derived sum).Legible) :
    (left.isSum = false ∧ left.Legible) ∧ right.isSum = false ∧ right.Legible := by
  obtain ⟨flawless, indexed, flat⟩ := legible
  rcases made with rfl | rfl
  all_goals
    simp only [phrase, Derived.phrase, Phrase.flawless_append] at flawless
    simp only [paths, Derived.paths, List.forall_mem_append] at indexed
    simp only [isFlat, Derived.isFlat, Bool.and_eq_true, Bool.not_eq_true'] at flat
    obtain ⟨⟨single, first⟩, alone, second⟩ := flat
    exact ⟨⟨single, flawless.1.1, indexed.1, first⟩, alone, flawless.2, indexed.2, second⟩

/-! ## What operands begin with -/

theorem openings_apart : openings.Pairwise Apart := by decide

theorem openings_given : ∀ opening ∈ openings, opening ≠ "" := by decide

/-- A path begins with a name, which is no text. -/
theorem path_not_ahead {path : Path} (legible : path.Legible) {written : String}
    (given : written ≠ "") (rest : List Piece) : ¬ Ahead written (path.phrase.pieces ++ rest) := by
  obtain ⟨field, more, head⟩ := path.phrase_head legible.flawless
  rw [head]
  exact unspelled_not_ahead given (by simp)

theorem literal_not_ahead (value : AttributeValue) {written : String} (given : written ≠ "")
    (rest : List Piece) : ¬ Ahead written ((Phrase.literal value).pieces ++ rest) := by
  rw [Phrase.pieces_literal]
  exact unspelled_not_ahead given (by simp)

theorem term_not_ahead (operand : Operand) (legible : operand.Legible)
    (term : operand.isSum = false) {written : String}
    (apart : ∀ opening ∈ openings, Apart written opening) (rest : List Piece) :
    ¬ Ahead written (operand.phrase.pieces ++ rest) := by
  have given : written ≠ "" := by
    rintro rfl
    exact (apart "size " List.mem_cons_self).1 List.nil_prefix
  have function (opening : String) (member : opening ∈ openings) (more : Phrase) :
      ¬ Ahead written ((.text opening ++ more : Phrase).pieces ++ rest) :=
    (apart opening member).not_ahead (ahead_first opening more rest)
  cases operand with
  | path path =>
      rw [phrase]
      exact path_not_ahead (legible_path legible) given rest
  | literal value =>
      rw [phrase]
      exact literal_not_ahead value given rest
  | size path =>
      rw [phrase]
      exact function "size " (by decide) _
  | derived value =>
      cases value with
      | listAppend first second => exact function "list_append" (by decide) _
      | ifNotExists path fallback => exact function "if_not_exists" (by decide) _
      | plus left right => cases term
      | minus left right => cases term

/-- A sum begins with its first summand, which is no sum. -/
theorem not_ahead (operand : Operand) (legible : operand.Legible) {written : String}
    (apart : ∀ opening ∈ openings, Apart written opening) (rest : List Piece) :
    ¬ Ahead written (operand.phrase.pieces ++ rest) := by
  have summand (left : Operand) (first : left.isSum = false ∧ left.Legible) (more : Phrase) :
      ¬ Ahead written ((left.phrase ++ more).pieces ++ rest) := by
    rw [Phrase.pieces_append, List.append_assoc]
    exact term_not_ahead left first.2 first.1 apart _
  cases sum : operand.isSum with
  | false => exact term_not_ahead operand legible sum apart rest
  | true =>
      obtain ⟨left, right, rfl | rfl⟩ := operand.summands sum
      · rw [phrase, Derived.phrase, List.append_assoc]
        exact summand left (legible_sum (.inl rfl) legible).1 _
      · rw [phrase, Derived.phrase, List.append_assoc]
        exact summand left (legible_sum (.inr rfl) legible).1 _

/-! ## Reading them -/

theorem readBare_path {path : Path} (legible : path.Legible) (rest : List Piece)
    (ends : EndsPath rest) : readBare.Reads path.phrase (.path path) rest := by
  have reads := Reader.Reads.last Operand.path (path.reads legible rest ends)
  obtain ⟨field, more, head⟩ := path.phrase_head legible.flawless
  rw [Reader.Reads, head] at reads ⊢
  exact reads

section Terms

variable {inner : Reader Operand}

theorem readTerm_reads (operand : Operand) (term : operand.isSum = false)
    (legible : ∀ path ∈ operand.ownPaths, path.Legible)
    (inside : ∀ argument ∈ operand.arguments, ∀ rest, EndsOperand rest →
      inner.Reads argument.phrase argument rest) (rest : List Piece) (ends : EndsPath rest) :
    (readTerm inner).Reads operand.phrase operand rest := by
  -- Inside parentheses operands may be sums, and a comma or the closing parenthesis ends them.
  have close := EndsOperand.parenthesis rest
  have comma (more : Phrase) (pieces : List Piece) :
      EndsOperand ((.text ", " ++ more : Phrase).pieces ++ pieces) :=
    .of_ahead (by decide) (ahead_first ", " more pieces)
  cases operand with
  | path path =>
      have legible := legible path List.mem_cons_self
      rw [phrase]
      exact .otherwise
        (fun written member => path_not_ahead legible (openings_given written member) rest)
        (readBare_path legible rest ends)
  | literal value =>
      rw [phrase]
      exact .otherwise
        (fun written member => literal_not_ahead value (openings_given written member) rest)
        rfl
  | size path =>
      have read := path.reads (legible path List.mem_cons_self) _ close.path
      rw [phrase]
      exact .branch openings_apart List.mem_cons_self (.enclosed (.last Operand.size read))
  | derived value =>
      cases value with
      | listAppend first second =>
          have behind := comma second.phrase ((Phrase.text ")").pieces ++ rest)
          have read := inside first List.mem_cons_self _ behind
          have last := inside second (List.mem_cons_of_mem _ List.mem_cons_self) _ close
          rw [phrase, Derived.phrase]
          exact .branch openings_apart (List.mem_cons_of_mem _ List.mem_cons_self)
            (.enclosed (.around ", " read (.last _ last)))
      | ifNotExists path fallback =>
          have behind := comma fallback.phrase ((Phrase.text ")").pieces ++ rest)
          have read := path.reads (legible path List.mem_cons_self) _ behind.path
          have last := inside fallback List.mem_cons_self _ close
          rw [phrase, Derived.phrase]
          exact .branch openings_apart
            (List.mem_cons_of_mem _ (List.mem_cons_of_mem _ List.mem_cons_self))
            (.enclosed (.around ", " read (.last _ last)))
      | plus left right => cases term
      | minus left right => cases term

end Terms

/-- What is written for an operand below this size is read as this operand. -/
def ReadsBelow (inner : Reader Operand) (bound : Nat) : Prop :=
  ∀ operand : Operand, operand.Legible → sizeOf operand < bound →
    ∀ rest, EndsOperand rest → inner.Reads operand.phrase operand rest

variable {inner : Reader Operand} {bound : Nat}

theorem readTerm_legible (each : ReadsBelow inner bound) (operand : Operand)
    (legible : operand.Legible) (term : operand.isSum = false)
    (small : sizeOf operand < bound + 1) (rest : List Piece) (ends : EndsPath rest) :
    (readTerm inner).Reads operand.phrase operand rest := by
  refine readTerm_reads operand term legible.own (fun argument member => ?_) rest ends
  have smaller := operand.sizeOf_argument argument member
  exact each argument (legible.argument argument member) (by omega)

theorem signs_apart : [" + ", " - "].Pairwise Apart := by decide

/-- The first summand ends where the sign begins, as it is no sum that would go on there. -/
theorem readSum_summands (each : ReadsBelow inner bound)
    {left right sum : Operand} {sign : String} {reader : Reader Operand} {rest : List Piece}
    (first : left.isSum = false ∧ left.Legible) (small : sizeOf left < bound + 1)
    (member : (sign, reader) ∈ readSigns inner left) (delimits : Delimits sign = true)
    (reads : reader.Reads right.phrase sum rest) :
    (readSum inner).Reads (left.phrase ++ (.text sign ++ right.phrase)) sum rest := by
  have signed := EndsPath.of_ahead delimits (ahead_first sign right.phrase rest)
  have summand := readTerm_legible each left first.2 first.1 small _ signed
  exact .bind summand (.branch signs_apart member reads)

theorem readSum_reads (each : ReadsBelow inner bound) (operand : Operand)
    (legible : operand.Legible) (small : sizeOf operand < bound + 1) (rest : List Piece)
    (ends : EndsOperand rest) :
    (readSum inner).Reads operand.phrase operand rest := by
  cases sum : operand.isSum with
  | false =>
      have passed : ∀ sign ∈ [" + ", " - "], ¬ Ahead sign (Phrase.pieces [] ++ rest) :=
        List.forall_mem_cons.mpr ⟨ends.plus, List.forall_mem_singleton.mpr ends.minus⟩
      have term := readTerm_legible each operand legible sum small rest ends.path
      rw [← List.append_nil operand.phrase]
      exact .bind term (.otherwise passed (.done operand rest))
  | true =>
      obtain ⟨left, right, rfl | rfl⟩ := operand.summands sum
      · obtain ⟨first, alone, tail⟩ := legible_sum (.inl rfl) legible
        simp only [derived.sizeOf_spec, Derived.plus.sizeOf_spec] at small
        have second := readTerm_legible each right tail alone (by omega) rest ends.path
        rw [phrase, Derived.phrase, List.append_assoc]
        exact readSum_summands each first (by omega) List.mem_cons_self (by decide)
          (.last _ second)
      · obtain ⟨first, alone, tail⟩ := legible_sum (.inr rfl) legible
        simp only [derived.sizeOf_spec, Derived.minus.sizeOf_spec] at small
        have second := readTerm_legible each right tail alone (by omega) rest ends.path
        rw [phrase, Derived.phrase, List.append_assoc]
        exact readSum_summands each first (by omega)
          (List.mem_cons_of_mem _ List.mem_cons_self) (by decide) (.last _ second)

/-- The depth need not be that of the operand, so one reader serves for two of them. -/
theorem reads (depth : Nat) (operand : Operand) (legible : operand.Legible)
    (small : sizeOf operand < depth) (rest : List Piece) (ends : EndsOperand rest) :
    (read depth).Reads operand.phrase operand rest := by
  induction depth generalizing operand rest with
  | zero => exact absurd small (Nat.not_lt_zero _)
  | succ depth ih => exact readSum_reads ih operand legible small rest ends

end Operand

end ItemExpressions

import ItemExpressions.Proofs.Mentions
import ItemExpressions.Proofs.Resolution

/-!
Readers. A reader takes what it reads off the front of the pieces of an expression. Where the
grammar has a choice, a reader looks for the texts that the choices begin with. If none of these
texts begins another one, what was written decides the branch that is taken.
-/

namespace ItemExpressions

/-! ## The pieces of a phrase -/

namespace Phrase

@[simp]
theorem pieces_append (first second : Phrase) :
    pieces (first ++ second) = first.pieces ++ second.pieces :=
  List.flatMap_append

@[simp]
theorem pieces_text (written : String) :
    (text written).pieces = written.toList.map Piece.char := by
  simp [pieces, text, Word.pieces]

@[simp]
theorem pieces_literal (value : AttributeValue) : (literal value).pieces = [.value value] := rfl

end Phrase

/-! ## Texts ahead -/

/-- The pieces begin with this text. -/
def Ahead (written : String) (pieces : List Piece) : Prop :=
  written.toList.map Piece.char <+: pieces

instance (written : String) (pieces : List Piece) : Decidable (Ahead written pieces) :=
  inferInstanceAs (Decidable (_ <+: _))

/-- None of the two texts begins the other one. -/
def Apart (first second : String) : Prop :=
  ¬ first.toList <+: second.toList ∧ ¬ second.toList <+: first.toList

instance (first second : String) : Decidable (Apart first second) :=
  inferInstanceAs (Decidable (_ ∧ _))

theorem ahead_text (written : String) (rest : List Piece) :
    Ahead written ((Phrase.text written).pieces ++ rest) := by
  rw [Phrase.pieces_text]
  exact List.prefix_append _ _

theorem ahead_first (written : String) (more : Phrase) (rest : List Piece) :
    Ahead written ((.text written ++ more : Phrase).pieces ++ rest) := by
  rw [Phrase.pieces_append, List.append_assoc]
  exact ahead_text written _

theorem Apart.not_ahead {first second : String} (apart : Apart first second) {pieces : List Piece}
    (ahead : Ahead second pieces) : ¬ Ahead first pieces := by
  intro both
  have injective : Function.Injective Piece.char := fun _ _ same => Piece.char.inj same
  rcases List.prefix_or_prefix_of_prefix both ahead with begins | begins
  · exact apart.1 ((List.prefix_map_iff_of_injective injective).mp begins)
  · exact apart.2 ((List.prefix_map_iff_of_injective injective).mp begins)

/-- No text is ahead of a name or a value, or at the end. -/
theorem unspelled_not_ahead {written : String} (some : written ≠ "") {pieces : List Piece}
    (other : ∀ c, Piece.char c ∉ pieces.head?) : ¬ Ahead written pieces := by
  intro ahead
  cases spelled : written.toList with
  | nil => exact some (String.toList_eq_nil_iff.mp spelled)
  | cons c rest =>
      obtain ⟨more, rfl⟩ := ahead
      exact other c (by simp [spelled])

/-! ## Readers -/

abbrev Reader (α : Type) := StateT (List Piece) Option α

namespace Reader

variable {α β γ : Type}

def fail : Reader α := fun _ => none

def text (written : String) : Reader Unit := fun pieces =>
  if Ahead written pieces then some ((), pieces.drop written.toList.length) else none

/-- Goes on behind the first of the texts that is ahead, and otherwise where it is. -/
def branch (otherwise : Reader α) : List (String × Reader α) → Reader α
  | [] => otherwise
  | (written, reader) :: others => fun pieces =>
      if Ahead written pieces then reader (pieces.drop written.toList.length)
      else branch otherwise others pieces

theorem branch_cons (otherwise reader : Reader α) (written : String)
    (others : List (String × Reader α)) (pieces : List Piece) :
    branch otherwise ((written, reader) :: others) pieces =
      if Ahead written pieces then reader (pieces.drop written.toList.length)
      else branch otherwise others pieces := rfl

def key : Reader String
  | .name field :: rest => some (field, rest)
  | _ => none

def literal : Reader AttributeValue
  | .value given :: rest => some (given, rest)
  | _ => none

def enclosed (reader : Reader α) : Reader α := do
  text "("
  let value ← reader
  text ")"
  return value

/-- At least one member, and not more than the limit. -/
def commaSeparated (reader : Reader α) : Nat → Reader (List α)
  | 0 => fail
  | limit + 1 => do
      let first ← reader
      return first :: (← branch (return []) [(", ", commaSeparated reader limit)])

/-- The reader takes just what the phrase has written off the front, and reads the value. -/
def Reads (reader : Reader α) (phrase : Phrase) (value : α) (rest : List Piece) : Prop :=
  reader (phrase.pieces ++ rest) = some (value, rest)

namespace Reads

variable {reader : Reader α} {phrase first second : Phrase} {value : α} {rest : List Piece}

/-- One phrase is read as one value only. -/
theorem unique {other : Phrase} {read : α} (here : Reads reader phrase value [])
    (there : Reads reader other read []) (same : phrase.pieces = other.pieces) : value = read := by
  rw [Reads, same] at here
  have both := here.symm.trans there
  exact congrArg Prod.fst (Option.some.inj both)

theorem done (value : α) (rest : List Piece) : Reads (return value) [] value rest := rfl

theorem bind {next : α → Reader β} {result : β}
    (head : Reads reader first value (second.pieces ++ rest))
    (tail : Reads (next value) second result rest) :
    Reads (reader >>= next) (first ++ second) result rest := by
  rw [Reads, Phrase.pieces_append, List.append_assoc]
  have step : (reader >>= next) (first.pieces ++ (second.pieces ++ rest)) =
      (reader (first.pieces ++ (second.pieces ++ rest))).bind fun read => next read.1 read.2 := rfl
  rw [step, head]
  exact tail

/-- The last part of a whole. -/
theorem last (change : α → β) (reads : Reads reader phrase value rest) :
    Reads (do return change (← reader)) phrase (change value) rest := by
  have step : (do return change (← reader) : Reader β) (phrase.pieces ++ rest) =
      (reader (phrase.pieces ++ rest)).bind fun read => some (change read.1, read.2) := rfl
  rw [Reads, step, reads]
  rfl

theorem text (written : String) (rest : List Piece) :
    Reads (text written) (.text written) () rest := by
  rw [Reads, Reader.text, if_pos (ahead_text written rest), Phrase.pieces_text,
    List.drop_left' (List.length_map _)]

theorem behind {next : Reader β} {result : β} (written : String)
    (tail : Reads next second result rest) :
    Reads (do Reader.text written; next) (.text written ++ second) result rest :=
  bind (.text written _) tail

/-- Two parts with grammar text between them. -/
theorem around {next : α → Reader β} {result : β} (between : String)
    (head : Reads reader first value ((.text between ++ second : Phrase).pieces ++ rest))
    (tail : Reads (next value) second result rest) :
    Reads (do let read ← reader; Reader.text between; next read)
      (first ++ .text between ++ second) result rest := by
  rw [List.append_assoc]
  exact bind head (behind between tail)

theorem key (name : String) (flawless : (Phrase.key name).Flawless) (rest : List Piece) :
    Reads key (.key name) name rest := by
  have given : name ≠ "" := (Phrase.flawless_key name).mp flawless
  simp [Reads, Phrase.key, given, Phrase.pieces, Word.pieces, Reader.key]

theorem literal (value : AttributeValue) (rest : List Piece) :
    Reads literal (.literal value) value rest := rfl

theorem enclosed (reads : Reads reader phrase value ((Phrase.text ")").pieces ++ rest)) :
    Reads (enclosed reader) phrase.enclosed value rest := by
  rw [Phrase.enclosed, List.append_assoc]
  exact behind "(" (bind reads (last (fun _ => value) (.text ")" rest)))

/-- If no text of the table begins another one, the text that was written decides the branch. -/
theorem branch {otherwise : Reader α} {table : List (String × Reader α)} {written : String}
    (apart : (table.map Prod.fst).Pairwise Apart) (member : (written, reader) ∈ table)
    (reads : Reads reader phrase value rest) :
    Reads (branch otherwise table) (.text written ++ phrase) value rest := by
  induction table with
  | nil => simp at member
  | cons choice others ih =>
      obtain ⟨different, laterApart⟩ := List.pairwise_cons.mp apart
      rw [Reads, Phrase.pieces_append, List.append_assoc]
      cases member with
      | head =>
          rw [branch_cons, if_pos (ahead_text written _), Phrase.pieces_text,
            List.drop_left' (List.length_map _)]
          exact reads
      | tail _ later =>
          have passed := (different written (List.mem_map_of_mem later)).not_ahead
            (ahead_text written (phrase.pieces ++ rest))
          have found := ih laterApart later
          rw [Reads, Phrase.pieces_append, List.append_assoc] at found
          rw [branch_cons, if_neg passed]
          exact found

theorem otherwise {otherwise : Reader α} {table : List (String × Reader α)}
    (passed : ∀ written ∈ table.map Prod.fst, ¬ Ahead written (phrase.pieces ++ rest))
    (reads : Reads otherwise phrase value rest) :
    Reads (Reader.branch otherwise table) phrase value rest := by
  induction table with
  | nil => exact reads
  | cons choice others ih =>
      obtain ⟨here, later⟩ := List.forall_mem_cons.mp passed
      rw [Reads, branch_cons, if_neg here]
      exact ih later

theorem commaSeparated {render : α → Phrase} (members : List α) (some : members ≠ [])
    (limit : Nat) (short : members.length ≤ limit) (ends : List Piece → Prop)
    (reads : ∀ member ∈ members, ∀ rest, ends rest → Reads reader (render member) member rest)
    (comma : ∀ rest, Ahead ", " rest → ends rest) (last : ends rest)
    (closed : ¬ Ahead ", " rest) :
    Reads (commaSeparated reader limit) (.commaSeparated (members.map render)) members rest := by
  induction limit generalizing members with
  | zero => exact absurd (List.length_eq_zero_iff.mp (Nat.le_zero.mp short)) some
  | succ limit ih =>
      obtain ⟨first, others, rfl⟩ := List.exists_cons_of_ne_nil some
      obtain ⟨head, tail⟩ := List.forall_mem_cons.mp reads
      cases others with
      | nil =>
          have passed : ∀ written ∈ [", "], ¬ Ahead written (Phrase.pieces [] ++ rest) :=
            List.forall_mem_singleton.mpr closed
          have stop : Reads (Reader.branch (return []) [(", ", Reader.commaSeparated reader limit)])
              [] [] rest := otherwise passed (done [] rest)
          have written : Phrase.commaSeparated ([first].map render) = render first ++ [] :=
            (List.append_nil _).symm
          rw [written]
          exact bind (head rest last) (Reads.last (first :: ·) stop)
      | cons second others =>
          have shorter : (second :: others).length ≤ limit := by simpa using short
          have later := ih (second :: others) (List.cons_ne_nil _ _) shorter tail
          have apart : [", "].Pairwise Apart := List.pairwise_singleton _ _
          have written : Phrase.commaSeparated ((first :: second :: others).map render) =
              render first ++
                (.text ", " ++ .commaSeparated ((second :: others).map render)) :=
            List.append_assoc _ _ _
          rw [written]
          exact bind (head _ (comma _ (ahead_first ", " _ rest)))
            (Reads.last (first :: ·) (branch apart List.mem_cons_self later))

end Reads

end Reader

/-- The size of a list bounds how many members are to be read. -/
theorem length_le_sizeOf {α : Type} [SizeOf α] (members : List α) :
    members.length ≤ sizeOf members := by
  induction members with
  | nil => simp
  | cons first rest ih =>
      rw [List.length_cons, List.cons.sizeOf_spec]
      omega

end ItemExpressions

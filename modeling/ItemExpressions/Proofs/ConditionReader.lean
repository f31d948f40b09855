import ItemExpressions.Proofs.OperandReader

/-!
Reading conditions. What a condition begins with tells whether it is a joint, a negation, a
predicate or a test of an operand; which test it is, the text behind the operand tells. The bounds
of a range stand on both sides of a word that also joins conditions, but a joint has parentheses
around its parts and a bound has none.
-/

namespace ItemExpressions

/-! ## Enumerations -/

def Comparator.all : List Comparator :=
  [.equal, .notEqual, .less, .lessOrEqual, .greater, .greaterOrEqual]

def Connective.all : List Connective := [.and, .or]

def Predicate.all : List Predicate := [.exists, .notExists, .hasType, .beginsWith, .contains]

theorem Comparator.mem_all (comparator : Comparator) : comparator ∈ all := by
  cases comparator <;> decide

theorem Connective.mem_all (connective : Connective) : connective ∈ all := by
  cases connective <;> decide

theorem Predicate.mem_all (predicate : Predicate) : predicate ∈ all := by
  cases predicate <;> decide

/-! ## Conditions -/

/-- The operands of all tests, without those that they are made of. -/
def Condition.operands : Condition → List Operand
  | .compare left _ right => [left, right]
  | .between operand low high => [operand, low, high]
  | .oneOf operand candidates => operand :: candidates
  | .joined _ left right => left.operands ++ right.operands
  | .negated condition => condition.operands
  | .holds _ _ _ => []

namespace Condition

open Reader (branch enclosed commaSeparated)

/-- The tests of an operand that has been read. -/
def readTests (limit : Nat) (operand : Reader Operand) (tested : Operand) :
    List (String × Reader Condition) :=
  (" BETWEEN ", do
    let low ← operand
    Reader.text " AND "
    return .between tested low (← operand)) ::
  (" IN ", do return .oneOf tested (← enclosed (commaSeparated operand limit))) ::
  Comparator.all.map fun comparator =>
    (" " ++ comparator.symbol ++ " ", do return .compare tested comparator (← operand))

def readTest (limit : Nat) (operand : Reader Operand) : Reader Condition := do
  branch Reader.fail (readTests limit operand (← operand))

/-- Behind the parenthesis that a joint begins with. -/
def readJoint (condition : Reader Condition) : Reader Condition := do
  let left ← condition
  Reader.text ")"
  branch Reader.fail (Connective.all.map fun connective =>
    (" " ++ connective.word ++ " ", do
      return .joined connective left (← enclosed condition)))

def readArgument : Reader (Option AttributeValue) :=
  branch (return none) [(", ", do return some (← Reader.literal))]

def readPredicate (predicate : Predicate) : Reader Condition := enclosed do
  let path ← Path.read
  return .holds predicate path (← readArgument)

def read : Nat → Reader Condition
  | 0 => Reader.fail
  | depth + 1 => branch (readTest depth (Operand.read depth)) <|
      ("(", readJoint (read depth)) ::
      ("NOT ", do return .negated (← enclosed (read depth))) ::
      Predicate.all.map fun predicate => (predicate.word ++ " ", readPredicate predicate)

structure Legible (condition : Condition) : Prop where
  flawless : condition.phrase.Flawless
  indexed : ∀ path ∈ condition.paths, path.DecimallyIndexed
  flat : ∀ operand ∈ condition.operands, operand.isFlat = true

/-! ## The parts of a legible condition -/

theorem operands_flawless (condition : Condition) (flawless : condition.phrase.Flawless) :
    ∀ operand ∈ condition.operands, operand.phrase.Flawless := by
  induction condition with
  | compare left comparator right =>
      simp only [phrase, Phrase.flawless_append] at flawless
      simp [operands, flawless]
  | between operand low high =>
      simp only [phrase, Phrase.flawless_append] at flawless
      simp [operands, flawless]
  | oneOf operand candidates =>
      rw [phrase] at flawless
      split at flawless
      · exact absurd flawless (Phrase.not_flawless_flaw _)
      · simp only [Phrase.flawless_append, Phrase.flawless_enclosed, Phrase.commaSeparated,
          Phrase.flawless_separated, List.forall_mem_map] at flawless
        exact List.forall_mem_cons.mpr ⟨flawless.1.1, flawless.2⟩
  | joined connective left right ihLeft ihRight =>
      simp only [phrase, Phrase.flawless_append, Phrase.flawless_enclosed] at flawless
      exact List.forall_mem_append.mpr ⟨ihLeft flawless.1.1, ihRight flawless.2⟩
  | negated condition ih =>
      simp only [phrase, Phrase.flawless_append, Phrase.flawless_enclosed] at flawless
      exact ih flawless.2
  | holds predicate path argument => simp [operands]

theorem operands_paths (condition : Condition) :
    ∀ operand ∈ condition.operands, ∀ path ∈ operand.paths, path ∈ condition.paths := by
  induction condition with
  | compare left comparator right => simp +contextual [operands, paths]
  | between operand low high => simp +contextual [operands, paths]
  | oneOf operand candidates =>
      intro operand member path inside
      rcases List.mem_cons.mp member with rfl | member
      · exact List.mem_append_left _ inside
      · exact List.mem_append_right _ (List.mem_flatMap.mpr ⟨operand, member, inside⟩)
  | joined connective left right ihLeft ihRight =>
      intro operand member path inside
      rcases List.mem_append.mp member with member | member
      · exact List.mem_append_left _ (ihLeft operand member path inside)
      · exact List.mem_append_right _ (ihRight operand member path inside)
  | negated condition ih => exact ih
  | holds predicate path argument => simp [operands]

theorem Legible.operand {condition : Condition} (legible : condition.Legible) :
    ∀ operand ∈ condition.operands, operand.Legible := by
  intro operand member
  exact ⟨condition.operands_flawless legible.flawless operand member,
    fun path inside => legible.indexed path (condition.operands_paths operand member path inside),
    legible.flat operand member⟩

theorem legible_joined {connective : Connective} {left right : Condition}
    (legible : (Condition.joined connective left right).Legible) :
    left.Legible ∧ right.Legible := by
  obtain ⟨flawless, indexed, flat⟩ := legible
  simp only [phrase, Phrase.flawless_append, Phrase.flawless_enclosed] at flawless
  simp only [paths, List.forall_mem_append] at indexed
  simp only [operands, List.forall_mem_append] at flat
  exact ⟨⟨flawless.1.1, indexed.1, flat.1⟩, ⟨flawless.2, indexed.2, flat.2⟩⟩

theorem legible_negated {condition : Condition} (legible : (Condition.negated condition).Legible) :
    condition.Legible where
  flawless := by simpa [phrase] using legible.flawless
  indexed := legible.indexed
  flat := legible.flat

theorem legible_holds {predicate : Predicate} {path : Path} {argument : Option AttributeValue}
    (legible : (Condition.holds predicate path argument).Legible) : path.Legible where
  flawless := by
    have flawless := legible.flawless
    simp only [phrase, Phrase.flawless_append, Phrase.flawless_enclosed] at flawless
    exact flawless.2.1
  indexed := legible.indexed path List.mem_cons_self

/-! ## Texts that tell conditions apart -/

theorem tests_apart : (" BETWEEN " :: " IN " :: Comparator.all.map fun comparator =>
    " " ++ comparator.symbol ++ " ").Pairwise Apart := by decide

theorem connectives_apart : (Connective.all.map fun connective =>
    " " ++ connective.word ++ " ").Pairwise Apart := by decide

def openings : List String :=
  "(" :: "NOT " :: Predicate.all.map fun predicate => predicate.word ++ " "

theorem openings_apart : openings.Pairwise Apart := by decide

/-- No operand begins as another condition than a test does. -/
theorem openings_operand :
    ∀ written ∈ openings, ∀ opening ∈ Operand.openings, Apart written opening := by decide

theorem symbol_closes (comparator : Comparator) : Closes (" " ++ comparator.symbol ++ " ") := by
  cases comparator <;> decide

/-! ## Reading them -/

theorem read_test {depth : Nat} {tested : Operand} {kind : String} {reader : Reader Condition}
    {more : Phrase} {condition : Condition} {rest : List Piece} (legible : tested.Legible)
    (small : sizeOf tested < depth)
    (member : (kind, reader) ∈ readTests depth (Operand.read depth) tested) (closes : Closes kind)
    (reads : reader.Reads more condition rest) :
    (read (depth + 1)).Reads (tested.phrase ++ (.text kind ++ more)) condition rest := by
  have ends := EndsOperand.of_ahead closes (ahead_first kind more rest)
  have operand := tested.reads depth legible small _ ends
  have passed : ∀ written ∈ openings,
      ¬ Ahead written ((tested.phrase ++ (.text kind ++ more)).pieces ++ rest) := by
    intro written member
    rw [Phrase.pieces_append, List.append_assoc]
    exact tested.not_ahead legible (openings_operand written member) _
  exact .otherwise passed (.bind operand (.branch tests_apart member reads))

theorem read_compare {depth : Nat} {left right : Operand} {comparator : Comparator}
    {rest : List Piece} (legible : (Condition.compare left comparator right).Legible)
    (small : sizeOf (Condition.compare left comparator right) < depth + 1)
    (ends : EndsOperand rest) :
    (read (depth + 1)).Reads (Condition.compare left comparator right).phrase
      (.compare left comparator right) rest := by
  have parts := legible.operand
  simp only [operands, List.forall_mem_cons] at parts
  obtain ⟨first, second, _⟩ := parts
  simp only [compare.sizeOf_spec] at small
  have last := right.reads depth second (by omega) rest ends
  rw [phrase, List.append_assoc]
  exact read_test first (by omega)
    (List.mem_cons_of_mem _ (List.mem_cons_of_mem _ (List.mem_map_of_mem comparator.mem_all)))
    (symbol_closes comparator) (.last _ last)

theorem read_between {depth : Nat} {operand low high : Operand} {rest : List Piece}
    (legible : (Condition.between operand low high).Legible)
    (small : sizeOf (Condition.between operand low high) < depth + 1) (ends : EndsOperand rest) :
    (read (depth + 1)).Reads (Condition.between operand low high).phrase
      (.between operand low high) rest := by
  have parts := legible.operand
  simp only [operands, List.forall_mem_cons] at parts
  obtain ⟨tested, first, second, _⟩ := parts
  simp only [between.sizeOf_spec] at small
  have between := EndsOperand.of_ahead (by decide) (ahead_first " AND " high.phrase rest)
  have least := low.reads depth first (by omega) _ between
  have most := high.reads depth second (by omega) rest ends
  have written : (Condition.between operand low high).phrase =
      operand.phrase ++ (.text " BETWEEN " ++ (low.phrase ++ .text " AND " ++ high.phrase)) := by
    simp [phrase]
  rw [written]
  exact read_test tested (by omega) List.mem_cons_self (by decide)
    (.around " AND " least (.last _ most))

theorem read_oneOf {depth : Nat} {operand : Operand} {candidates : List Operand}
    {rest : List Piece} (legible : (Condition.oneOf operand candidates).Legible)
    (small : sizeOf (Condition.oneOf operand candidates) < depth + 1) :
    (read (depth + 1)).Reads (Condition.oneOf operand candidates).phrase
      (.oneOf operand candidates) rest := by
  obtain ⟨tested, listed⟩ := List.forall_mem_cons.mp legible.operand
  have flawless := legible.flawless
  rw [phrase] at flawless ⊢
  split at flawless
  · exact absurd flawless (Phrase.not_flawless_flaw _)
  · next given =>
    have some : candidates ≠ [] := fun none => given (none ▸ rfl)
    simp only [oneOf.sizeOf_spec] at small
    have short := length_le_sizeOf candidates
    have each : ∀ candidate ∈ candidates, ∀ rest, EndsOperand rest →
        (Operand.read depth).Reads candidate.phrase candidate rest := by
      intro candidate member rest ends
      have inside := List.sizeOf_lt_of_mem member
      exact candidate.reads depth (listed candidate member) (by omega) rest ends
    have read := Reader.Reads.commaSeparated candidates some depth (by omega) EndsOperand each
      (fun _ ahead => .of_ahead (by decide) ahead) (.parenthesis rest)
      (Apart.not_ahead (by decide) (ahead_text ")" rest))
    rw [if_neg given, List.append_assoc]
    exact read_test tested (by omega) (List.mem_cons_of_mem _ List.mem_cons_self) (by decide)
      (.last _ (.enclosed read))

theorem readArgument_reads (argument : Option AttributeValue) (rest : List Piece)
    (closed : ¬ Ahead ", " rest) : readArgument.Reads (argumentPhrase argument) argument rest := by
  cases argument with
  | none => exact .otherwise (List.forall_mem_singleton.mpr closed) (.done none rest)
  | some value =>
      exact .branch (List.pairwise_singleton _ _) List.mem_cons_self
        (.last some (.literal value rest))

theorem argument_ends (argument : Option AttributeValue) (rest : List Piece)
    (ends : EndsPath rest) : EndsPath ((argumentPhrase argument).pieces ++ rest) := by
  cases argument with
  | none => exact ends
  | some value => exact .of_ahead (by decide) (ahead_first ", " (.literal value) rest)

theorem readPredicate_reads {predicate : Predicate} {path : Path}
    {argument : Option AttributeValue} (legible : path.Legible) (rest : List Piece) :
    (readPredicate predicate).Reads (path.phrase ++ argumentPhrase argument).enclosed
      (.holds predicate path argument) rest := by
  have closed : ¬ Ahead ", " ((Phrase.text ")").pieces ++ rest) :=
    Apart.not_ahead (by decide) (ahead_text ")" rest)
  have ends := argument_ends argument _ (EndsOperand.parenthesis rest).path
  exact .enclosed (.bind (path.reads legible _ ends) (.last _ (readArgument_reads argument _ closed)))

theorem readJoint_reads {inner : Reader Condition} {connective : Connective}
    {left right : Condition} {rest : List Piece}
    (first : inner.Reads left.phrase left
      ((.text ")" ++ (.text (" " ++ connective.word ++ " ") ++ right.phrase.enclosed) :
        Phrase).pieces ++ rest))
    (second : inner.Reads right.phrase right ((Phrase.text ")").pieces ++ rest)) :
    (readJoint inner).Reads
      (left.phrase ++ .text ")" ++ (.text (" " ++ connective.word ++ " ") ++ right.phrase.enclosed))
      (.joined connective left right) rest :=
  .around ")" first
    (.branch connectives_apart (List.mem_map_of_mem connective.mem_all)
      (.last _ (.enclosed second)))

theorem reads (depth : Nat) (condition : Condition) (legible : condition.Legible)
    (small : sizeOf condition < depth) (rest : List Piece) (ends : EndsOperand rest) :
    (read depth).Reads condition.phrase condition rest := by
  induction depth generalizing condition rest with
  | zero => exact absurd small (Nat.not_lt_zero _)
  | succ depth ih =>
      have close := EndsOperand.parenthesis rest
      cases condition with
      | compare left comparator right => exact read_compare legible small ends
      | between operand low high => exact read_between legible small ends
      | oneOf operand candidates => exact read_oneOf legible small
      | joined connective left right =>
          obtain ⟨first, second⟩ := legible_joined legible
          simp only [joined.sizeOf_spec] at small
          have left' := ih left first (by omega) _
            (.of_ahead (by decide) (ahead_first ")"
              (.text (" " ++ connective.word ++ " ") ++ right.phrase.enclosed) rest))
          have right' := ih right second (by omega) _ close
          have written : (Condition.joined connective left right).phrase = .text "(" ++
              (left.phrase ++ .text ")" ++
                (.text (" " ++ connective.word ++ " ") ++ right.phrase.enclosed)) := by
            simp [phrase, Phrase.enclosed]
          rw [written]
          exact .branch openings_apart List.mem_cons_self (readJoint_reads left' right')
      | negated condition =>
          simp only [negated.sizeOf_spec] at small
          have inside := ih condition (legible_negated legible) (by omega) _ close
          rw [phrase]
          exact .branch openings_apart (List.mem_cons_of_mem _ List.mem_cons_self)
            (.last _ (.enclosed inside))
      | holds predicate path argument =>
          rw [phrase]
          exact .branch openings_apart
            (List.mem_cons_of_mem _ (List.mem_cons_of_mem _ (List.mem_map_of_mem predicate.mem_all)))
            (readPredicate_reads (legible_holds legible) rest)

end Condition

/-! ## Key conditions -/

namespace KeyCondition

open Reader (branch enclosed)

def readTests (key : String) : List (String × Reader KeyCondition) :=
  (" BETWEEN ", do
    let low ← Reader.literal
    Reader.text " AND "
    return .between key low (← Reader.literal)) ::
  Comparator.all.map fun comparator =>
    (" " ++ comparator.symbol ++ " ", do return .compare key comparator (← Reader.literal))

def readTest : Reader KeyCondition := do
  branch Reader.fail (readTests (← Reader.key))

def read : Nat → Reader KeyCondition
  | 0 => Reader.fail
  | depth + 1 => branch readTest [
      ("(", do
        let left ← read depth
        Reader.text ")"
        Reader.text " AND "
        return .and left (← enclosed (read depth))),
      ("begins_with ", enclosed do
        let key ← Reader.key
        Reader.text ", "
        return .beginsWith key (← Reader.literal))]

theorem tests_apart : (" BETWEEN " :: Comparator.all.map fun comparator =>
    " " ++ comparator.symbol ++ " ").Pairwise Apart :=
  Condition.tests_apart.sublist ((List.sublist_cons_self " IN " _).cons_cons " BETWEEN ")

theorem openings_apart : ["(", "begins_with "].Pairwise Apart := by decide

theorem read_test {depth : Nat} {key kind : String} {reader : Reader KeyCondition} {more : Phrase}
    {condition : KeyCondition} {rest : List Piece} (flawless : (Phrase.key key).Flawless)
    (member : (kind, reader) ∈ readTests key) (reads : reader.Reads more condition rest) :
    (read (depth + 1)).Reads (.key key ++ (.text kind ++ more)) condition rest := by
  have passed : ∀ written ∈ ["(", "begins_with "],
      ¬ Ahead written ((Phrase.key key ++ (.text kind ++ more)).pieces ++ rest) := by
    have given : ∀ written ∈ ["(", "begins_with "], written ≠ "" := by decide
    have named : key ≠ "" := (Phrase.flawless_key key).mp flawless
    intro written inside
    refine unspelled_not_ahead (given written inside) ?_
    simp [Phrase.key, named, Phrase.pieces, Word.pieces]
  exact .otherwise passed (.bind (.key key flawless _) (.branch tests_apart member reads))

theorem reads (depth : Nat) (condition : KeyCondition) (flawless : condition.phrase.Flawless)
    (small : sizeOf condition < depth) (rest : List Piece) :
    (read depth).Reads condition.phrase condition rest := by
  induction depth generalizing condition rest with
  | zero => exact absurd small (Nat.not_lt_zero _)
  | succ depth ih =>
      cases condition with
      | compare key comparator value =>
          simp only [phrase, Phrase.flawless_append] at flawless
          rw [phrase, List.append_assoc]
          exact read_test flawless.1.1
            (List.mem_cons_of_mem _ (List.mem_map_of_mem comparator.mem_all))
            (.last _ (.literal value rest))
      | between key low high =>
          simp only [phrase, Phrase.flawless_append] at flawless
          have written : (KeyCondition.between key low high).phrase = .key key ++
              (.text " BETWEEN " ++ (.literal low ++ .text " AND " ++ .literal high)) := by
            simp [phrase]
          rw [written]
          exact read_test flawless.1.1.1.1 List.mem_cons_self
            (.around " AND " (.literal low _) (.last _ (.literal high rest)))
      | beginsWith key stem =>
          simp only [phrase, Phrase.flawless_append, Phrase.flawless_enclosed] at flawless
          rw [phrase]
          exact .branch openings_apart (List.mem_cons_of_mem _ List.mem_cons_self)
            (.enclosed (.around ", " (.key key flawless.2.1.1 _) (.last _ (.literal stem _))))
      | and left right =>
          rw [phrase] at flawless ⊢
          split at flawless
          · next placed =>
            simp only [Phrase.flawless_append, Phrase.flawless_enclosed] at flawless
            simp only [and.sizeOf_spec] at small
            have first := ih left flawless.1.1 (by omega)
            have second := ih right flawless.2 (by omega)
            have written : left.phrase.enclosed ++ .text " AND " ++ right.phrase.enclosed =
                .text "(" ++
                  (left.phrase ++ .text ")" ++ (.text " AND " ++ right.phrase.enclosed)) := by
              simp [Phrase.enclosed]
            rw [if_pos placed, written]
            exact .branch openings_apart List.mem_cons_self
              (.around ")" (first _) (.behind " AND " (.last _ (.enclosed (second _)))))
          · exact absurd flawless (Phrase.not_flawless_flaw _)

end KeyCondition

end ItemExpressions

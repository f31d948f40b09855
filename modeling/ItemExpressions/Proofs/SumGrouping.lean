import ItemExpressions.Proofs.DraftVerdicts
import ItemExpressions.Proofs.OperandReader

/-!
Grouping of sums. Between the summands of a sum there are signs and no parentheses, so what is
written for a derived value is its chain of summands, and not how they were grouped. That is all
that is lost: the summands are read back with their signs, also in the arguments of functions, and
with them the whole value if it is known to be grouped from the left.
-/

namespace ItemExpressions

/-! ## Chains of summands -/

/-- What stands between two summands. -/
inductive Sign where
  | plus
  | minus
  deriving DecidableEq

namespace Sign

def all : List Sign := [.plus, .minus]

theorem mem_all (sign : Sign) : sign ∈ all := by
  cases sign <;> decide

def text : Sign → String
  | .plus => " + "
  | .minus => " - "

def join (left right : Operand) : Sign → Derived
  | .plus => .plus left right
  | .minus => .minus left right

end Sign

/-- The first summand, and the others with the signs in front of them. -/
structure Chain where
  first : Operand
  signed : List (Sign × Operand)
  deriving DecidableEq

namespace Chain

def join (front : Chain) (sign : Sign) (back : Chain) : Chain :=
  ⟨front.first, front.signed ++ (sign, back.first) :: back.signed⟩

/-- The sum of the chain, grouped from the left. -/
def grouped (chain : Chain) : Operand :=
  chain.signed.foldl (fun left next => .derived (next.1.join left next.2)) chain.first

def summands (chain : Chain) : List Operand := chain.first :: chain.signed.map Prod.snd

end Chain

mutual

/-- The summands of an operand in the order in which they are written, however they are grouped. In
the arguments of functions sums are grouped from the left. -/
def Operand.chain : Operand → Chain
  | .path path => ⟨.path path, []⟩
  | .literal value => ⟨.literal value, []⟩
  | .size path => ⟨.size path, []⟩
  | .derived value => value.chain

def Derived.chain : Derived → Chain
  | .listAppend first second =>
      ⟨.derived (.listAppend first.chain.grouped second.chain.grouped), []⟩
  | .ifNotExists path fallback => ⟨.derived (.ifNotExists path fallback.chain.grouped), []⟩
  | .plus left right => left.chain.join .plus right.chain
  | .minus left right => left.chain.join .minus right.chain

end

mutual

/-- All sums are grouped from the left: what stands behind a sign is no sum. -/
def Operand.leansLeft : Operand → Bool
  | .path _ | .literal _ | .size _ => true
  | .derived value => value.leansLeft

def Derived.leansLeft : Derived → Bool
  | .listAppend first second => first.leansLeft && second.leansLeft
  | .ifNotExists _ fallback => fallback.leansLeft
  | .plus left right | .minus left right => left.leansLeft && (!right.isSum && right.leansLeft)

end

namespace Chain

theorem grouped_join (front : Chain) (sign : Sign) (back : Chain) (single : back.signed = []) :
    (front.join sign back).grouped = .derived (sign.join front.grouped back.grouped) := by
  simp [grouped, join, single]

theorem summands_join (front : Chain) (sign : Sign) (back : Chain) :
    (front.join sign back).summands = front.summands ++ back.summands := by
  simp [summands, join]

end Chain

theorem Operand.chain_of_term (operand : Operand) (term : operand.isSum = false) :
    operand.chain.signed = [] := by
  cases operand with
  | path | literal | size => rfl
  | derived value =>
      cases value with
      | listAppend | ifNotExists => rfl
      | plus | minus => cases term

mutual

/-- What is grouped from the left is determined by its summands. -/
theorem Operand.grouped_chain (operand : Operand) (leans : operand.leansLeft = true) :
    operand.chain.grouped = operand := by
  cases operand with
  | path | literal | size => rfl
  | derived value => exact value.grouped_chain leans

theorem Derived.grouped_chain (value : Derived) (leans : value.leansLeft = true) :
    value.chain.grouped = .derived value := by
  cases value with
  | listAppend first second =>
      obtain ⟨head, tail⟩ := Bool.and_eq_true_iff.mp leans
      rw [Derived.chain, first.grouped_chain head, second.grouped_chain tail]
      rfl
  | ifNotExists path fallback =>
      rw [Derived.chain, fallback.grouped_chain leans]
      rfl
  | plus left right | minus left right =>
      simp only [Derived.leansLeft, Bool.and_eq_true, Bool.not_eq_true'] at leans
      obtain ⟨front, term, back⟩ := leans
      rw [Derived.chain, Chain.grouped_join _ _ _ (right.chain_of_term term),
        left.grouped_chain front, right.grouped_chain back]
      rfl

end

/-! ## What is written for a chain -/

namespace Chain

def signedPhrase (signed : List (Sign × Operand)) : Phrase :=
  signed.flatMap fun next => Phrase.text next.1.text ++ next.2.phrase

def phrase (chain : Chain) : Phrase := chain.first.phrase ++ signedPhrase chain.signed

theorem single_phrase (only : Operand) : phrase ⟨only, []⟩ = only.phrase :=
  List.append_nil only.phrase

theorem join_phrase (front : Chain) (sign : Sign) (back : Chain) :
    (front.join sign back).phrase = front.phrase ++ .text sign.text ++ back.phrase := by
  simp [phrase, join, signedPhrase]

theorem grouped_phrase (chain : Chain) : chain.grouped.phrase = chain.phrase := by
  obtain ⟨first, signed⟩ := chain
  induction signed generalizing first with
  | nil => simp [grouped, phrase, signedPhrase]
  | cons next rest ih =>
      obtain ⟨sign, second⟩ := next
      have sum := ih (.derived (sign.join first second))
      have joined : (Operand.derived (sign.join first second)).phrase =
          first.phrase ++ .text sign.text ++ second.phrase := by
        cases sign <;> rw [Operand.phrase, Sign.join, Derived.phrase] <;> rfl
      simpa [grouped, phrase, signedPhrase, joined] using sum

end Chain

mutual

theorem Operand.chain_phrase (operand : Operand) : operand.chain.phrase = operand.phrase := by
  cases operand with
  | path | literal | size => exact Chain.single_phrase _
  | derived value => rw [Operand.chain, value.chain_phrase, Operand.phrase]

theorem Derived.chain_phrase (value : Derived) : value.chain.phrase = value.phrase := by
  cases value with
  | listAppend first second =>
      rw [Derived.chain, Chain.single_phrase, Operand.phrase, Derived.phrase, Chain.grouped_phrase,
        Chain.grouped_phrase, first.chain_phrase, second.chain_phrase, Derived.phrase]
  | ifNotExists path fallback =>
      rw [Derived.chain, Chain.single_phrase, Operand.phrase, Derived.phrase, Chain.grouped_phrase,
        fallback.chain_phrase, Derived.phrase]
  | plus left right | minus left right =>
      rw [Derived.chain, Chain.join_phrase, left.chain_phrase, right.chain_phrase, Derived.phrase]
      rfl

end

/-! ## The summands of an operand -/

/-- A summand whose own path is legible, and whose arguments have been grouped from the left, each
from an operand below the bound. -/
structure Operand.Settled (bound : Nat) (summand : Operand) : Prop where
  term : summand.isSum = false
  legible : ∀ path ∈ summand.ownPaths, path.Legible
  grouped : ∀ argument ∈ summand.arguments, ∃ original : Operand,
    (∀ path ∈ original.paths, path.Legible) ∧ sizeOf original < bound ∧
      original.chain.grouped = argument

theorem Operand.Settled.mono {bound larger : Nat} {summand : Operand}
    (settled : summand.Settled bound) (grown : bound ≤ larger) : summand.Settled larger where
  term := settled.term
  legible := settled.legible
  grouped argument member := by
    obtain ⟨original, legible, small, same⟩ := settled.grouped argument member
    exact ⟨original, legible, by omega, same⟩

mutual

theorem Operand.summands_settled (operand : Operand)
    (legible : ∀ path ∈ operand.paths, path.Legible) :
    ∀ summand ∈ operand.chain.summands, summand.Settled (sizeOf operand) := by
  cases operand with
  | path | literal | size =>
      exact List.forall_mem_singleton.mpr ⟨rfl, legible, List.forall_mem_nil _⟩
  | derived value =>
      have inside := value.summands_settled legible
      rw [Operand.derived.sizeOf_spec]
      exact fun summand member => (inside summand member).mono (by omega)

theorem Derived.summands_settled (value : Derived)
    (legible : ∀ path ∈ value.paths, path.Legible) :
    ∀ summand ∈ value.chain.summands, summand.Settled (sizeOf value) := by
  cases value with
  | listAppend first second =>
      obtain ⟨head, tail⟩ := List.forall_mem_append.mp legible
      rw [Derived.listAppend.sizeOf_spec]
      refine List.forall_mem_singleton.mpr ⟨rfl, List.forall_mem_nil _, ?_⟩
      exact List.forall_mem_cons.mpr ⟨⟨first, head, by omega, rfl⟩,
        List.forall_mem_singleton.mpr ⟨second, tail, by omega, rfl⟩⟩
  | ifNotExists path fallback =>
      obtain ⟨head, tail⟩ := List.forall_mem_cons.mp legible
      rw [Derived.ifNotExists.sizeOf_spec]
      refine List.forall_mem_singleton.mpr ⟨rfl, List.forall_mem_singleton.mpr head, ?_⟩
      exact List.forall_mem_singleton.mpr ⟨fallback, tail, by omega, rfl⟩
  | plus left right | minus left right =>
      obtain ⟨head, tail⟩ := List.forall_mem_append.mp legible
      have front := left.summands_settled head
      have back := right.summands_settled tail
      simp only [Derived.plus.sizeOf_spec, Derived.minus.sizeOf_spec]
      rw [Derived.chain, Chain.summands_join, List.forall_mem_append]
      exact ⟨fun summand member => (front summand member).mono (by omega),
        fun summand member => (back summand member).mono (by omega)⟩

end

mutual

theorem Operand.chain_short (operand : Operand) :
    operand.chain.signed.length ≤ sizeOf operand := by
  cases operand with
  | path | literal | size => exact Nat.zero_le _
  | derived value =>
      have inside := value.chain_short
      rw [Operand.chain, Operand.derived.sizeOf_spec]
      omega

theorem Derived.chain_short (value : Derived) : value.chain.signed.length ≤ sizeOf value := by
  cases value with
  | listAppend | ifNotExists => exact Nat.zero_le _
  | plus left right | minus left right =>
      have front := left.chain_short
      have back := right.chain_short
      simp only [Derived.chain, Chain.join, List.length_append, List.length_cons,
        Derived.plus.sizeOf_spec, Derived.minus.sizeOf_spec]
      omega

end

/-! ## Reading chains -/

namespace Operand

open Reader (branch)

/-- Summands with their signs, as many as there are, but not more than the limit. -/
def readSigned (inner : Reader Operand) : Nat → Reader (List (Sign × Operand))
  | 0 => return []
  | limit + 1 => branch (return []) (Sign.all.map fun sign => (sign.text, do
      let next ← readTerm inner
      return (sign, next) :: (← readSigned inner limit)))

def readChain (inner : Reader Operand) (limit : Nat) : Reader Chain := do
  let first ← readTerm inner
  return ⟨first, ← readSigned inner limit⟩

/-- Sums are read as grouped from the left. Functions may be nested in one another to this depth. -/
def readGrouped : Nat → Reader Operand
  | 0 => Reader.fail
  | depth + 1 => do return (← readChain (readGrouped depth) depth).grouped

theorem signedPhrase_ends (signed : List (Sign × Operand)) (rest : List Piece)
    (ends : EndsOperand rest) : EndsPath ((Chain.signedPhrase signed).pieces ++ rest) := by
  cases signed with
  | nil => exact ends.path
  | cons next later =>
      have delimits : Delimits next.1.text = true := by
        cases next.1 <;> decide
      have ahead := ahead_first next.1.text (next.2.phrase ++ Chain.signedPhrase later) rest
      exact .of_ahead delimits ahead

variable {inner : Reader Operand}

theorem readSigned_reads (signed : List (Sign × Operand))
    (terms : ∀ next ∈ signed, ∀ rest, EndsPath rest →
      (readTerm inner).Reads next.2.phrase next.2 rest)
    (limit : Nat) (short : signed.length ≤ limit) (rest : List Piece) (ends : EndsOperand rest) :
    (readSigned inner limit).Reads (Chain.signedPhrase signed) signed rest := by
  induction signed generalizing limit with
  | nil =>
      cases limit with
      | zero => exact .done [] rest
      | succ limit =>
          have passed : ∀ sign ∈ [" + ", " - "], ¬ Ahead sign (Phrase.pieces [] ++ rest) :=
            List.forall_mem_cons.mpr ⟨ends.plus, List.forall_mem_singleton.mpr ends.minus⟩
          exact .otherwise passed (.done [] rest)
  | cons next later ih =>
      cases limit with
      | zero => cases short
      | succ limit =>
          obtain ⟨sign, summand⟩ := next
          obtain ⟨here, further⟩ := List.forall_mem_cons.mp terms
          have tail := ih further limit (Nat.le_of_succ_le_succ short)
          have term := here _ (signedPhrase_ends later rest ends)
          have written : Chain.signedPhrase ((sign, summand) :: later) =
              .text sign.text ++ (summand.phrase ++ Chain.signedPhrase later) :=
            List.append_assoc _ _ _
          rw [written]
          exact .branch signs_apart (List.mem_map_of_mem sign.mem_all)
            (.bind term (.last ((sign, summand) :: ·) tail))

/-- What is written for an operand below this size is read as its summands, grouped from the left.
-/
def GroupsBelow (inner : Reader Operand) (bound : Nat) : Prop :=
  ∀ operand : Operand, (∀ path ∈ operand.paths, path.Legible) → sizeOf operand < bound →
    ∀ rest, EndsOperand rest → inner.Reads operand.phrase operand.chain.grouped rest

theorem readChain_reads {bound : Nat} (each : GroupsBelow inner bound) (operand : Operand)
    (legible : ∀ path ∈ operand.paths, path.Legible) (small : sizeOf operand < bound + 1)
    (rest : List Piece) (ends : EndsOperand rest) :
    (readChain inner bound).Reads operand.phrase operand.chain rest := by
  have terms : ∀ summand ∈ operand.chain.summands, ∀ rest, EndsPath rest →
      (readTerm inner).Reads summand.phrase summand rest := by
    intro summand member rest ends
    obtain ⟨term, own, grouped⟩ := operand.summands_settled legible summand member
    refine readTerm_reads summand term own (fun argument inside rest ends => ?_) rest ends
    -- The argument was grouped, which has left its text as it was.
    obtain ⟨original, plain, smaller, rfl⟩ := grouped argument inside
    rw [Chain.grouped_phrase, original.chain_phrase]
    exact each original plain (by omega) rest ends
  obtain ⟨head, tail⟩ := List.forall_mem_cons.mp terms
  have short := operand.chain_short
  have signed := readSigned_reads operand.chain.signed (List.forall_mem_map.mp tail) bound
    (by omega) rest ends
  have first := head _ (signedPhrase_ends operand.chain.signed rest ends)
  rw [← operand.chain_phrase]
  exact .bind first (.last (Chain.mk operand.chain.first) signed)

theorem readGrouped_reads (depth : Nat) : GroupsBelow (readGrouped depth) depth := by
  induction depth with
  | zero => exact fun operand _ small => absurd small (Nat.not_lt_zero _)
  | succ depth ih =>
      intro operand legible small rest ends
      exact .last Chain.grouped (readChain_reads ih operand legible small rest ends)

/-- One text is that of one chain only. -/
theorem chain_of_pieces (operand other : Operand) (here : ∀ path ∈ operand.paths, path.Legible)
    (there : ∀ path ∈ other.paths, path.Legible)
    (same : operand.phrase.pieces = other.phrase.pieces) : operand.chain = other.chain := by
  let bound := sizeOf operand + sizeOf other
  have each := readGrouped_reads bound
  have one := readChain_reads each operand here (by omega) [] .end
  have two := readChain_reads each other there (by omega) [] .end
  exact one.unique two same

end Operand

namespace Derived

theorem chain_of_written (value other : Derived) (text : String) (table : Placeholders)
    (here : ∀ path ∈ value.paths, path.Legible) (there : ∀ path ∈ other.paths, path.Legible)
    (written : value.phrase.write .empty = (.ok text, table))
    (alike : other.phrase.write .empty = (.ok text, table)) : value.chain = other.chain := by
  have resolved (derived : Derived) (legible : ∀ path ∈ derived.paths, path.Legible)
      (result : derived.phrase.write .empty = (.ok text, table)) :
      table.resolveText text = derived.phrase.pieces := by
    have inert := derived.phrase_inert fun path member => (legible path member).indexed
    have grown : table.Extends (derived.phrase.write .empty).2 := result ▸ .refl table
    exact derived.phrase.write_resolved inert .empty table text (congrArg Prod.fst result) grown
  have same : value.phrase.pieces = other.phrase.pieces :=
    (resolved value here written).symm.trans (resolved other there alike)
  apply Operand.chain_of_pieces (.derived value) (.derived other) here there
  rw [Operand.phrase, Operand.phrase]
  exact same

/-- Two derived values with paths that are accepted, and decimal indices, are written alike just if
they have the same chain of summands. So the text does not tell how sums are grouped; but it tells
everything if they are all grouped from the left. -/
theorem written_alike_iff (value other : Derived)
    (accepted : ∀ path ∈ value.paths ++ other.paths, path.fault? = none)
    (indexed : ∀ path ∈ value.paths ++ other.paths, path.DecimallyIndexed) :
    (∃ text, (value.phrase.write .empty).1 = .ok text) ∧
    (value.phrase.write .empty = other.phrase.write .empty ↔ value.chain = other.chain) ∧
    (value.leansLeft = true → other.leansLeft = true →
      value.phrase.write .empty = other.phrase.write .empty → value = other) := by
  have legible : ∀ path ∈ value.paths ++ other.paths, path.Legible := by
    intro path member
    have clear := path.phrase_fault.trans (accepted path member)
    exact ⟨path.phrase.flawless_of_fault clear, indexed path member⟩
  obtain ⟨here, there⟩ := List.forall_mem_append.mp legible
  have returns : ∃ text, (value.phrase.write .empty).1 = .ok text := by
    rw [Phrase.write_returns, value.phrase_fault, List.findSome?_eq_none_iff]
    exact (List.forall_mem_append.mp accepted).1
  have alike : value.phrase.write .empty = other.phrase.write .empty ↔
      value.chain = other.chain := by
    constructor
    · intro same
      obtain ⟨text, written⟩ := returns
      have result : value.phrase.write .empty = (.ok text, (value.phrase.write .empty).2) :=
        Prod.ext written rfl
      exact value.chain_of_written other text _ here there result (same.symm.trans result)
    · intro same
      rw [← value.chain_phrase, ← other.chain_phrase, same]
  refine ⟨returns, alike, fun leans leaning same => ?_⟩
  have grouped := congrArg Chain.grouped (alike.mp same)
  rw [value.grouped_chain leans, other.grouped_chain leaning] at grouped
  exact Operand.derived.inj grouped

/-- A fallback that can be grouped in two ways, and two less. -/
theorem fallback_written_alike :
    let a := Operand.path ⟨"a"⟩
    let b := Operand.path ⟨"b"⟩
    let c := Operand.path ⟨"c"⟩
    let two := Operand.literal (.number "2")
    let value := Derived.minus (.derived (.ifNotExists ⟨"d"⟩
      (.derived (.minus a (.derived (.plus b c)))))) two
    let other := Derived.minus (.derived (.ifNotExists ⟨"d"⟩
      (.derived (.plus (.derived (.minus a b)) c)))) two
    value.phrase.write .empty = other.phrase.write .empty ∧
      (value.phrase.write .empty).1 = .ok "if_not_exists(#0, #1 - #2 + #3) - :0" := by
  intro a b c two value other
  have accepted : ∀ path ∈ value.paths ++ other.paths, path.fault? = none := by decide
  have bare : ∀ path ∈ value.paths ++ other.paths, ∀ segment ∈ path.segments,
      Path.indices segment = [] := by decide
  obtain ⟨_, alike, _⟩ :=
    written_alike_iff value other accepted fun path member => .of_bare (bare path member)
  exact ⟨alike.mpr (by decide), by decide⟩

/-- Which of two differences is meant to be taken first is not written. -/
theorem difference_ambiguous :
    let a := Operand.path ⟨"a"⟩
    let b := Operand.path ⟨"b"⟩
    let c := Operand.path ⟨"c"⟩
    let first := Derived.minus (.derived (.minus a b)) c
    let second := Derived.minus a (.derived (.minus b c))
    (∀ path ∈ first.paths ++ second.paths, path.fault? = none ∧ path.DecimallyIndexed) ∧
      (first.phrase.write .empty).1 = .ok "#0 - #1 - #2" ∧
      first.phrase.write .empty = second.phrase.write .empty ∧ first ≠ second := by
  intro a b c first second
  have accepted : ∀ path ∈ first.paths ++ second.paths, path.fault? = none := by decide
  have bare : ∀ path ∈ first.paths ++ second.paths, ∀ segment ∈ path.segments,
      Path.indices segment = [] := by decide
  exact ⟨fun path member => ⟨accepted path member, .of_bare (bare path member)⟩,
    by decide, by decide, by decide⟩

end Derived

end ItemExpressions

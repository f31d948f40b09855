import ItemExpressions.Placeholders

/-!
Labels in a text. A label is a number sign or a colon and all the digits behind it, at least one;
any other character stands for itself. Inert text neither opens a label nor goes on with the digits
of one, so a text written from marks and inert words falls apart into exactly these again.
-/

namespace ItemExpressions

inductive Token where
  | char (c : Char)
  | label (text : String)
  deriving DecidableEq

namespace Token

def opensLabel (c : Char) : Bool := c == '#' || c == ':'

/-- The digits in front of a text, and the tokens behind them. -/
def scan : List Char → List Char × List Token
  | [] => ([], [])
  | c :: rest =>
      let behind := scan rest
      if c.isDigit then (c :: behind.1, behind.2)
      else if opensLabel c && !behind.1.isEmpty then
        ([], .label (String.ofList (c :: behind.1)) :: behind.2)
      else ([], .char c :: (behind.1.map .char ++ behind.2))

/-- Digits that no label claims are characters like any other. -/
def tokens (text : List Char) : List Token :=
  (scan text).1.map .char ++ (scan text).2

theorem tokens_cons (c : Char) (rest : List Char) (closed : opensLabel c = false) :
    tokens (c :: rest) = .char c :: tokens rest := by
  by_cases digit : c.isDigit
  · simp [tokens, scan, digit]
  · simp [tokens, scan, digit, closed]

theorem tokens_append (written rest : List Char) (closed : ∀ c ∈ written, opensLabel c = false) :
    tokens (written ++ rest) = written.map .char ++ tokens rest := by
  induction written with
  | nil => rfl
  | cons c others ih =>
      have first : opensLabel c = false := closed c List.mem_cons_self
      have later : ∀ c ∈ others, opensLabel c = false :=
        fun c member => closed c (List.mem_cons_of_mem _ member)
      rw [List.cons_append, tokens_cons c _ first, ih later, List.map_cons, List.cons_append]

/-- Text that a label in front of it does not run into. -/
def StopsLabel (text : List Char) : Prop :=
  ∀ c ∈ text.head?, c.isDigit = false

theorem StopsLabel.nil : StopsLabel [] := by
  intro c member
  simp at member

theorem StopsLabel.cons {c : Char} (rest : List Char) (other : c.isDigit = false) :
    StopsLabel (c :: rest) := by
  intro head member
  cases member
  exact other

theorem StopsLabel.append {written rest : List Char} (stops : StopsLabel written)
    (next : StopsLabel rest) : StopsLabel (written ++ rest) := by
  cases written with
  | nil => exact next
  | cons c others => exact .cons _ (stops c rfl)

theorem scan_stopped {text : List Char} (stops : StopsLabel text) : (scan text).1 = [] := by
  cases text with
  | nil => rfl
  | cons c rest =>
      have other : c.isDigit = false := stops c rfl
      simp only [scan, other, Bool.false_eq_true, ↓reduceIte]
      split <;> rfl

theorem scan_digits (digits : List Char) {rest : List Char} (decimal : ∀ c ∈ digits, c.isDigit)
    (stops : StopsLabel rest) : scan (digits ++ rest) = (digits, tokens rest) := by
  induction digits with
  | nil =>
      have empty := scan_stopped stops
      rw [List.nil_append, tokens, empty, List.map_nil, List.nil_append, ← empty]
  | cons c others ih =>
      have first : c.isDigit := decimal c List.mem_cons_self
      have later := ih fun c member => decimal c (List.mem_cons_of_mem _ member)
      simp [scan, first, later]

theorem tokens_label (c : Char) (digits rest : List Char) (opens : opensLabel c = true)
    (other : c.isDigit = false) (some : digits ≠ []) (decimal : ∀ c ∈ digits, c.isDigit)
    (stops : StopsLabel rest) :
    tokens (c :: (digits ++ rest)) = .label (String.ofList (c :: digits)) :: tokens rest := by
  have behind := scan_digits digits decimal stops
  simp [tokens, scan, behind, opens, other, some]

end Token

/-- Text that neither opens a label nor goes on with the digits of one in front of it. -/
structure InertText (written : String) : Prop where
  closed : ∀ c ∈ written.toList, Token.opensLabel c = false
  stops : Token.StopsLabel written.toList

namespace Mark

/-! ## The labels of marks -/

theorem nameLabel_chars (index : Nat) :
    (nameLabel index).toList = '#' :: Nat.toDigits 10 index := by
  simp [nameLabel]

theorem valueLabel_chars (index : Nat) :
    (valueLabel index).toList = ':' :: Nat.toDigits 10 index := by
  simp [valueLabel]

theorem label_injective (label : Nat → String) (sign : Char)
    (chars : ∀ index, (label index).toList = sign :: Nat.toDigits 10 index) :
    Function.Injective label := by
  intro first second same
  have spelled := congrArg String.toList same
  rw [chars, chars] at spelled
  have digits := (List.cons.inj spelled).2
  -- Reading the digits back is what tells the two numbers from each other.
  have read := congrArg (Nat.ofDigitChars 10 · 0) digits
  simpa only [Nat.ofDigitChars_ten_toDigits] using read

theorem labels_differ (first second : Nat) : nameLabel first ≠ valueLabel second := by
  intro same
  have chars := congrArg String.toList same
  rw [nameLabel_chars, valueLabel_chars] at chars
  exact absurd (List.cons.inj chars).1 (by decide)

theorem tokens_of_label (label : Nat → String) (sign : Char) (opens : Token.opensLabel sign = true)
    (other : sign.isDigit = false)
    (chars : ∀ index, (label index).toList = sign :: Nat.toDigits 10 index) (index : Nat)
    {rest : List Char} (stops : Token.StopsLabel rest) :
    Token.tokens ((label index).toList ++ rest) = .label (label index) :: Token.tokens rest := by
  have decimal : ∀ c ∈ Nat.toDigits 10 index, c.isDigit :=
    fun c member => Nat.isDigit_of_mem_toDigits (by decide) (by decide) member
  rw [chars, List.cons_append, Token.tokens_label sign _ rest opens other Nat.toDigits_ne_nil
    decimal stops, ← chars, String.ofList_toList]

/-! ## Marks and inert words -/

/-- What a mark is spelled as is read as. -/
def tokens : Mark → List Token
  | .text written => written.toList.map .char
  | .name index => [.label (nameLabel index)]
  | .value index => [.label (valueLabel index)]

def Inert : Mark → Prop
  | .text written => InertText written
  | .name _ | .value _ => True

/-- No label runs into a mark, as the labels themselves begin with their sign. -/
theorem spell_stops (mark : Mark) (inert : mark.Inert) : Token.StopsLabel mark.spell.toList := by
  cases mark with
  | text written => exact inert.stops
  | name index =>
      rw [spell, nameLabel_chars]
      exact .cons _ (by decide)
  | value index =>
      rw [spell, valueLabel_chars]
      exact .cons _ (by decide)

theorem spellAll_stops (marks : List Mark) (inert : ∀ mark ∈ marks, mark.Inert) :
    Token.StopsLabel (spellAll marks).toList := by
  induction marks with
  | nil => exact .nil
  | cons first rest ih =>
      have later := ih fun mark member => inert mark (List.mem_cons_of_mem _ member)
      rw [spellAll, String.toList_append]
      exact (first.spell_stops (inert first List.mem_cons_self)).append later

theorem tokens_spellAll (marks : List Mark) (inert : ∀ mark ∈ marks, mark.Inert) :
    Token.tokens (spellAll marks).toList = marks.flatMap tokens := by
  induction marks with
  | nil => rfl
  | cons first rest ih =>
      have tail : ∀ mark ∈ rest, mark.Inert :=
        fun mark member => inert mark (List.mem_cons_of_mem _ member)
      -- What follows a label begins with no digit, so the label ends where it was spelled to end.
      have stops := spellAll_stops rest tail
      rw [spellAll, String.toList_append, List.flatMap_cons, ← ih tail]
      cases first with
      | text written =>
          have closed := (inert (.text written) List.mem_cons_self).closed
          exact Token.tokens_append _ _ closed
      | name index =>
          exact tokens_of_label nameLabel '#' (by decide) (by decide) nameLabel_chars index stops
      | value index =>
          exact tokens_of_label valueLabel ':' (by decide) (by decide) valueLabel_chars index stops

example : Token.tokens (spellAll [.name 10, .text "[1] = ", .value 0]).toList =
    [.label "#10", .char '[', .char '1', .char ']', .char ' ', .char '=', .char ' ',
      .label ":0"] := by decide

end Mark

end ItemExpressions

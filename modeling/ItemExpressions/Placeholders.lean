import ItemExpressions.Phrase

/-!
Placeholders. Writing a phrase puts a numbered mark in the place of each name and each value, and
the table keeps what the numbers stand for: names in the order of first encounter, each once;
values in the order of encounter, each time anew. A table only grows, also when a flaw ends the
writing half way.
-/

namespace ItemExpressions

structure Placeholders where
  names : List String
  values : List AttributeValue
  deriving DecidableEq

inductive Mark where
  | text (text : String)
  | name (index : Nat)
  | value (index : Nat)
  deriving DecidableEq

namespace Mark

def nameLabel (index : Nat) : String := "#" ++ toString index

def valueLabel (index : Nat) : String := ":" ++ toString index

def spell : Mark → String
  | .text written => written
  | .name index => nameLabel index
  | .value index => valueLabel index

def spellAll : List Mark → String
  | [] => ""
  | first :: rest => first.spell ++ spellAll rest

end Mark

/-- The labels of a table's members beside them. -/
def labelled {α : Type} (label : Nat → String) (members : List α) : List (String × α) :=
  members.zipIdx.map fun member => (label member.2, member.1)

namespace Placeholders

def empty : Placeholders := ⟨[], []⟩

/-- The position of `name` is its position among the names once it is there, as `idxOf` answers
the length for a name that is absent and it is then appended. -/
def admitName (name : String) (table : Placeholders) : Nat × Placeholders :=
  (table.names.idxOf name,
    if name ∈ table.names then table else { table with names := table.names ++ [name] })

def admitValue (value : AttributeValue) (table : Placeholders) : Nat × Placeholders :=
  (table.values.length, { table with values := table.values ++ [value] })

def nameEntries (table : Placeholders) : List (String × String) :=
  labelled Mark.nameLabel table.names

def valueEntries (table : Placeholders) : List (String × AttributeValue) :=
  labelled Mark.valueLabel table.values

end Placeholders

namespace Phrase

def number : Phrase → Placeholders → Except Fault (List Mark) × Placeholders
  | [], table => (.ok [], table)
  | .text written :: rest, table =>
      let tail := number rest table
      (tail.1.map (.text written :: ·), tail.2)
  | .name name :: rest, table =>
      let admitted := table.admitName name
      let tail := number rest admitted.2
      (tail.1.map (.name admitted.1 :: ·), tail.2)
  | .value value :: rest, table =>
      let admitted := table.admitValue value
      let tail := number rest admitted.2
      (tail.1.map (.value admitted.1 :: ·), tail.2)
  | .flaw fault :: _, table => (.error fault, table)

/-- The text of a phrase over a table, and the table afterwards. -/
def write (phrase : Phrase) (table : Placeholders) : Except Fault String × Placeholders :=
  let numbered := phrase.number table
  (numbered.1.map Mark.spellAll, numbered.2)

end Phrase

end ItemExpressions

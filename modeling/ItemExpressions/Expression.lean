import ItemExpressions.KeyCondition
import ItemExpressions.Projection
import ItemExpressions.Update

/-!
The expressions of one request. A draft holds at most one expression for each slot; building it
writes them one after the other over one table of placeholders, so a name has the same mark in all
of them. The first flaw met, in the order of the slots, is the failure of the whole.
-/

namespace ItemExpressions

inductive Slot where
  | condition
  | filter
  | keyCondition
  | projection
  | update
  deriving DecidableEq

structure Draft where
  condition : Option Condition
  filter : Option Condition
  keyCondition : Option KeyCondition
  projection : Option Projection
  update : Option Update
  deriving DecidableEq

structure Expression where
  /-- The text of each slot that has one, in the order in which they were written. -/
  texts : List (Slot × String)
  placeholders : Placeholders
  deriving DecidableEq

namespace Expression

def text (expression : Expression) (slot : Slot) : Option String :=
  expression.texts.lookup slot

def names (expression : Expression) : List (String × String) :=
  expression.placeholders.nameEntries

def values (expression : Expression) : List (String × AttributeValue) :=
  expression.placeholders.valueEntries

end Expression

/-- Writes one phrase after the other; the table carries over and is kept on a flaw. -/
def writeSlots : List (Slot × Phrase) → Placeholders →
    Except Fault (List (Slot × String)) × Placeholders
  | [], table => (.ok [], table)
  | (slot, phrase) :: rest, table =>
      match phrase.write table with
      | (.error fault, table) => (.error fault, table)
      | (.ok text, table) =>
          let tail := writeSlots rest table
          (tail.1.map ((slot, text) :: ·), tail.2)

namespace Draft

def empty : Draft := ⟨none, none, none, none, none⟩

def ofCondition (condition : Condition) : Draft := { empty with condition := some condition }

def ofKeyCondition (condition : KeyCondition) : Draft :=
  { empty with keyCondition := some condition }

def ofProjection (projection : Projection) : Draft := { empty with projection := some projection }

def ofUpdate (update : Update) : Draft := { empty with update := some update }

def phrase (draft : Draft) : Slot → Option Phrase
  | .condition => draft.condition.map Condition.phrase
  | .filter => draft.filter.map Condition.phrase
  | .keyCondition => draft.keyCondition.map KeyCondition.phrase
  | .projection => draft.projection.map Projection.phrase
  | .update => draft.update.map Update.phrase

/-- The phrases of the slots that are set, in the order in which they are written. -/
def phrases (draft : Draft) : List (Slot × Phrase) :=
  [Slot.condition, .filter, .keyCondition, .projection, .update].filterMap fun slot =>
    (draft.phrase slot).map (slot, ·)

def build (draft : Draft) : Except Fault Expression :=
  if draft.phrases.isEmpty then .error .emptyDraft
  else
    let written := writeSlots draft.phrases .empty
    written.1.map (⟨·, written.2⟩)

end Draft

end ItemExpressions

import ItemExpressions.Value

/-!
Phrases: expressions before any placeholder is chosen. A phrase is a sequence of words. Grammar
text is fixed; attribute names and literal values stand in place as words of their own. What cannot
be written is a flaw, a word as well, at the position where a reader going left to right meets it.
So phrases are joined without looking inside, and the first flaw of a phrase is the one to report.
-/

namespace ItemExpressions

/-- Why an expression has no text. -/
inductive Fault where
  | emptyPath
  | malformedPath
  | emptyKey
  | emptyProjection
  | emptyUpdate
  | emptyDraft
  | noCandidates
  | misplacedKeyCondition
  deriving DecidableEq

namespace Fault

/-- Whether something was left out, as opposed to given in a form that is not allowed. -/
def isOmission : Fault → Bool
  | .emptyPath | .emptyKey | .emptyProjection | .emptyUpdate | .emptyDraft => true
  | .malformedPath | .noCandidates | .misplacedKeyCondition => false

def parameter : Fault → String
  | .emptyPath | .malformedPath => "NameBuilder"
  | .emptyKey => "KeyBuilder"
  | .emptyProjection => "ProjectionBuilder"
  | .emptyUpdate => "UpdateBuilder"
  | .emptyDraft => "Builder"
  | .noCandidates => "ConditionBuilder"
  | .misplacedKeyCondition => "KeyConditionBuilder"

def message (fault : Fault) : String :=
  (if fault.isOmission then "unset parameter: " else "invalid parameter: ") ++ fault.parameter

end Fault

inductive Word where
  | text (text : String)
  | name (name : String)
  | value (value : AttributeValue)
  | flaw (fault : Fault)
  deriving DecidableEq

abbrev Phrase := List Word

namespace Phrase

def text (text : String) : Phrase := [.text text]

def flaw (fault : Fault) : Phrase := [.flaw fault]

def literal (value : AttributeValue) : Phrase := [.value value]

/-- A key is one attribute name as it stands, whatever characters it holds. -/
def key (name : String) : Phrase :=
  if name.isEmpty then flaw .emptyKey else [.name name]

def enclosed (phrase : Phrase) : Phrase :=
  text "(" ++ phrase ++ text ")"

def separated (separator : String) : List Phrase → Phrase
  | [] => []
  | [last] => last
  | first :: rest => first ++ text separator ++ separated separator rest

def commaSeparated : List Phrase → Phrase := separated ", "

end Phrase

end ItemExpressions

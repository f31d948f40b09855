import ItemExpressions.Operand

/-!
Conditions on an item, used alike to guard a write and to filter what is read.
-/

namespace ItemExpressions

inductive Comparator where
  | equal
  | notEqual
  | less
  | lessOrEqual
  | greater
  | greaterOrEqual
  deriving DecidableEq

def Comparator.symbol : Comparator → String
  | .equal => "="
  | .notEqual => "<>"
  | .less => "<"
  | .lessOrEqual => "<="
  | .greater => ">"
  | .greaterOrEqual => ">="

inductive Connective where
  | and
  | or
  deriving DecidableEq

def Connective.word : Connective → String
  | .and => "AND"
  | .or => "OR"

/-- Predicates on the attribute at a path, some of which take a value beside it. -/
inductive Predicate where
  | exists
  | notExists
  | hasType
  | beginsWith
  | contains
  deriving DecidableEq

def Predicate.word : Predicate → String
  | .exists => "attribute_exists"
  | .notExists => "attribute_not_exists"
  | .hasType => "attribute_type"
  | .beginsWith => "begins_with"
  | .contains => "contains"

inductive AttributeType where
  | string
  | stringSet
  | number
  | numberSet
  | binary
  | binarySet
  | boolean
  | null
  | list
  | map
  deriving DecidableEq

def AttributeType.descriptor : AttributeType → String
  | .string => "S"
  | .stringSet => "SS"
  | .number => "N"
  | .numberSet => "NS"
  | .binary => "B"
  | .binarySet => "BS"
  | .boolean => "BOOL"
  | .null => "NULL"
  | .list => "L"
  | .map => "M"

inductive Condition where
  | compare (left : Operand) (comparator : Comparator) (right : Operand)
  | between (operand low high : Operand)
  | oneOf (operand : Operand) (candidates : List Operand)
  | joined (connective : Connective) (left right : Condition)
  | negated (condition : Condition)
  | holds (predicate : Predicate) (path : Path) (argument : Option AttributeValue)
  deriving DecidableEq

namespace Condition

def and (left right : Condition) : Condition := .joined .and left right

def or (left right : Condition) : Condition := .joined .or left right

def hasType (path : Path) (type : AttributeType) : Condition :=
  .holds .hasType path (some (.string type.descriptor))

def beginsWith (path : Path) (stem : String) : Condition :=
  .holds .beginsWith path (some (.string stem))

def contains (path : Path) (part : String) : Condition :=
  .holds .contains path (some (.string part))

/-- What `condition` becomes when `next` is to hold as well. -/
def andThen (condition : Option Condition) (next : Condition) : Condition :=
  match condition with
  | none => next
  | some first => first.and next

def argumentPhrase : Option AttributeValue → Phrase
  | none => []
  | some value => .text ", " ++ .literal value

/-- An empty list of candidates is a flaw in front of the whole test, not in its place inside. -/
def phrase : Condition → Phrase
  | .compare left comparator right =>
      left.phrase ++ .text (" " ++ comparator.symbol ++ " ") ++ right.phrase
  | .between operand low high =>
      operand.phrase ++ .text " BETWEEN " ++ low.phrase ++ .text " AND " ++ high.phrase
  | .oneOf operand candidates =>
      if candidates.isEmpty then .flaw .noCandidates
      else operand.phrase ++ .text " IN " ++
        (Phrase.commaSeparated (candidates.map Operand.phrase)).enclosed
  | .joined connective left right =>
      left.phrase.enclosed ++ .text (" " ++ connective.word ++ " ") ++ right.phrase.enclosed
  | .negated condition => .text "NOT " ++ condition.phrase.enclosed
  | .holds predicate path argument =>
      .text (predicate.word ++ " ") ++ (path.phrase ++ argumentPhrase argument).enclosed

end Condition

end ItemExpressions

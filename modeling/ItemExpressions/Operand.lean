import ItemExpressions.Path

/-!
Operands of conditions and updates, and the values derived from them. Sums and differences are
written between their operands without parentheses, the other derived values as functions.
-/

namespace ItemExpressions

mutual

inductive Operand where
  | path (path : Path)
  | literal (value : AttributeValue)
  | size (path : Path)
  | derived (value : Derived)

inductive Derived where
  | listAppend (first second : Operand)
  | ifNotExists (path : Path) (fallback : Operand)
  | plus (left right : Operand)
  | minus (left right : Operand)

end

deriving instance DecidableEq for Operand, Derived

mutual

def Operand.phrase : Operand → Phrase
  | .path path => path.phrase
  | .literal value => .literal value
  | .size path => .text "size " ++ path.phrase.enclosed
  | .derived value => value.phrase

def Derived.phrase : Derived → Phrase
  | .listAppend first second =>
      .text "list_append" ++ (first.phrase ++ .text ", " ++ second.phrase).enclosed
  | .ifNotExists path fallback =>
      .text "if_not_exists" ++ (path.phrase ++ .text ", " ++ fallback.phrase).enclosed
  | .plus left right => left.phrase ++ .text " + " ++ right.phrase
  | .minus left right => left.phrase ++ .text " - " ++ right.phrase

end

end ItemExpressions

import ItemExpressions.Condition

/-!
Conditions on the key of an item. A key condition has text only where it picks one partition: it is
a single predicate, or an equality and one further predicate. Any other conjunction is misplaced.
-/

namespace ItemExpressions

inductive KeyCondition where
  | compare (key : String) (comparator : Comparator) (value : AttributeValue)
  | between (key : String) (low high : AttributeValue)
  | beginsWith (key : String) (stem : AttributeValue)
  | and (left right : KeyCondition)
  deriving DecidableEq

namespace KeyCondition

def isEquality : KeyCondition → Bool
  | .compare _ .equal _ => true
  | _ => false

def isConjunction : KeyCondition → Bool
  | .and _ _ => true
  | _ => false

def andThen (condition : Option KeyCondition) (next : KeyCondition) : KeyCondition :=
  match condition with
  | none => next
  | some first => first.and next

def phrase : KeyCondition → Phrase
  | .compare key comparator value =>
      .key key ++ .text (" " ++ comparator.symbol ++ " ") ++ .literal value
  | .between key low high =>
      .key key ++ .text " BETWEEN " ++ .literal low ++ .text " AND " ++ .literal high
  | .beginsWith key stem =>
      .text "begins_with " ++ (Phrase.key key ++ .text ", " ++ .literal stem).enclosed
  | .and left right =>
      if left.isEquality && !right.isConjunction then
        left.phrase.enclosed ++ .text " AND " ++ right.phrase.enclosed
      else .flaw .misplacedKeyCondition

end KeyCondition

end ItemExpressions

import ItemExpressions.Tree.Node

/-!
Shapes: declarations of trees, from which fresh trees are made.
-/

namespace ItemExpressions

inductive Shape where
  | attribute (name : String) (fields : List Shape)
  /-- `elementName` names the element of an index; `fields` are those of each element. -/
  | list (name : String) (elementName : Nat → String) (fields : List Shape)
  | key (name : String)

namespace Shape

def indexName (index : Nat) : String := "[" ++ toString index ++ "]"

/-- A list whose elements are named by their index in brackets. -/
def indexed (name : String) (fields : List Shape) : Shape := .list name indexName fields

mutual

def fresh : Shape → Node
  | .attribute name fields => .attribute (.fresh name) .empty (freshAll fields)
  | .list name elementName fields =>
      .list (.fresh name) .empty
        (fun index => .attribute (.fresh (elementName index)) .empty (freshAll fields)) [] []
  | .key name => .key (.fresh name) none

def freshAll : List Shape → List Node
  | [] => []
  | first :: rest => first.fresh :: freshAll rest

end

end Shape

end ItemExpressions

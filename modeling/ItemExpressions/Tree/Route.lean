import ItemExpressions.Tree.Node

/-!
Routes through a tree. A route goes down by the position of a child or the index of an element, so
it tells apart siblings of the same name. An address goes down by name or index, and leads to the
first child of a name.
-/

namespace ItemExpressions

inductive Hop where
  | child (position : Nat)
  | element (index : Nat)
  deriving DecidableEq

abbrev Route := List Hop

inductive Segment where
  | field (name : String)
  | index (index : Nat)
  deriving DecidableEq

namespace Node

def enter? (hop : Hop) (node : Node) : Option Node :=
  match hop with
  | .child position => node.children[position]?
  | .element index => node.element? index

def get? : Route → Node → Option Node
  | [], node => some node
  | hop :: rest, node => (node.enter? hop).bind (get? rest)

/-- Puts a node in the place that a hop enters; nothing changes where there is no such place. -/
def replace (node : Node) (hop : Hop) (replacement : Node) : Node :=
  match node, hop with
  | .attribute place intent children, .child position =>
      .attribute place intent (children.set position replacement)
  | .list place intent make declared elements, .element index =>
      .list place intent make declared (elements.map fun stored =>
        if stored.1 = index then (index, replacement) else stored)
  | node, _ => node

/-- Changes the node that a route leads to; `none` if it leads to none or the change is refused. -/
def changeAt? {α : Type} (change : Node → Option (Node × α)) : Route → Node → Option (Node × α)
  | [], node => change node
  | hop :: rest, node => do
      let entered ← node.enter? hop
      let (changed, answer) ← changeAt? change rest entered
      return (node.replace hop changed, answer)

def hop? (segment : Segment) (node : Node) : Option Hop :=
  match segment with
  | .field name => (node.children.findIdx? fun child => child.name == name).map .child
  | .index index => (node.element? index).map fun _ => .element index

def locate? : List Segment → Node → Option Route
  | [], _ => some []
  | segment :: rest, node => do
      let hop ← node.hop? segment
      let entered ← node.enter? hop
      let route ← locate? rest entered
      return hop :: route

end Node

end ItemExpressions

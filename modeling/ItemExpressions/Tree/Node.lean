import ItemExpressions.Condition
import ItemExpressions.Error
import ItemExpressions.KeyCondition
import ItemExpressions.Update

/-!
The tree of an item's attributes. A node has a wire name and, once it is built, a document path.
Attributes hold child nodes; lists hold elements under the indices declared for them; keys hold
nothing. What is wanted of an attribute or list is its intent: a condition and an update operation
with its payload. Of a key it is a key condition.
-/

namespace ItemExpressions

/-! ## Placement and intent -/

structure Placement where
  name : String
  /-- The root path until a build reaches the node, also while `built` is still false. -/
  path : Path
  /-- What refers to the node in expressions; it is made together with the path. -/
  handle : Option Path
  built : Bool
  projected : Bool
  deriving DecidableEq

namespace Placement

def fresh (name : String) : Placement := ⟨name, .root, none, false, false⟩

def below (parent : Path) (place : Placement) : Placement :=
  { place with path := parent.below place.name, handle := some (parent.below place.name) }

def documentPath (place : Placement) : Option Path :=
  if place.built then some place.path else none

/-- A handle that was made by a build which failed further down is not given out. -/
def reference (action : Action) (place : Placement) : Except Error Path :=
  match place.handle, place.built with
  | some path, true => .ok path
  | _, _ => .error (.notBuilt place.name action)

def require (action : Action) (place : Placement) : Except Error Unit :=
  (place.reference action).map fun _ => ()

def mark (place : Placement) : Placement × Except Error Unit :=
  match place.require .markForProjection with
  | .ok _ => ({ place with projected := true }, .ok ())
  | .error error => (place, .error error)

end Placement

inductive Operation where
  | leave
  | set
  | remove
  | add
  | delete
  deriving DecidableEq

inductive Payload where
  | empty
  | literal (value : AttributeValue)
  | derived (value : Derived)
  deriving DecidableEq

structure Intent where
  condition : Option Condition
  operation : Operation
  payload : Payload
  deriving DecidableEq

namespace Intent

def empty : Intent := ⟨none, .leave, .empty⟩

def andCondition (intent : Intent) (condition : Condition) : Intent :=
  { intent with condition := some (.andThen intent.condition condition) }

/-- The last operation wins, with its payload. -/
def setUpdate (intent : Intent) (operation : Operation) (payload : Payload) : Intent :=
  { intent with operation, payload }

def hasOperation (intent : Intent) : Bool := intent.operation != .leave

end Intent

/-! ## Nodes -/

inductive Node where
  | attribute (place : Placement) (intent : Intent) (children : List Node)
  /-- `make` gives the fresh element for an index; `declared` lists the indices as they were
  declared, with repetitions; each declared index has one element. -/
  | list (place : Placement) (intent : Intent) (make : Nat → Node) (declared : List Nat)
      (elements : List (Nat × Node))
  | key (place : Placement) (condition : Option KeyCondition)

/-- Sets the member at an index, in place if there is one. -/
def putAt {α : Type} (index : Nat) (member : α) : List (Nat × α) → List (Nat × α)
  | [] => [(index, member)]
  | first :: rest =>
      if first.1 = index then (index, member) :: rest else first :: putAt index member rest

namespace Node

def place : Node → Placement
  | .attribute place _ _ | .list place _ _ _ _ | .key place _ => place

def name (node : Node) : String := node.place.name

def intent? : Node → Option Intent
  | .attribute _ intent _ | .list _ intent _ _ _ => some intent
  | .key _ _ => none

def keyCondition : Node → Option KeyCondition
  | .key _ condition => condition
  | .attribute _ _ _ | .list _ _ _ _ _ => none

def label (node : Node) : String :=
  match node with
  | .attribute _ _ _ | .list _ _ _ _ _ => "Attribute(" ++ node.name ++ ")"
  | .key _ _ => "Key(" ++ node.name ++ ")"

def children : Node → List Node
  | .attribute _ _ children => children
  | .list _ _ _ _ _ | .key _ _ => []

def declared : Node → List Nat
  | .list _ _ _ declared _ => declared
  | .attribute _ _ _ | .key _ _ => []

def element? (index : Nat) : Node → Option Node
  | .list _ _ _ _ elements => elements.lookup index
  | .attribute _ _ _ | .key _ _ => none

/-- The element at an index that has to be there. -/
def element (index : Nat) (node : Node) : Except Error Node :=
  match node.element? index with
  | some element => .ok element
  | none =>
      .error (.missingElement (if node.place.built then node.place.path.text else node.name) index)

/-! ## Attaching intent

Each of these answers `none` on a kind of node that does not have it. -/

def project : Node → Node × Except Error Unit
  | .attribute place intent children => (.attribute place.mark.1 intent children, place.mark.2)
  | .list place intent make declared elements =>
      (.list place.mark.1 intent make declared elements, place.mark.2)
  | .key place condition => (.key place.mark.1 condition, place.mark.2)

def changeIntent? (change : Intent → Intent) : Node → Option Node
  | .attribute place intent children => some (.attribute place (change intent) children)
  | .list place intent make declared elements =>
      some (.list place (change intent) make declared elements)
  | .key _ _ => none

def andKeyCondition? (next : KeyCondition) : Node → Option Node
  | .key place condition => some (.key place (some (.andThen condition next)))
  | .attribute _ _ _ | .list _ _ _ _ _ => none

/-- Declares elements of a list: each index gets a fresh element, also one that had an element. -/
def declare? (indices : List Nat) : Node → Option (Node × Except Error Unit)
  | .list place intent make declared elements => some <|
      if place.built then
        (.list place intent make declared elements, .error (.alreadyBuilt place.path))
      else
        (.list place intent make (declared ++ indices)
          (indices.foldl (fun elements index => putAt index (make index) elements) elements),
          .ok ())
  | .attribute _ _ _ | .key _ _ => none

end Node

end ItemExpressions

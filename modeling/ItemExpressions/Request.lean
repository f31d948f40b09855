import ItemExpressions.Expression

/-!
Requests. Each kind of request has text fields for some of the slots, a map of names and, unless
it only picks attributes of one item, a map of values. Applying an expression overwrites the text
fields that both have and adds the placeholder entries one by one; a map is absent until its first
entry.
-/

namespace ItemExpressions

inductive RequestKind where
  | query
  | scan
  | getItem
  | putItem
  | updateItem
  | deleteItem
  deriving DecidableEq

namespace RequestKind

def slots : RequestKind → List Slot
  | .query => [.keyCondition, .filter, .projection]
  | .scan => [.filter, .projection]
  | .getItem => [.projection]
  | .putItem | .deleteItem => [.condition]
  | .updateItem => [.update, .condition]

def takesValues : RequestKind → Bool
  | .getItem => false
  | _ => true

end RequestKind

structure Request where
  kind : RequestKind
  fields : Slot → Option String
  names : Option (Dictionary String)
  values : Option (Dictionary AttributeValue)

namespace Request

def fresh (kind : RequestKind) : Request := ⟨kind, fun _ => none, none, none⟩

/-- A text for a slot that the kind of request does not have is ignored. -/
def setText (request : Request) (slot : Slot) (text : String) : Request :=
  { request with fields := fun other =>
      if other = slot ∧ slot ∈ request.kind.slots then some text else request.fields other }

def insert {α : Type} (entry : String × α) (map : Option (Dictionary α)) :
    Option (Dictionary α) :=
  some ((map.getD .empty).put entry.1 entry.2)

def insertAll {α : Type} (entries : List (String × α)) (map : Option (Dictionary α)) :
    Option (Dictionary α) :=
  entries.foldl (fun written entry => insert entry written) map

def addNames (request : Request) (entries : List (String × String)) : Request :=
  { request with names := insertAll entries request.names }

def addValues (request : Request) (entries : List (String × AttributeValue)) : Request :=
  if request.kind.takesValues then { request with values := insertAll entries request.values }
  else request

def setTexts (request : Request) (texts : List (Slot × String)) : Request :=
  texts.foldl (fun written entry => written.setText entry.1 entry.2) request

def apply (request : Request) (expression : Expression) : Request :=
  ((request.setTexts expression.texts).addNames expression.names).addValues expression.values

end Request

end ItemExpressions

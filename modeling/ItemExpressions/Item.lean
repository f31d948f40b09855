import ItemExpressions.Expression
import ItemExpressions.Tree.Outline
import ItemExpressions.Tree.Shape
import ItemExpressions.Tree.Step

/-!
Items: a tree under a root without a name, and the expressions gathered from all of it.
-/

namespace ItemExpressions

structure Settings where
  /-- Refuse an update in which an operation shadows another one. -/
  strictUpdates : Bool
  deriving DecidableEq

namespace Settings

def permissive : Settings := ⟨false⟩

/-- Settings from the text of a switch, or from its absence. -/
def ofSwitch : Option String → Settings
  | none => permissive
  | some text => ⟨["1", "true", "yes", "TRUE", "YES"].contains text⟩

end Settings

structure Item where
  /-- What the item is called where it is refused for not being built. -/
  label : String
  settings : Settings
  root : Node

namespace Item

def ofFields (label : String) (settings : Settings) (fields : List Shape) : Item :=
  ⟨label, settings, (Shape.attribute "" fields).fresh⟩

def isBuilt (item : Item) : Bool := item.root.place.built

def performAt? (route : Route) (step : Step) (item : Item) : Option (Item × Except Error Unit) :=
  (item.root.performAt? route step).map fun (root, answer) => ({ item with root }, answer)

def build (visit : Visit) (item : Item) : Item × Except Error Unit :=
  let built := item.root.build visit [] .root
  ({ item with root := built.1 }, built.2)

def require (action : Action) (item : Item) : Except Error Unit :=
  if item.isBuilt then .ok () else .error (.notBuilt item.label action)

/-! ## Expressions of the whole item -/

def projection (item : Item) : Except Error Projection := do
  item.require .projectItem
  item.root.addPaths (some .empty)

/-- Only the keys right below the root have a part in it. -/
def keyCondition (item : Item) : Except Error (Option KeyCondition) := do
  item.require .restrictItemKey
  item.root.children.foldlM (fun gathered child => child.addKeyCondition gathered) none

def condition (item : Item) : Except Error (Option Condition) := do
  item.require .restrictItem
  item.root.addConditions none

def update (item : Item) : Except Error Update := do
  item.require .updateItem
  let update ← item.root.addChanges (some .empty)
  match item.settings.strictUpdates, item.root.addShadowed false [] with
  | true, path :: _ => .error (.supersededUpdate path)
  | _, _ => .ok update

/-- What was gathered, as a draft of the slots that have something in them. -/
def draft (item : Item) : Except Error Draft := do
  let projection ← item.projection
  let keyCondition ← item.keyCondition
  let condition ← item.condition
  let update ← item.update
  return {
    condition
    filter := none
    keyCondition
    projection := if projection.isEmpty then none else some projection
    update := if update.isEmpty then none else some update
  }

def expression (item : Item) : Except Error Expression := do
  let draft ← item.draft
  draft.build.mapError .unwritable

end Item

end ItemExpressions

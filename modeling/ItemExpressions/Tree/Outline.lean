import ItemExpressions.Projection
import ItemExpressions.Tree.Node

/-!
The outline of a tree is what its traversals see: below a list stands one entry for each declared
index, in the order of declaration, so an index that was declared twice is seen twice. Each
gathering walks the outline, a node before what is below it, and stops at the first error.
-/

namespace ItemExpressions

inductive Outline where
  /-- An attribute or a list; a list takes a derived value as what it is set to. -/
  | branch (place : Placement) (intent : Intent) (takesDerived : Bool) (below : List Outline)
  | key (place : Placement) (condition : Option KeyCondition)

/-- The members at the given indices, in their order; an index without a member is passed over. -/
def selectAt {α : Type} (indices : List Nat) (members : List (Nat × α)) : List α :=
  indices.filterMap fun index => members.lookup index

mutual

def Node.outline : Node → Outline
  | .attribute place intent children => .branch place intent false (outlineAll children)
  | .list place intent _ declared elements =>
      .branch place intent true (selectAt declared (outlineElements elements))
  | .key place condition => .key place condition

def outlineAll : List Node → List Outline
  | [] => []
  | first :: rest => first.outline :: outlineAll rest

def outlineElements : List (Nat × Node) → List (Nat × Outline)
  | [] => []
  | (index, element) :: rest => (index, element.outline) :: outlineElements rest

end

/-! ## Projections

A marked node stands for all below it. -/

mutual

def Outline.addPaths : Outline → Projection → Except Error Projection
  | .branch place _ _ below, gathered => do
      place.require .gatherProjections
      if place.projected then
        let path ← place.reference .referToName
        return gathered.add path
      else addPathsBelow below gathered
  | .key place _, gathered => do
      place.require .gatherProjections
      .ok (if place.projected then gathered.add place.path else gathered)

def addPathsBelow : List Outline → Projection → Except Error Projection
  | [], gathered => .ok gathered
  | first :: rest, gathered => do
      let next ← first.addPaths gathered
      addPathsBelow rest next

end

/-! ## Conditions

Conditions are joined from the left; keys have no part in them. -/

def joinCondition (gathered : Option Condition) : Option Condition → Option Condition
  | none => gathered
  | some next => some (.andThen gathered next)

mutual

def Outline.addConditions : Outline → Option Condition → Except Error (Option Condition)
  | .branch place intent _ below, gathered => do
      place.require .gatherConditions
      addConditionsBelow below (joinCondition gathered intent.condition)
  | .key _ _, gathered => .ok gathered

def addConditionsBelow : List Outline → Option Condition → Except Error (Option Condition)
  | [], gathered => .ok gathered
  | first :: rest, gathered => do
      let next ← first.addConditions gathered
      addConditionsBelow rest next

end

/-- The condition of a key, after those gathered before it; other nodes have no part in it. -/
def Outline.addKeyCondition (gathered : Option KeyCondition) :
    Outline → Except Error (Option KeyCondition)
  | .branch _ _ _ _ => .ok gathered
  | .key place condition => do
      place.require .gatherKeyConditions
      match condition with
      | none => .ok gathered
      | some next => .ok (some (.andThen gathered next))

/-! ## Updates

An operation stands for all below it: what is wanted further down is left out of the update and
reported as shadowed. -/

def Payload.toLiteral (path : Path) : Payload → Except Error AttributeValue
  | .empty => .ok (.null true)
  | .literal value => .ok value
  | .derived _ => .error (.unsupportedUpdateValue path)

/-- What a set assigns: a derived value only where the node takes one. -/
def Payload.toOperand (takesDerived : Bool) (path : Path) (payload : Payload) :
    Except Error Operand :=
  match takesDerived, payload with
  | true, .derived value => .ok (.derived value)
  | _, _ => (payload.toLiteral path).map .literal

/-- The change that an intent asks for on a target, if it has an operation. A payload that the
node cannot carry is refused at the path of the node. -/
def Intent.change? (takesDerived : Bool) (target path : Path) (intent : Intent) :
    Option (Except Error Change) :=
  match intent.operation with
  | .leave => none
  | .remove => some (.ok (.remove target))
  | .set => some ((intent.payload.toOperand takesDerived path).map (.set target))
  | .add => some ((intent.payload.toLiteral path).map (.add target))
  | .delete => some ((intent.payload.toLiteral path).map (.delete target))

mutual

def Outline.addChanges : Outline → Update → Except Error Update
  | .branch place intent takesDerived below, gathered => do
      let target ← place.reference .gatherUpdates
      match intent.change? takesDerived target place.path with
      | none => addChangesBelow below gathered
      | some change => change.map gathered.push
  | .key _ _, gathered => .ok gathered

def addChangesBelow : List Outline → Update → Except Error Update
  | [], gathered => .ok gathered
  | first :: rest, gathered => do
      let next ← first.addChanges gathered
      addChangesBelow rest next

end

mutual

/-- Adds the paths of operations below an operation; `covered` says there is one above this
outline. -/
def Outline.addShadowed (covered : Bool) : Outline → List Path → List Path
  | .branch place intent _ below, paths =>
      addShadowedBelow (covered || intent.hasOperation) below
        (if covered && intent.hasOperation then paths ++ [place.path] else paths)
  | .key _ _, paths => paths

def addShadowedBelow (covered : Bool) : List Outline → List Path → List Path
  | [], paths => paths
  | first :: rest, paths => addShadowedBelow covered rest (first.addShadowed covered paths)

end

/-! ## Gathering from a node -/

namespace Node

/-- Goes on from what was gathered before, which has to be there. -/
def addPaths (gathered : Option Projection) (node : Node) : Except Error Projection := do
  node.place.require .gatherProjections
  match gathered with
  | none => .error (.nothingToExtend .projection node.place.path)
  | some projection => node.outline.addPaths projection

def addConditions (gathered : Option Condition) (node : Node) : Except Error (Option Condition) :=
  node.outline.addConditions gathered

def addKeyCondition (gathered : Option KeyCondition) (node : Node) :
    Except Error (Option KeyCondition) :=
  node.outline.addKeyCondition gathered

/-- Goes on from what was gathered before, which has to be there. -/
def addChanges (gathered : Option Update) (node : Node) : Except Error Update := do
  node.place.require .gatherUpdates
  match gathered with
  | none => .error (.nothingToExtend .update node.place.path)
  | some update => node.outline.addChanges update

def addShadowed (covered : Bool) (paths : List Path) (node : Node) : List Path :=
  node.outline.addShadowed covered paths

end Node

end ItemExpressions

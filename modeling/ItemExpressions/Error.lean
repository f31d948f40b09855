import ItemExpressions.Datum
import ItemExpressions.Path

/-!
What can go wrong, by cause, and the wording of each cause.
-/

namespace ItemExpressions

/-- What is refused on a node, or on a whole item, that has not been built. -/
inductive Action where
  | referToName
  | referToKey
  | markForProjection
  | gatherProjections
  | gatherConditions
  | gatherUpdates
  | gatherKeyConditions
  | projectItem
  | restrictItemKey
  | restrictItem
  | updateItem
  deriving DecidableEq

def Action.description : Action → String
  | .referToName => "create a name reference"
  | .referToKey => "create a key reference"
  | .markForProjection => "mark this attribute for projection"
  | .gatherProjections => "aggregate projections"
  | .gatherConditions => "aggregate conditions"
  | .gatherUpdates => "aggregate updates"
  | .gatherKeyConditions => "aggregate key conditions"
  | .projectItem => "build a projection"
  | .restrictItemKey => "build a key condition"
  | .restrictItem => "build a condition"
  | .updateItem => "build an update"

/-- What a gathering adds to and has to be given. -/
inductive Collection where
  | projection
  | update
  deriving DecidableEq

def Collection.word : Collection → String
  | .projection => "projection"
  | .update => "update"

inductive Error where
  | alreadyBuilt (path : Path)
  | notBuilt (name : String) (action : Action)
  | nothingToExtend (collection : Collection) (path : Path)
  | unsupportedUpdateValue (path : Path)
  | supersededUpdate (path : Path)
  /-- The list is named by its path once built, by its own name before. -/
  | missingElement (list : String) (index : Nat)
  | unwritable (fault : Fault)
  | unstorable (fault : StorageFault)
  deriving DecidableEq

namespace Error

def message : Error → String
  | .alreadyBuilt path => "build is already executed on attribute " ++ path.text
  | .notBuilt name action =>
      "build is not yet executed on attribute [" ++ name ++ "], cannot " ++ action.description
  | .nothingToExtend collection path =>
      "nil " ++ collection.word ++ " builder passed for attribute " ++ path.text
  | .unsupportedUpdateValue path =>
      "attribute " ++ path.text ++ " cannot be set to a derived value expression"
  | .supersededUpdate path =>
      "update on attribute " ++ path.text ++ " is superseded by an operation on an ancestor"
  | .missingElement list index =>
      "list attribute " ++ list ++ " has no element at index " ++ toString index
  | .unwritable fault => fault.message
  | .unstorable fault => "DynamoDB serialization error: " ++ fault.message

/-- A step was taken out of turn: a second build, a use before the build, or a gathering with
nothing to add to. -/
def isSequencing : Error → Bool
  | .alreadyBuilt _ | .notBuilt _ _ | .nothingToExtend _ _ => true
  | _ => false

def isExpression : Error → Bool
  | .unwritable _ => true
  | _ => false

def isStorage : Error → Bool
  | .unstorable _ => true
  | _ => false

end Error

end ItemExpressions

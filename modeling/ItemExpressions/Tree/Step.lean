import ItemExpressions.Tree.Build

/-!
Steps on the nodes of a tree: everything that changes a tree after it was made. A step is carried
out at the end of a route and answers with success or an error; an error can leave changes behind,
as a build that ends half way does.
-/

namespace ItemExpressions

inductive Step where
  | declare (indices : List Nat)
  | build (visit : Visit) (parent : Path)
  | project
  | andCondition (condition : Condition)
  | setUpdate (operation : Operation) (payload : Payload)
  | andKeyCondition (condition : KeyCondition)

def Step.perform : Step → Node → Option (Node × Except Error Unit)
  | .declare indices, node => node.declare? indices
  | .build visit parent, node => some (node.build visit [] parent)
  | .project, node => some node.project
  | .andCondition condition, node =>
      (node.changeIntent? (·.andCondition condition)).map (·, .ok ())
  | .setUpdate operation payload, node =>
      (node.changeIntent? (·.setUpdate operation payload)).map (·, .ok ())
  | .andKeyCondition condition, node => (node.andKeyCondition? condition).map (·, .ok ())

/-- `none` if the route leads to no node, or to one of a kind that has no such step. -/
def Node.performAt? (route : Route) (step : Step) (node : Node) :
    Option (Node × Except Error Unit) :=
  node.changeAt? step.perform route

end ItemExpressions

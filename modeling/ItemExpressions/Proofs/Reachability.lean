import ItemExpressions.Proofs.Descent
import ItemExpressions.Tree.Shape

/-!
Trees that can come about. A tree starts out as it was declared: nothing is built, marked or wanted
anywhere in it, no list has elements, and what a list makes for an index is such a tree again,
however the list names it. All that happens to it afterwards is a run of steps, each carried out at
the end of a route, and a step that answers with an error can have changed the tree as well.
-/

namespace ItemExpressions

namespace Node

inductive Fresh : Node → Prop where
  | attribute (name : String) (children : List Node) (fresh : ∀ child ∈ children, child.Fresh) :
      Fresh (.attribute (.fresh name) .empty children)
  | list (name : String) (make : Nat → Node) (fresh : ∀ index, (make index).Fresh) :
      Fresh (.list (.fresh name) .empty make [] [])
  | key (name : String) : Fresh (.key (.fresh name) none)

-- The answer of a step is free: a tree that a failed build left half built can come about as well.
inductive Reachable : Node → Prop where
  | fresh (tree : Node) (fresh : tree.Fresh) : tree.Reachable
  | step (tree after : Node) (route : Route) (step : Step) (answer : Except Error Unit)
      (reachable : tree.Reachable) (done : tree.performAt? route step = some (after, answer)) :
      after.Reachable

/-- A run carries out its steps one after the other, each at the end of its own route. -/
def run? : List (Route × Step) → Node → Option Node
  | [], tree => some tree
  | (route, step) :: rest, tree =>
      (tree.performAt? route step).bind fun result => run? rest result.1

theorem Reachable.run (steps : List (Route × Step)) (tree after : Node) (reachable : tree.Reachable)
    (done : tree.run? steps = some after) : after.Reachable := by
  induction steps generalizing tree with
  | nil => exact Option.some.inj done ▸ reachable
  | cons first rest ih =>
      obtain ⟨⟨next, answer⟩, performed, later⟩ := Option.bind_eq_some_iff.mp done
      exact ih next (.step tree next first.1 first.2 answer reachable performed) later

/-- What holds of declared trees and survives every step holds of all trees that come about. -/
theorem Reachable.invariant {holds : Node → Prop} (start : ∀ tree, tree.Fresh → holds tree)
    (kept : ∀ tree after route step answer, holds tree →
      tree.performAt? route step = some (after, answer) → holds after)
    (tree : Node) (reachable : tree.Reachable) : holds tree := by
  induction reachable with
  | fresh tree fresh => exact start tree fresh
  | step tree after route step answer _ done ih => exact kept tree after route step answer ih done

/-! ## Declared trees -/

theorem Fresh.deeper {node : Node} (fresh : node.Fresh) : ∀ child ∈ node.stored, child.Fresh := by
  cases fresh with
  | «attribute» name children fresh => exact fresh
  | list name make fresh => simp [stored]
  | key name => simp [stored]

theorem Fresh.everywhere {holds : Node → Prop} (each : ∀ node, node.Fresh → holds node)
    (tree : Node) (fresh : tree.Fresh) : tree.Everywhere holds := by
  induction tree using stored_induction with
  | step node ih =>
      exact .intro node (each node fresh) fun child member =>
        ih child member (fresh.deeper child member)

end Node

mutual

theorem Shape.fresh_declared (shape : Shape) : shape.fresh.Fresh := by
  cases shape with
  | «attribute» name fields => exact .attribute name _ (freshAll_declared fields)
  | list name elementName fields =>
      exact .list name _ fun index => .attribute (elementName index) _ (freshAll_declared fields)
  | key name => exact .key name

theorem Shape.freshAll_declared (fields : List Shape) :
    ∀ child ∈ Shape.freshAll fields, child.Fresh := by
  cases fields with
  | nil => simp [Shape.freshAll]
  | cons first rest =>
      intro child member
      rcases List.mem_cons.mp member with head | later
      · exact head ▸ fresh_declared first
      · exact freshAll_declared rest child later

end

/-- A person with a key, phone numbers and a bank account that has a number. -/
def Shape.person : Shape :=
  .attribute "" [.key "pk", .indexed "phones" [], .attribute "bank" [.attribute "number" []]]

end ItemExpressions

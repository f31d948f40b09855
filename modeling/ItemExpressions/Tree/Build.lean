import ItemExpressions.Tree.Route

/-!
Building a tree gives every node below the place it starts from its document path, and freezes the
declared elements of its lists. A node that was built before refuses, and ends the build half way:
what came before it stays built, and the nodes above it have a path but are not built.

The elements of a list have no order of their own. In which order a build visits them is a
parameter; it decides how far a failing build gets, and nothing else.
-/

namespace ItemExpressions

/-- For the list reached by a route, the order in which its elements are visited: each once. -/
structure Visit where
  order : Route → List Nat → List Nat
  each_once : ∀ route indices, (order route indices).Perm indices

def Visit.asStored : Visit := ⟨fun _ indices => indices, fun _ indices => .refl indices⟩

/-- Carries out attempts in the order given, until one has failed. -/
def settle {α : Type} (attempts : List (Nat × α × Except Error Unit)) :
    List Nat → List (Nat × α) → List (Nat × α) × Except Error Unit
  | [], elements => (elements, .ok ())
  | index :: rest, elements =>
      match attempts.lookup index with
      | none => settle attempts rest elements
      | some (element, .ok ()) => settle attempts rest (putAt index element elements)
      | some (element, .error error) => (putAt index element elements, .error error)

/-- A node is built when all below it are. -/
def Placement.close (place : Placement) (result : Except Error Unit) : Placement :=
  { place with built := result.isOk }

mutual

def Node.build (visit : Visit) (route : Route) (parent : Path) :
    Node → Node × Except Error Unit
  | .attribute place intent children =>
      if place.built then (.attribute place intent children, .error (.alreadyBuilt place.path))
      else
        let placed := place.below parent
        let tried := buildChildren visit route placed.path 0 children
        (.attribute (placed.close tried.2) intent tried.1, tried.2)
  | .list place intent make declared elements =>
      if place.built then
        (.list place intent make declared elements, .error (.alreadyBuilt place.path))
      else
        let placed := place.below parent
        let attempts := attemptElements visit route placed.path elements
        let tried := settle attempts (visit.order route (elements.map Prod.fst)) elements
        (.list (placed.close tried.2) intent make declared tried.1, tried.2)
  | .key place condition =>
      if place.built then (.key place condition, .error (.alreadyBuilt place.path))
      else (.key ((place.below parent).close (.ok ())) condition, .ok ())

def buildChildren (visit : Visit) (route : Route) (parent : Path) :
    Nat → List Node → List Node × Except Error Unit
  | _, [] => ([], .ok ())
  | position, first :: rest =>
      match first.build visit (route ++ [.child position]) parent with
      | (child, .error error) => (child :: rest, .error error)
      | (child, .ok ()) =>
          let tail := buildChildren visit route parent (position + 1) rest
          (child :: tail.1, tail.2)

/-- Each element by itself, as if it were the first to be visited. -/
def attemptElements (visit : Visit) (route : Route) (parent : Path) :
    List (Nat × Node) → List (Nat × Node × Except Error Unit)
  | [] => []
  | (index, element) :: rest =>
      (index, element.build visit (route ++ [.element index]) parent) ::
        attemptElements visit route parent rest

end

end ItemExpressions

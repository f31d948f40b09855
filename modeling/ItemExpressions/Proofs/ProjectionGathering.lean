import ItemExpressions.Item
import ItemExpressions.Proofs.Traversal

/-!
Gathering of projections. What is read from an item are the outermost marked nodes: a mark stands
for all that is below it, keys are marked like any other node, and an element that was declared
twice is read twice. Below a built node there is nothing that could refuse to be gathered.
-/

namespace ItemExpressions

namespace Node

def isMarked (node : Node) : Bool := node.place.projected

/-! ## One level -/

theorem addPaths_level (node : Node) (gathered : Projection)
    (refers : ∀ action, node.place.reference action = .ok node.place.path) :
    node.outline.addPaths gathered =
      if node.isMarked then .ok (gathered.add node.place.path)
      else addPathsBelow (node.visited.map outline) gathered := by
  cases carried : node.intent? with
  | some intent =>
      rw [outline_branch node intent carried, Outline.addPaths, Placement.require, refers, refers]
      rfl
  | none =>
      cases node with
      | key place condition =>
          have handle : place.reference .gatherProjections = .ok place.path := refers _
          rw [outline, Outline.addPaths, Placement.require, handle]
          simp only [isMarked, Node.place, visited, List.map_nil, addPathsBelow]
          cases place.projected <;> rfl
      | «attribute» => simp [intent?] at carried
      | list => simp [intent?] at carried

theorem addPathsBelow_parts (part : Node → List Path) (nodes : List Node)
    (members : ∀ node ∈ nodes, ∀ gathered,
      node.outline.addPaths gathered = .ok ⟨gathered.paths ++ part node⟩) (gathered : Projection) :
    addPathsBelow (nodes.map outline) gathered = .ok ⟨gathered.paths ++ nodes.flatMap part⟩ := by
  induction nodes generalizing gathered with
  | nil => simp [addPathsBelow]
  | cons first rest ih =>
      obtain ⟨head, tail⟩ := List.forall_mem_cons.mp members
      rw [List.map_cons, addPathsBelow, head gathered]
      refine (ih tail _).trans ?_
      rw [List.append_assoc, List.flatMap_cons]

/-! ## All of a subtree -/

theorem addPaths_outermost (above : List Node) (node : Node) (sound : node.Everywhere Sound)
    (built : node.place.built = true) (free : above.any isMarked = false) (gathered : Projection) :
    node.outline.addPaths gathered = .ok ⟨gathered.paths ++
      ((node.walk above).filter (Occurrence.outermost isMarked)).map Occurrence.path⟩ := by
  induction node using stored_induction generalizing above gathered with
  | step node ih =>
      have handle := sound.here.handle built
      rw [addPaths_level node gathered fun action =>
        node.place.reference_of_handle action built handle]
      cases marked : node.isMarked with
      | true =>
          rw [outermost_of_chosen isMarked above node marked free]
          rfl
      | false =>
          have below : (node :: above).any isMarked = false := by simp [marked, free]
          rw [outermost_of_other isMarked above node marked, List.map_flatMap]
          apply addPathsBelow_parts
          intro child visited
          have stored := visited_stored node child visited
          have seated := sound.here.seated built child stored
          exact ih child stored (node :: above) (sound.deeper child stored) seated.built below

theorem addPaths_exact (node : Node) (sound : node.Everywhere Sound)
    (built : node.place.built = true) (gathered : Projection) :
    node.addPaths (some gathered) =
      .ok ⟨gathered.paths ++ (node.outermost isMarked).map Occurrence.path⟩ := by
  have refers :=
    node.place.reference_of_handle .gatherProjections built (sound.here.handle built)
  rw [addPaths, Placement.require, refers]
  exact addPaths_outermost [] node sound built rfl gathered

/-- Gathering from a built node never fails. It adds the paths of the outermost marked nodes, in the
order of a traversal, and these are just the marked nodes with no marked one above. -/
theorem projection_gathered (tree : Node) (reachable : tree.Reachable) (route : Route)
    (node : Node) (found : tree.get? route = some node) (built : node.place.built = true) :
    ∃ paths, (node.outermost isMarked).map Occurrence.path? = paths.map some ∧
      (∀ gathered, node.addPaths (some gathered) = .ok ⟨gathered.paths ++ paths⟩) ∧
      ∀ path, path ∈ paths ↔ ∃ inner marked, node.get? inner = some marked ∧
        marked.isMarked = true ∧ marked.place.documentPath = some path ∧
        ∀ upper lower passed, inner = upper ++ lower → lower ≠ [] →
          node.get? upper = some passed → passed.isMarked = false := by
  have sound := (reachable_sound tree reachable).at_route route node found
  have walked : ∀ occurrence ∈ node.outermost isMarked, occurrence.node.place.built = true := by
    intro occurrence member
    exact walk_built [] node sound built occurrence (List.mem_of_mem_filter member)
  have paths := Occurrence.path_of_built _ walked
  refine ⟨_, paths, addPaths_exact node sound built, fun path => ?_⟩
  have listed : path ∈ (node.outermost isMarked).map Occurrence.path ↔
      ∃ occurrence ∈ node.outermost isMarked, occurrence.path? = some path := by
    rw [← List.mem_map, paths]
    simp
  rw [listed]
  constructor
  · rintro ⟨occurrence, member, named⟩
    obtain ⟨inner, inside, marked, free⟩ :=
      (mem_outermost isMarked node sound occurrence.node).mp ⟨occurrence, member, rfl⟩
    exact ⟨inner, occurrence.node, inside, marked, named, free⟩
  · rintro ⟨inner, marked, inside, chosen, named, free⟩
    obtain ⟨occurrence, member, rfl⟩ :=
      (mem_outermost isMarked node sound marked).mpr ⟨inner, inside, chosen, free⟩
    exact ⟨occurrence, member, named⟩

/-- A person of whom the key is to be read, a phone number that was declared twice, and the whole
bank account, although its number is marked as well. -/
def requesting : List (Route × Step) :=
  [([.child 1], .declare [10, 2, 10]), ([], .build .asStored .root),
    ([.child 0], .project), ([.child 1, .element 10], .project),
    ([.child 2, .child 0], .project), ([.child 2], .project)]

def requested : Node := (Shape.person.fresh.run? requesting).getD Shape.person.fresh

theorem requested_projection_gathered :
    requested.addPaths (some ⟨[⟨"old"⟩]⟩) =
      .ok ⟨[⟨"old"⟩, ⟨"pk"⟩, ⟨"phones[10]"⟩, ⟨"phones[10]"⟩, ⟨"bank"⟩]⟩ ∧
    ¬ ∃ paths, requested.addPaths (some .empty) = .ok ⟨paths⟩ ∧ ⟨"bank.number"⟩ ∈ paths := by
  have reachable : requested.Reachable :=
    .run requesting Shape.person.fresh requested (.fresh _ Shape.person.fresh_declared) rfl
  obtain ⟨paths, named, gathered, _⟩ :=
    projection_gathered requested reachable [] requested rfl rfl
  have listed : [⟨"pk"⟩, ⟨"phones[10]"⟩, ⟨"phones[10]"⟩, ⟨"bank"⟩] = paths := by
    apply List.map_injective_iff.mpr fun _ _ => Option.some.inj
    exact named
  refine ⟨listed ▸ gathered ⟨[⟨"old"⟩]⟩, ?_⟩
  rintro ⟨others, same, member⟩
  rw [gathered .empty] at same
  cases same
  rw [List.mem_append, ← listed] at member
  revert member
  decide

end Node

namespace Item

theorem projection_eq (item : Item) (reachable : item.root.Reachable)
    (built : item.isBuilt = true) :
    item.projection = .ok ⟨(item.root.outermost Node.isMarked).map Occurrence.path⟩ := by
  have required : item.require .projectItem = .ok () := if_pos built
  rw [projection, required]
  exact item.root.addPaths_exact (Node.reachable_sound item.root reachable) built .empty

end Item

end ItemExpressions

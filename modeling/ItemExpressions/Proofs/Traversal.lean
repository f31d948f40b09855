import ItemExpressions.Proofs.Latch
import ItemExpressions.Tree.Outline

/-!
Traversals. A traversal meets a node before what it goes on to below it: the children of an
attribute in their order, and of a list the element at each declared index, in the order of
declaration and as often as the index was declared. With each node it is known which nodes were
passed on the way to it. Every node of a tree that can come about is met, and no other.
-/

namespace ItemExpressions

variable {α : Type}

theorem mem_selectAt (indices : List Nat) (members : List (Nat × α)) (member : α) :
    member ∈ selectAt indices members ↔ ∃ index ∈ indices, members.lookup index = some member := by
  simp [selectAt]

theorem selectAt_map {β : Type} (change : α → β) (indices : List Nat) (members : List (Nat × α)) :
    selectAt indices (members.map fun entry => (entry.1, change entry.2)) =
      (selectAt indices members).map change := by
  have found (index : Nat) := lookup_map (fun _ member => change member) members index
  simp only [selectAt, found, List.map_filterMap]

/-- A node that a traversal meets, and the nodes passed on the way to it, the nearest first. -/
structure Occurrence where
  node : Node
  above : List Node

namespace Occurrence

def path (occurrence : Occurrence) : Path := occurrence.node.place.path

def path? (occurrence : Occurrence) : Option Path := occurrence.node.place.documentPath

/-- The node is chosen, and none of those passed on the way to it is. -/
def outermost (chosen : Node → Bool) (occurrence : Occurrence) : Bool :=
  !occurrence.above.any chosen && chosen occurrence.node

theorem path_of_built (occurrences : List Occurrence)
    (built : ∀ occurrence ∈ occurrences, occurrence.node.place.built = true) :
    occurrences.map path? = (occurrences.map path).map some := by
  rw [List.map_map]
  apply List.map_congr_left
  intro occurrence member
  simp [path?, path, Placement.documentPath, built occurrence member]

end Occurrence

mutual

def Node.walk (above : List Node) : Node → List Occurrence
  | .attribute place intent children =>
      let node := Node.attribute place intent children
      ⟨node, above⟩ :: walkAll (node :: above) children
  | .list place intent make declared elements =>
      let node := Node.list place intent make declared elements
      ⟨node, above⟩ :: (selectAt declared (walkElements (node :: above) elements)).flatten
  | .key place condition => [⟨.key place condition, above⟩]

def walkAll (above : List Node) : List Node → List Occurrence
  | [] => []
  | first :: rest => first.walk above ++ walkAll above rest

def walkElements (above : List Node) : List (Nat × Node) → List (Nat × List Occurrence)
  | [] => []
  | (index, element) :: rest => (index, element.walk above) :: walkElements above rest

end

theorem walkAll_eq (above : List Node) (nodes : List Node) :
    walkAll above nodes = nodes.flatMap (Node.walk above) := by
  induction nodes with
  | nil => rfl
  | cons first rest ih => simp [walkAll, ih]

theorem walkElements_eq (above : List Node) (elements : List (Nat × Node)) :
    walkElements above elements = elements.map fun entry => (entry.1, entry.2.walk above) := by
  induction elements with
  | nil => rfl
  | cons first rest ih => simp [walkElements, ih]

theorem outlineAll_eq (nodes : List Node) : outlineAll nodes = nodes.map Node.outline := by
  induction nodes with
  | nil => rfl
  | cons first rest ih => simp [outlineAll, ih]

theorem outlineElements_eq (elements : List (Nat × Node)) :
    outlineElements elements = elements.map fun entry => (entry.1, entry.2.outline) := by
  induction elements with
  | nil => rfl
  | cons first rest ih => simp [outlineElements, ih]

namespace Node

/-! ## One level of a traversal -/

def visited : Node → List Node
  | .attribute _ _ children => children
  | .list _ _ _ declared elements => selectAt declared elements
  | .key _ _ => []

theorem walk_eq (above : List Node) (node : Node) :
    node.walk above = ⟨node, above⟩ :: node.visited.flatMap (walk (node :: above)) := by
  cases node with
  | «attribute» => simp only [walk, walkAll_eq, visited]
  | list => simp only [walk, walkElements_eq, selectAt_map, visited, List.flatMap_def]
  | key => simp [walk, visited]

def isList : Node → Bool
  | .list _ _ _ _ _ => true
  | .attribute _ _ _ | .key _ _ => false

/-- Attributes and lists look alike to a traversal, except for what they can be set to. -/
theorem outline_branch (node : Node) (intent : Intent) (carried : node.intent? = some intent) :
    node.outline = .branch node.place intent node.isList (node.visited.map outline) := by
  cases node with
  | «attribute» =>
      cases carried
      rw [outline, outlineAll_eq]
      rfl
  | list =>
      cases carried
      rw [outline, outlineElements_eq, selectAt_map]
      rfl
  | key => simp [intent?] at carried

theorem visited_enter (node child : Node) (member : child ∈ node.visited) :
    ∃ hop, node.enter? hop = some child := by
  cases node with
  | «attribute» place intent children =>
      obtain ⟨position, found⟩ := List.mem_iff_getElem?.mp member
      exact ⟨.child position, found⟩
  | list place intent make declared elements =>
      obtain ⟨index, _, found⟩ := (mem_selectAt declared elements child).mp member
      exact ⟨.element index, found⟩
  | key => simp [visited] at member

theorem visited_stored (node child : Node) (member : child ∈ node.visited) :
    child ∈ node.stored := by
  obtain ⟨hop, found⟩ := visited_enter node child member
  exact enter_stored hop node child found

/-- Each stored element is at a declared index, so that no traversal passes it over. -/
theorem enter_visited (node child : Node) (sound : node.Sound) (hop : Hop)
    (found : node.enter? hop = some child) : child ∈ node.visited := by
  cases node with
  | «attribute» place intent children =>
      cases hop with
      | child position => exact List.mem_of_getElem? found
      | element index => simp [enter?, element?] at found
  | list place intent make declared elements =>
      cases hop with
      | child position => simp [enter?, children] at found
      | element index =>
          have stored := mem_of_lookup index child elements found
          have present := (sound.declared index).mp (List.mem_map_of_mem stored)
          exact (mem_selectAt declared elements child).mpr ⟨index, present, found⟩
  | key => cases hop <;> simp [enter?, children, element?] at found

/-! ## All of a traversal -/

/-- The nodes passed on a route, without the one it leads to; the nearest to it first. -/
def trail : Route → Node → List Node
  | [], _ => []
  | hop :: rest, node =>
      match node.enter? hop with
      | none => []
      | some entered => entered.trail rest ++ [node]

theorem walk_above (above : List Node) (node : Node) :
    ∀ occurrence ∈ node.walk above, ∃ inner, occurrence.above = inner ++ above := by
  induction node using stored_induction generalizing above with
  | step node ih =>
      intro occurrence member
      rw [walk_eq] at member
      rcases List.mem_cons.mp member with here | deeper
      · exact ⟨[], here ▸ rfl⟩
      · obtain ⟨child, visited, inside⟩ := List.mem_flatMap.mp deeper
        obtain ⟨inner, same⟩ :=
          ih child (visited_stored node child visited) (node :: above) occurrence inside
        exact ⟨inner ++ [node], by simp [same]⟩

theorem walk_built (above : List Node) (node : Node) (sound : node.Everywhere Sound)
    (built : node.place.built = true) :
    ∀ occurrence ∈ node.walk above, occurrence.node.place.built = true := by
  induction node using stored_induction generalizing above with
  | step node ih =>
      intro occurrence member
      rw [walk_eq] at member
      rcases List.mem_cons.mp member with here | deeper
      · exact here ▸ built
      · obtain ⟨child, visited, inside⟩ := List.mem_flatMap.mp deeper
        have stored := visited_stored node child visited
        have seated := sound.here.seated built child stored
        exact ih child stored (node :: above) (sound.deeper child stored) seated.built
          occurrence inside

/-- A traversal of a sound tree meets exactly the nodes that routes lead to, each below the nodes
that its route passes. -/
theorem mem_walk (above : List Node) (tree : Node) (sound : tree.Everywhere Sound)
    (occurrence : Occurrence) :
    occurrence ∈ tree.walk above ↔ ∃ route, tree.get? route = some occurrence.node ∧
      occurrence.above = tree.trail route ++ above := by
  induction tree using stored_induction generalizing above with
  | step node ih =>
      rw [walk_eq, List.mem_cons, List.mem_flatMap]
      constructor
      · rintro (here | ⟨child, visited, inside⟩)
        · exact ⟨[], here ▸ rfl, here ▸ rfl⟩
        · obtain ⟨hop, entered⟩ := visited_enter node child visited
          have stored := visited_stored node child visited
          obtain ⟨route, found, passed⟩ :=
            (ih child stored (node :: above) (sound.deeper child stored)).mp inside
          exact ⟨hop :: route, by simp [get?, entered, found], by simp [trail, entered, passed]⟩
      · rintro ⟨route, found, passed⟩
        cases route with
        | nil =>
            cases found
            exact Or.inl (by cases occurrence; simp_all [trail])
        | cons hop rest =>
            obtain ⟨child, entered, inside⟩ := Option.bind_eq_some_iff.mp found
            have stored := enter_stored hop node child entered
            have visited := enter_visited node child sound.here hop entered
            refine Or.inr ⟨child, visited, ?_⟩
            exact (ih child stored (node :: above) (sound.deeper child stored)).mpr
              ⟨rest, inside, by simpa [trail, entered] using passed⟩

theorem mem_trail (route : Route) (tree node : Node) (found : tree.get? route = some node)
    (passed : Node) :
    passed ∈ tree.trail route ↔ ∃ upper lower, lower ≠ [] ∧ route = upper ++ lower ∧
      tree.get? upper = some passed := by
  induction route generalizing tree with
  | nil =>
      constructor
      · simp [trail]
      · rintro ⟨upper, lower, proper, same, _⟩
        exact absurd (List.append_eq_nil_iff.mp same.symm).2 proper
  | cons hop rest ih =>
      obtain ⟨entered, step, inside⟩ := Option.bind_eq_some_iff.mp found
      simp only [trail, step, List.mem_append, List.mem_singleton, ih entered inside]
      constructor
      · rintro (⟨upper, lower, proper, same, reached⟩ | here)
        · exact ⟨hop :: upper, lower, proper, by rw [same, List.cons_append], by
            simp [get?, step, reached]⟩
        · exact ⟨[], hop :: rest, List.cons_ne_nil _ _, rfl, here ▸ rfl⟩
      · rintro ⟨upper, lower, proper, same, reached⟩
        cases upper with
        | nil => exact Or.inr (Option.some.inj reached).symm
        | cons first others =>
            obtain ⟨rfl, rfl⟩ := List.cons_eq_cons.mp same
            exact Or.inl ⟨others, lower, proper, rfl, by simpa [get?, step] using reached⟩

/-- One node is met below another just when a proper route leads from the other to it. -/
theorem walk_below (tree : Node) (sound : tree.Everywhere Sound) (node passed : Node) :
    (∃ occurrence ∈ tree.walk [], occurrence.node = node ∧ passed ∈ occurrence.above) ↔
      ∃ upper lower, lower ≠ [] ∧ tree.get? upper = some passed ∧
        passed.get? lower = some node := by
  constructor
  · rintro ⟨occurrence, member, rfl, above⟩
    obtain ⟨route, found, trailed⟩ := (mem_walk [] tree sound occurrence).mp member
    rw [trailed, List.append_nil] at above
    obtain ⟨upper, lower, proper, rfl, reached⟩ :=
      (mem_trail route tree occurrence.node found passed).mp above
    rw [get_append, reached] at found
    exact ⟨upper, lower, proper, reached, found⟩
  · rintro ⟨upper, lower, proper, reached, inside⟩
    have found : tree.get? (upper ++ lower) = some node := by rw [get_append, reached]; exact inside
    refine ⟨⟨node, tree.trail (upper ++ lower)⟩, ?_, rfl, ?_⟩
    · exact (mem_walk [] tree sound _).mpr ⟨upper ++ lower, found, (List.append_nil _).symm⟩
    · exact (mem_trail _ tree node found passed).mpr ⟨upper, lower, proper, rfl, reached⟩

/-! ## Outermost nodes -/

/-- The nodes that were chosen and do not stand below a chosen one, in the order of a traversal. -/
def outermost (chosen : Node → Bool) (node : Node) : List Occurrence :=
  (node.walk []).filter (Occurrence.outermost chosen)

section Outermost

variable (chosen : Node → Bool) (above : List Node) (node : Node)

/-- A chosen node hides all that is met below it. -/
theorem outermost_of_chosen (here : chosen node = true) (free : above.any chosen = false) :
    (node.walk above).filter (Occurrence.outermost chosen) = [⟨node, above⟩] := by
  have hidden : ∀ child ∈ node.visited,
      (child.walk (node :: above)).filter (Occurrence.outermost chosen) = [] := by
    intro child _
    apply List.filter_eq_nil_iff.mpr
    intro occurrence member
    -- All that is met further down has this node among those above it.
    obtain ⟨inner, same⟩ := walk_above (node :: above) child occurrence member
    simp [Occurrence.outermost, same, here]
  rw [walk_eq, List.filter_cons, List.filter_flatMap, List.flatMap_eq_nil_iff.mpr hidden]
  simp [Occurrence.outermost, here, free]

theorem outermost_of_other (other : chosen node = false) :
    (node.walk above).filter (Occurrence.outermost chosen) = node.visited.flatMap fun child =>
      (child.walk (node :: above)).filter (Occurrence.outermost chosen) := by
  rw [walk_eq, List.filter_cons, List.filter_flatMap]
  simp [Occurrence.outermost, other]

end Outermost

/-- The outermost nodes are those that a route leads to without passing a chosen one. -/
theorem mem_outermost (chosen : Node → Bool) (tree : Node) (sound : tree.Everywhere Sound)
    (node : Node) : (∃ occurrence ∈ tree.outermost chosen, occurrence.node = node) ↔
      ∃ route, tree.get? route = some node ∧ chosen node = true ∧
        ∀ upper lower passed, route = upper ++ lower → lower ≠ [] →
          tree.get? upper = some passed → chosen passed = false := by
  constructor
  · rintro ⟨occurrence, member, rfl⟩
    obtain ⟨walked, outer⟩ := List.mem_filter.mp member
    obtain ⟨route, found, trailed⟩ := (mem_walk [] tree sound occurrence).mp walked
    simp only [Occurrence.outermost, trailed, List.append_nil, Bool.and_eq_true,
      Bool.not_eq_true', List.any_eq_false] at outer
    refine ⟨route, found, outer.2, fun upper lower passed same proper reached => ?_⟩
    have trailing := (mem_trail route tree occurrence.node found passed).mpr
      ⟨upper, lower, proper, same, reached⟩
    exact Bool.eq_false_iff.mpr (outer.1 passed trailing)
  · rintro ⟨route, found, here, free⟩
    refine ⟨⟨node, tree.trail route⟩, List.mem_filter.mpr ⟨?_, ?_⟩, rfl⟩
    · exact (mem_walk [] tree sound _).mpr ⟨route, found, (List.append_nil _).symm⟩
    · have clear : (tree.trail route).any chosen = false := by
        apply List.any_eq_false.mpr
        intro passed trailing
        obtain ⟨upper, lower, proper, same, reached⟩ :=
          (mem_trail route tree node found passed).mp trailing
        simp [free upper lower passed same proper reached]
      simp [Occurrence.outermost, clear, here]

end Node

end ItemExpressions

import ItemExpressions.Tree.Step
import Mathlib.Data.List.Nodup

/-!
Descent through a tree. What stands directly below a node are the children of an attribute and the
stored elements of a list; the nodes that a list would make for further indices do not count. Facts
on all nodes of a tree are proved by going down, and are kept when a change at the end of a route
keeps them there and on the way back up.
-/

namespace ItemExpressions

variable {α : Type}

/-! ## Members of an indexed list -/

theorem lookup_map {β : Type} (change : Nat → α → β) (members : List (Nat × α)) (index : Nat) :
    (members.map fun entry => (entry.1, change entry.1 entry.2)).lookup index =
      (members.lookup index).map (change index) := by
  induction members with
  | nil => rfl
  | cons first rest ih =>
      obtain ⟨key, value⟩ := first
      by_cases same : index = key
      · simp [same]
      · have different : (index == key) = false := by simpa using same
        simp only [List.map_cons, List.lookup_cons, different, ih]

theorem putAt_keys (index : Nat) (member : α) (members : List (Nat × α)) :
    (putAt index member members).map Prod.fst =
      if index ∈ members.map Prod.fst then members.map Prod.fst
      else members.map Prod.fst ++ [index] := by
  induction members with
  | nil => simp [putAt]
  | cons first rest ih =>
      by_cases same : first.1 = index
      · simp [putAt, same]
      · have different : index ≠ first.1 := Ne.symm same
        simp only [putAt, same, ↓reduceIte, List.map_cons, ih, List.mem_cons, different, false_or]
        split <;> rfl

theorem putAt_nodup (index : Nat) (member : α) (members : List (Nat × α))
    (distinct : (members.map Prod.fst).Nodup) :
    ((putAt index member members).map Prod.fst).Nodup := by
  rw [putAt_keys]
  split
  · exact distinct
  · next absent => simpa [List.nodup_append] using
      ⟨distinct, fun key value stored same => absent (same ▸ List.mem_map_of_mem stored)⟩

theorem putAt_index (index other : Nat) (member : α) (members : List (Nat × α)) :
    other ∈ (putAt index member members).map Prod.fst ↔
      other = index ∨ other ∈ members.map Prod.fst := by
  rw [putAt_keys]
  split
  · next present =>
    constructor
    · exact Or.inr
    · rintro (rfl | stored)
      · exact present
      · exact stored
  · simp [or_comm]

/-- With one member for each index, writing at an index leaves exactly the new member there. -/
theorem putAt_entry (index : Nat) (member : α) (members : List (Nat × α))
    (distinct : (members.map Prod.fst).Nodup) (entry : Nat × α)
    (stored : entry ∈ putAt index member members) :
    entry = (index, member) ∨ (entry.1 ≠ index ∧ entry ∈ members) := by
  induction members with
  | nil => exact Or.inl (by simpa [putAt] using stored)
  | cons first rest ih =>
      obtain ⟨absent, tail⟩ := List.nodup_cons.mp distinct
      by_cases same : first.1 = index
      · simp only [putAt, same, ↓reduceIte, List.mem_cons] at stored
        refine stored.imp id fun later => ⟨?_, List.mem_cons_of_mem _ later⟩
        -- A second member of the same index would have stood in the list before.
        intro equal
        exact absent (same.trans equal.symm ▸ List.mem_map_of_mem later)
      · simp only [putAt, same, ↓reduceIte, List.mem_cons] at stored
        rcases stored with head | later
        · exact Or.inr ⟨head ▸ same, head ▸ List.mem_cons_self⟩
        · exact (ih tail later).imp id fun kept => ⟨kept.1, List.mem_cons_of_mem _ kept.2⟩

namespace Node

/-! ## What stands below a node -/

def elements : Node → List (Nat × Node)
  | .list _ _ _ _ elements => elements
  | .attribute _ _ _ | .key _ _ => []

def stored : Node → List Node
  | .attribute _ _ children => children
  | .list _ _ _ _ elements => elements.map Prod.snd
  | .key _ _ => []

theorem sizeOf_stored (node child : Node) (member : child ∈ node.stored) :
    sizeOf child < sizeOf node := by
  cases node with
  | «attribute» place intent children =>
      have smaller : sizeOf child < sizeOf children := List.sizeOf_lt_of_mem member
      simp only [Node.attribute.sizeOf_spec]
      omega
  | list place intent make declared elements =>
      obtain ⟨⟨index, element⟩, stored, rfl⟩ := List.mem_map.mp member
      have smaller := List.sizeOf_lt_of_mem stored
      simp only [Prod.mk.sizeOf_spec] at smaller
      simp only [Node.list.sizeOf_spec]
      omega
  | key place condition => simp [stored] at member

-- A list also makes nodes for indices that it does not hold, so the induction of the type asks for
-- more than what is stored; going down by size asks for just that.
@[elab_as_elim]
theorem stored_induction {motive : Node → Prop}
    (step : ∀ node, (∀ child ∈ node.stored, motive child) → motive node) (node : Node) :
    motive node :=
  step node fun child _ => stored_induction step child
termination_by sizeOf node
decreasing_by exact sizeOf_stored node child ‹_›

/-- A property of a node and of all nodes stored below it. -/
inductive Everywhere (holds : Node → Prop) : Node → Prop where
  | intro (node : Node) (here : holds node)
      (deeper : ∀ child ∈ node.stored, child.Everywhere holds) : node.Everywhere holds

variable {holds : Node → Prop}

theorem Everywhere.here {node : Node} (everywhere : node.Everywhere holds) : holds node := by
  cases everywhere with
  | intro _ here _ => exact here

theorem Everywhere.deeper {node : Node} (everywhere : node.Everywhere holds) :
    ∀ child ∈ node.stored, child.Everywhere holds := by
  cases everywhere with
  | intro _ _ deeper => exact deeper

theorem Everywhere.imp {weaker : Node → Prop} (each : ∀ node, holds node → weaker node)
    {node : Node} (everywhere : node.Everywhere holds) : node.Everywhere weaker := by
  induction everywhere with
  | intro node here _ ih => exact .intro node (each node here) ih

/-! ## Routes -/

theorem enter_stored (hop : Hop) (node child : Node) (found : node.enter? hop = some child) :
    child ∈ node.stored := by
  cases hop with
  | child position =>
      cases node with
      | «attribute» place intent children => exact List.mem_of_getElem? found
      | list => simp [enter?, children] at found
      | key => simp [enter?, children] at found
  | element index =>
      cases node with
      | list place intent make declared elements =>
          exact List.mem_map_of_mem (mem_of_lookup index child elements found)
      | «attribute» => simp [enter?, element?] at found
      | key => simp [enter?, element?] at found

theorem Everywhere.at_route {tree : Node} (everywhere : tree.Everywhere holds) (route : Route)
    (node : Node) (found : tree.get? route = some node) : node.Everywhere holds := by
  induction route generalizing tree with
  | nil =>
      cases found
      exact everywhere
  | cons hop rest ih =>
      obtain ⟨entered, step, inside⟩ := Option.bind_eq_some_iff.mp found
      exact ih (everywhere.deeper entered (enter_stored hop tree entered step)) inside

theorem get_append (first second : Route) (tree : Node) :
    tree.get? (first ++ second) = (tree.get? first).bind (get? second) := by
  induction first generalizing tree with
  | nil => rfl
  | cons hop rest ih =>
      simp only [List.cons_append, get?]
      cases tree.enter? hop with
      | none => rfl
      | some entered => exact ih entered

/-! ## Changes at the end of a route -/

@[simp]
theorem replace_place (node : Node) (hop : Hop) (replacement : Node) :
    (node.replace hop replacement).place = node.place := by
  cases node <;> cases hop <;> rfl

/-- A replaced member stands in for the one that the hop entered; all others stay. -/
theorem replace_stored (node : Node) (hop : Hop) (replacement child : Node)
    (member : child ∈ (node.replace hop replacement).stored) :
    child = replacement ∨ child ∈ node.stored := by
  cases node with
  | «attribute» place intent children =>
      cases hop with
      | child position => exact (List.mem_or_eq_of_mem_set member).symm
      | element index => exact Or.inr member
  | list place intent make declared elements =>
      cases hop with
      | child position => exact Or.inr member
      | element index =>
          simp only [replace, Node.stored, List.map_map, List.mem_map,
            Function.comp_apply] at member
          obtain ⟨entry, present, same⟩ := member
          split at same
          · exact Or.inl same.symm
          · exact Or.inr (same ▸ List.mem_map_of_mem present)
  | key place condition => exact Or.inr (by cases hop <;> exact member)

theorem replace_keys (node : Node) (hop : Hop) (replacement : Node) :
    (node.replace hop replacement).elements.map Prod.fst = node.elements.map Prod.fst := by
  cases node with
  | list place intent make declared elements =>
      cases hop with
      | child position => rfl
      | element index =>
          simp only [replace, Node.elements, List.map_map]
          apply List.map_congr_left
          intro stored _
          by_cases same : stored.1 = index <;> simp [same]
  | «attribute» => cases hop <;> rfl
  | key => cases hop <;> rfl

theorem replace_declared (node : Node) (hop : Hop) (replacement : Node) :
    (node.replace hop replacement).declared = node.declared := by
  cases node <;> cases hop <;> rfl

/-- To keep a property of a tree and a relation to what it was, a change has to keep both at the
place it is made, and every node above has to accept what its member became. -/
theorem changeAt_keeps (invariant : Node → Prop) (kept : Node → Node → Prop)
    (change : Node → Option (Node × α))
    (inside : ∀ node entered hop, invariant node → node.enter? hop = some entered →
      invariant entered)
    (made : ∀ node after answer, invariant node → change node = some (after, answer) →
      invariant after ∧ kept node after)
    (lifted : ∀ node entered hop after, invariant node → node.enter? hop = some entered →
      invariant after → kept entered after →
      invariant (node.replace hop after) ∧ kept node (node.replace hop after))
    (route : Route) (tree after : Node) (answer : α) (holds : invariant tree)
    (done : tree.changeAt? change route = some (after, answer)) :
    invariant after ∧ kept tree after := by
  induction route generalizing tree after with
  | nil => exact made tree after answer holds done
  | cons hop rest ih =>
      simp only [changeAt?, Option.bind_eq_bind, Option.bind_eq_some_iff] at done
      -- The change is made below what the hop enters, and then lifted over this node.
      obtain ⟨entered, step, ⟨changed, answered⟩, deeper, same⟩ := done
      simp only [Option.pure_def, Option.some.injEq, Prod.mk.injEq] at same
      obtain ⟨rfl, rfl⟩ := same
      obtain ⟨sound, related⟩ := ih entered changed (inside tree entered hop holds step) deeper
      exact lifted tree entered hop changed holds step sound related

end Node

end ItemExpressions

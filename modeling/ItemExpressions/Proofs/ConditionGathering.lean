import ItemExpressions.Item
import ItemExpressions.Proofs.History
import ItemExpressions.Proofs.Traversal

/-!
Gathering of conditions. All conditions of a tree are joined from the left in the order in which a
traversal meets their nodes, behind what was gathered before; marks and operations hide none of
them. The condition of one node is joined in the same way from what was attached to it.
-/

namespace ItemExpressions

/-! ## Joining -/

namespace Condition

/-- All conditions of a list joined from the left. -/
def conjunction : List Condition → Option Condition
  | [] => none
  | first :: rest => some (rest.foldl and first)

theorem joined_some (first : Condition) (conditions : List Condition) :
    conditions.foldl join (some first) = some (conditions.foldl and first) := by
  induction conditions generalizing first with
  | nil => rfl
  | cons next rest ih => exact ih (first.and next)

/-- The list begins with what was gathered before, if there was something. -/
theorem conjunction_gathered (gathered : Option Condition) (conditions : List Condition) :
    conditions.foldl join gathered = conjunction (gathered.toList ++ conditions) := by
  cases gathered with
  | some first => exact joined_some first conditions
  | none =>
      cases conditions with
      | nil => rfl
      | cons first rest => exact joined_some first rest

theorem conjunction_none (conditions : List Condition) :
    conjunction conditions = none ↔ conditions = [] := by
  cases conditions <;> simp [conjunction]

end Condition

namespace Node

/-- The conditions of all nodes that a traversal meets, in its order. -/
def conditions (node : Node) : List Condition :=
  (node.walk []).filterMap fun occurrence => occurrence.node.condition?

/-! ## One level -/

theorem addConditions_level (node : Node) (gathered : Option Condition)
    (refers : ∀ action, node.place.reference action = .ok node.place.path) :
    node.outline.addConditions gathered = addConditionsBelow (node.visited.map outline)
      (node.condition?.toList.foldl Condition.join gathered) := by
  cases carried : node.intent? with
  | some intent =>
      have own : node.condition? = intent.condition := by rw [condition?, carried]; rfl
      rw [outline_branch node intent carried, Outline.addConditions, Placement.require, refers, own]
      cases intent.condition <;> rfl
  | none =>
      cases node with
      | key => rfl
      | «attribute» => simp [intent?] at carried
      | list => simp [intent?] at carried

theorem addConditionsBelow_parts (part : Node → List Condition) (nodes : List Node)
    (members : ∀ node ∈ nodes, ∀ gathered,
      node.outline.addConditions gathered = .ok ((part node).foldl Condition.join gathered))
    (gathered : Option Condition) :
    addConditionsBelow (nodes.map outline) gathered =
      .ok ((nodes.flatMap part).foldl Condition.join gathered) := by
  induction nodes generalizing gathered with
  | nil => rfl
  | cons first rest ih =>
      obtain ⟨head, tail⟩ := List.forall_mem_cons.mp members
      rw [List.map_cons, addConditionsBelow, head gathered, List.flatMap_cons, List.foldl_append]
      exact ih tail _

/-! ## All of a subtree -/

theorem addConditions_walk (above : List Node) (node : Node) (sound : node.Everywhere Sound)
    (built : node.place.built = true) (gathered : Option Condition) :
    node.outline.addConditions gathered =
      .ok (((node.walk above).filterMap fun occurrence => occurrence.node.condition?).foldl
        Condition.join gathered) := by
  induction node using stored_induction generalizing above gathered with
  | step node ih =>
      have handle := sound.here.handle built
      have parts := addConditionsBelow_parts
        (fun child => (child.walk (node :: above)).filterMap fun occurrence =>
          occurrence.node.condition?) node.visited fun child visited =>
        have stored := visited_stored node child visited
        ih child stored (node :: above) (sound.deeper child stored)
          (sound.here.seated built child stored).built
      rw [addConditions_level node gathered fun action =>
        node.place.reference_of_handle action built handle, parts, ← List.foldl_append, walk_eq,
        List.filterMap_cons, List.filterMap_flatMap]
      cases node.condition? <;> rfl

theorem addConditions_exact (node : Node) (sound : node.Everywhere Sound)
    (built : node.place.built = true) (gathered : Option Condition) :
    node.addConditions gathered =
      .ok (Condition.conjunction (gathered.toList ++ node.conditions)) := by
  rw [← Condition.conjunction_gathered]
  exact addConditions_walk [] node sound built gathered

/-- Gathering from a built node never fails. It joins from the left what was gathered before and
the conditions of the nodes it meets; and each of these was joined from the left of what the steps
in the place of its node attached. -/
theorem conditions_gathered (tree : Node) (history : tree.History) (route : Route) (node : Node)
    (found : tree.get? route = some node) :
    (node.place.built = true → ∀ gathered,
      node.addConditions gathered =
        .ok (Condition.conjunction (gathered.toList ++ node.conditions)) ∧
      (node.addConditions gathered = .ok none ↔ gathered = none ∧ node.conditions = [])) ∧
    node.condition? = Condition.conjunction (history.brought Step.condition? route) := by
  have sound := (reachable_sound tree history.reachable).at_route route node found
  constructor
  · intro built gathered
    have exactly := addConditions_exact node sound built gathered
    refine ⟨exactly, ?_⟩
    rw [exactly, Except.ok.injEq, Condition.conjunction_none, List.append_eq_nil_iff,
      Option.toList_eq_nil_iff]
  · rw [condition_accrues.exact history route node found, Condition.conjunction_gathered]
    rfl

/-- A person with conditions on the bank account, on its number and on a phone number. The phone
number had another condition before it was declared anew. -/
def guarding : List (Route × Step) :=
  let given (path : String) : Step := .andCondition (.holds .exists ⟨path⟩ none)
  [([.child 1], .declare [10]), ([.child 1, .element 10], given "old"),
    ([.child 2, .child 0], given "bank.number"), ([.child 1], .declare [2, 10]),
    ([.child 1, .element 10], given "phones[10]"), ([], .build .asStored .root),
    ([.child 2], given "bank"), ([.child 1, .element 10], given "phones")]

def guarded : Node := (Shape.person.fresh.run? guarding).getD Shape.person.fresh

theorem guarded_conditions_gathered :
    let exist (path : String) : Condition := .holds .exists ⟨path⟩ none
    let phone := (exist "phones[10]").and (exist "phones")
    guarded.addConditions (some (exist "pk")) =
      .ok (some (((((exist "pk").and phone).and phone).and (exist "bank")).and
        (exist "bank.number"))) ∧
    ∃ element, guarded.get? [.child 1, .element 10] = some element ∧
      element.condition? = some phone := by
  intro exist phone
  let history : guarded.History :=
    (History.declared _ Shape.person.fresh_declared).follow guarding rfl
  obtain ⟨gathered, _⟩ := conditions_gathered guarded history [] guarded rfl
  obtain ⟨_, attached⟩ := conditions_gathered guarded history [.child 1, .element 10] _ rfl
  exact ⟨(gathered rfl (some (exist "pk"))).1.trans rfl, _, rfl, attached.trans rfl⟩

end Node

end ItemExpressions

import ItemExpressions.Item
import ItemExpressions.Proofs.ClauseContents
import ItemExpressions.Proofs.Traversal

/-!
Accounting of updates. Two traversals look at the operations of a tree: gathering stops at an
operation, and the other one goes on below it with a flag. Together they account for all that is
wanted. An operation with none above it becomes one change of the update, each other one is reported
by its path, and both in the order in which the nodes are met.
-/

namespace ItemExpressions

/-! ## What is wanted -/

/-- What a payload writes where no derived value is taken: null if it is empty. -/
def Payload.written? : Payload → Option AttributeValue
  | .empty => some (.null true)
  | .literal value => some value
  | .derived _ => none

namespace Node

def hasOperation (node : Node) : Bool :=
  node.intent?.any Intent.hasOperation

/-- The change that carries out the operation of a built node at its document path. There is none
for a payload that the node cannot carry. -/
def wanted? (node : Node) : Option Change := do
  let path ← node.place.documentPath
  let intent ← node.intent?
  match intent.operation, intent.payload with
  | .leave, _ => none
  | .remove, _ => some (.remove path)
  | .set, .derived value => if node.isList then some (.set path (.derived value)) else none
  | .set, payload => payload.written?.map fun value => .set path (.literal value)
  | .add, payload => payload.written?.map (.add path)
  | .delete, payload => payload.written?.map (.delete path)

def change (node : Node) : Except Error Change :=
  match node.wanted? with
  | some change => .ok change
  | none => .error (.unsupportedUpdateValue node.place.path)

end Node

namespace Occurrence

def operates (occurrence : Occurrence) : Bool := occurrence.node.hasOperation

/-- There is an operation above. -/
def covered (occurrence : Occurrence) : Bool := occurrence.above.any Node.hasOperation

/-- An operation with none above it. -/
def exposed (occurrence : Occurrence) : Bool := !occurrence.covered && occurrence.operates

/-- An operation below another one. -/
def superseded (occurrence : Occurrence) : Bool := occurrence.covered && occurrence.operates

end Occurrence

/-- All operations that a traversal of the node meets, in its order. -/
def Node.operations (node : Node) : List Occurrence := (node.walk []).filter Occurrence.operates

/-- The changes of the occurrences one after the other, until one of them is refused. -/
def carryOut : List Occurrence → Update → Except Error Update
  | [], gathered => .ok gathered
  | first :: rest, gathered => (first.node.change.map gathered.push).bind (carryOut rest)

theorem carryOut_append (first second : List Occurrence) (gathered : Update) :
    carryOut (first ++ second) gathered = (carryOut first gathered).bind (carryOut second) := by
  induction first generalizing gathered with
  | nil => rfl
  | cons head tail ih =>
      simp only [List.cons_append, carryOut]
      cases head.node.change with
      | error error => rfl
      | ok change => exact ih (gathered.push change)

theorem carryOut_ok (occurrences : List Occurrence) (gathered update : Update) :
    carryOut occurrences gathered = .ok update ↔ ∃ changes,
      occurrences.map (fun occurrence => occurrence.node.wanted?) = changes.map some ∧
      update = gathered.pushAll changes := by
  induction occurrences generalizing gathered with
  | nil =>
      constructor
      · intro success
        exact ⟨[], rfl, (Except.ok.inj success).symm⟩
      · rintro ⟨changes, same, rfl⟩
        have none : changes = [] := by simpa using same.symm
        subst changes
        rfl
  | cons first rest ih =>
      cases wish : first.node.wanted? with
      | none =>
          simp only [carryOut, Node.change, wish, Except.map, Except.bind, reduceCtorEq,
            List.map_cons, false_iff]
          rintro ⟨changes, same, _⟩
          cases changes <;> simp at same
      | some change =>
          simp only [carryOut, Node.change, wish, Except.map, Except.bind, List.map_cons, ih]
          constructor
          · rintro ⟨changes, same, rfl⟩
            exact ⟨change :: changes, by simp [same], rfl⟩
          · rintro ⟨changes, same, rfl⟩
            cases changes with
            | nil => simp at same
            | cons head tail =>
                obtain ⟨equal, later⟩ := List.cons_eq_cons.mp same
                cases equal
                exact ⟨tail, later, rfl⟩

/-- The first occurrence that wants what it cannot have is the one to be reported. -/
theorem carryOut_error (occurrences : List Occurrence) (gathered : Update) (error : Error) :
    carryOut occurrences gathered = .error error ↔ ∃ first,
      occurrences.find? (fun occurrence => occurrence.node.wanted?.isNone) = some first ∧
      error = .unsupportedUpdateValue first.path := by
  induction occurrences generalizing gathered with
  | nil => simp [carryOut]
  | cons head tail ih =>
      cases wish : head.node.wanted? with
      | none =>
          simp [carryOut, Node.change, wish, Except.map, Except.bind, Occurrence.path, eq_comm]
      | some change => simp [carryOut, Node.change, wish, Except.map, Except.bind, ih]

namespace Node

/-! ## One level of both traversals -/

theorem change_exact (node : Node) (intent : Intent) (carried : node.intent? = some intent)
    (built : node.place.built = true) :
    intent.change? node.isList node.place.path node.place.path =
      if node.hasOperation then some node.change else none := by
  obtain ⟨condition, operation, payload⟩ := intent
  have path : node.place.documentPath = some node.place.path := by
    simp [Placement.documentPath, built]
  simp only [Intent.change?, hasOperation, change, wanted?, path, carried, Option.any_some,
    Intent.hasOperation]
  cases operation <;> cases payload <;> cases node.isList <;> rfl

theorem addChanges_level (node : Node) (gathered : Update) (built : node.place.built = true)
    (refers : node.place.reference .gatherUpdates = .ok node.place.path) :
    node.outline.addChanges gathered =
      if node.hasOperation then node.change.map gathered.push
      else addChangesBelow (node.visited.map outline) gathered := by
  cases carried : node.intent? with
  | some intent =>
      rw [outline_branch node intent carried, Outline.addChanges, refers]
      simp only [bind, Except.bind, change_exact node intent carried built]
      cases node.hasOperation <;> rfl
  | none =>
      cases node with
      | key => rfl
      | «attribute» => simp [intent?] at carried
      | list => simp [intent?] at carried

theorem addShadowed_level (node : Node) (covered : Bool) (paths : List Path) :
    node.outline.addShadowed covered paths =
      addShadowedBelow (covered || node.hasOperation) (node.visited.map outline)
        (if covered && node.hasOperation then paths ++ [node.place.path] else paths) := by
  cases carried : node.intent? with
  | some intent =>
      rw [outline_branch node intent carried, Outline.addShadowed]
      simp only [hasOperation, carried, Option.any_some]
  | none =>
      cases node with
      | key => simp [outline, Outline.addShadowed, visited, hasOperation, intent?, addShadowedBelow]
      | «attribute» => simp [intent?] at carried
      | list => simp [intent?] at carried

/-! ## All of both traversals -/

theorem exposed_eq : Occurrence.exposed = Occurrence.outermost hasOperation := rfl

theorem addChangesBelow_parts (part : Node → List Occurrence) (nodes : List Node)
    (members : ∀ node ∈ nodes, ∀ gathered,
      node.outline.addChanges gathered = carryOut (part node) gathered) (gathered : Update) :
    addChangesBelow (nodes.map outline) gathered = carryOut (nodes.flatMap part) gathered := by
  induction nodes generalizing gathered with
  | nil => rfl
  | cons first rest ih =>
      obtain ⟨head, tail⟩ := List.forall_mem_cons.mp members
      rw [List.map_cons, addChangesBelow, List.flatMap_cons, carryOut_append, head]
      apply congrArg (Except.bind _)
      funext next
      exact ih tail next

theorem addShadowedBelow_parts (covered : Bool) (part : Node → List Path) (nodes : List Node)
    (members : ∀ node ∈ nodes, ∀ paths,
      node.outline.addShadowed covered paths = paths ++ part node) (paths : List Path) :
    addShadowedBelow covered (nodes.map outline) paths = paths ++ nodes.flatMap part := by
  induction nodes generalizing paths with
  | nil => simp [addShadowedBelow]
  | cons first rest ih =>
      obtain ⟨head, tail⟩ := List.forall_mem_cons.mp members
      rw [List.map_cons, addShadowedBelow, head, ih tail, List.flatMap_cons, List.append_assoc]

/-- The update gathers the changes of the exposed operations in order, up to the first refusal. -/
theorem addChanges_exposed (above : List Node) (node : Node) (sound : node.Everywhere Sound)
    (built : node.place.built = true) (free : above.any hasOperation = false) (gathered : Update) :
    node.outline.addChanges gathered =
      carryOut ((node.walk above).filter Occurrence.exposed) gathered := by
  induction node using stored_induction generalizing above gathered with
  | step node ih =>
      have refers := node.place.reference_of_handle .gatherUpdates built (sound.here.handle built)
      rw [addChanges_level node gathered built refers]
      cases operates : node.hasOperation with
      | true =>
          rw [exposed_eq, outermost_of_chosen hasOperation above node operates free]
          simp only [↓reduceIte, carryOut]
          cases node.change <;> rfl
      | false =>
          rw [exposed_eq, outermost_of_other hasOperation above node operates]
          simp only [Bool.false_eq_true, ↓reduceIte]
          apply addChangesBelow_parts
          intro child visited gathered
          have stored := visited_stored node child visited
          have seated := sound.here.seated built child stored
          have below : (node :: above).any hasOperation = false := by simp [operates, free]
          exact ih child stored (node :: above) (sound.deeper child stored) seated.built below
            gathered

/-- The flag says whether an operation was passed, so just the superseded ones are reported. -/
theorem addShadowed_superseded (above : List Node) (node : Node) (paths : List Path) :
    node.outline.addShadowed (above.any hasOperation) paths =
      paths ++ ((node.walk above).filter Occurrence.superseded).map Occurrence.path := by
  induction node using stored_induction generalizing above paths with
  | step node ih =>
      -- The flag below this node is again whether an operation stands above.
      have flag :
          (above.any hasOperation || node.hasOperation) = (node :: above).any hasOperation := by
        rw [List.any_cons, Bool.or_comm]
      let part (child : Node) :=
        ((child.walk (node :: above)).filter Occurrence.superseded).map Occurrence.path
      have members : ∀ child ∈ node.visited, ∀ paths,
          child.outline.addShadowed ((node :: above).any hasOperation) paths =
            paths ++ part child :=
        fun child visited => ih child (visited_stored node child visited) (node :: above)
      rw [addShadowed_level, flag, addShadowedBelow_parts _ part node.visited members, walk_eq,
        List.filter_cons, List.filter_flatMap]
      cases operates : node.hasOperation <;> cases covered : above.any hasOperation <;>
        simp [part, Occurrence.superseded, Occurrence.operates, Occurrence.covered, Occurrence.path,
          operates, covered, List.map_flatMap]

theorem operations_exposed (node : Node) :
    (node.operations.filter fun occurrence => !occurrence.covered) =
      (node.walk []).filter Occurrence.exposed :=
  List.filter_filter

theorem operations_superseded (node : Node) :
    node.operations.filter Occurrence.covered = (node.walk []).filter Occurrence.superseded :=
  List.filter_filter

theorem addChanges_operations (node : Node) (sound : node.Everywhere Sound)
    (built : node.place.built = true) (gathered : Update) :
    node.addChanges (some gathered) =
      carryOut (node.operations.filter fun occurrence => !occurrence.covered) gathered := by
  have refers := node.place.reference_of_handle .gatherUpdates built (sound.here.handle built)
  rw [operations_exposed, ← addChanges_exposed [] node sound built rfl gathered, addChanges,
    Placement.require, refers]
  rfl

theorem addShadowed_operations (node : Node) (paths : List Path) :
    node.addShadowed false paths =
      paths ++ (node.operations.filter Occurrence.covered).map Occurrence.path := by
  rw [operations_superseded]
  exact addShadowed_superseded [] node paths

/-- Each operation below a built node is accounted for: with none above it as one change of the
update, otherwise as one reported path, and both in the order of the traversal. The changes of each
clause follow those that were gathered before. -/
theorem operations_accounted (tree : Node) (reachable : tree.Reachable) (route : Route)
    (node : Node) (found : tree.get? route = some node) (built : node.place.built = true) :
    ∃ reported,
      (node.operations.filter Occurrence.covered).map Occurrence.path? = reported.map some ∧
      (∀ paths, node.addShadowed false paths = paths ++ reported) ∧
      ∀ gathered update, node.addChanges (some gathered) = .ok update → ∃ changes,
        (node.operations.filter fun occurrence => !occurrence.covered).map
          (fun occurrence => occurrence.node.wanted?) = changes.map some ∧
        update = gathered.pushAll changes ∧
        (∀ clause : Clause, update.changesIn clause =
          gathered.changesIn clause ++ clause.select changes) ∧
        changes.length + reported.length = node.operations.length := by
  have sound := (reachable_sound tree reachable).at_route route node found
  have walked : ∀ occurrence ∈ node.operations, occurrence.node.place.built = true := by
    intro occurrence member
    exact walk_built [] node sound built occurrence (List.mem_of_mem_filter member)
  refine ⟨(node.operations.filter Occurrence.covered).map Occurrence.path, ?_,
    addShadowed_operations node, fun gathered update success => ?_⟩
  · apply Occurrence.path_of_built
    exact fun occurrence member => walked occurrence (List.mem_of_mem_filter member)
  · rw [addChanges_operations node sound built, carryOut_ok] at success
    obtain ⟨changes, same, rfl⟩ := success
    refine ⟨changes, same, rfl, gathered.changesIn_pushAll changes, ?_⟩
    have lengths := congrArg List.length same
    -- Neither both nor neither: the two parts together are as many as the operations.
    have parts := (List.filter_append_perm Occurrence.covered node.operations).length_eq
    simp only [List.length_map, List.length_append] at lengths parts ⊢
    omega

/-- A person of whom a phone number that was declared twice is to be set, the one between removed,
and the bank replaced although its account number is to be removed as well. -/
def marking : List (Route × Step) :=
  [([.child 1], .declare [10, 2, 10]), ([], .build .asStored .root),
    ([.child 1, .element 10], .setUpdate .set (.literal (.string "555"))),
    ([.child 1, .element 2], .setUpdate .remove .empty),
    ([.child 2], .setUpdate .set .empty),
    ([.child 2, .child 0], .setUpdate .remove .empty)]

def marked : Node := (Shape.person.fresh.run? marking).getD Shape.person.fresh

theorem marked_reachable : marked.Reachable :=
  .run marking Shape.person.fresh marked (.fresh _ Shape.person.fresh_declared) rfl

theorem marked_operations_accounted :
    marked.addShadowed false [] = [⟨"bank.number"⟩] ∧
      ∃ changes, marked.addChanges (some .empty) = .ok (Update.ofChanges changes) ∧
        Clause.remove.select changes = [.remove ⟨"phones[2]"⟩] ∧
        changes.length + 1 = marked.operations.length := by
  obtain ⟨reported, _, shadowed, applied⟩ :=
    operations_accounted marked marked_reachable [] marked rfl rfl
  have path : marked.addShadowed false [] = [⟨"bank.number"⟩] := rfl
  have gathered : marked.addChanges (some .empty) = .ok ⟨[], [], [⟨"phones[2]"⟩],
      [(⟨"phones[10]"⟩, .literal (.string "555")), (⟨"phones[10]"⟩, .literal (.string "555")),
        (⟨"bank"⟩, .literal (.null true))]⟩ := rfl
  obtain ⟨changes, _, same, held, count⟩ := applied _ _ gathered
  have single : reported = [⟨"bank.number"⟩] := (shadowed []).symm.trans path
  exact ⟨path, changes, gathered.trans (congrArg _ same), (held .remove).symm,
    by rw [← count, single]; rfl⟩

/-- An operation stands somewhere below another one. -/
def NestsOperations (tree : Node) : Prop :=
  ∃ upper lower outer inner, lower ≠ [] ∧ tree.get? upper = some outer ∧
    outer.get? lower = some inner ∧ outer.hasOperation = true ∧ inner.hasOperation = true

theorem nestsOperations_iff (tree : Node) (sound : tree.Everywhere Sound) :
    tree.NestsOperations ↔ ∃ occurrence ∈ tree.operations, occurrence.covered = true := by
  constructor
  · rintro ⟨upper, lower, outer, inner, proper, reached, inside, outerOperates, innerOperates⟩
    obtain ⟨occurrence, member, rfl, above⟩ :=
      (walk_below tree sound inner outer).mpr ⟨upper, lower, proper, reached, inside⟩
    exact ⟨occurrence, List.mem_filter.mpr ⟨member, innerOperates⟩,
      List.any_eq_true.mpr ⟨outer, above, outerOperates⟩⟩
  · rintro ⟨occurrence, member, covered⟩
    obtain ⟨walked, operates⟩ := List.mem_filter.mp member
    obtain ⟨outer, above, outerOperates⟩ := List.any_eq_true.mp covered
    obtain ⟨upper, lower, proper, reached, inside⟩ :=
      (walk_below tree sound occurrence.node outer).mp ⟨occurrence, walked, rfl, above⟩
    exact ⟨upper, lower, outer, occurrence.node, proper, reached, inside, outerOperates, operates⟩

end Node

/-! ## Strict and permissive updates -/

namespace Item

def strictly (strict : Bool) (item : Item) : Item := { item with settings := ⟨strict⟩ }

theorem update_eq (item : Item) (built : item.isBuilt = true) (strict : Bool) :
    (item.strictly strict).update = (item.root.addChanges (some .empty)).bind fun update =>
      match strict, (item.root.operations.filter Occurrence.covered).map Occurrence.path with
      | true, path :: _ => .error (.supersededUpdate path)
      | _, _ => .ok update := by
  have required : (item.strictly strict).require .updateItem = .ok () := if_pos built
  have shadowed := Node.addShadowed_operations item.root []
  rw [List.nil_append] at shadowed
  rw [update, required, ← shadowed]
  rfl

theorem permissive_update_eq (item : Item) (built : item.isBuilt = true) :
    (item.strictly false).update = item.root.addChanges (some .empty) := by
  rw [update_eq item built false]
  cases item.root.addChanges (some .empty) <;> rfl

theorem strict_update_flat (item : Item) (built : item.isBuilt = true)
    (flat : item.root.operations.filter Occurrence.covered = []) :
    (item.strictly true).update = (item.strictly false).update := by
  rw [update_eq item built true, permissive_update_eq item built, flat]
  cases item.root.addChanges (some .empty) <;> rfl

theorem strict_update_nested (item : Item) (built : item.isBuilt = true) (first : Occurrence)
    (rest : List Occurrence)
    (nested : item.root.operations.filter Occurrence.covered = first :: rest) :
    (item.strictly true).update =
      (item.strictly false).update.bind fun _ => .error (.supersededUpdate first.path) := by
  rw [update_eq item built true, permissive_update_eq item built, nested]
  rfl

/-- Strict updates differ from permissive ones only where an operation stands below another: there
they are refused, at the first such operation that a traversal meets. So a strict update has one
change for each operation, and in each clause those of the clause, in the order of the traversal. -/
theorem strict_update_exact (item : Item) (reachable : item.root.Reachable)
    (built : item.isBuilt = true) :
    (∀ error, (item.strictly false).update = .error error →
      (item.strictly true).update = .error error) ∧
    (∀ update, (item.strictly false).update = .ok update → ¬ item.root.NestsOperations →
      (item.strictly true).update = .ok update) ∧
    (∀ update, (item.strictly false).update = .ok update → item.root.NestsOperations →
      ∃ first path, item.root.operations.find? Occurrence.covered = some first ∧
        first.path? = some path ∧
        (item.strictly true).update = .error (.supersededUpdate path)) ∧
    ∀ update, (item.strictly true).update = .ok update → ∃ changes,
      item.root.operations.map (fun occurrence => occurrence.node.wanted?) = changes.map some ∧
      update = Update.ofChanges changes ∧
      ∀ clause : Clause, update.changesIn clause = clause.select changes := by
  have sound := Node.reachable_sound item.root reachable
  have nests := Node.nestsOperations_iff item.root sound
  refine ⟨fun error failed => ?_, fun update success flat => ?_, fun update success nested => ?_,
    fun update success => ?_⟩
  · cases shadowed : item.root.operations.filter Occurrence.covered with
    | nil => exact (strict_update_flat item built shadowed).trans failed
    | cons first rest => rw [strict_update_nested item built first rest shadowed, failed]; rfl
  · have none : item.root.operations.filter Occurrence.covered = [] := by
      apply List.filter_eq_nil_iff.mpr
      exact fun occurrence member covered => flat (nests.mpr ⟨occurrence, member, covered⟩)
    exact (strict_update_flat item built none).trans success
  · obtain ⟨occurrence, member, covered⟩ := nests.mp nested
    cases shadowed : item.root.operations.filter Occurrence.covered with
    | nil => exact absurd covered (List.filter_eq_nil_iff.mp shadowed occurrence member)
    | cons first rest =>
        have found : item.root.operations.find? Occurrence.covered = some first := by
          rw [← List.head?_filter, shadowed]
          rfl
        have met := List.mem_of_mem_filter (List.mem_of_find?_eq_some found)
        have firstBuilt := Node.walk_built [] item.root sound built first met
        refine ⟨first, first.path, found, if_pos firstBuilt, ?_⟩
        rw [strict_update_nested item built first rest shadowed, success]
        rfl
  · cases shadowed : item.root.operations.filter Occurrence.covered with
    | cons first rest =>
        rw [strict_update_nested item built first rest shadowed] at success
        cases permissive : (item.strictly false).update <;>
          simp [permissive, Except.bind] at success
    | nil =>
        have all : (item.root.operations.filter fun occurrence => !occurrence.covered) =
            item.root.operations := by
          apply List.filter_eq_self.mpr
          intro occurrence member
          simpa using List.filter_eq_nil_iff.mp shadowed occurrence member
        rw [strict_update_flat item built shadowed, permissive_update_eq item built,
          Node.addChanges_operations item.root sound built, all] at success
        obtain ⟨changes, same, rfl⟩ := (carryOut_ok _ _ _).mp success
        exact ⟨changes, same, rfl, Update.changesIn_ofChanges changes⟩

theorem marked_strict_update_refused :
    let item : Item := ⟨"Person", .permissive, Node.marked⟩
    item.root.NestsOperations ∧ (∃ update, (item.strictly false).update = .ok update) ∧
      (item.strictly true).update = .error (.supersededUpdate ⟨"bank.number"⟩) := by
  intro item
  have nested : item.root.NestsOperations :=
    ⟨[.child 2], [.child 0], _, _, List.cons_ne_nil _ _, rfl, rfl, rfl, rfl⟩
  obtain ⟨_, _, refused, _⟩ := strict_update_exact item Node.marked_reachable rfl
  obtain ⟨first, path, found, named, strict⟩ := refused _ rfl nested
  have located :
      (item.root.operations.find? Occurrence.covered).bind Occurrence.path? = some path := by
    rw [found]
    exact named
  have same : some (⟨"bank.number"⟩ : Path) = some path := located
  exact ⟨nested, ⟨_, rfl⟩, Option.some.inj same ▸ strict⟩

end Item

end ItemExpressions

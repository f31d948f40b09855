import ItemExpressions.Proofs.ProjectionGathering
import ItemExpressions.Proofs.RoutePaths
import ItemExpressions.Proofs.UpdateAccounting

/-!
Paths that do not overlap. In a tree with plain and distinct names, what is met right below a node
is one step further down than the node, and in each case another step. What is met below two
siblings therefore stays apart. A traversal that goes no further than the outermost nodes finds
paths that reach all that was chosen without reaching into each other: so it is with the paths of a
projection, and with the targets of an update.
-/

namespace ItemExpressions

/-! ## Targets of updates -/

def Change.target : Change → Path
  | .add path _ | .delete path _ | .remove path | .set path _ => path

namespace Update

/-- What the changes of all clauses are aimed at. -/
def targets (update : Update) : List Path :=
  update.additions.map Prod.fst ++ update.deletions.map Prod.fst ++ update.removals ++
    update.assignments.map Prod.fst

theorem targets_push (update : Update) (change : Change) :
    (update.push change).targets.Perm (update.targets ++ [change.target]) := by
  apply List.perm_iff_count.mpr
  intro path
  cases change <;>
    simp only [push, targets, Change.target, List.map_append, List.map_cons, List.map_nil,
      List.count_append] <;>
    omega

theorem targets_pushAll (update : Update) (changes : List Change) :
    (update.pushAll changes).targets.Perm (update.targets ++ changes.map Change.target) := by
  induction changes generalizing update with
  | nil => simp [pushAll]
  | cons change rest ih =>
      have first := (update.targets_push change).append_right (rest.map Change.target)
      refine (ih (update.push change)).trans ?_
      simpa using first

end Update

theorem selectAt_map_of {α β : Type} (indices : List Nat) (members : List (Nat × α)) (value : α → β)
    (expected : Nat → β) (each : ∀ index ∈ indices, ∃ member,
      members.lookup index = some member ∧ value member = expected index) :
    (selectAt indices members).map value = indices.map expected := by
  rw [selectAt, List.map_filterMap, ← List.filterMap_eq_map]
  apply List.filterMap_congr
  intro index present
  obtain ⟨member, found, same⟩ := each index present
  simp [found, same]

namespace Node

/-! ## Forks -/

/-- What a traversal meets right below the node is one step further down, each by another step. -/
structure Forks (node : Node) : Prop where
  deeper : ∀ child ∈ node.visited, ∃ segment, child.address = node.address ++ [segment]
  apart : (node.visited.map address).Nodup

def ForksThroughout (node : Node) : Prop :=
  ∀ route inner, node.get? route = some inner → inner.Forks

theorem ForksThroughout.below {node child : Node} (forks : node.ForksThroughout)
    (member : child ∈ node.visited) : child.ForksThroughout := by
  obtain ⟨hop, entered⟩ := visited_enter node child member
  intro route inner found
  exact forks (hop :: route) inner (by simp [get?, entered, found])

theorem walk_extends (above : List Node) (node : Node) (forks : node.ForksThroughout) :
    ∀ occurrence ∈ node.walk above, node.address <+: occurrence.path.address := by
  induction node using stored_induction generalizing above with
  | step node ih =>
      intro occurrence member
      rw [walk_eq] at member
      rcases List.mem_cons.mp member with here | deeper
      · subst here
        exact List.prefix_refl node.address
      · obtain ⟨child, visited, inside⟩ := List.mem_flatMap.mp deeper
        obtain ⟨segment, step⟩ := (forks [] node rfl).deeper child visited
        have further := ih child (visited_stored node child visited) (node :: above)
          (forks.below visited) occurrence inside
        rw [step] at further
        exact (List.prefix_append node.address [segment]).trans further

/-- What is met below two different members of a fork does not overlap. -/
theorem Forks.disjoint {node left right : Node} (forks : node.Forks) (leftMet : left ∈ node.visited)
    (rightMet : right ∈ node.visited) (differ : left.address ≠ right.address)
    {first second : Path} (below : left.address <+: first.address)
    (beside : right.address <+: second.address) : ¬ first.Overlaps second := by
  obtain ⟨leftStep, leftAddress⟩ := forks.deeper left leftMet
  obtain ⟨rightStep, rightAddress⟩ := forks.deeper right rightMet
  have even : left.address.length = right.address.length := by simp [leftAddress, rightAddress]
  -- An overlap would put both members on one way down, and equally far.
  have meet (address : List Segment) (one : left.address <+: address)
      (other : right.address <+: address) : left.address = right.address :=
    (List.prefix_of_prefix_length_le one other (Nat.le_of_eq even)).eq_of_length even
  rintro (inside | inside)
  · exact differ (meet second.address (below.trans inside) beside)
  · exact differ (meet first.address below (beside.trans inside))

theorem outermost_disjoint (chosen : Node → Bool) (above : List Node) (node : Node)
    (forks : node.ForksThroughout) (free : above.any chosen = false) :
    ((node.walk above).filter (Occurrence.outermost chosen)).Pairwise fun first second =>
      ¬ first.path.Overlaps second.path := by
  induction node using stored_induction generalizing above with
  | step node ih =>
      cases here : chosen node with
      | true =>
          rw [outermost_of_chosen chosen above node here free]
          exact List.pairwise_singleton _ _
      | false =>
          rw [outermost_of_other chosen above node here, List.pairwise_flatMap]
          constructor
          · intro child visited
            have below : (node :: above).any chosen = false := by simp [here, free]
            exact ih child (visited_stored node child visited) (node :: above)
              (forks.below visited) below
          · have fork := forks [] node rfl
            have apart : node.visited.Pairwise fun left right => left.address ≠ right.address :=
              List.pairwise_map.mp fork.apart
            refine apart.imp_of_mem ?_
            intro left right leftMet rightMet differ first firstMet second secondMet
            exact fork.disjoint leftMet rightMet differ
              (walk_extends _ _ (forks.below leftMet) first (List.mem_of_mem_filter firstMet))
              (walk_extends _ _ (forks.below rightMet) second (List.mem_of_mem_filter secondMet))

/-- No chosen node is lost: it is one of the outermost, or inside of one. -/
theorem outermost_covers (chosen : Node → Bool) (above : List Node) (node : Node)
    (forks : node.ForksThroughout) (free : above.any chosen = false) :
    ∀ occurrence ∈ node.walk above, chosen occurrence.node = true →
      ∃ outer ∈ (node.walk above).filter (Occurrence.outermost chosen),
        outer.path.address <+: occurrence.path.address := by
  induction node using stored_induction generalizing above with
  | step node ih =>
      intro occurrence member wanted
      cases here : chosen node with
      | true =>
          rw [outermost_of_chosen chosen above node here free]
          exact ⟨_, List.mem_singleton_self _, walk_extends above node forks occurrence member⟩
      | false =>
          rw [walk_eq] at member
          rcases List.mem_cons.mp member with same | deeper
          · subst same
            rw [here] at wanted
            cases wanted
          · obtain ⟨child, visited, inside⟩ := List.mem_flatMap.mp deeper
            have below : (node :: above).any chosen = false := by simp [here, free]
            obtain ⟨outer, outermost, reaches⟩ := ih child (visited_stored node child visited)
              (node :: above) (forks.below visited) below occurrence inside wanted
            rw [outermost_of_other chosen above node here]
            exact ⟨outer, List.mem_flatMap.mpr ⟨child, visited, outermost⟩, reaches⟩

theorem outermost_reaches (chosen : Node → Bool) (tree : Node) (sound : tree.Everywhere Sound)
    (forks : tree.ForksThroughout) (route : Route) (node : Node)
    (found : tree.get? route = some node) (wanted : chosen node = true) :
    ∃ path ∈ (tree.outermost chosen).map Occurrence.path, path.address <+: node.address := by
  have met := (mem_walk [] tree sound ⟨node, tree.trail route⟩).mpr
    ⟨route, found, (List.append_nil _).symm⟩
  obtain ⟨outer, outermost, reaches⟩ := outermost_covers chosen [] tree forks rfl _ met wanted
  exact ⟨outer.path, List.mem_map_of_mem outermost, reaches⟩

/-! ## Named trees -/

/-- Children have plain names, each another. Elements are named by their index, and each index was
declared once. -/
structure WellNamed (node : Node) : Prop where
  plain : ∀ child ∈ node.children, Path.Plain child.name
  distinct : (node.children.map name).Nodup
  indexed : ∀ make, node.make? = some make → ∀ index, (make index).name = Shape.indexName index
  once : node.declared.Nodup

theorem WellNamed.attribute (place : Placement) (intent : Intent) (children : List Node)
    (plain : ∀ child ∈ children, Path.Plain child.name)
    (distinct : (children.map name).Nodup) :
    (Node.attribute place intent children).WellNamed where
  plain := plain
  distinct := distinct
  indexed _ factory := by cases factory
  once := List.nodup_nil

theorem WellNamed.list (place : Placement) (intent : Intent) (make : Nat → Node)
    (declared : List Nat) (elements : List (Nat × Node))
    (indexed : ∀ index, (make index).name = Shape.indexName index) (once : declared.Nodup) :
    (Node.list place intent make declared elements).WellNamed where
  plain := List.forall_mem_nil _
  distinct := List.nodup_nil
  indexed _ factory := by
    cases factory
    exact indexed
  once := once

theorem WellNamed.key (place : Placement) (condition : Option KeyCondition) :
    (Node.key place condition).WellNamed where
  plain := List.forall_mem_nil _
  distinct := List.nodup_nil
  indexed _ factory := by cases factory
  once := List.nodup_nil

theorem WellNamed.plainly {node : Node} (names : node.WellNamed) : node.PlainlyNamed :=
  ⟨names.plain, names.indexed⟩

/-- No two of the members that a traversal goes on to are reached by the same step. -/
theorem visited_apart (node : Node) (sound : node.Sound) (names : node.WellNamed)
    (step : ∀ hop child, node.enter? hop = some child →
      child.address = node.address ++ [segment hop child]) :
    (node.visited.map address).Nodup := by
  cases node with
  | «attribute» place intent children =>
      have steps : children.map address =
          (children.map name).map fun name => place.path.address ++ [.field name] := by
        rw [List.map_map]
        apply List.map_congr_left
        intro child member
        obtain ⟨position, entered⟩ := List.mem_iff_getElem?.mp member
        exact step (.child position) child entered
      rw [visited, steps]
      exact names.distinct.map fun first second same => by simpa using same
  | list place intent make declared elements =>
      have steps : (selectAt declared elements).map address =
          declared.map fun index => place.path.address ++ [.index index] := by
        apply selectAt_map_of
        intro index member
        obtain ⟨entry, stored, same⟩ := List.mem_map.mp ((sound.declared index).mpr member)
        have entered := lookup_of_mem index entry.2 elements sound.distinct (same ▸ stored)
        exact ⟨entry.2, entered, step (.element index) entry.2 entered⟩
      rw [visited, steps]
      exact names.once.map fun first second same => by simpa using same
  | key => exact List.nodup_nil

theorem forks_throughout (tree : Node) (reachable : tree.Reachable)
    (named : tree.Everywhere WellNamed) (built : tree.place.built = true)
    (regular : tree.place.path.Regular) : tree.ForksThroughout := by
  intro route node found
  have plain := named.imp fun _ names => names.plainly
  obtain ⟨nodeBuilt, nodeRegular⟩ :=
    regular_at_route tree reachable plain built regular route node found
  have sound := ((reachable_sound tree reachable).at_route route node found).here
  have names := (named.at_route route node found).here
  have step (hop : Hop) (child : Node) (entered : node.enter? hop = some child) :
      child.address = node.address ++ [segment hop child] :=
    (enter_address tree reachable plain route node child hop found nodeBuilt nodeRegular entered).2
  constructor
  · intro child visited
    obtain ⟨hop, entered⟩ := visited_enter node child visited
    exact ⟨segment hop child, step hop child entered⟩
  · exact visited_apart node sound names step

theorem wanted_target (node : Node) (change : Change) (wanted : node.wanted? = some change) :
    change.target = node.place.path := by
  simp only [wanted?, Option.bind_eq_bind, Option.bind_eq_some_iff] at wanted
  obtain ⟨path, placed, intent, carried, chosen⟩ := wanted
  have same : node.place.path = path := by
    cases latch : node.place.built <;> simp_all [Placement.documentPath]
  rw [same]
  obtain ⟨condition, operation, payload⟩ := intent
  cases operation <;> cases payload <;>
    grind [Payload.written?, Change.target]

theorem wanted_targets (occurrences : List Occurrence) (changes : List Change)
    (wanted : occurrences.map (fun occurrence => occurrence.node.wanted?) = changes.map some) :
    changes.map Change.target = occurrences.map Occurrence.path := by
  induction occurrences generalizing changes with
  | nil =>
      cases changes with
      | nil => rfl
      | cons head tail => cases wanted
  | cons first rest ih =>
      cases changes with
      | nil => cases wanted
      | cons head tail =>
          obtain ⟨here, later⟩ := List.cons_eq_cons.mp wanted
          rw [List.map_cons, List.map_cons, ih tail later, wanted_target first.node head here,
            Occurrence.path]

/-- An update is aimed at the outermost operations, clause by clause. -/
theorem targets_outermost (node : Node) (sound : node.Everywhere Sound)
    (built : node.place.built = true) (update : Update)
    (done : node.addChanges (some .empty) = .ok update) :
    update.targets.Perm ((node.outermost hasOperation).map Occurrence.path) := by
  rw [addChanges_operations node sound built, operations_exposed, carryOut_ok] at done
  obtain ⟨changes, wanted, rfl⟩ := done
  have aimed := wanted_targets (node.outermost hasOperation) changes wanted
  rw [← aimed]
  exact Update.empty.targets_pushAll changes

end Node

namespace Item

/-- Items that were built as a whole, whatever was done to them before or afterwards. -/
inductive Completed : Item → Prop where
  | built (item after : Item) (visit : Visit) (reachable : item.root.Reachable)
      (unnamed : item.root.name = "") (done : item.build visit = (after, .ok ())) :
      Completed after
  | step (item after : Item) (route : Route) (step : Step) (answer : Except Error Unit)
      (completed : item.Completed) (done : item.performAt? route step = some (after, answer)) :
      Completed after

structure Rooted (item : Item) : Prop where
  reachable : item.root.Reachable
  built : item.isBuilt = true
  path : item.root.place.path = .root

theorem Completed.rooted {item : Item} (completed : item.Completed) : item.Rooted := by
  induction completed with
  | built item after visit reachable unnamed done =>
      have built := Node.build_sound visit item.root (Node.reachable_sound item.root reachable) []
        .root
      obtain ⟨rfl, success⟩ := Prod.mk.inj done
      have seated := built.seated success
      have name : (item.root.build visit [] .root).1.place.name = "" :=
        built.kept.name.trans unnamed
      refine ⟨.step item.root _ [] (.build visit .root) _ reachable rfl, seated.built, ?_⟩
      have path := seated.path
      rw [name] at path
      exact path
  | step item after route step answer _ done rooted =>
      obtain ⟨⟨root, answered⟩, performed, same⟩ := Option.map_eq_some_iff.mp done
      cases same
      have kept := (Node.step_sound item.root root route step answer
        (Node.reachable_sound item.root rooted.reachable) performed).2
      obtain ⟨built, path, _⟩ := kept.latched rooted.built
      exact ⟨.step item.root root route step answer rooted.reachable performed, built,
        path.trans rooted.path⟩

theorem Completed.run (steps : List (Route × Step)) (item : Item) (root : Node)
    (completed : item.Completed) (done : item.root.run? steps = some root) :
    Completed { item with root } := by
  induction steps generalizing item with
  | nil =>
      cases done
      exact completed
  | cons first rest ih =>
      obtain ⟨⟨next, answer⟩, performed, later⟩ := Option.bind_eq_some_iff.mp done
      have stepped :
          item.performAt? first.1 first.2 = some ({ item with root := next }, answer) := by
        rw [performAt?, performed]
        rfl
      exact ih { item with root := next } (.step item _ first.1 first.2 answer completed stepped)
        later

theorem update_gathered (item : Item) (built : item.isBuilt = true) (update : Update)
    (done : item.update = .ok update) : item.root.addChanges (some .empty) = .ok update := by
  have settled := update_eq item built item.settings.strictUpdates
  rw [show item.strictly item.settings.strictUpdates = item from rfl, done] at settled
  cases gathered : item.root.addChanges (some .empty) with
  | error error => rw [gathered] at settled; cases settled
  | ok others =>
      rw [gathered, Except.bind] at settled
      split at settled
      · cases settled
      · exact settled.symm

/-- In an item with plain and distinct names that was built as a whole, the paths of the projection
reach every marked node, and no two of them overlap; and so it is with the targets of an update and
the nodes that have an operation. -/
theorem gathered_paths_disjoint (item : Item) (completed : item.Completed)
    (named : item.root.Everywhere Node.WellNamed) :
    (∃ projection, item.projection = .ok projection ∧
      projection.paths.Pairwise (fun first second => ¬ first.Overlaps second) ∧
      ∀ route node, item.root.get? route = some node → node.isMarked = true →
        ∃ path ∈ projection.paths, path.address <+: node.address) ∧
    ∀ update, item.update = .ok update →
      update.targets.Pairwise (fun first second => ¬ first.Overlaps second) ∧
      ∀ route node, item.root.get? route = some node → node.hasOperation = true →
        ∃ path ∈ update.targets, path.address <+: node.address := by
  obtain ⟨reachable, built, path⟩ := completed.rooted
  have sound := Node.reachable_sound item.root reachable
  have forks := Node.forks_throughout item.root reachable named built (path ▸ Path.regular_root)
  have disjoint (chosen : Node → Bool) :
      ((item.root.outermost chosen).map Occurrence.path).Pairwise fun first second =>
        ¬ first.Overlaps second :=
    List.pairwise_map.mpr (Node.outermost_disjoint chosen [] item.root forks rfl)
  have covering (chosen : Node → Bool) := Node.outermost_reaches chosen item.root sound forks
  constructor
  · exact ⟨_, item.projection_eq reachable built, disjoint Node.isMarked, covering Node.isMarked⟩
  · intro update done
    have aimed := Node.targets_outermost item.root sound built update
      (item.update_gathered built update done)
    constructor
    · exact (aimed.pairwise_iff fun apart overlaps => apart overlaps.symm).mpr
        (disjoint Node.hasOperation)
    · intro route node found operates
      obtain ⟨path, member, reaches⟩ := covering Node.hasOperation route node found operates
      exact ⟨path, aimed.mem_iff.mpr member, reaches⟩

/-- A person with two phone numbers, built as a whole. -/
def listed : Item :=
  let declared := (Shape.person.fresh.run? [([.child 1], .declare [10, 2])]).getD Shape.person.fresh
  (Item.build .asStored ⟨"Person", .permissive, declared⟩).1

/-- One phone number is to be read and set, the other removed, and the bank account replaced and
read, although its number is to be removed and read as well. -/
def filing : List (Route × Step) :=
  [([.child 1, .element 10], .project),
    ([.child 1, .element 10], .setUpdate .set (.literal (.string "555"))),
    ([.child 1, .element 2], .setUpdate .remove .empty),
    ([.child 2], .project), ([.child 2], .setUpdate .set .empty),
    ([.child 2, .child 0], .project), ([.child 2, .child 0], .setUpdate .remove .empty)]

def filed : Item := { listed with root := (listed.root.run? filing).getD listed.root }

theorem listed_completed : listed.Completed := by
  have reachable := Node.Reachable.run [([.child 1], .declare [10, 2])] Shape.person.fresh _
    (.fresh _ Shape.person.fresh_declared) rfl
  exact .built ⟨"Person", .permissive, _⟩ listed .asStored reachable rfl rfl

theorem filed_completed : filed.Completed := listed_completed.run filing listed _ rfl

theorem filed_named : filed.root.Everywhere Node.WellNamed := by
  have leaf (place : Placement) (intent : Intent) :
      (Node.attribute place intent []).Everywhere Node.WellNamed :=
    .intro _ (Node.WellNamed.attribute place intent [] (List.forall_mem_nil _) List.nodup_nil)
      (List.forall_mem_nil _)
  have fields : ∀ name ∈ ["pk", "phones", "bank"], Path.Plain name := by decide
  have number : ∀ name ∈ ["number"], Path.Plain name := by decide
  refine .intro _ (Node.WellNamed.attribute _ _ _ (List.forall_mem_map.mp fields)
    (show ["pk", "phones", "bank"].Nodup by decide)) (List.forall_mem_cons.mpr
      ⟨?pk, List.forall_mem_cons.mpr ⟨?phones, List.forall_mem_singleton.mpr ?bank⟩⟩)
  case pk => exact .intro _ (Node.WellNamed.key _ _) (List.forall_mem_nil _)
  case phones =>
    exact .intro _ (Node.WellNamed.list _ _ _ _ _ (fun _ => rfl)
      (show [10, 2].Nodup by decide))
      (List.forall_mem_cons.mpr ⟨leaf _ _, List.forall_mem_singleton.mpr (leaf _ _)⟩)
  case bank =>
    exact .intro _ (Node.WellNamed.attribute _ _ _ (List.forall_mem_map.mp number)
      (List.nodup_singleton "number")) (List.forall_mem_singleton.mpr (leaf _ _))

theorem filed_paths_disjoint :
    (∃ projection, filed.projection = .ok projection ∧
      projection.paths = [⟨"phones[10]"⟩, ⟨"bank"⟩] ∧
      projection.paths.Pairwise fun first second => ¬ first.Overlaps second) ∧
    ∃ update, filed.update = .ok update ∧
      update.targets = [⟨"phones[2]"⟩, ⟨"phones[10]"⟩, ⟨"bank"⟩] ∧
      update.targets.Pairwise (fun first second => ¬ first.Overlaps second) ∧
      ∃ path ∈ update.targets, path.address <+: Path.address ⟨"bank.number"⟩ := by
  obtain ⟨⟨projection, gathered, apart, _⟩, updates⟩ :=
    gathered_paths_disjoint filed filed_completed filed_named
  have read : filed.projection = .ok ⟨[⟨"phones[10]"⟩, ⟨"bank"⟩]⟩ := rfl
  have changed : filed.update = .ok ⟨[], [], [⟨"phones[2]"⟩],
      [(⟨"phones[10]"⟩, .literal (.string "555")), (⟨"bank"⟩, .literal (.null true))]⟩ := rfl
  have listed : projection = ⟨[⟨"phones[10]"⟩, ⟨"bank"⟩]⟩ :=
    Except.ok.inj (gathered.symm.trans read)
  obtain ⟨aimedApart, covered⟩ := updates _ changed
  exact ⟨⟨projection, gathered, by rw [listed], apart⟩, _, changed, rfl, aimedApart,
    covered [.child 2, .child 0] _ rfl rfl⟩

end Item

end ItemExpressions

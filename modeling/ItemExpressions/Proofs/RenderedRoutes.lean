import ItemExpressions.Proofs.ItemOutcome
import ItemExpressions.Proofs.SpelledPaths

/-!
Routes in texts. Over any table, the path of a node is written as the route that leads to it. Nodes
at different routes are never written alike over one table, and where nothing but marks and
operations is wanted of the nodes below the root, there is nothing that could not be written.
-/

namespace ItemExpressions

/-! ## Drafts without flaws -/

/-- A draft is written if there is something in it, and no flaw. -/
theorem Draft.build_of_flawless (draft : Draft) (given : draft ≠ .empty)
    (flawless : ∀ slot, ∀ phrase ∈ draft.phrase slot, phrase.Flawless) :
    ∃ expression, draft.build = .ok expression := by
  cases built : draft.build with
  | ok expression => exact ⟨expression, rfl⟩
  | error fault =>
      have some : draft.phrases ≠ [] := fun none => given (draft.phrases_nil.mp none)
      obtain ⟨entry, member, flawed⟩ :=
        List.exists_of_findSome?_eq_some ((draft.build_error some fault).mp built)
      obtain ⟨slot, _, chosen⟩ := List.mem_filterMap.mp member
      obtain ⟨phrase, found, rfl⟩ := Option.map_eq_some_iff.mp chosen
      rw [phrase.fault_of_flawless (flawless slot phrase found)] at flawed
      cases flawed

theorem Projection.phrase_flawless (projection : Projection) (given : projection.isEmpty = false)
    (paths : ∀ path ∈ projection.paths, path.phrase.Flawless) : projection.phrase.Flawless := by
  rw [Projection.phrase, given]
  exact (Phrase.flawless_separated ", " _).mpr (List.forall_mem_map.mpr paths)

namespace Update

theorem phrase_flawless (update : Update) (given : update.isEmpty = false)
    (targets : ∀ path ∈ update.targets, path.phrase.Flawless)
    (operands : ∀ change ∈ update.assignments, change.2.phrase.Flawless) :
    update.phrase.Flawless := by
  simp only [Update.targets, List.forall_mem_append, List.forall_mem_map] at targets
  obtain ⟨⟨⟨added, deleted⟩, removed⟩, assigned⟩ := targets
  simp only [phrase, given, Bool.false_eq_true, if_false, Phrase.flawless_append, flawless_clause]
  refine ⟨⟨⟨fun change member => ?_, fun change member => ?_⟩, removed⟩, fun change member => ?_⟩
  · simp [valuePhrase, added change member]
  · simp [valuePhrase, deleted change member]
  · simp [assignmentPhrase, assigned change member, operands change member]

theorem assignments_pushAll (update : Update) (changes : List Change) :
    ∀ change ∈ (update.pushAll changes).assignments,
      change ∈ update.assignments ∨ .set change.1 change.2 ∈ changes := by
  induction changes generalizing update with
  | nil => exact fun change member => .inl member
  | cons first rest ih =>
      intro change member
      rcases ih (update.push first) change member with here | later
      · cases first with
        | add | delete | remove => exact .inl here
        | set path operand =>
            rcases List.mem_append.mp here with old | new
            · exact .inl old
            · rw [List.mem_singleton.mp new]
              exact .inr List.mem_cons_self
      · exact .inr (List.mem_cons_of_mem first later)

end Update

/-- There is no value, or one that is known as it stands. -/
def Payload.isPlain : Payload → Bool
  | .empty | .literal _ => true
  | .derived _ => false

namespace Node

theorem below_of_chosen (chosen : Node → Bool) (tree : Node) (free : chosen tree = false)
    (route : Route) (node : Node) (found : tree.get? route = some node)
    (wanted : chosen node = true) : route ≠ [] := by
  rintro rfl
  rw [← Option.some.inj found, free] at wanted
  cases wanted

/-- Where no value is derived, an operation can be carried out, and what is set is a literal. -/
theorem wanted_literal (node : Node) (built : node.place.built = true)
    (operates : node.hasOperation = true)
    (plain : ∀ intent, node.intent? = some intent → intent.payload.isPlain = true) :
    ∃ change, node.wanted? = some change ∧
      ∀ path operand, change = .set path operand → operand.phrase.Flawless := by
  obtain ⟨intent, carried, operating⟩ : ∃ intent, node.intent? = some intent ∧
      intent.hasOperation = true := by
    simpa [hasOperation, Option.any_eq_true] using operates
  have given := plain intent carried
  have placed : node.place.documentPath = some node.place.path := if_pos built
  obtain ⟨condition, operation, payload⟩ := intent
  simp only [wanted?, placed, carried, Option.bind_eq_bind, Option.bind_some]
  cases payload with
  | derived => cases given
  | empty | literal =>
      cases operation with
      | leave => cases operating
      | add | delete | remove => exact ⟨_, rfl, fun path operand same => by cases same⟩
      | set =>
          refine ⟨_, rfl, fun path operand same => ?_⟩
          cases same
          simp [Operand.phrase]

end Node

namespace Item

/-- Marks and operations are all that is wanted, of nodes below the root, and no value that is
written is derived. -/
structure Straightforward (item : Item) : Prop where
  permissive : item.settings.strictUpdates = false
  unconditioned : ∀ route node, item.root.get? route = some node → node.condition? = none
  /-- Only the keys right below the root have a part in key conditions. -/
  unrestricted : ∀ child ∈ item.root.children, child.keyCondition = none
  below : item.root.isMarked = false ∧ item.root.hasOperation = false
  plain : ∀ route node intent, item.root.get? route = some node → node.hasOperation = true →
    node.intent? = some intent → intent.payload.isPlain = true
  wanted : ∃ route node, item.root.get? route = some node ∧
    (node.isMarked = true ∨ node.hasOperation = true)

section Written

variable (item : Item) (completed : item.Completed) (fields : item.root.isList = false)
  (named : item.root.Everywhere Node.PlainlyNamed)

include completed fields named

theorem node_parted (route : Route) (node : Node) (found : item.root.get? route = some node)
    (below : route ≠ []) : node.place.built = true ∧ ∃ parts, node.place.path.Parted parts ∧
      parts ≠ [] ∧ parts.flatMap Part.segments = item.root.segments route := by
  obtain ⟨reachable, built, path⟩ := completed.rooted
  obtain ⟨nodeBuilt, parts, parted, steps⟩ :=
    Node.parted_at_route item.root reachable named built path fields route node found
  refine ⟨nodeBuilt, parts, parted, fun none => below ?_, steps⟩
  subst none
  exact (Node.segments_nil route item.root node found).mp steps.symm

theorem node_flawless (route : Route) (node : Node) (found : item.root.get? route = some node)
    (below : route ≠ []) : node.place.path.phrase.Flawless := by
  obtain ⟨_, parts, parted, given, _⟩ :=
    item.node_parted completed fields named route node found below
  exact parted.phrase_flawless given

/-- Where the root is not chosen, the paths of all that is chosen can be written. -/
theorem outermost_flawless (chosen : Node → Bool) (free : chosen item.root = false) :
    ∀ path ∈ (item.root.outermost chosen).map Occurrence.path, path.phrase.Flawless := by
  have sound := Node.reachable_sound item.root completed.rooted.reachable
  intro path member
  obtain ⟨occurrence, inside, rfl⟩ := List.mem_map.mp member
  obtain ⟨route, found, wanted, _⟩ :=
    (Node.mem_outermost chosen item.root sound occurrence.node).mp ⟨occurrence, inside, rfl⟩
  exact item.node_flawless completed fields named route occurrence.node found
    (Node.below_of_chosen chosen item.root free route occurrence.node found wanted)

/-- In a straightforward item, what is assigned can be written. -/
theorem assigned_flawless (simple : item.Straightforward) (update : Update)
    (updated : item.update = .ok update) :
    ∀ change ∈ update.assignments, change.2.phrase.Flawless := by
  obtain ⟨reachable, built, _⟩ := completed.rooted
  have sound := Node.reachable_sound item.root reachable
  have gathered := item.update_gathered built update updated
  rw [Node.addChanges_operations item.root sound built, Node.operations_exposed,
    carryOut_ok] at gathered
  obtain ⟨changes, wanted, rfl⟩ := gathered
  intro change member
  rcases Update.empty.assignments_pushAll changes change member with none | pushed
  · cases none
  have listed : some (Change.set change.1 change.2) ∈ changes.map some :=
    List.mem_map_of_mem pushed
  rw [← wanted] at listed
  obtain ⟨occurrence, inside, wish⟩ := List.mem_map.mp listed
  obtain ⟨route, found, operates, _⟩ :=
    (Node.mem_outermost Node.hasOperation item.root sound occurrence.node).mp
      ⟨occurrence, inside, rfl⟩
  have below := Node.below_of_chosen _ item.root simple.below.2 route occurrence.node found operates
  obtain ⟨other, same, literal⟩ := occurrence.node.wanted_literal
    (item.node_parted completed fields named route occurrence.node found below).1 operates
    fun intent => simple.plain route occurrence.node intent found operates
  cases wish.symm.trans same
  exact literal change.1 change.2 rfl

/-- In a straightforward item, no update is refused. -/
theorem update_ok (simple : item.Straightforward) : ∃ update, item.update = .ok update := by
  obtain ⟨reachable, built, _⟩ := completed.rooted
  cases updated : item.update with
  | ok update => exact ⟨update, rfl⟩
  | error error =>
      rcases item.update_error reachable built error updated with
        ⟨route, node, found, operates, refused, _⟩ | ⟨strict, _⟩
      · have below := Node.below_of_chosen _ item.root simple.below.2 route node found operates
        obtain ⟨change, wanted, _⟩ := node.wanted_literal
          (item.node_parted completed fields named route node found below).1 operates
          fun intent => simple.plain route node intent found operates
        rw [refused] at wanted
        cases wanted
      · rw [simple.permissive] at strict
        cases strict

/-- There is no flaw in what is drafted of a straightforward item. -/
theorem drafted_flawless (simple : item.Straightforward) (update : Update)
    (updated : item.update = .ok update) :
    ∀ slot, ∀ phrase ∈ (item.drafted update).phrase slot, phrase.Flawless := by
  obtain ⟨reachable, built, _⟩ := completed.rooted
  have sound := Node.reachable_sound item.root reachable
  have filled := item.drafted_filled update
  intro slot phrase member
  cases slot with
  | condition =>
      have none : Condition.conjunction item.root.conditions = none :=
        (Condition.conjunction_none _).mpr
          ((Node.conditions_nil item.root sound).mpr simple.unconditioned)
      simp [Draft.phrase, drafted, none] at member
  | filter => cases member
  | keyCondition =>
      have none : (item.root.children.flatMap fun child => child.keyCondition.toList) = [] := by
        simpa using simple.unrestricted
      simp [Draft.phrase, drafted, none] at member
  | projection =>
      obtain ⟨projection, given, rfl⟩ := Option.map_eq_some_iff.mp member
      refine projection.phrase_flawless (filled.projection projection given) ?_
      simp only [drafted, Option.ite_none_left_eq_some] at given
      rw [← Option.some.inj given.2]
      exact item.outermost_flawless completed fields named Node.isMarked simple.below.1
  | update =>
      obtain ⟨other, given, rfl⟩ := Option.map_eq_some_iff.mp member
      have some := filled.update other given
      simp only [drafted, Option.ite_none_left_eq_some] at given
      cases given.2
      have aimed := Node.targets_outermost item.root sound built update
        (item.update_gathered built update updated)
      have targets := item.outermost_flawless completed fields named Node.hasOperation
        simple.below.2
      exact update.phrase_flawless some (fun path target => targets path (aimed.mem_iff.mp target))
        (item.assigned_flawless completed fields named simple update updated)

theorem expression_ok (simple : item.Straightforward) :
    ∃ expression, item.expression = .ok expression := by
  obtain ⟨reachable, built, _⟩ := completed.rooted
  obtain ⟨update, updated⟩ := item.update_ok completed fields named simple
  have given : item.drafted update ≠ .empty := fun empty => by
    have idle := (item.drafted_empty reachable built update updated).mp empty
    obtain ⟨route, node, found, marked | operates⟩ := simple.wanted
    · rw [idle.unmarked route node found] at marked
      cases marked
    · rw [idle.unchanged route node found] at operates
      cases operates
  obtain ⟨expression, written⟩ := (item.drafted update).build_of_flawless given
    (item.drafted_flawless completed fields named simple update updated)
  refine ⟨expression, ?_⟩
  rw [Item.expression, item.draft_eq reachable built update updated]
  simp only [bind, Except.bind, written, Except.mapError]

end Written

/-- In an item with plain names that was built as a whole, each node below the root is written over
any table as the route to it, with a label for each field that stands for the name of the field.
Nodes at different routes are written differently over one table, in whatever order, and whatever is
written in between. An item that is straightforward can be written as a whole. -/
theorem routes_rendered (item : Item) (completed : item.Completed)
    (fields : item.root.isList = false) (named : item.root.Everywhere Node.PlainlyNamed) :
    (∀ route node, item.root.get? route = some node → route ≠ [] →
      ∃ path, (∀ action, node.place.reference action = .ok path) ∧
        ∀ table, ∃ after, path.phrase.write table =
            (.ok (Segment.spellAll after.labelOf (item.root.segments route)), after) ∧
          ∀ name, .field name ∈ item.root.segments route →
            after.nameEntries.lookup (after.labelOf name) = some name) ∧
    (∀ route other first second, item.root.get? route = some first →
      item.root.get? other = some second → route ≠ [] → other ≠ [] →
      item.root.segments route ≠ item.root.segments other →
      ∀ table later : Placeholders, later.Extends (first.place.path.phrase.write table).2 →
        (first.place.path.phrase.write table).1 ≠ (second.place.path.phrase.write later).1) ∧
    (item.Straightforward → ∃ expression, item.expression = .ok expression) := by
  have parted := item.node_parted completed fields named
  refine ⟨fun route node found below => ?_, ?_, item.expression_ok completed fields named⟩
  · obtain ⟨built, parts, written, given, steps⟩ := parted route node found below
    have sound := Node.reachable_sound item.root completed.rooted.reachable
    have handle := (sound.at_route route node found).here.handle built
    refine ⟨node.place.path, fun action => node.place.reference_of_handle action built handle,
      fun table => ⟨(node.place.path.phrase.write table).2, ?_, fun name member => ?_⟩⟩
    · rw [← steps]
      exact Prod.ext (written.written given table).1 rfl
    · rw [← steps] at member
      exact Placeholders.labelOf_bound _ name ((written.written given table).2 name member)
  · intro route other first second found met below under apart table later grown same
    obtain ⟨_, parts, written, given, steps⟩ := parted route first found below
    obtain ⟨_, others, spelled, more, further⟩ := parted other second met under
    have alike := written.same_steps given spelled more table later grown same
    exact apart (steps.symm.trans (alike.trans further))

theorem filed_straightforward : filed.Straightforward := by
  have sound := Node.reachable_sound filed.root filed_completed.rooted.reachable
  refine ⟨rfl, ?_, ?_, ⟨rfl, rfl⟩, ?_, [.child 1, .element 10], _, rfl, .inl rfl⟩
  · exact (Node.conditions_nil filed.root sound).mp rfl
  · decide
  · intro route node intent found _ carried
    have walked : (filed.root.walk []).all (fun occurrence =>
        occurrence.node.intent?.all fun intent => intent.payload.isPlain) = true := rfl
    have occurs := (Node.mem_walk [] filed.root sound ⟨node, filed.root.trail route⟩).mpr
      ⟨route, found, (List.append_nil _).symm⟩
    exact (Option.all_eq_true _ _).mp (List.all_eq_true.mp walked _ occurs) intent carried

/-- One phone number is written behind the label of the list, over the table of names that were met
before it, and the other one over the table that this leaves. -/
theorem filed_routes_rendered :
    ∃ ten two, filed.root.get? [.child 1, .element 10] = some ten ∧
      filed.root.get? [.child 1, .element 2] = some two ∧
      (∃ path, (∀ action, ten.place.reference action = .ok path) ∧ ∃ after,
        path.phrase.write ⟨["bank"], []⟩ = (.ok "#1[10]", after) ∧
          after.nameEntries.lookup "#1" = some "phones") ∧
      (ten.place.path.phrase.write .empty).1 ≠
        (two.place.path.phrase.write (ten.place.path.phrase.write .empty).2).1 ∧
      ∃ expression, filed.expression = .ok expression := by
  obtain ⟨written, apart, whole⟩ := routes_rendered filed filed_completed rfl
    (filed_named.imp fun _ names => names.plainly)
  refine ⟨_, _, rfl, rfl, ?_, ?_, whole filed_straightforward⟩
  · obtain ⟨path, refers, text⟩ := written [.child 1, .element 10] _ rfl (by decide)
    obtain ⟨after, spelled, bound⟩ := text ⟨["bank"], []⟩
    obtain rfl : path = ⟨"phones[10]"⟩ :=
      Except.ok.inj ((refers .markForProjection).symm.trans rfl)
    have read : (Path.phrase ⟨"phones[10]"⟩).write ⟨["bank"], []⟩ =
        (.ok "#1[10]", ⟨["bank", "phones"], []⟩) := rfl
    obtain rfl : after = ⟨["bank", "phones"], []⟩ :=
      congrArg Prod.snd (spelled.symm.trans read)
    exact ⟨_, refers, _, read, bound "phones" (by decide)⟩
  · exact apart [.child 1, .element 10] [.child 1, .element 2] _ _ rfl rfl (by decide) (by decide)
      (by decide) .empty _ (.refl _)

end Item

end ItemExpressions

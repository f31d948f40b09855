import ItemExpressions.Proofs.ConditionGathering
import ItemExpressions.Proofs.Disjointness
import ItemExpressions.Proofs.KeyConditionGathering

/-!
Outcomes of a whole item. Once an item is built, only its update can be refused, and what is refused
then is an update that cannot be carried out. Of everything that was gathered, what is empty is left
out of the draft; so an item has nothing to write just when nothing is wanted anywhere in it, also
where a mark or an operation is hidden by another one further up.
-/

namespace ItemExpressions

/-! ## Nothing chosen, nothing gathered -/

theorem KeyCondition.joined_none (conditions : List KeyCondition) :
    conditions.foldl KeyCondition.join none = none ↔ conditions = [] := by
  rw [← predicatesOf_nil, predicatesOf_join]
  cases conditions with
  | nil => simp [predicatesOf]
  | cons first rest =>
      have given : first.predicates ≠ [] := List.ne_nil_of_length_pos first.predicates_some
      simp [predicatesOf, given]

namespace Node

/-- Going up from a chosen node, the last chosen one that is met is an outermost one. -/
theorem outermost_of_route (chosen : Node → Bool) (tree : Node) (sound : tree.Everywhere Sound)
    (route : Route) (node : Node) (found : tree.get? route = some node)
    (wanted : chosen node = true) : tree.outermost chosen ≠ [] := by
  induction length : route.length using Nat.strongRecOn generalizing route node with
  | ind size ih =>
      by_cases hidden : ∃ upper lower passed, route = upper ++ lower ∧ lower ≠ [] ∧
          tree.get? upper = some passed ∧ chosen passed = true
      · obtain ⟨upper, lower, passed, rfl, proper, reached, above⟩ := hidden
        have shorter : upper.length < size := by
          rw [← length, List.length_append]
          exact Nat.lt_add_of_pos_right (List.length_pos_iff.mpr proper)
        exact ih upper.length shorter upper passed reached above rfl
      · have free : ∀ upper lower passed, route = upper ++ lower → lower ≠ [] →
            tree.get? upper = some passed → chosen passed = false := by
          intro upper lower passed same proper reached
          exact Bool.eq_false_iff.mpr fun above =>
            hidden ⟨upper, lower, passed, same, proper, reached, above⟩
        obtain ⟨occurrence, member, _⟩ :=
          (mem_outermost chosen tree sound node).mpr ⟨route, found, wanted, free⟩
        exact List.ne_nil_of_mem member

theorem outermost_nil (chosen : Node → Bool) (tree : Node) (sound : tree.Everywhere Sound) :
    tree.outermost chosen = [] ↔
      ∀ route node, tree.get? route = some node → chosen node = false := by
  constructor
  · intro none route node found
    exact Bool.eq_false_iff.mpr fun wanted =>
      outermost_of_route chosen tree sound route node found wanted none
  · intro unchosen
    apply List.eq_nil_iff_forall_not_mem.mpr
    intro occurrence member
    obtain ⟨route, found, wanted, _⟩ :=
      (mem_outermost chosen tree sound occurrence.node).mp ⟨occurrence, member, rfl⟩
    rw [unchosen route occurrence.node found] at wanted
    cases wanted

theorem conditions_nil (tree : Node) (sound : tree.Everywhere Sound) :
    tree.conditions = [] ↔ ∀ route node, tree.get? route = some node → node.condition? = none := by
  rw [conditions, List.filterMap_eq_nil_iff]
  constructor
  · intro none route node found
    exact none ⟨node, tree.trail route⟩
      ((mem_walk [] tree sound _).mpr ⟨route, found, (List.append_nil _).symm⟩)
  · intro none occurrence member
    obtain ⟨route, found, _⟩ := (mem_walk [] tree sound occurrence).mp member
    exact none route occurrence.node found

end Node

/-! ## The outcome of an update -/

theorem Update.targets_nil (update : Update) : update.targets = [] ↔ update.isEmpty = true := by
  simp [targets, isEmpty, and_assoc]

namespace Item

/-- Nothing is wanted anywhere in the item. -/
structure Idle (item : Item) : Prop where
  unmarked : ∀ route node, item.root.get? route = some node → node.isMarked = false
  unconditioned : ∀ route node, item.root.get? route = some node → node.condition? = none
  /-- Only the keys right below the root have a part in key conditions. -/
  unrestricted : ∀ child ∈ item.root.children, child.keyCondition = none
  unchanged : ∀ route node, item.root.get? route = some node → node.hasOperation = false

/-- What is drafted when this update was gathered. -/
def drafted (item : Item) (update : Update) : Draft where
  condition := Condition.conjunction item.root.conditions
  filter := none
  keyCondition := (item.root.children.flatMap fun child => child.keyCondition.toList).foldl
    KeyCondition.join none
  projection :=
    let paths := (item.root.outermost Node.isMarked).map Occurrence.path
    if paths.isEmpty then none else some ⟨paths⟩
  update := if update.isEmpty then none else some update

theorem drafted_filled (item : Item) (update : Update) : (item.drafted update).Filled := by
  constructor
  · intro projection given
    simp only [drafted, Option.mem_def, Option.ite_none_left_eq_some] at given
    obtain ⟨some, same⟩ := given
    cases same
    simpa [Projection.isEmpty] using some
  · intro other given
    simp only [drafted, Option.mem_def, Option.ite_none_left_eq_some] at given
    obtain ⟨some, same⟩ := given
    cases same
    simpa using some

section Built

variable (item : Item) (reachable : item.root.Reachable) (built : item.isBuilt = true)

include reachable built

theorem condition_eq : item.condition = .ok (Condition.conjunction item.root.conditions) := by
  have required : item.require .restrictItem = .ok () := if_pos built
  rw [condition, required]
  exact item.root.addConditions_exact (Node.reachable_sound item.root reachable) built none

/-- An update is refused for a value that a node cannot carry, and if it is strict, for an operation
below another one. -/
theorem update_error (error : Error) (failed : item.update = .error error) :
    (∃ route node, item.root.get? route = some node ∧ node.hasOperation = true ∧
      node.wanted? = none ∧ error = .unsupportedUpdateValue node.place.path) ∨
      item.settings.strictUpdates = true ∧ ∃ path, error = .supersededUpdate path := by
  have sound := Node.reachable_sound item.root reachable
  have settled := update_eq item built item.settings.strictUpdates
  rw [show item.strictly item.settings.strictUpdates = item from rfl, failed,
    Node.addChanges_operations item.root sound built] at settled
  cases carried : carryOut (item.root.operations.filter fun occurrence => !occurrence.covered)
      .empty with
  | error other =>
      rw [carried] at settled
      cases settled
      obtain ⟨first, least, refused⟩ := (carryOut_error _ _ _).mp carried
      have unwanted : first.node.wanted? = none := by simpa using List.find?_some least
      have met := List.mem_of_mem_filter (List.mem_of_find?_eq_some least)
      obtain ⟨walked, operates⟩ := List.mem_filter.mp met
      obtain ⟨route, found, _⟩ := (Node.mem_walk [] item.root sound first).mp walked
      exact Or.inl ⟨route, first.node, found, operates, unwanted, refused⟩
  | ok update =>
      rw [carried, Except.bind] at settled
      split at settled
      · next strict _ =>
        cases settled
        exact Or.inr ⟨strict, _, rfl⟩
      · cases settled

theorem update_isEmpty (update : Update) (done : item.update = .ok update) :
    update.isEmpty = true ↔
      ∀ route node, item.root.get? route = some node → node.hasOperation = false := by
  have sound := Node.reachable_sound item.root reachable
  have aimed := Node.targets_outermost item.root sound built update
    (item.update_gathered built update done)
  have same : update.targets = [] ↔
      (item.root.outermost Node.hasOperation).map Occurrence.path = [] :=
    ⟨fun none => (none ▸ aimed).nil_eq.symm, fun none => (none ▸ aimed).eq_nil⟩
  rw [← update.targets_nil, same, List.map_eq_nil_iff, Node.outermost_nil _ item.root sound]

/-- The draft holds what was gathered, and nothing that is empty. -/
theorem draft_eq (update : Update) (done : item.update = .ok update) :
    item.draft = .ok (item.drafted update) := by
  rw [draft, item.projection_eq reachable built, item.keyCondition_eq reachable built,
    item.condition_eq reachable built, done]
  rfl

theorem drafted_empty (update : Update) (done : item.update = .ok update) :
    item.drafted update = .empty ↔ item.Idle := by
  have sound := Node.reachable_sound item.root reachable
  have parts : item.drafted update = .empty ↔ item.root.conditions = [] ∧
      (∀ child ∈ item.root.children, child.keyCondition = none) ∧
      item.root.outermost Node.isMarked = [] ∧ update.isEmpty = true := by
    simp [drafted, Draft.empty, Condition.conjunction_none, KeyCondition.joined_none]
  rw [parts, Node.conditions_nil item.root sound, Node.outermost_nil _ item.root sound,
    item.update_isEmpty reachable built update done]
  constructor
  · rintro ⟨unconditioned, unrestricted, unmarked, unchanged⟩
    exact ⟨unmarked, unconditioned, unrestricted, unchanged⟩
  · intro idle
    exact ⟨idle.unconditioned, idle.unrestricted, idle.unmarked, idle.unchanged⟩

theorem idle_update (idle : item.Idle) : item.update = .ok .empty := by
  have sound := Node.reachable_sound item.root reachable
  have none : item.root.operations = [] := by
    apply List.filter_eq_nil_iff.mpr
    intro occurrence member
    obtain ⟨route, found, _⟩ := (Node.mem_walk [] item.root sound occurrence).mp member
    exact Bool.eq_false_iff.mp (idle.unchanged route occurrence.node found)
  have settled := update_eq item built item.settings.strictUpdates
  rw [Node.addChanges_operations item.root sound built, none] at settled
  refine settled.trans ?_
  cases item.settings.strictUpdates <;> rfl

/-- What is refused of the expression is the update, or that there is nothing to write, or a part of
what there is. -/
theorem expression_error (error : Error) (failed : item.expression = .error error) :
    item.update = .error error ∨ ∃ fault, error = .unwritable fault ∧
      (item.Idle ∧ fault = .emptyDraft ∨ ¬ item.Idle ∧ fault.ofWhole = false) := by
  cases updated : item.update with
  | error other =>
      rw [expression, draft, item.projection_eq reachable built,
        item.keyCondition_eq reachable built, item.condition_eq reachable built, updated] at failed
      exact Or.inl (congrArg Except.error (Except.error.inj failed))
  | ok update =>
      have empty := item.drafted_empty reachable built update updated
      rw [expression, item.draft_eq reachable built update updated] at failed
      cases written : (item.drafted update).build with
      | ok expression =>
          simp only [bind, Except.bind, written, Except.mapError] at failed
          cases failed
      | error fault =>
          simp only [bind, Except.bind, written, Except.mapError] at failed
          refine Or.inr ⟨fault, (Except.error.inj failed).symm, ?_⟩
          rw [← empty]
          exact (item.drafted_filled update).build_error fault written

end Built

/-- In an item that was built, projections, conditions and key conditions are always gathered, and
an update is refused only for what is wanted in it. Steps are never out of turn. There is nothing
to write just when nothing is wanted, and no slot is ever taken by something empty. -/
theorem errors_of_built (item : Item) (reachable : item.root.Reachable)
    (built : item.isBuilt = true) :
    (∃ projection, item.projection = .ok projection) ∧
    (∃ condition, item.condition = .ok condition) ∧
    (∃ keyCondition, item.keyCondition = .ok keyCondition) ∧
    (∀ error, item.update = .error error →
      (∃ path, error = .unsupportedUpdateValue path) ∨
        item.settings.strictUpdates = true ∧ ∃ path, error = .supersededUpdate path) ∧
    (∀ error, item.expression = .error error → error.isSequencing = false) ∧
    (item.expression = .error (.unwritable .emptyDraft) ↔ item.Idle) ∧
    item.expression ≠ .error (.unwritable .emptyProjection) ∧
    item.expression ≠ .error (.unwritable .emptyUpdate) := by
  have refused (error : Error) (failed : item.update = .error error) :
      (∃ path, error = .unsupportedUpdateValue path) ∨
        item.settings.strictUpdates = true ∧ ∃ path, error = .supersededUpdate path :=
    (item.update_error reachable built error failed).imp_left
      fun ⟨_, node, _, _, _, same⟩ => ⟨node.place.path, same⟩
  have outcome := item.expression_error reachable built
  -- Of the faults of a whole expression, only the one of an empty draft comes about.
  have whole (fault : Fault) (ofWhole : fault.ofWhole = true)
      (failed : item.expression = .error (.unwritable fault)) :
      item.Idle ∧ fault = .emptyDraft := by
    rcases outcome _ failed with update | ⟨other, same, idle | ⟨_, part⟩⟩
    · rcases refused _ update with ⟨path, same⟩ | ⟨_, path, same⟩ <;> cases same
    · cases same
      exact idle
    · cases same
      rw [ofWhole] at part
      cases part
  refine ⟨⟨_, item.projection_eq reachable built⟩, ⟨_, item.condition_eq reachable built⟩,
    ⟨_, item.keyCondition_eq reachable built⟩, refused, fun error failed => ?_, ?_,
    fun failed => ?_, fun failed => ?_⟩
  · rcases outcome error failed with update | ⟨fault, rfl, _⟩
    · rcases refused error update with ⟨path, rfl⟩ | ⟨_, path, rfl⟩ <;> rfl
    · rfl
  · constructor
    · intro failed
      exact (whole .emptyDraft rfl failed).1
    · intro idle
      have updated := item.idle_update reachable built idle
      have nothing := (item.drafted_empty reachable built .empty updated).mpr idle
      rw [expression, item.draft_eq reachable built .empty updated, nothing]
      rfl
  · cases (whole .emptyProjection rfl failed).2
  · cases (whole .emptyUpdate rfl failed).2

/-- Nothing is wanted of a person who was just built. What is wanted of the other one is refused if
updates are strict, and that is another failure. -/
theorem listed_and_filed_errors :
    listed.Idle ∧ (Error.unwritable .emptyDraft).message = "unset parameter: Builder" ∧
      (filed.strictly true).expression = .error (.supersededUpdate ⟨"bank.number"⟩) ∧
      ¬ (filed.strictly true).Idle := by
  obtain ⟨_, _, _, _, _, idle, _⟩ :=
    errors_of_built listed listed_completed.rooted.reachable rfl
  obtain ⟨_, _, _, _, _, wanted, _⟩ :=
    errors_of_built (filed.strictly true) filed_completed.rooted.reachable rfl
  have refused : (filed.strictly true).expression =
      .error (.supersededUpdate ⟨"bank.number"⟩) := rfl
  refine ⟨idle.mp rfl, rfl, refused, fun nothing => ?_⟩
  have empty := wanted.mpr nothing
  rw [refused] at empty
  cases empty

end Item

end ItemExpressions

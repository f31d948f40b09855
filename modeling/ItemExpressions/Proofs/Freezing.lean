import ItemExpressions.Proofs.Frame

/-!
What a build freezes. A built node keeps its path, what refers to it, and the elements it has,
however long steps go on around it: builds from above end at its latch, also when they fail further
on, and a list that is built takes no declarations. It can only be lost together with an element in
which it stands, when a list above it that is not built declares that element again.
-/

namespace ItemExpressions

namespace Node

/-- The step declares again, in a list that is not built, an element that the route goes through. -/
def redeclares (place : Route) (step : Step) (route : Route) (tree : Node) : Bool :=
  (tree.get? place).any (fun list => !list.place.built) && step.renews (.ok ()) place route

/-- None of the steps of a run redeclares an element that the route goes through. -/
def spares (route : Route) : List (Route × Step) → Node → Bool
  | [], _ => true
  | (place, step) :: rest, tree =>
      !tree.redeclares place step route &&
        match tree.performAt? place step with
        | none => true
        | some (next, _) => next.spares route rest

/-- What stands where a node was built: it is as frozen as the build left that node. -/
structure Frozen (before now : Node) : Prop where
  built : now.place.built = true
  documentPath : now.place.documentPath = before.place.documentPath
  reference : ∀ action, now.place.reference action = before.place.reference action
  declared : now.declared = before.declared
  indices : now.elements.map Prod.fst = before.elements.map Prod.fst
  make : now.make? = before.make?

variable {tree after : Node} {place : Route} {step : Step} {answer : Except Error Unit}

theorem Frozen.refl (node : Node) (built : node.place.built = true) : node.Frozen node :=
  ⟨built, rfl, fun _ => rfl, rfl, rfl, rfl⟩

theorem Frozen.trans {before middle now : Node} (first : before.Frozen middle)
    (second : middle.Frozen now) : before.Frozen now where
  built := second.built
  documentPath := second.documentPath.trans first.documentPath
  reference action := (second.reference action).trans (first.reference action)
  declared := second.declared.trans first.declared
  indices := second.indices.trans first.indices
  make := second.make.trans first.make

/-- A place that was kept behind its latch shows the same path and gives out the same handle. -/
theorem Frozen.of_kept {before now : Node} (built : before.place.built = true)
    (kept : before.place.Kept now.place) (declared : now.declared = before.declared)
    (indices : now.elements.map Prod.fst = before.elements.map Prod.fst)
    (make : now.make? = before.make?) : before.Frozen now := by
  obtain ⟨latched, path, handle⟩ := kept.latched built
  refine ⟨latched, ?_, fun action => ?_, declared, indices, make⟩
  · rw [Placement.documentPath, Placement.documentPath, latched, built, path]
  · rw [Placement.reference, Placement.reference, latched, built, handle, kept.name]

/-! ## Steps -/

/-- A built node refuses to be built or to take declarations, and whatever else is done to it
changes neither its members nor its place. -/
theorem perform_frozen (node after : Node) (sound : node.Everywhere Sound)
    (built : node.place.built = true) (done : step.perform node = some (after, answer)) :
    node.Frozen after := by
  have kept := (perform_sound step node after answer sound done).2
  have members : after.declared = node.declared ∧ after.elements = node.elements := by
    cases step with
    | declare indices =>
        cases node with
        | list place intent make declared elements =>
            have latch : place.built = true := built
            simp only [Step.perform, declare?, latch, ↓reduceIte, Option.some.injEq] at done
            cases done
            exact ⟨rfl, rfl⟩
        | «attribute» => simp [Step.perform, declare?] at done
        | key => simp [Step.perform, declare?] at done
    | build visit above =>
        rw [Step.perform, build_of_built visit [] above node built] at done
        cases done
        exact ⟨rfl, rfl⟩
    | project =>
        have result : node.project = (after, answer) := Option.some.inj done
        have same : node.project.1 = after := by rw [result]
        rw [← same]
        cases node <;> exact ⟨rfl, rfl⟩
    | andCondition | setUpdate | andKeyCondition =>
        obtain ⟨changed, found, same⟩ := Option.map_eq_some_iff.mp done
        cases same
        cases node <;> cases found <;> exact ⟨rfl, rfl⟩
  exact .of_kept built kept members.1 (by rw [members.2])
    (perform_identity step node after answer done).2

/-- Only a list that is not built makes something anew. -/
theorem redeclares_of_renews (route : Route)
    (done : tree.performAt? place step = some (after, answer))
    (renewed : step.renews answer place route = true) :
    tree.redeclares place step route = true := by
  obtain ⟨indices, index, inner, rfl, rfl, member, through⟩ :=
    (step.renews_iff answer place route).mp renewed
  obtain ⟨list, changed, found, declares, _⟩ := changeAt_found _ place tree after _ done
  have unbuilt : list.place.built = false := by
    cases list with
    | list listed intent make declared elements =>
        simp only [Step.perform, declare?, Option.some.injEq] at declares
        split at declares
        · cases declares
        · next latch => exact Bool.eq_false_iff.mpr latch
    | «attribute» => simp [Step.perform, declare?] at declares
    | key => simp [Step.perform, declare?] at declares
  rw [redeclares, found, Option.any_some, unbuilt, renewed]
  rfl

/-- One step leaves frozen what was built before, wherever it is carried out. -/
theorem step_frozen (sound : tree.Everywhere Sound) (route : Route) (node : Node)
    (found : tree.get? route = some node) (built : node.place.built = true)
    (done : tree.performAt? place step = some (after, answer))
    (spared : tree.redeclares place step route = false) :
    ∃ now, after.get? route = some now ∧ node.Frozen now := by
  have kept : step.renews answer place route = false := Bool.eq_false_iff.mpr fun renewed => by
    rw [redeclares_of_renews route done renewed] at spared
    cases spared
  obtain ⟨now, stands, ⟨_, performed⟩ | ⟨_, alike⟩⟩ :=
    performAt_kept place done route kept node found
  · exact ⟨now, stands, perform_frozen node now (sound.at_route route node found) built performed⟩
  · exact ⟨now, stands, .of_kept built alike.kept alike.declared alike.indices alike.make⟩

/-- A run leaves frozen what was built before. -/
theorem run_frozen (steps : List (Route × Step)) (sound : tree.Everywhere Sound) (route : Route)
    (node : Node) (found : tree.get? route = some node) (built : node.place.built = true)
    (run : tree.run? steps = some after) (spared : tree.spares route steps = true) :
    ∃ now, after.get? route = some now ∧ node.Frozen now := by
  induction steps generalizing tree node with
  | nil =>
      cases run
      exact ⟨node, found, .refl node built⟩
  | cons first rest ih =>
      obtain ⟨place, step⟩ := first
      obtain ⟨⟨next, answer⟩, performed, later⟩ := Option.bind_eq_some_iff.mp run
      rw [spares, performed, Bool.and_eq_true_iff, Bool.not_eq_true'] at spared
      obtain ⟨middle, between, frozen⟩ :=
        step_frozen sound route node found built performed spared.1
      have nextSound := (step_sound tree next place step answer sound performed).1
      obtain ⟨now, stands, refrozen⟩ := ih nextSound middle between frozen.built later spared.2
      exact ⟨now, stands, frozen.trans refrozen⟩

/-! ## Refusals -/

theorem replace_same (node entered : Node) (hop : Hop)
    (distinct : (node.elements.map Prod.fst).Nodup) (found : node.enter? hop = some entered) :
    node.replace hop entered = node := by
  cases node with
  | «attribute» place intent children =>
      cases hop with
      | child position =>
          obtain ⟨inside, rfl⟩ := List.getElem?_eq_some_iff.mp found
          exact congrArg (Node.attribute place intent) (List.set_getElem_self inside)
      | element index => rfl
  | list place intent make declared elements =>
      cases hop with
      | child position => rfl
      | element index =>
          refine congrArg (Node.list place intent make declared) ?_
          refine (List.map_congr_left fun stored member => ?_).trans (List.map_id elements)
          -- There is one entry for the index, so it is the one that the hop enters.
          by_cases same : stored.1 = index
          · have only := lookup_of_mem stored.1 stored.2 elements distinct member
            have entry : elements.lookup stored.1 = some entered := same ▸ found
            rw [only, Option.some.injEq] at entry
            rw [if_pos same, ← entry, ← same]
            rfl
          · rw [if_neg same]
            rfl
  | key => cases hop <;> rfl

/-- A change that gives its node back gives back the tree. -/
theorem changeAt_same {α : Type} (change : Node → Option (Node × α)) (route : Route) (tree : Node)
    (sound : tree.Everywhere Sound) (node : Node) (answer : α)
    (found : tree.get? route = some node) (idle : change node = some (node, answer)) :
    tree.changeAt? change route = some (tree, answer) := by
  induction route generalizing tree with
  | nil =>
      cases found
      exact idle
  | cons hop rest ih =>
      obtain ⟨entered, member, inside⟩ := Option.bind_eq_some_iff.mp found
      have deeper := ih entered (sound.deeper entered (enter_stored hop tree entered member)) inside
      simp only [changeAt?, member, deeper, Option.bind_eq_bind, Option.bind_some,
        Option.pure_def, replace_same tree entered hop sound.here.distinct member]

/-- What was built stays as the build left it, for as long as no list that is not built makes it
anew; and it answers another build, or further declarations, with its path and nothing else. -/
theorem frozen_for_ever (tree after : Node) (reachable : tree.Reachable) (route : Route)
    (node : Node) (found : tree.get? route = some node) (built : node.place.built = true)
    (steps : List (Route × Step)) (run : tree.run? steps = some after)
    (spared : tree.spares route steps = true) :
    ∃ now, after.get? route = some now ∧ node.Frozen now ∧
      (∀ visit above, after.performAt? route (.build visit above) =
        some (after, .error (.alreadyBuilt node.place.path))) ∧
      ∀ make, node.make? = some make → ∀ indices, after.performAt? route (.declare indices) =
        some (after, .error (.alreadyBuilt node.place.path)) := by
  obtain ⟨now, stands, frozen⟩ :=
    run_frozen steps (reachable_sound tree reachable) route node found built run spared
  have sound := reachable_sound after (reachable.run steps tree after run)
  have path : now.place.path = node.place.path := by
    simpa [Placement.documentPath, built, frozen.built] using frozen.documentPath
  refine ⟨now, stands, frozen, fun visit above => ?_, fun make makes indices => ?_⟩
  · refine changeAt_same _ route after sound now _ stands ?_
    rw [Step.perform, build_of_built visit [] above now frozen.built, path]
  · refine changeAt_same _ route after sound now _ stands ?_
    have list := frozen.make.trans makes
    cases now with
    | list place intent make declared elements =>
        have latch : place.built = true := frozen.built
        have same : place.path = node.place.path := path
        simp only [Step.perform, declare?, latch, ↓reduceIte, same]
    | «attribute» => cases list
    | key => cases list

/-- Builds with another path and a declaration, at the built phone numbers, above them and in
them. -/
def disturbance : List (Route × Step) :=
  [([], .build .asStored ⟨"moved"⟩), ([.child 1], .declare [3]), ([.child 1], .project),
    ([.child 1, .element 2], .build .asStored ⟨"moved"⟩), ([.child 1], .setUpdate .remove .empty)]

theorem halfBuilt_phones_stay : halfBuilt.spares [.child 1] disturbance = true ∧
    ∃ phones after now, halfBuilt.get? [.child 1] = some phones ∧ phones.place.built = true ∧
      halfBuilt.run? disturbance = some after ∧ after.get? [.child 1] = some now ∧
      now.place.documentPath = some ⟨"phones"⟩ ∧ now.elements.map Prod.fst = [10, 2] ∧
      ∀ indices, after.performAt? [.child 1] (.declare indices) =
        some (after, .error (.alreadyBuilt ⟨"phones"⟩)) := by
  have reachable : halfBuilt.Reachable :=
    .run halfBuild Shape.person.fresh halfBuilt (.fresh _ Shape.person.fresh_declared) rfl
  obtain ⟨now, stands, frozen, _, refused⟩ :=
    frozen_for_ever halfBuilt _ reachable [.child 1] _ rfl rfl disturbance rfl rfl
  exact ⟨rfl, _, _, now, rfl, rfl, rfl, stands, frozen.documentPath, frozen.indices, refused _ rfl⟩

end Node

end ItemExpressions

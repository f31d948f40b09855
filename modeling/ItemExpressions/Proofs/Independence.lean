import ItemExpressions.Proofs.Freezing

/-!
Independence of steps. A tree is what stands in it, with paths and latches, and what is wanted of
its nodes. Steps that want something leave the one alone and builds leave the other alone; what
either of them does depends on what it changes and on nothing else, except that a mark asks for the
latch. So steps that want something of different nodes can change places, and a condition or an
operation can change places with any build.
-/

namespace ItemExpressions

/-! ## Bare trees -/

namespace Placement

def bare (place : Placement) : Placement := { place with projected := false }

theorem eq_of_bare (first second : Placement) (bare : first.bare = second.bare)
    (projected : first.projected = second.projected) : first = second := by
  cases first
  cases second
  simp_all [Placement.bare]

/-- A mark asks for the latch and the handle alone. -/
theorem mark_bare (place : Placement) :
    place.bare.mark.1.bare = place.mark.1.bare ∧ place.bare.mark.2 = place.mark.2 := by
  have same : place.bare.require .markForProjection = place.require .markForProjection := rfl
  rw [mark, mark, same]
  cases place.require .markForProjection <;> exact ⟨rfl, rfl⟩

theorem bare_mark (place : Placement) : place.mark.1.bare = place.bare := by
  rw [mark]
  split <;> rfl

end Placement

mutual

/-- The tree without what is wanted of its nodes. -/
def Node.bare : Node → Node
  | .attribute place _ children => .attribute place.bare .empty (bareAll children)
  | .list place _ make declared elements =>
      .list place.bare .empty make declared (bareElements elements)
  | .key place _ => .key place.bare none

def bareAll : List Node → List Node
  | [] => []
  | first :: rest => first.bare :: bareAll rest

def bareElements : List (Nat × Node) → List (Nat × Node)
  | [] => []
  | (index, element) :: rest => (index, element.bare) :: bareElements rest

end

theorem bareAll_eq (nodes : List Node) : bareAll nodes = nodes.map Node.bare := by
  induction nodes with
  | nil => rfl
  | cons first rest ih => simp [bareAll, ih]

theorem bareElements_eq (elements : List (Nat × Node)) :
    bareElements elements = elements.map fun entry => (entry.1, entry.2.bare) := by
  induction elements with
  | nil => rfl
  | cons first rest ih => simp [bareElements, ih]

@[simp]
theorem bareElements_keys (elements : List (Nat × Node)) :
    (bareElements elements).map Prod.fst = elements.map Prod.fst := by
  rw [bareElements_eq, List.map_map]
  rfl

theorem bareElements_lookup (elements : List (Nat × Node)) (index : Nat) :
    (bareElements elements).lookup index = (elements.lookup index).map Node.bare := by
  rw [bareElements_eq]
  exact lookup_map (fun _ element => element.bare) elements index

theorem bareElements_putAt (index : Nat) (member : Node) (elements : List (Nat × Node)) :
    bareElements (putAt index member elements) =
      putAt index member.bare (bareElements elements) := by
  induction elements with
  | nil => rfl
  | cons first rest ih =>
      obtain ⟨key, element⟩ := first
      by_cases same : key = index
      · simp [putAt, bareElements, same]
      · simp [putAt, bareElements, same, ih]

namespace Node

theorem bare_bare (node : Node) : node.bare.bare = node.bare := by
  induction node using stored_induction with
  | step node ih =>
      cases node with
      | «attribute» place intent children =>
          have members : bareAll (bareAll children) = bareAll children := by
            simp only [bareAll_eq, List.map_map]
            exact List.map_congr_left ih
          simp only [bare, members]
          rfl
      | list place intent make declared elements =>
          have members : bareElements (bareElements elements) = bareElements elements := by
            simp only [bareElements_eq, List.map_map]
            exact List.map_congr_left fun entry member =>
              Prod.ext rfl (ih entry.2 (List.mem_map_of_mem member))
          simp only [bare, members]
          rfl
      | key => rfl

theorem bare_enter (node : Node) (hop : Hop) :
    node.bare.enter? hop = (node.enter? hop).map bare := by
  cases node with
  | «attribute» place intent children =>
      cases hop with
      | child position => simp [bare, enter?, Node.children, bareAll_eq]
      | element index => rfl
  | list place intent make declared elements =>
      cases hop with
      | child position => rfl
      | element index => exact bareElements_lookup elements index
  | key => cases hop <;> rfl

theorem bare_replace (node replacement : Node) (hop : Hop) :
    (node.replace hop replacement).bare = node.bare.replace hop replacement.bare := by
  cases node with
  | «attribute» place intent children =>
      cases hop with
      | child position => simp [bare, replace, bareAll_eq, List.map_set]
      | element index => rfl
  | list place intent make declared elements =>
      cases hop with
      | child position => rfl
      | element index =>
          simp only [bare, replace, bareElements_eq, List.map_map, list.injEq, true_and]
          apply List.map_congr_left
          intro stored _
          by_cases same : stored.1 = index <;> simp [same]
  | key => cases hop <;> rfl

/-- A tree is made of the bare tree and of what is wanted of each of its nodes. -/
theorem eq_of_bare (first second : Node) (sound : first.Everywhere Sound)
    (bare : first.bare = second.bare)
    (demands : ∀ route, (first.get? route).map demand = (second.get? route).map demand) :
    first = second := by
  induction first using stored_induction generalizing second with
  | step first ih =>
      have here : first.demand = second.demand := Option.some.inj (demands [])
      have members (hop : Hop) : first.enter? hop = second.enter? hop := by
        have entered := congrArg (Node.enter? hop) bare
        rw [bare_enter, bare_enter] at entered
        have deeper (route : Route) := demands (hop :: route)
        simp only [get?] at deeper
        cases one : first.enter? hop with
        | none =>
            rw [one] at entered
            exact (Option.map_eq_none_iff.mp entered.symm).symm
        | some before =>
            rw [one] at entered deeper
            obtain ⟨after, other, same⟩ := Option.map_eq_some_iff.mp entered.symm
            rw [other] at deeper ⊢
            have stored := enter_stored hop first before one
            have below := sound.deeper before stored
            exact congrArg some (ih before stored after below same.symm deeper)
      cases first with
      | «attribute» place intent children =>
          cases second with
          | «attribute» other wanted fields =>
              injection bare with placed _ _
              injection here with projected wants _
              cases place.eq_of_bare other placed projected
              cases wants
              exact congrArg _ (List.ext_getElem? fun position => members (.child position))
          | list => cases bare
          | key => cases bare
      | list place intent make declared elements =>
          cases second with
          | list other wanted factory listed entries =>
              injection bare with placed _ sameMake sameDeclared stored
              injection here with projected wants _
              cases place.eq_of_bare other placed projected
              cases wants
              cases sameMake
              cases sameDeclared
              have keys : elements.map Prod.fst = entries.map Prod.fst := by
                rw [← bareElements_keys elements, stored, bareElements_keys]
              refine congrArg _ (eq_of_same_keys elements entries keys
                (keys ▸ sound.here.distinct) fun entry member => ?_)
              -- Each index has one entry, so the routes see all that is stored.
              have found := lookup_of_mem entry.1 entry.2 elements sound.here.distinct member
              exact mem_of_lookup _ _ entries ((members (.element entry.1)).symm.trans found)
          | «attribute» => cases bare
          | key => cases bare
      | key place condition =>
          cases second with
          | key other wanted =>
              injection bare with placed _
              injection here with projected _ wants
              cases place.eq_of_bare other placed projected
              cases wants
              rfl
          | «attribute» => cases bare
          | list => cases bare

end Node

/-! ## Builds of bare trees -/

section Build

variable (visit : Visit)

/-- What a step gives, without what is wanted of the nodes. -/
def stripped (result : Node × Except Error Unit) : Node × Except Error Unit :=
  (result.1.bare, result.2)

theorem buildChildren_bare (route : Route) (above : Path) (children : List Node)
    (builds : ∀ child ∈ children, ∀ route,
      child.bare.build visit route above = stripped (child.build visit route above))
    (position : Nat) : buildChildren visit route above position (bareAll children) =
      (bareAll (buildChildren visit route above position children).1,
        (buildChildren visit route above position children).2) := by
  induction children generalizing position with
  | nil => rfl
  | cons first rest ih =>
      obtain ⟨head, tail⟩ := List.forall_mem_cons.mp builds
      have built := head (route ++ [.child position])
      rw [bareAll, buildChildren, buildChildren, built, stripped]
      generalize first.build visit (route ++ [.child position]) above = result
      obtain ⟨child, answer⟩ := result
      cases answer with
      | error error => rfl
      | ok _ =>
          simp only [ih tail (position + 1)]
          rfl

theorem settle_bare (attempts : List (Nat × Node × Except Error Unit)) (order : List Nat)
    (elements : List (Nat × Node)) :
    settle (attempts.map fun attempt => (attempt.1, stripped attempt.2)) order
        (bareElements elements) =
      (bareElements (settle attempts order elements).1, (settle attempts order elements).2) := by
  induction order generalizing elements with
  | nil => rfl
  | cons index rest ih =>
      have found := lookup_map (fun _ attempt => stripped attempt) attempts index
      simp only [settle, found]
      cases attempts.lookup index with
      | none => exact ih elements
      | some attempt =>
          obtain ⟨element, answer⟩ := attempt
          cases answer with
          | error error => simp [stripped, bareElements_putAt]
          | ok _ =>
              have later := ih (putAt index element elements)
              rw [bareElements_putAt] at later
              exact later

/-- A build does not ask what is wanted of the nodes. -/
theorem build_bare (node : Node) (route : Route) (above : Path) :
    node.bare.build visit route above = stripped (node.build visit route above) := by
  induction node using Node.stored_induction generalizing route above with
  | step node ih =>
      cases node with
      | «attribute» place intent children =>
          have members := buildChildren_bare visit route (place.below above).path children
            (fun child member route => ih child member route _) 0
          cases latch : place.built with
          | true => simp [Node.bare, Node.build, Placement.bare, latch, stripped]
          | false =>
              have placed : (place.bare.below above).path = (place.below above).path := rfl
              have unbuilt : place.bare.built = false := latch
              simp only [Node.bare, Node.build, latch, unbuilt, Bool.false_eq_true, ↓reduceIte,
                placed, members]
              rfl
      | list place intent make declared elements =>
          have attempts : attemptElements visit route (place.below above).path
              (bareElements elements) =
              (attemptElements visit route (place.below above).path elements).map fun attempt =>
                (attempt.1, stripped attempt.2) := by
            simp only [attemptElements_eq, bareElements_eq, List.map_map]
            apply List.map_congr_left
            intro entry member
            exact Prod.ext rfl (ih entry.2 (List.mem_map_of_mem member) _ _)
          cases latch : place.built with
          | true => simp [Node.bare, Node.build, Placement.bare, latch, stripped]
          | false =>
              have placed : (place.bare.below above).path = (place.below above).path := rfl
              have unbuilt : place.bare.built = false := latch
              simp only [Node.bare, Node.build, latch, unbuilt, Bool.false_eq_true, ↓reduceIte,
                placed, attempts, bareElements_keys, settle_bare]
              rfl
      | key place condition =>
          cases latch : place.built with
          | true => simp [Node.bare, Node.build, Placement.bare, latch, stripped]
          | false => simp [Node.bare, Node.build, Placement.bare, latch, stripped, Placement.below,
              Placement.close]

end Build

/-! ## Steps on bare trees -/

namespace Node

theorem declared_bare (make : Nat → Node) (indices : List Nat) (first second : List (Nat × Node))
    (same : bareElements first = bareElements second) :
    bareElements (indices.foldl (fun elements index => putAt index (make index) elements) first) =
      bareElements
        (indices.foldl (fun elements index => putAt index (make index) elements) second) := by
  induction indices generalizing first second with
  | nil => exact same
  | cons index rest ih => exact ih _ _ (by rw [bareElements_putAt, bareElements_putAt, same])

/-- What a step makes of the bare tree, and how it answers, does not hang on what is wanted. -/
theorem perform_bare (step : Step) (node : Node) :
    (step.perform node.bare).map stripped = (step.perform node).map stripped := by
  have twice := node.bare_bare
  cases step with
  | declare indices =>
      cases node with
      | list place intent make declared elements =>
          cases latch : place.built with
          | true =>
              have built : place.bare.built = true := latch
              simp only [Step.perform, declare?, bare, latch, built, ↓reduceIte, Option.map_some]
              exact congrArg (fun node => some (node, _)) twice
          | false =>
              have unbuilt : place.bare.built = false := latch
              injection twice with _ _ _ _ members
              simp only [Step.perform, declare?, bare, latch, unbuilt, Bool.false_eq_true,
                ↓reduceIte, Option.map_some, stripped, declared_bare make indices _ _ members]
              rfl
      | «attribute» => rfl
      | key => rfl
  | build visit above =>
      simp only [Step.perform, Option.map_some, build_bare, stripped, bare_bare]
  | project =>
      cases node with
      | «attribute» place intent children =>
          injection twice with _ _ members
          simp only [Step.perform, project, bare, Option.map_some, stripped, members,
            place.mark_bare]
      | list place intent make declared elements =>
          injection twice with _ _ _ _ members
          simp only [Step.perform, project, bare, Option.map_some, stripped, members,
            place.mark_bare]
      | key place condition =>
          simp only [Step.perform, project, bare, Option.map_some, stripped, place.mark_bare]
  | andCondition | setUpdate =>
      cases node with
      | «attribute» | list => exact congrArg (fun node => some (node, _)) twice
      | key => rfl
  | andKeyCondition condition =>
      cases node with
      | key => exact congrArg (fun node => some (node, _)) twice
      | «attribute» | list => rfl

theorem performAt_bare (place : Route) (step : Step) (tree : Node) :
    (tree.bare.performAt? place step).map stripped = (tree.performAt? place step).map stripped := by
  induction place generalizing tree with
  | nil => exact perform_bare step tree
  | cons hop rest ih =>
      have lifted (node : Node) (same : node.bare = tree.bare)
          (results : Option (Node × Except Error Unit)) :
          (results.bind fun result => some (node.replace hop result.1, result.2)).map stripped =
            (results.map stripped).map fun result =>
              (tree.bare.replace hop result.1, result.2) := by
        cases results with
        | none => rfl
        | some result => simp [stripped, bare_replace, same]
      simp only [performAt?, changeAt?, Option.bind_eq_bind, bare_enter]
      cases tree.enter? hop with
      | none => rfl
      | some entered =>
          have deeper := ih entered
          simp only [performAt?] at deeper
          simp only [Option.map_some, Option.bind_some, Option.pure_def, lifted _ tree.bare_bare,
            lifted tree rfl, deeper]

/-- Two trees that differ in what is wanted at most take a step alike. -/
theorem performAt_of_bare (place : Route) (step : Step) (first second after : Node)
    (answer : Except Error Unit) (same : first.bare = second.bare)
    (done : first.performAt? place step = some (after, answer)) :
    ∃ other, second.performAt? place step = some (other, answer) ∧ other.bare = after.bare := by
  have taken := performAt_bare place step first
  rw [same, performAt_bare place step second, done] at taken
  obtain ⟨⟨other, answered⟩, performed, alike⟩ := Option.map_eq_some_iff.mp taken
  obtain ⟨sameBare, rfl⟩ := Prod.mk.inj alike
  exact ⟨other, performed, sameBare⟩

theorem wants_bare (step : Step) (wants : step.wants = true) (node after : Node)
    (answer : Except Error Unit) (done : step.perform node = some (after, answer)) :
    after.bare = node.bare := by
  cases step with
  | declare | build => cases wants
  | project =>
      have result : node.project = (after, answer) := Option.some.inj done
      have same : node.project.1 = after := by rw [result]
      rw [← same]
      cases node <;> simp only [project, bare, Placement.bare_mark]
  | andCondition | setUpdate | andKeyCondition =>
      obtain ⟨changed, found, same⟩ := Option.map_eq_some_iff.mp done
      cases same
      cases node <;> cases found <;> rfl

@[simp]
theorem bare_indices (node : Node) :
    node.bare.elements.map Prod.fst = node.elements.map Prod.fst := by
  cases node with
  | list place intent make declared elements => exact bareElements_keys elements
  | «attribute» | key => rfl

/-- What is wanted of a node is no part of the bare tree. -/
theorem performAt_wants_bare (place : Route) (step : Step) (wants : step.wants = true)
    (tree after : Node) (answer : Except Error Unit) (sound : tree.Everywhere Sound)
    (done : tree.performAt? place step = some (after, answer)) : after.bare = tree.bare := by
  induction place generalizing tree after with
  | nil => exact wants_bare step wants tree after answer done
  | cons hop rest ih =>
      simp only [performAt?, changeAt?, Option.bind_eq_bind, Option.bind_eq_some_iff] at done
      obtain ⟨entered, found, ⟨changed, answered⟩, deeper, same⟩ := done
      simp only [Option.pure_def, Option.some.injEq, Prod.mk.injEq] at same
      obtain ⟨rfl, rfl⟩ := same
      have lower := ih entered changed (sound.deeper entered (enter_stored hop tree entered found))
        deeper
      have inside : tree.bare.enter? hop = some entered.bare := by rw [bare_enter, found]; rfl
      rw [bare_replace, lower]
      exact replace_same tree.bare entered.bare hop (by simpa using sound.here.distinct) inside

end Node

/-! ## Kinds of steps -/

namespace Step

/-- The step declares elements, which makes nodes anew. -/
def declares : Step → Bool
  | .declare _ => true
  | .build _ _ | .project | .andCondition _ | .setUpdate _ _ | .andKeyCondition _ => false

def builds : Step → Bool
  | .build _ _ => true
  | .declare _ | .project | .andCondition _ | .setUpdate _ _ | .andKeyCondition _ => false

/-- The step attaches a condition, an operation or a key condition: it asks for no latch. -/
def attaches : Step → Bool
  | .andCondition _ | .setUpdate _ _ | .andKeyCondition _ => true
  | .declare _ | .build _ _ | .project => false

theorem renews_of_declares (step : Step) (answer : Except Error Unit) (place route : Route)
    (other : step.declares = false) : step.renews answer place route = false := by
  cases step with
  | declare => cases other
  | build | project | andCondition | setUpdate | andKeyCondition => rfl

theorem not_declares_of_wants (step : Step) (wants : step.wants = true) :
    step.declares = false := by
  cases step <;> first | rfl | cases wants

theorem not_declares_of_builds (step : Step) (builds : step.builds = true) :
    step.declares = false := by
  cases step <;> first | rfl | cases builds

theorem wants_of_attaches (step : Step) (attaches : step.attaches = true) :
    step.wants = true := by
  cases step <;> first | rfl | cases attaches

theorem demand_of_builds (step : Step) (builds : step.builds = true) (answer : Except Error Unit)
    (wanted : Node.Demand) : step.demand answer wanted = wanted := by
  cases step <;> first | rfl | cases builds

end Step

/-- Steps on nodes that can be taken in either order: both want something, and of different nodes,
or one attaches something and the other one builds. -/
def Independent (first second : Route × Step) : Prop :=
  (first.2.wants = true ∧ second.2.wants = true ∧ first.1 ≠ second.1) ∨
    (first.2.attaches = true ∧ second.2.builds = true) ∨
    (first.2.builds = true ∧ second.2.attaches = true)

theorem Independent.not_declares {first second : Route × Step}
    (independent : Independent first second) :
    first.2.declares = false ∧ second.2.declares = false := by
  rcases independent with ⟨wants, wanted, _⟩ | ⟨attaches, builds⟩ | ⟨builds, attaches⟩
  · exact ⟨first.2.not_declares_of_wants wants, second.2.not_declares_of_wants wanted⟩
  · exact ⟨first.2.not_declares_of_wants (first.2.wants_of_attaches attaches),
      second.2.not_declares_of_builds builds⟩
  · exact ⟨first.2.not_declares_of_builds builds,
      second.2.not_declares_of_wants (second.2.wants_of_attaches attaches)⟩

namespace Node

/-- What is wanted of a node changes by the steps that are carried out there. -/
theorem performAt_demand (place : Route) (step : Step) (other : step.declares = false)
    (tree after : Node) (answer : Except Error Unit)
    (done : tree.performAt? place step = some (after, answer)) (route : Route) :
    (after.get? route).map demand = ((tree.get? route).map demand).map fun wanted =>
      if route = place then step.demand answer wanted else wanted := by
  have kept := step.renews_of_declares answer place route other
  cases found : tree.get? route with
  | none =>
      cases stands : after.get? route with
      | none => rfl
      | some now =>
          obtain ⟨before, stood, _⟩ := (performAt_origin place done route now stands).earlier kept
          rw [found] at stood
          cases stood
  | some node =>
      obtain ⟨now, stands, ⟨here, performed⟩ | ⟨away, alike⟩⟩ :=
        performAt_kept place done route kept node found
      · simp only [stands, Option.map_some, if_pos here]
        exact congrArg some (perform_demand step node now answer performed)
      · simp only [stands, Option.map_some, if_neg away]
        exact congrArg some alike.demand

theorem changeAt_defined {α : Type} (change : Node → Option (Node × α)) (route : Route)
    (tree node changed : Node) (answer : α) (found : tree.get? route = some node)
    (made : change node = some (changed, answer)) :
    ∃ after, tree.changeAt? change route = some (after, answer) := by
  induction route generalizing tree with
  | nil =>
      cases found
      exact ⟨changed, made⟩
  | cons hop rest ih =>
      obtain ⟨entered, member, inside⟩ := Option.bind_eq_some_iff.mp found
      obtain ⟨lower, deeper⟩ := ih entered inside
      exact ⟨tree.replace hop lower, by simp [changeAt?, member, deeper]⟩

theorem changeIntent_isSome (change : Intent → Intent) (node : Node) :
    (node.changeIntent? change).isSome = node.intent?.isSome := by
  cases node <;> rfl

theorem andKeyCondition_isSome (next : KeyCondition) (node : Node) :
    (node.andKeyCondition? next).isSome = node.intent?.isNone := by
  cases node <;> rfl

/-- Whether something can be attached to a node is seen from what is wanted of it. -/
theorem attach_defined (step : Step) (attaches : step.attaches = true) (first second after : Node)
    (answer : Except Error Unit) (same : second.demand = first.demand)
    (done : step.perform first = some (after, answer)) :
    ∃ other, step.perform second = some (other, answer) := by
  have intent : second.intent? = first.intent? := congrArg Demand.intent same
  have defined : (step.perform second).isSome = true := by
    have given := congrArg Option.isSome done
    cases step with
    | declare | build | project => cases attaches
    | andCondition | setUpdate =>
        simpa [Step.perform, changeIntent_isSome, intent] using given
    | andKeyCondition =>
        simpa [Step.perform, andKeyCondition_isSome, intent] using given
  obtain ⟨⟨other, answered⟩, performed⟩ := Option.isSome_iff_exists.mp defined
  have accepted (node after : Node) (answer : Except Error Unit)
      (done : step.perform node = some (after, answer)) : answer = .ok () := by
    cases step with
    | declare | build | project => cases attaches
    | andCondition | setUpdate | andKeyCondition =>
        obtain ⟨changed, _, same⟩ := Option.map_eq_some_iff.mp done
        cases same
        rfl
  rw [accepted first after answer done, ← accepted second other answered performed]
  exact ⟨other, performed⟩

theorem performAt_attach (place : Route) (step : Step) (attaches : step.attaches = true)
    (first second after : Node) (answer : Except Error Unit)
    (same : (second.get? place).map demand = (first.get? place).map demand)
    (done : first.performAt? place step = some (after, answer)) :
    ∃ other, second.performAt? place step = some (other, answer) := by
  obtain ⟨node, changed, found, performed, _⟩ := changeAt_found _ place first after answer done
  rw [found] at same
  obtain ⟨other, stands, alike⟩ := Option.map_eq_some_iff.mp same
  obtain ⟨made, carried⟩ := attach_defined step attaches node other changed answer alike performed
  exact changeAt_defined _ place second other made answer stands carried

theorem performAt_builds_demand (place : Route) (step : Step) (builds : step.builds = true)
    (tree after : Node) (answer : Except Error Unit)
    (done : tree.performAt? place step = some (after, answer)) (route : Route) :
    (after.get? route).map demand = (tree.get? route).map demand := by
  rw [performAt_demand place step (step.not_declares_of_builds builds) tree after answer done route]
  cases tree.get? route <;> simp [step.demand_of_builds builds]

/-! ## Steps in the other order -/

variable {tree middle after : Node} {first second : Route × Step} {one other : Except Error Unit}

/-- Independent steps can also be carried out in the other order, with the same answers. -/
theorem performAt_swap_bare (sound : tree.Everywhere Sound) (independent : Independent first second)
    (done : tree.performAt? first.1 first.2 = some (middle, one))
    (later : middle.performAt? second.1 second.2 = some (after, other)) :
    ∃ between final, tree.performAt? second.1 second.2 = some (between, other) ∧
      between.performAt? first.1 first.2 = some (final, one) ∧ final.bare = after.bare := by
  have middleSound := (step_sound tree middle first.1 first.2 one sound done).1
  rcases independent with ⟨wants, wanted, _⟩ | ⟨attaches, builds⟩ | ⟨builds, attaches⟩
  · -- Neither step changes the bare tree, and each asks for nothing but the bare tree.
    have same := performAt_wants_bare first.1 first.2 wants tree middle one sound done
    have kept :=
      performAt_wants_bare second.1 second.2 wanted middle after other middleSound later
    obtain ⟨between, taken, alike⟩ := performAt_of_bare _ _ middle tree after other same later
    obtain ⟨final, rest, equal⟩ :=
      performAt_of_bare _ _ tree between middle one (by rw [alike, kept, same]) done
    exact ⟨between, final, taken, rest, equal.trans kept.symm⟩
  · -- The build finds the same bare tree, and leaves what the attaching step asks for.
    have wants := first.2.wants_of_attaches attaches
    have same := performAt_wants_bare first.1 first.2 wants tree middle one sound done
    obtain ⟨between, taken, alike⟩ := performAt_of_bare _ _ middle tree after other same later
    have demands := performAt_builds_demand second.1 second.2 builds tree between other taken
    obtain ⟨final, rest⟩ := performAt_attach first.1 first.2 attaches tree between middle one
      (demands first.1) done
    have betweenSound := (step_sound tree between second.1 second.2 other sound taken).1
    have kept := performAt_wants_bare first.1 first.2 wants between final one betweenSound rest
    exact ⟨between, final, taken, rest, kept.trans alike⟩
  · have wants := second.2.wants_of_attaches attaches
    have demands := performAt_builds_demand first.1 first.2 builds tree middle one done
    obtain ⟨between, taken⟩ := performAt_attach second.1 second.2 attaches middle tree after other
      (demands second.1).symm later
    have same := performAt_wants_bare second.1 second.2 wants tree between other sound taken
    have kept :=
      performAt_wants_bare second.1 second.2 wants middle after other middleSound later
    obtain ⟨final, rest, equal⟩ := performAt_of_bare _ _ tree between middle one same.symm done
    exact ⟨between, final, taken, rest, equal.trans kept.symm⟩

theorem demand_comm (independent : Independent first second) (route : Route) (wanted : Demand) :
    (let changed := if route = first.1 then first.2.demand one wanted else wanted
      if route = second.1 then second.2.demand other changed else changed) =
      (let changed := if route = second.1 then second.2.demand other wanted else wanted
        if route = first.1 then first.2.demand one changed else changed) := by
  by_cases here : route = first.1
  · by_cases there : route = second.1
    · simp only [if_pos here, if_pos there]
      rcases independent with ⟨_, _, apart⟩ | ⟨_, builds⟩ | ⟨builds, _⟩
      · exact absurd (here.symm.trans there) apart
      · rw [second.2.demand_of_builds builds, second.2.demand_of_builds builds]
      · rw [first.2.demand_of_builds builds, first.2.demand_of_builds builds]
    · simp only [if_pos here, if_neg there]
  · simp only [if_neg here]

/-- Independent steps can be taken in either order: the tree is the same and so are the answers. -/
theorem performAt_swap (sound : tree.Everywhere Sound) (independent : Independent first second)
    (done : tree.performAt? first.1 first.2 = some (middle, one))
    (later : middle.performAt? second.1 second.2 = some (after, other)) :
    ∃ between, tree.performAt? second.1 second.2 = some (between, other) ∧
      between.performAt? first.1 first.2 = some (after, one) := by
  obtain ⟨between, final, taken, rest, bare⟩ := performAt_swap_bare sound independent done later
  obtain ⟨firstOther, secondOther⟩ := independent.not_declares
  have betweenSound := (step_sound tree between second.1 second.2 other sound taken).1
  have finalSound := (step_sound between final first.1 first.2 one betweenSound rest).1
  have same : final = after := by
    refine eq_of_bare final after finalSound bare fun route => ?_
    rw [performAt_demand first.1 first.2 firstOther between final one rest route,
      performAt_demand second.1 second.2 secondOther tree between other taken route,
      performAt_demand second.1 second.2 secondOther middle after other later route,
      performAt_demand first.1 first.2 firstOther tree middle one done route]
    cases (tree.get? route).map demand with
    | none => rfl
    | some wanted => exact congrArg some (demand_comm independent route wanted).symm
  exact ⟨between, taken, same ▸ rest⟩

end Node

end ItemExpressions

import ItemExpressions.Proofs.BuildOutcome

/-!
What a step leaves as it was. A step is carried out in one place of a tree. Nodes above that place
and beside it stay as they are. Below it, a build gives out paths and does not touch what is wanted
of a node, and a declaration makes the declared elements anew and leaves the others alone.
-/

namespace ItemExpressions

theorem lookup_cons_of_ne {α : Type} (index : Nat) (first : Nat × α) (rest : List (Nat × α))
    (different : index ≠ first.1) : (first :: rest).lookup index = rest.lookup index := by
  have apart : (index == first.1) = false := by simpa using different
  rw [List.lookup_cons, apart]

theorem putAt_lookup {α : Type} (index other : Nat) (member : α) (members : List (Nat × α)) :
    (putAt index member members).lookup other =
      if other = index then some member else members.lookup other := by
  induction members with
  | nil =>
      by_cases same : other = index
      · simp [putAt, same]
      · rw [putAt, if_neg same, lookup_cons_of_ne other _ [] same]
  | cons first rest ih =>
      by_cases here : first.1 = index
      · rw [putAt, if_pos here]
        by_cases same : other = index
        · simp [same]
        · rw [if_neg same, lookup_cons_of_ne other _ rest same,
            lookup_cons_of_ne other first rest (here ▸ same)]
      · rw [putAt, if_neg here]
        by_cases there : other = first.1
        · obtain ⟨key, value⟩ := first
          cases there
          simp [here]
        · rw [lookup_cons_of_ne other first _ there, lookup_cons_of_ne other first rest there, ih]

theorem lookup_replaced {α : Type} (index other : Nat) (member replacement : α)
    (members : List (Nat × α)) (found : members.lookup index = some member) :
    (members.map fun stored => if stored.1 = index then (index, replacement) else stored).lookup
      other = if other = index then some replacement else members.lookup other := by
  have changed := lookup_map
    (fun key stored => if key = index then replacement else stored) members other
  have entries : (members.map fun stored =>
      if stored.1 = index then (index, replacement) else stored) =
      members.map fun stored => (stored.1, if stored.1 = index then replacement else stored.2) := by
    apply List.map_congr_left
    intro stored _
    by_cases same : stored.1 = index <;> simp [same]
  rw [entries, changed]
  by_cases same : other = index
  · simp [same, found]
  · simp [same]

/-- The step says what is wanted of a node: that it be marked, a condition or an operation. -/
def Step.wants : Step → Bool
  | .project | .andCondition _ | .setUpdate _ _ | .andKeyCondition _ => true
  | .declare _ | .build _ _ => false

/-- The step makes anew what the route leads to: it declares an element on the way there. -/
def Step.renews (step : Step) (answer : Except Error Unit) (place route : Route) : Bool :=
  match step with
  | .declare indices =>
      answer.isOk && indices.any fun index => (place ++ [Hop.element index]).isPrefixOf route
  | .build _ _ | .project | .andCondition _ | .setUpdate _ _ | .andKeyCondition _ => false

theorem Step.renews_iff (step : Step) (answer : Except Error Unit) (place route : Route) :
    step.renews answer place route = true ↔ ∃ indices index inner, step = .declare indices ∧
      answer = .ok () ∧ index ∈ indices ∧ route = place ++ .element index :: inner := by
  constructor
  · intro renewed
    cases step with
    | declare indices =>
        obtain ⟨accepted, through⟩ := Bool.and_eq_true_iff.mp renewed
        obtain ⟨index, member, onTheWay⟩ := List.any_eq_true.mp through
        obtain ⟨inner, same⟩ := List.isPrefixOf_iff_prefix.mp onTheWay
        cases answer with
        | error error => cases accepted
        | ok _ => exact ⟨indices, index, inner, rfl, rfl, member, by simp [← same]⟩
    | build | project | andCondition | setUpdate | andKeyCondition => cases renewed
  · rintro ⟨indices, index, inner, rfl, rfl, member, rfl⟩
    have through : (place ++ [Hop.element index]).isPrefixOf (place ++ .element index :: inner) :=
      List.isPrefixOf_iff_prefix.mpr ⟨inner, by simp⟩
    exact Bool.and_eq_true_iff.mpr ⟨rfl, List.any_eq_true.mpr ⟨index, member, through⟩⟩

/-- A step at a node itself, or above what the route leads to, does not make that anew. -/
@[simp]
theorem Step.renews_nil (step : Step) (answer : Except Error Unit) (place : Route) :
    step.renews answer place [] = false := by
  cases step <;> simp [renews]

@[simp]
theorem Step.renews_cons (step : Step) (answer : Except Error Unit) (hop next : Hop)
    (place route : Route) : step.renews answer (hop :: place) (next :: route) =
      (next == hop && step.renews answer place route) := by
  by_cases same : next = hop
  · cases step <;> simp [renews, same]
  · have apart : (hop == next) = false := by simpa using Ne.symm same
    have off : (next == hop) = false := by simpa using same
    cases step <;> simp [renews, List.isPrefixOf, apart, off]

/-- An element is made anew alone only where its list declares it. -/
theorem Step.renews_element (step : Step) (answer : Except Error Unit) (place route : Route)
    (index : Nat) (renewed : step.renews answer place (route ++ [.element index]) = true)
    (kept : step.renews answer place route = false) : place = route := by
  obtain ⟨indices, other, inner, declares, accepted, member, through⟩ :=
    (step.renews_iff answer place _).mp renewed
  rcases List.eq_nil_or_concat inner with rfl | ⟨rest, last, rfl⟩
  · exact (List.append_inj' through rfl).1.symm
  · -- The declared element stands further up, and the list was made together with it.
    have longer : route ++ [.element index] = (place ++ .element other :: rest) ++ [last] := by
      simpa using through
    have onTheWay := (List.append_inj' longer rfl).1
    have together := (step.renews_iff answer place route).mpr
      ⟨indices, other, rest, declares, accepted, member, onTheWay⟩
    rw [kept] at together
    cases together

namespace Node

/-! ## Nodes that differ in their paths at most -/

/-- What a list makes its elements with. -/
def make? : Node → Option (Nat → Node)
  | .list _ _ make _ _ => some make
  | .attribute _ _ _ | .key _ _ => none

theorem Sound.made {list : Node} (sound : list.Sound) (make : Nat → Node)
    (factory : list.make? = some make) (index : Nat) : (make index).Fresh := by
  have makes := sound.makes
  cases list with
  | list =>
      cases factory
      exact makes index
  | «attribute» | key => cases factory

-- A path may differ as long as the latch is open; behind it the place is kept.
structure Alike (before after : Node) : Prop extends SameDemand before after where
  make : after.make? = before.make?
  kept : before.place.Kept after.place
  indices : after.elements.map Prod.fst = before.elements.map Prod.fst

theorem Alike.refl (node : Node) : node.Alike node :=
  ⟨⟨rfl, rfl, rfl, rfl, rfl, rfl⟩, rfl, .refl _, rfl⟩

/-- The same routes lead somewhere in both trees, and to nodes that are alike. -/
def AlikeThroughout (before after : Node) : Prop :=
  ∀ route, Option.Rel Alike (before.get? route) (after.get? route)

theorem rel_refl {related : Node → Node → Prop} (each : ∀ node, related node node)
    (found : Option Node) : Option.Rel related found found := by
  cases found with
  | none => exact .none
  | some node => exact .some (each node)

theorem AlikeThroughout.refl (node : Node) : node.AlikeThroughout node :=
  fun route => rel_refl Alike.refl (node.get? route)

theorem AlikeThroughout.of_members {before after : Node} (here : before.Alike after)
    (members : ∀ hop, Option.Rel AlikeThroughout (before.enter? hop) (after.enter? hop)) :
    before.AlikeThroughout after := by
  intro route
  cases route with
  | nil => exact .some here
  | cons hop rest =>
      have entered := members hop
      rw [get?, get?]
      generalize before.enter? hop = old, after.enter? hop = new at entered
      cases entered with
      | none => exact .none
      | some deeper => exact deeper rest

/-! ## Builds -/

section Build

variable (visit : Visit)

theorem buildChildren_alike (route : Route) (above : Path) (children : List Node)
    (builds : ∀ child ∈ children, ∀ route,
      child.AlikeThroughout (child.build visit route above).1) (start position : Nat) :
    Option.Rel AlikeThroughout children[position]?
      (buildChildren visit route above start children).1[position]? := by
  induction children generalizing start position with
  | nil => exact .none
  | cons first rest ih =>
      obtain ⟨head, tail⟩ := List.forall_mem_cons.mp builds
      have built := head (route ++ [.child start])
      rw [buildChildren]
      split
      · next child error failed =>
        -- The children after the failed one were not tried.
        rw [failed] at built
        cases position with
        | zero => exact .some built
        | succ later => exact rel_refl AlikeThroughout.refl rest[later]?
      · next child passed =>
        rw [passed] at built
        cases position with
        | zero => exact .some built
        | succ later => exact ih tail (start + 1) later

theorem settle_alike (attempts : List (Nat × Node × Except Error Unit)) (start : List (Nat × Node))
    (tried : ∀ index element answer, attempts.lookup index = some (element, answer) →
      ∃ before, start.lookup index = some before ∧ before.AlikeThroughout element)
    (order : List Nat) (elements : List (Nat × Node))
    (alike : ∀ index, Option.Rel AlikeThroughout (start.lookup index) (elements.lookup index)) :
    ∀ index, Option.Rel AlikeThroughout (start.lookup index)
      ((settle attempts order elements).1.lookup index) := by
  induction order generalizing elements with
  | nil => exact alike
  | cons first rest ih =>
      have placed (element : Node) (answer : Except Error Unit)
          (found : attempts.lookup first = some (element, answer)) (index : Nat) :
          Option.Rel AlikeThroughout (start.lookup index)
            ((putAt first element elements).lookup index) := by
        rw [putAt_lookup]
        by_cases same : index = first
        · obtain ⟨before, stored, related⟩ := tried first element answer found
          rw [if_pos same, same, stored]
          exact .some related
        · rw [if_neg same]
          exact alike index
      rw [settle]
      split
      · exact ih elements alike
      · next element found => exact ih _ (placed element _ found)
      · next element error found => exact placed element _ found

/-- A build, also one that fails, touches paths and latches only, and none of those that were built
before. -/
theorem build_alike (node : Node) (route : Route) (above : Path) :
    node.AlikeThroughout (node.build visit route above).1 := by
  induction node using stored_induction generalizing route above with
  | step node ih =>
      cases latch : node.place.built with
      | true =>
          rw [build_of_built visit route above node latch]
          exact .refl node
      | false =>
          cases node with
          | «attribute» place intent children =>
              have unbuilt : place.built = false := latch
              have members := buildChildren_alike visit route (place.below above).path children
                (fun child member route => ih child member route _) 0
              simp only [Node.build, unbuilt, Bool.false_eq_true, ↓reduceIte]
              refine .of_members ⟨⟨rfl, rfl, rfl, rfl, rfl, rfl⟩, rfl, .of_unbuilt _ _ unbuilt rfl,
                rfl⟩ fun hop => ?_
              cases hop with
              | child position => exact members position
              | element index => exact .none
          | list place intent make declared elements =>
              have unbuilt : place.built = false := latch
              have members := settle_alike
                (attemptElements visit route (place.below above).path elements) elements
                (fun index element answer found => by
                  rw [attemptElements_lookup] at found
                  obtain ⟨before, stored, same⟩ := Option.map_eq_some_iff.mp found
                  refine ⟨before, stored, ?_⟩
                  have built := ih before (enter_stored (.element index) _ before stored)
                    (route ++ [.element index]) (place.below above).path
                  rw [same] at built
                  exact built)
                (visit.order route (elements.map Prod.fst)) elements
                (fun index => rel_refl AlikeThroughout.refl (elements.lookup index))
              have visited : ∀ index ∈ visit.order route (elements.map Prod.fst),
                  index ∈ elements.map Prod.fst :=
                fun index => (visit.each_once route (elements.map Prod.fst)).mem_iff.mp
              simp only [Node.build, unbuilt, Bool.false_eq_true, ↓reduceIte]
              refine .of_members ⟨⟨rfl, rfl, rfl, rfl, rfl, rfl⟩, rfl, .of_unbuilt _ _ unbuilt rfl,
                settle_keys _ _ elements visited⟩ fun hop => ?_
              cases hop with
              | child position => exact .none
              | element index => exact members index
          | key place condition =>
              have unbuilt : place.built = false := latch
              simp only [Node.build, unbuilt, Bool.false_eq_true, ↓reduceIte]
              refine .of_members ⟨⟨rfl, rfl, rfl, rfl, rfl, rfl⟩, rfl, .of_unbuilt _ _ unbuilt rfl,
                rfl⟩ fun hop => ?_
              cases hop <;> exact .none

end Build

/-! ## Where nodes come from -/

/-- Where the node that a route leads to after a step comes from: the step made it anew, or changed
it in its place, or left it alone. -/
inductive Origin (tree : Node) (place : Route) (step : Step) (answer : Except Error Unit)
    (route : Route) (node : Node) : Prop where
  | made (indices : List Nat) (index : Nat) (inner : Route) (list : Node) (make : Nat → Node)
      (declares : step = .declare indices) (accepted : answer = .ok ()) (member : index ∈ indices)
      (through : route = place ++ .element index :: inner) (found : tree.get? place = some list)
      (factory : list.make? = some make) (inside : (make index).get? inner = some node)
  | changed (before : Node) (here : route = place) (found : tree.get? place = some before)
      (done : step.perform before = some (node, answer))
  | left (before : Node) (away : route ≠ place) (kept : step.renews answer place route = false)
      (found : tree.get? route = some before) (alike : before.Alike node)

section Origin

variable {tree after : Node} {step : Step} {answer : Except Error Unit}

/-- What is wanted of a node is written down in the node itself; its members stay as they are. -/
theorem wants_members (wants : step.wants = true)
    (done : step.perform tree = some (after, answer)) (hop : Hop) :
    after.enter? hop = tree.enter? hop := by
  cases step with
  | declare | build => cases wants
  | project =>
      have result : tree.project = (after, answer) := Option.some.inj done
      have same : tree.project.1 = after := by rw [result]
      rw [← same]
      cases tree <;> cases hop <;> rfl
  | andCondition | setUpdate | andKeyCondition =>
      obtain ⟨changed, found, same⟩ := Option.map_eq_some_iff.mp done
      cases same
      cases tree <;> cases found <;> cases hop <;> rfl

/-- A step that leaves the members of its node alone leaves alone all that is below them. -/
theorem Origin.of_same_members (hop : Hop) (rest : Route) (node : Node)
    (kept : ∀ route, step.renews answer [] route = false)
    (members : after.enter? hop = tree.enter? hop)
    (stands : after.get? (hop :: rest) = some node) :
    Origin tree [] step answer (hop :: rest) node := by
  rw [get?, members] at stands
  exact .left node (List.cons_ne_nil hop rest) (kept _) stands (.refl node)

theorem declared_lookup (make : Nat → Node) (indices : List Nat) (elements : List (Nat × Node))
    (index : Nat) :
    (indices.foldl (fun elements index => putAt index (make index) elements) elements).lookup
      index = if index ∈ indices then some (make index) else elements.lookup index := by
  induction indices generalizing elements with
  | nil => simp
  | cons first rest ih =>
      rw [List.foldl_cons, ih, putAt_lookup]
      by_cases later : index ∈ rest
      · simp [later]
      · by_cases same : index = first <;> simp [later, same]

theorem declare_origin (indices : List Nat) (hop : Hop) (rest : Route) (node : Node)
    (done : tree.declare? indices = some (after, answer))
    (stands : after.get? (hop :: rest) = some node) :
    Origin tree [] (.declare indices) answer (hop :: rest) node := by
  have alone (kept : (Step.declare indices).renews answer [] (hop :: rest) = false)
      (members : after.enter? hop = tree.enter? hop) :
      Origin tree [] (.declare indices) answer (hop :: rest) node := by
    rw [get?, members] at stands
    exact .left node (List.cons_ne_nil hop rest) kept stands (.refl node)
  cases tree with
  | list place intent make declared elements =>
      cases latch : place.built with
      | true =>
          simp only [declare?, latch, ↓reduceIte, Option.some.injEq, Prod.mk.injEq] at done
          obtain ⟨rfl, rfl⟩ := done
          exact alone rfl rfl
      | false =>
          simp only [declare?, latch, Bool.false_eq_true, ↓reduceIte, Option.some.injEq,
            Prod.mk.injEq] at done
          obtain ⟨rfl, rfl⟩ := done
          cases hop with
          | child position => simp [get?, enter?, children] at stands
          | element index =>
              have found := declared_lookup make indices elements index
              by_cases member : index ∈ indices
              · rw [if_pos member] at found
                rw [get?, enter?, element?, found] at stands
                exact .made indices index rest _ make rfl rfl member rfl rfl rfl stands
              · rw [if_neg member] at found
                refine alone (Bool.eq_false_iff.mpr fun renewed => member ?_) found
                -- Only declaring this very index would have renewed what is below it.
                obtain ⟨_, other, inner, same, _, inside, through⟩ :=
                  (Step.renews_iff _ _ _ _).mp renewed
                cases same
                cases through
                exact inside
  | «attribute» => simp [declare?] at done
  | key => simp [declare?] at done

theorem perform_origin (done : step.perform tree = some (after, answer)) (route : Route)
    (node : Node) (stands : after.get? route = some node) :
    Origin tree [] step answer route node := by
  cases route with
  | nil =>
      cases stands
      exact .changed tree rfl rfl done
  | cons hop rest =>
      cases step with
      | declare indices => exact declare_origin indices hop rest node done stands
      | build visit above =>
          have result : tree.build visit [] above = (after, answer) := Option.some.inj done
          have alike := build_alike visit tree [] above (hop :: rest)
          rw [result, stands] at alike
          generalize earlier : tree.get? (hop :: rest) = old at alike
          cases alike with
          | some related => exact .left _ (List.cons_ne_nil hop rest) rfl earlier related
      | project | andCondition | setUpdate | andKeyCondition =>
          refine .of_same_members hop rest node (fun _ => rfl) ?_ stands
          exact wants_members rfl done hop

theorem replace_enter (node entered replacement : Node) (hop next : Hop)
    (found : node.enter? hop = some entered) :
    (node.replace hop replacement).enter? next =
      if next = hop then some replacement else node.enter? next := by
  cases node with
  | «attribute» place intent children =>
      cases hop with
      | child position =>
          have inside : position < children.length := (List.getElem?_eq_some_iff.mp found).1
          cases next with
          | child other => by_cases same : other = position <;> grind [replace, enter?, children]
          | element index => simp [replace, enter?, element?]
      | element index => simp [enter?, element?] at found
  | list place intent make declared elements =>
      cases hop with
      | child position => simp [enter?, children] at found
      | element index =>
          have stored : elements.lookup index = some entered := found
          cases next with
          | child position => simp [replace, enter?, children]
          | element other =>
              simpa [replace, enter?, element?] using
                lookup_replaced index other entered replacement elements stored
  | key place condition => cases hop <;> simp [enter?, children, element?] at found

/-- A change is made of the node that the route leads to, and what it gives stands there then. -/
theorem changeAt_found {α : Type} (change : Node → Option (Node × α)) (route : Route)
    (tree after : Node) (answer : α) (done : tree.changeAt? change route = some (after, answer)) :
    ∃ node changed, tree.get? route = some node ∧ change node = some (changed, answer) ∧
      after.get? route = some changed := by
  induction route generalizing tree after with
  | nil => exact ⟨tree, after, rfl, done, rfl⟩
  | cons hop rest ih =>
      simp only [changeAt?, Option.bind_eq_bind, Option.bind_eq_some_iff] at done
      obtain ⟨entered, member, ⟨lower, answered⟩, deeper, same⟩ := done
      simp only [Option.pure_def, Option.some.injEq, Prod.mk.injEq] at same
      obtain ⟨rfl, rfl⟩ := same
      obtain ⟨node, changed, found, made, stands⟩ := ih entered lower deeper
      refine ⟨node, changed, ?_, made, ?_⟩
      · rw [get?, member]
        exact found
      · rw [get?, replace_enter tree entered lower hop hop member, if_pos rfl]
        exact stands

theorem replace_alike (node replacement : Node) (hop : Hop) :
    node.Alike (node.replace hop replacement) := by
  have indices := replace_keys node hop replacement
  cases node <;> cases hop <;> exact ⟨⟨rfl, rfl, rfl, rfl, rfl, rfl⟩, rfl, .refl _, indices⟩

theorem Origin.below {entered : Node} {hop : Hop} {place route : Route} {node : Node}
    (found : tree.enter? hop = some entered)
    (origin : Origin entered place step answer route node) :
    Origin tree (hop :: place) step answer (hop :: route) node := by
  have deeper (inner : Route) : tree.get? (hop :: inner) = entered.get? inner := by
    rw [get?, found]
    rfl
  cases origin with
  | made indices index inner list make declares accepted member through stood factory inside =>
      exact .made indices index inner list make declares accepted member
        (congrArg (hop :: ·) through) ((deeper place).trans stood) factory inside
  | changed before here stood done =>
      exact .changed before (congrArg (hop :: ·) here) ((deeper place).trans stood) done
  | left before away kept stood alike =>
      exact .left before (by simpa using away) (by simpa using kept)
        ((deeper route).trans stood) alike

/-- Each node that stands after a step was made by it, changed by it in its place, or left alone. -/
theorem performAt_origin (place : Route) (done : tree.performAt? place step = some (after, answer))
    (route : Route) (node : Node) (stands : after.get? route = some node) :
    Origin tree place step answer route node := by
  induction place generalizing tree after route with
  | nil => exact perform_origin done route node stands
  | cons hop rest ih =>
      simp only [performAt?, changeAt?, Option.bind_eq_bind, Option.bind_eq_some_iff] at done
      obtain ⟨entered, found, ⟨changed, answered⟩, deeper, same⟩ := done
      simp only [Option.pure_def, Option.some.injEq, Prod.mk.injEq] at same
      obtain ⟨rfl, rfl⟩ := same
      cases route with
      | nil =>
          cases stands
          exact .left tree (List.cons_ne_nil hop rest).symm (step.renews_nil _ _) rfl
            (replace_alike tree changed hop)
      | cons next inner =>
          rw [get?, replace_enter tree entered changed hop next found] at stands
          by_cases there : next = hop
          · subst next
            rw [if_pos rfl] at stands
            exact .below found (ih deeper inner stands)
          · rw [if_neg there] at stands
            exact .left node (by simp [there]) (by simp [there]) stands (.refl node)

/-- What a step does not make anew stays where it is. -/
theorem perform_stays (done : step.perform tree = some (after, answer)) (route : Route)
    (kept : step.renews answer [] route = false) (node : Node)
    (found : tree.get? route = some node) : ∃ now, after.get? route = some now := by
  cases route with
  | nil => exact ⟨after, rfl⟩
  | cons hop rest =>
      have alone (members : after.enter? hop = tree.enter? hop) :
          ∃ now, after.get? (hop :: rest) = some now :=
        ⟨node, by rw [get?, members]; exact found⟩
      cases step with
      | declare indices =>
          cases tree with
          | list place intent make declared elements =>
              simp only [Step.perform, declare?, Option.some.injEq] at done
              cases latch : place.built with
              | true =>
                  rw [latch, if_pos rfl] at done
                  cases done
                  exact alone rfl
              | false =>
                  rw [latch, if_neg Bool.false_ne_true] at done
                  cases done
                  cases hop with
                  | child position => exact alone rfl
                  | element index =>
                      have absent : index ∉ indices := fun member =>
                        Bool.eq_false_iff.mp kept ((Step.renews_iff _ _ _ _).mpr
                          ⟨indices, index, rest, rfl, rfl, member, rfl⟩)
                      exact alone
                        ((declared_lookup make indices elements index).trans (if_neg absent))
          | «attribute» => simp [Step.perform, declare?] at done
          | key => simp [Step.perform, declare?] at done
      | build visit above =>
          have result : tree.build visit [] above = (after, answer) := Option.some.inj done
          have alike := build_alike visit tree [] above (hop :: rest)
          rw [result, found] at alike
          generalize after.get? (hop :: rest) = later at alike
          cases alike with
          | some related => exact ⟨_, rfl⟩
      | project | andCondition | setUpdate | andKeyCondition =>
          exact alone (wants_members rfl done hop)

theorem performAt_stays (place : Route) (done : tree.performAt? place step = some (after, answer))
    (route : Route) (kept : step.renews answer place route = false) (node : Node)
    (found : tree.get? route = some node) : ∃ now, after.get? route = some now := by
  induction place generalizing tree after route with
  | nil => exact perform_stays done route kept node found
  | cons hop rest ih =>
      simp only [performAt?, changeAt?, Option.bind_eq_bind, Option.bind_eq_some_iff] at done
      obtain ⟨entered, member, ⟨changed, answered⟩, deeper, same⟩ := done
      simp only [Option.pure_def, Option.some.injEq, Prod.mk.injEq] at same
      obtain ⟨rfl, rfl⟩ := same
      cases route with
      | nil => exact ⟨_, rfl⟩
      | cons next inner =>
          rw [get?, replace_enter tree entered changed hop next member]
          by_cases there : next = hop
          · subst next
            rw [get?, member] at found
            rw [if_pos rfl]
            exact ih deeper inner (by simpa using kept) found
          · rw [if_neg there]
            exact ⟨node, found⟩

/-- What a step does not make anew, it changes in its place or leaves alone. -/
theorem performAt_kept (place : Route) (done : tree.performAt? place step = some (after, answer))
    (route : Route) (kept : step.renews answer place route = false) (node : Node)
    (found : tree.get? route = some node) : ∃ now, after.get? route = some now ∧
      (route = place ∧ step.perform node = some (now, answer) ∨
        route ≠ place ∧ node.Alike now) := by
  obtain ⟨now, stands⟩ := performAt_stays place done route kept node found
  refine ⟨now, stands, ?_⟩
  cases performAt_origin place done route now stands with
  | made indices index inner _ _ declares accepted member through _ _ _ =>
      have renewed := (step.renews_iff answer place route).mpr
        ⟨indices, index, inner, declares, accepted, member, through⟩
      rw [kept] at renewed
      cases renewed
  | changed before here stood performed =>
      rw [← here, found] at stood
      cases stood
      exact .inl ⟨here, performed⟩
  | left before away _ stood alike =>
      rw [found] at stood
      cases stood
      exact .inr ⟨away, alike⟩

end Origin

/-! ## Names and factories -/

/-- No step changes what a node is called, or what it makes its elements with. -/
theorem perform_identity (step : Step) (node after : Node) (answer : Except Error Unit)
    (done : step.perform node = some (after, answer)) :
    after.name = node.name ∧ after.make? = node.make? := by
  cases step with
  | declare indices =>
      cases node with
      | list place intent make declared elements =>
          simp only [Step.perform, declare?, Option.some.injEq] at done
          split at done <;> cases done <;> exact ⟨rfl, rfl⟩
      | «attribute» => simp [Step.perform, declare?] at done
      | key => simp [Step.perform, declare?] at done
  | build visit above =>
      have result : node.build visit [] above = (after, answer) := Option.some.inj done
      have alike := build_alike visit node [] above []
      rw [result] at alike
      cases alike with
      | some related => exact ⟨related.name, related.make⟩
  | project =>
      have result : node.project = (after, answer) := Option.some.inj done
      have same : node.project.1 = after := by rw [result]
      rw [← same]
      cases node <;> exact ⟨(Placement.mark_frame _).1, rfl⟩
  | andCondition | setUpdate | andKeyCondition =>
      obtain ⟨changed, found, same⟩ := Option.map_eq_some_iff.mp done
      cases same
      cases node <;> cases found <;> exact ⟨rfl, rfl⟩

/-! ## What is wanted -/

structure Demand where
  projected : Bool
  intent : Option Intent
  keyCondition : Option KeyCondition

def demand (node : Node) : Demand := ⟨node.place.projected, node.intent?, node.keyCondition⟩

theorem Alike.demand {before after : Node} (alike : before.Alike after) :
    after.demand = before.demand := by
  rw [Node.demand, Node.demand, alike.projected, alike.intent, alike.keyCondition]

end Node

/-- What is wanted of a node after a step that was carried out there and answered so. -/
def Step.demand (answer : Except Error Unit) : Step → Node.Demand → Node.Demand
  | .project, wanted => { wanted with projected := wanted.projected || answer.isOk }
  | .andCondition condition, wanted =>
      { wanted with intent := wanted.intent.map (·.andCondition condition) }
  | .setUpdate operation payload, wanted =>
      { wanted with intent := wanted.intent.map (·.setUpdate operation payload) }
  | .andKeyCondition condition, wanted =>
      { wanted with keyCondition := some (.andThen wanted.keyCondition condition) }
  | .declare _, wanted | .build _ _, wanted => wanted

theorem Placement.mark_projected (place : Placement) :
    place.mark.1.projected = (place.projected || place.mark.2.isOk) := by
  rw [mark]
  split
  · exact (Bool.or_true _).symm
  · exact (Bool.or_false _).symm

namespace Node

theorem perform_demand (step : Step) (node after : Node) (answer : Except Error Unit)
    (done : step.perform node = some (after, answer)) :
    after.demand = step.demand answer node.demand := by
  cases step with
  | declare indices =>
      cases node with
      | list place intent make declared elements =>
          simp only [Step.perform, declare?, Option.some.injEq] at done
          split at done <;> cases done <;> rfl
      | «attribute» => simp [Step.perform, declare?] at done
      | key => simp [Step.perform, declare?] at done
  | build visit above =>
      have result : node.build visit [] above = (after, answer) := Option.some.inj done
      have alike := build_alike visit node [] above []
      rw [result] at alike
      cases alike with
      | some related => exact related.demand
  | project =>
      cases node <;> cases done <;>
        exact congrArg (Demand.mk · _ _) (Placement.mark_projected _)
  | andCondition | setUpdate | andKeyCondition =>
      obtain ⟨changed, found, same⟩ := Option.map_eq_some_iff.mp done
      cases same
      cases node <;> cases found <;> rfl

/-! ## Declared nodes -/

theorem Fresh.at_route {tree : Node} (fresh : tree.Fresh) (route : Route) (node : Node)
    (found : tree.get? route = some node) : node.Fresh := by
  induction route generalizing tree with
  | nil => exact Option.some.inj found ▸ fresh
  | cons hop rest ih =>
      obtain ⟨entered, step, inside⟩ := Option.bind_eq_some_iff.mp found
      exact ih (fresh.deeper entered (enter_stored hop tree entered step)) inside

theorem Fresh.no_element {node : Node} (fresh : node.Fresh) (index : Nat) :
    node.element? index = none := by
  cases fresh <;> rfl

/-- What was not made anew was there before, under the same name and with the same factory. -/
theorem Origin.earlier {tree : Node} {step : Step} {answer : Except Error Unit}
    {place route : Route} {node : Node} (origin : Origin tree place step answer route node)
    (kept : step.renews answer place route = false) :
    ∃ before, tree.get? route = some before ∧ node.name = before.name ∧
      node.make? = before.make? := by
  cases origin with
  | made indices index inner list make declares accepted member through found factory inside =>
      have renewed := (step.renews_iff answer place route).mpr
        ⟨indices, index, inner, declares, accepted, member, through⟩
      rw [kept] at renewed
      cases renewed
  | changed before here found done =>
      exact ⟨before, here ▸ found, perform_identity step before node answer done⟩
  | left before away kept found alike => exact ⟨before, found, alike.name, alike.make⟩

/-- What was made anew stands in an element that the list at the place of the step made. -/
theorem Origin.renewed {tree : Node} {step : Step} {answer : Except Error Unit}
    {place route : Route} {node : Node} (origin : Origin tree place step answer route node)
    (renewed : step.renews answer place route = true) : ∃ index inner list make,
      route = place ++ .element index :: inner ∧ tree.get? place = some list ∧
      list.make? = some make ∧ (make index).get? inner = some node := by
  cases origin with
  | made indices index inner list make declares accepted member through found factory inside =>
      exact ⟨index, inner, list, make, through, found, factory, inside⟩
  | changed before here found done =>
      obtain ⟨_, index, inner, _, _, _, through⟩ := (step.renews_iff _ _ _).mp renewed
      simp [here] at through
  | left before away kept found alike =>
      rw [renewed] at kept
      cases kept

theorem Origin.fresh {tree : Node} {step : Step} {answer : Except Error Unit}
    {place route : Route} {node : Node} (origin : Origin tree place step answer route node)
    (sound : tree.Everywhere Sound) (renewed : step.renews answer place route = true) :
    node.Fresh := by
  obtain ⟨index, inner, list, make, _, found, factory, inside⟩ := origin.renewed renewed
  have made := (sound.at_route place list found).here.made make factory index
  exact made.at_route inner node inside

theorem get_element (tree node element : Node) (route : Route) (index : Nat)
    (found : tree.get? route = some node) :
    tree.get? (route ++ [.element index]) = some element ↔ node.element? index = some element := by
  rw [get_append, found, Option.bind_some, get?, enter?]
  cases node.element? index <;> rfl

/-- However a list is treated, its elements are named as it makes them. -/
theorem element_named (tree : Node) (reachable : tree.Reachable) (route : Route) (node : Node)
    (make : Nat → Node) (index : Nat) (element : Node) (found : tree.get? route = some node)
    (factory : node.make? = some make) (stored : node.element? index = some element) :
    element.name = (make index).name := by
  induction reachable generalizing route node make index element with
  | fresh tree fresh =>
      rw [(fresh.at_route route node found).no_element index] at stored
      cases stored
  | step tree after place step answer reachable done ih =>
      have list := performAt_origin place done route node found
      have member := performAt_origin place done (route ++ [.element index]) element
        ((get_element after node element route index found).mpr stored)
      by_cases listRenewed : step.renews answer place route = true
      · -- A list that was just made has no elements yet.
        have fresh := list.fresh (reachable_sound tree reachable) listRenewed
        rw [fresh.no_element index] at stored
        cases stored
      · have kept := Bool.eq_false_iff.mpr listRenewed
        obtain ⟨before, stood, _, sameMake⟩ := list.earlier kept
        by_cases renewed : step.renews answer place (route ++ [.element index]) = true
        · -- The list is the one that was told to declare the element.
          obtain rfl := step.renews_element answer place route index renewed kept
          obtain ⟨other, inner, maker, made, through, placed, making, inside⟩ :=
            member.renewed renewed
          obtain ⟨same, rfl⟩ := List.cons.inj (List.append_cancel_left through)
          cases same
          rw [stood] at placed
          cases placed
          rw [factory, making] at sameMake
          cases sameMake
          cases inside
          rfl
        · obtain ⟨earlier, present, sameName, _⟩ := member.earlier (Bool.eq_false_iff.mpr renewed)
          rw [sameName]
          exact ih route before make index earlier stood (sameMake ▸ factory)
            ((get_element tree before earlier route index stood).mp present)

end Node

end ItemExpressions

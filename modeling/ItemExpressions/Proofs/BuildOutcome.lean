import ItemExpressions.Proofs.Traversal

/-!
Outcomes of a build. A build succeeds where nothing was built before, and then its result is the
tree seated below the given path: no order of visits has a part in it. Otherwise it ends at a node
that was built before, with the path which that node had; which of them it is depends on the order.
-/

namespace ItemExpressions

/-! ## The seated tree -/

/-- The place that a successful build makes of an unbuilt one. -/
def Placement.seat (above : Path) (place : Placement) : Placement :=
  (place.below above).close (.ok ())

mutual

/-- The tree with all its nodes built, each at the path that follows from the one above it. -/
def Node.seated (above : Path) : Node → Node
  | .attribute place intent children =>
      .attribute (place.seat above) intent (seatedAll (above.below place.name) children)
  | .list place intent make declared elements =>
      .list (place.seat above) intent make declared
        (seatedElements (above.below place.name) elements)
  | .key place condition => .key (place.seat above) condition

def seatedAll (above : Path) : List Node → List Node
  | [] => []
  | first :: rest => first.seated above :: seatedAll above rest

def seatedElements (above : Path) : List (Nat × Node) → List (Nat × Node)
  | [] => []
  | (index, element) :: rest => (index, element.seated above) :: seatedElements above rest

end

theorem seatedAll_eq (above : Path) (nodes : List Node) :
    seatedAll above nodes = nodes.map (Node.seated above) := by
  induction nodes with
  | nil => rfl
  | cons first rest ih => simp [seatedAll, ih]

theorem seatedElements_eq (above : Path) (elements : List (Nat × Node)) :
    seatedElements above elements = elements.map fun entry => (entry.1, entry.2.seated above) := by
  induction elements with
  | nil => rfl
  | cons first rest ih => simp [seatedElements, ih]

/-! ## Settling elements -/

section Settle

variable {α : Type} (attempts : List (Nat × α × Except Error Unit))

/-- Attempts either all succeed, or end with the error of one of them. -/
theorem settle_outcome (order : List Nat) (elements : List (Nat × α))
    (tried : ∀ index ∈ order, ∃ attempt, attempts.lookup index = some attempt) :
    ((settle attempts order elements).2 = .ok () ∧
      ∀ index ∈ order, ∃ element, attempts.lookup index = some (element, .ok ())) ∨
    ∃ index ∈ order, ∃ element error, attempts.lookup index = some (element, .error error) ∧
      (settle attempts order elements).2 = .error error := by
  induction order generalizing elements with
  | nil => exact Or.inl ⟨rfl, by simp⟩
  | cons index rest ih =>
      obtain ⟨⟨element, answer⟩, found⟩ := tried index List.mem_cons_self
      have later : ∀ other ∈ rest, ∃ attempt, attempts.lookup other = some attempt :=
        fun other visited => tried other (List.mem_cons_of_mem _ visited)
      cases answer with
      | error error =>
          exact Or.inr ⟨index, List.mem_cons_self, element, error, found, by simp [settle, found]⟩
      | ok _ =>
          simp only [settle, found]
          rcases ih (putAt index element elements) later with ⟨done, all⟩ | ⟨other, member, failed⟩
          · exact Or.inl ⟨done, List.forall_mem_cons.mpr ⟨⟨element, found⟩, all⟩⟩
          · exact Or.inr ⟨other, List.mem_cons_of_mem _ member, failed⟩

/-- Two lists over the same indices, each once, are the same if one has no other entries. -/
theorem eq_of_same_keys (first second : List (Nat × α))
    (keys : first.map Prod.fst = second.map Prod.fst) (distinct : (second.map Prod.fst).Nodup)
    (inside : ∀ entry ∈ first, entry ∈ second) : first = second := by
  have lengths : first.length = second.length := by simpa using congrArg List.length keys
  refine List.ext_getElem lengths fun position before after => ?_
  have same : (first[position]).1 = (second[position]).1 := by
    have found := congrArg (fun indices : List Nat => indices[position]?) keys
    simpa [before, after] using found
  exact List.inj_on_of_nodup_map distinct (inside _ (List.getElem_mem before))
    (List.getElem_mem after) same

end Settle

namespace Node

def Unbuilt (node : Node) : Prop := node.place.built = false

/-! ## One level of a build -/

section Build

variable (visit : Visit)

/-- What can come of building a node: nothing in it was built and it is seated, or a node in it was
built and the build ends there. -/
inductive Outcome (above : Path) (node : Node) (result : Node × Except Error Unit) : Prop where
  | seated (unbuilt : node.Everywhere Unbuilt) (done : result = (node.seated above, .ok ()))
  | refused (inner : Route) (earlier : Node) (found : node.get? inner = some earlier)
      (built : earlier.place.built = true)
      (failed : result.2 = .error (.alreadyBuilt earlier.place.path))
      (latch : result.1.place.built = node.place.built)

theorem stored_enter (node child : Node) (sound : node.Sound) (member : child ∈ node.stored) :
    ∃ hop, node.enter? hop = some child := by
  cases node with
  | «attribute» place intent children =>
      obtain ⟨position, found⟩ := List.mem_iff_getElem?.mp member
      exact ⟨.child position, found⟩
  | list place intent make declared elements =>
      obtain ⟨⟨index, element⟩, stored, rfl⟩ := List.mem_map.mp member
      exact ⟨.element index, lookup_of_mem index element elements sound.distinct stored⟩
  | key => simp [stored] at member

theorem buildChildren_outcome (above : Path) (children : List Node)
    (builds : ∀ child ∈ children, ∀ route,
      Outcome above child (child.build visit route above)) (route : Route) (position : Nat) :
    ((∀ child ∈ children, child.Everywhere Unbuilt) ∧
      buildChildren visit route above position children =
        (children.map (seated above), .ok ())) ∨
    ∃ child ∈ children, ∃ inner earlier, child.get? inner = some earlier ∧
      earlier.place.built = true ∧
      (buildChildren visit route above position children).2 =
        .error (.alreadyBuilt earlier.place.path) := by
  induction children generalizing position with
  | nil => exact Or.inl ⟨by simp, rfl⟩
  | cons first rest ih =>
      obtain ⟨head, tail⟩ := List.forall_mem_cons.mp builds
      simp only [buildChildren]
      rcases head (route ++ [.child position]) with
        ⟨unbuilt, done⟩ | ⟨inner, earlier, found, built, failed, _⟩
      · rw [done]
        rcases ih tail (position + 1) with ⟨others, built⟩ | ⟨child, member, failed⟩
        · exact Or.inl ⟨List.forall_mem_cons.mpr ⟨unbuilt, others⟩, by simp [built]⟩
        · exact Or.inr ⟨child, List.mem_cons_of_mem _ member, failed⟩
      · refine Or.inr ⟨first, List.mem_cons_self, inner, earlier, found, built, ?_⟩
        generalize first.build visit (route ++ [.child position]) above = result at failed
        obtain ⟨child, answer⟩ := result
        cases failed
        rfl

theorem buildElements_outcome (above : Path) (elements : List (Nat × Node))
    (distinct : (elements.map Prod.fst).Nodup)
    (builds : ∀ entry ∈ elements, ∀ route,
      Outcome above entry.2 (entry.2.build visit route above)) (route : Route) :
    let built := settle (attemptElements visit route above elements)
      (visit.order route (elements.map Prod.fst)) elements
    ((∀ entry ∈ elements, entry.2.Everywhere Unbuilt) ∧
      built = (elements.map fun entry => (entry.1, entry.2.seated above), .ok ())) ∨
    ∃ entry ∈ elements, ∃ inner earlier, entry.2.get? inner = some earlier ∧
      earlier.place.built = true ∧ built.2 = .error (.alreadyBuilt earlier.place.path) := by
  intro built
  have tried := attemptElements_tried visit route above elements distinct
  have visited (index : Nat) :
      index ∈ visit.order route (elements.map Prod.fst) ↔ index ∈ elements.map Prod.fst :=
    (visit.each_once route (elements.map Prod.fst)).mem_iff
  rcases settle_outcome _ _ elements tried with
    ⟨success, all⟩ | ⟨index, member, element, error, found, failed⟩
  · have seats (entry : Nat × Node) (stored : entry ∈ elements) :
        entry.2.Everywhere Unbuilt ∧ entry.2.build visit (route ++ [.element entry.1]) above =
          (entry.2.seated above, .ok ()) := by
      obtain ⟨element, found⟩ := all entry.1 ((visited entry.1).mpr (List.mem_map_of_mem stored))
      rw [attemptElements_lookup, lookup_of_mem _ entry.2 elements distinct stored,
        Option.map_some, Option.some.injEq] at found
      rcases builds entry stored (route ++ [.element entry.1]) with
        ⟨unbuilt, done⟩ | ⟨_, _, _, _, failed, _⟩
      · exact ⟨unbuilt, done⟩
      · rw [found] at failed
        cases failed
    refine Or.inl ⟨fun entry stored => (seats entry stored).1, Prod.ext ?_ success⟩
    have keys : built.1.map Prod.fst = elements.map Prod.fst :=
      settle_keys _ _ elements fun index member => (visited index).mp member
    apply eq_of_same_keys
    · rw [keys, List.map_map]
      rfl
    · rw [List.map_map]
      exact distinct
    · intro entry member
      rcases settle_entry _ _ elements tried distinct entry member with
        ⟨old, unvisited⟩ | ⟨answer, found, _⟩
      · exact absurd ((visited entry.1).mpr (List.mem_map_of_mem old)) (unvisited success)
      · obtain ⟨element, stored, same⟩ :=
          attemptElements_stored visit route above elements _ _ found
        rw [(seats _ stored).2] at same
        exact List.mem_map.mpr ⟨_, stored, Prod.ext rfl (congrArg Prod.fst same)⟩
  · obtain ⟨before, stored, same⟩ := attemptElements_stored visit route above elements _ _ found
    rcases builds _ stored (route ++ [.element index]) with
      ⟨_, done⟩ | ⟨inner, earlier, inside, latched, refused, _⟩
    · rw [same] at done
      cases done
    · rw [same] at refused
      exact Or.inr ⟨_, stored, inner, earlier, inside, latched, failed.trans refused⟩

/-- A build either seats the whole tree, or ends at a node that was built before. -/
theorem build_outcome (node : Node) (sound : node.Everywhere Sound) (route : Route)
    (above : Path) : Outcome above node (node.build visit route above) := by
  induction node using stored_induction generalizing route above with
  | step node ih =>
      cases latch : node.place.built with
      | true =>
          rw [build_of_built visit route above node latch]
          exact .refused [] node rfl latch rfl rfl
      | false =>
          have entered (child : Node) (member : child ∈ node.stored) (inner : Route)
              (earlier : Node) (found : child.get? inner = some earlier) :
              ∃ outer, node.get? outer = some earlier := by
            obtain ⟨hop, reached⟩ := stored_enter node child sound.here member
            exact ⟨hop :: inner, by rw [get?, reached]; exact found⟩
          cases node with
          | «attribute» place intent children =>
              have unbuilt : place.built = false := latch
              have members := buildChildren_outcome visit (place.below above).path children
                (fun child member route =>
                  ih child member (sound.deeper child member) route _) route 0
              simp only [Node.build, unbuilt, Bool.false_eq_true, ↓reduceIte]
              rcases members with ⟨clear, done⟩ | ⟨child, member, inner, earlier, found, built, failed⟩
              · rw [done]
                refine .seated (.intro _ latch clear) ?_
                rw [seated, seatedAll_eq]
                rfl
              · obtain ⟨outer, reached⟩ := entered child member inner earlier found
                rw [failed]
                exact .refused outer earlier reached built rfl latch.symm
          | list place intent make declared elements =>
              have unbuilt : place.built = false := latch
              have stored (entry : Nat × Node) (member : entry ∈ elements) :
                  entry.2 ∈ (Node.list place intent make declared elements).stored :=
                List.mem_map_of_mem member
              have members := buildElements_outcome visit (place.below above).path elements
                sound.here.distinct
                (fun entry member route =>
                  ih entry.2 (stored entry member) (sound.deeper _ (stored entry member)) route _)
                route
              simp only [Node.build, unbuilt, Bool.false_eq_true, ↓reduceIte]
              rcases members with ⟨clear, done⟩ | ⟨entry, member, inner, earlier, found, built, failed⟩
              · rw [done]
                refine .seated (.intro _ latch (List.forall_mem_map.mpr clear)) ?_
                rw [seated, seatedElements_eq]
                rfl
              · obtain ⟨outer, reached⟩ :=
                  entered entry.2 (stored entry member) inner earlier found
                rw [failed]
                exact .refused outer earlier reached built rfl latch.symm
          | key place condition =>
              have unbuilt : place.built = false := latch
              simp only [Node.build, unbuilt, Bool.false_eq_true, ↓reduceIte]
              exact .seated (.intro _ latch (by simp [Node.stored])) rfl

end Build

/-! ## Routes through the seated tree -/

/-- The path below all of the given nodes, of which each stands in the next. -/
def pathThrough (above : Path) (passed : List Node) : Path :=
  passed.foldr (fun node path => path.below node.name) above

theorem seated_enter (above : Path) (node : Node) (hop : Hop) :
    (node.seated above).enter? hop =
      (node.enter? hop).map (seated (above.below node.name)) := by
  cases node with
  | «attribute» place intent children =>
      cases hop with
      | child position =>
          rw [seated, seatedAll_eq]
          exact List.getElem?_map
      | element index => rfl
  | list place intent make declared elements =>
      cases hop with
      | child position => rfl
      | element index =>
          rw [seated, seatedElements_eq]
          exact lookup_map (fun _ => seated (above.below place.name)) elements index
  | key place condition => cases hop <;> rfl

theorem seated_get (above : Path) (node : Node) (route : Route) :
    (node.seated above).get? route =
      (node.get? route).map (seated (pathThrough above (node.trail route))) := by
  induction route generalizing above node with
  | nil => rfl
  | cons hop rest ih =>
      rw [get?, get?, seated_enter]
      cases reached : node.enter? hop with
      | none => rfl
      | some entered =>
          have passed : pathThrough above (node.trail (hop :: rest)) =
              pathThrough (above.below node.name) (entered.trail rest) := by
            simp [pathThrough, trail, reached]
          rw [passed]
          exact ih (above.below node.name) entered

/-- What a node is called, what it declares and what is wanted of it are the same. -/
structure SameDemand (before after : Node) : Prop where
  name : after.name = before.name
  projected : after.place.projected = before.place.projected
  intent : after.intent? = before.intent?
  keyCondition : after.keyCondition = before.keyCondition
  isList : after.isList = before.isList
  declared : after.declared = before.declared

theorem seated_demand (above : Path) (node : Node) : node.SameDemand (node.seated above) := by
  cases node <;> exact ⟨rfl, rfl, rfl, rfl, rfl, rfl⟩

theorem seated_place (above : Path) (node : Node) :
    (node.seated above).place = node.place.seat above := by
  cases node <;> rfl

/-- A build succeeds just where nothing was built before. Then all nodes are built, at the paths
that their routes spell, nothing else is changed, and every order of visits has the same result. A
build that fails names a node that was built before, and leaves the latch of its own as it was. -/
theorem build_exact (tree : Node) (reachable : tree.Reachable) (route : Route) (node : Node)
    (found : tree.get? route = some node) (visit : Visit) (start : Route) (above : Path) :
    let result := node.build visit start above
    (result.2 = .ok () ↔
      ∀ inner inside, node.get? inner = some inside → inside.place.built = false) ∧
    (result.2 = .ok () →
      (∀ inner, result.1.get? inner = none ↔ node.get? inner = none) ∧
      (∀ inner before after, node.get? inner = some before → result.1.get? inner = some after →
        after.place.built = true ∧
        after.place.path = pathThrough above (before :: node.trail inner) ∧
        before.SameDemand after) ∧
      ∀ other elsewhere, node.build other elsewhere above = result) ∧
    ∀ error, result.2 = .error error → result.1.place.built = node.place.built ∧
      ∃ inner earlier path, node.get? inner = some earlier ∧
        earlier.place.documentPath = some path ∧ error = .alreadyBuilt path := by
  intro result
  have sound := (reachable_sound tree reachable).at_route route node found
  rcases build_outcome visit node sound start above with
    ⟨unbuilt, done⟩ | ⟨inner, earlier, inside, built, failed, latch⟩
  · have seated : result = (node.seated above, .ok ()) := done
    have clear : ∀ inner inside, node.get? inner = some inside → inside.place.built = false :=
      fun inner inside found => (unbuilt.at_route inner inside found).here
    rw [seated]
    refine ⟨⟨fun _ => clear, fun _ => rfl⟩, fun _ => ⟨fun inner => ?_, ?_, ?_⟩, nofun⟩
    · rw [seated_get, Option.map_eq_none_iff]
    · intro inner before after stood stands
      rw [seated_get, stood, Option.map_some, Option.some.injEq] at stands
      subst after
      rw [seated_place]
      exact ⟨rfl, rfl, seated_demand _ before⟩
    · intro other elsewhere
      rcases build_outcome other node sound elsewhere above with
        ⟨_, same⟩ | ⟨inner, earlier, inside, built, _, _⟩
      · exact same
      · exact absurd built (by simp [clear inner earlier inside])
  · have refused : result.2 = .error (.alreadyBuilt earlier.place.path) := failed
    rw [refused]
    refine ⟨⟨nofun, fun clear => ?_⟩, nofun, fun error same =>
      ⟨latch, inner, earlier, earlier.place.path, inside, if_pos built, ?_⟩⟩
    · exact absurd built (by simp [clear inner earlier inside])
    · exact (Except.error.inj same).symm

/-- A person with two phone numbers, whose bank account number is built elsewhere. -/
def prebuild : List (Route × Step) :=
  [([.child 1], .declare [10, 2, 10]), ([.child 2, .child 0], .build .asStored ⟨"old"⟩)]

def prebuilt : Node := (Shape.person.fresh.run? prebuild).getD Shape.person.fresh

def reversed : Visit := ⟨fun _ indices => indices.reverse, fun _ indices => indices.reverse_perm⟩

/-- The phone numbers of this person can be built in any order, the whole person in none. -/
theorem prebuilt_phones_built :
    ∃ phones, prebuilt.get? [.child 1] = some phones ∧
      (∀ inner inside, phones.get? inner = some inside → inside.place.built = false) ∧
      phones.build reversed [.child 1] .root = phones.build .asStored [.child 1] .root ∧
      (prebuilt.build reversed [] .root).2 = .error (.alreadyBuilt ⟨"old.number"⟩) ∧
      ¬ ∀ inner inside, prebuilt.get? inner = some inside → inside.place.built = false := by
  have reachable : prebuilt.Reachable :=
    .run prebuild Shape.person.fresh prebuilt (.fresh _ Shape.person.fresh_declared) rfl
  obtain ⟨clear, done, _⟩ :=
    build_exact prebuilt reachable [.child 1] _ rfl .asStored [.child 1] .root
  obtain ⟨whole, _, _⟩ := build_exact prebuilt reachable [] prebuilt rfl reversed [] .root
  have failed : (prebuilt.build reversed [] .root).2 = .error (.alreadyBuilt ⟨"old.number"⟩) := rfl
  refine ⟨_, rfl, clear.mp rfl, (done rfl).2.2 reversed [.child 1], failed, fun unbuilt => ?_⟩
  have success := whole.mpr unbuilt
  rw [failed] at success
  cases success

end Node

end ItemExpressions

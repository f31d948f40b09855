import ItemExpressions.Proofs.Reachability

/-!
The latch. A node that was built stays built where it is, whatever is done to it or around it. So
below a built node everything is built, each path follows from the path above it and the name, and
each handle carries the path, although builds can start anywhere, end half way, and find elements
that were declared anew.
-/

namespace ItemExpressions

namespace Placement

/-- Built, with a path that follows from the one above and a handle to just that path. -/
structure Seated (above : Path) (place : Placement) : Prop where
  built : place.built = true
  path : place.path = above.below place.name
  handle : place.handle = some place.path

/-- A name never changes, and a place that is built keeps its path and its handle. -/
structure Kept (before after : Placement) : Prop where
  name : after.name = before.name
  latched : before.built = true →
    after.built = true ∧ after.path = before.path ∧ after.handle = before.handle

theorem Kept.refl (place : Placement) : place.Kept place := ⟨rfl, fun built => ⟨built, rfl, rfl⟩⟩

theorem Kept.seated {before after : Placement} (kept : before.Kept after) {above : Path}
    (seated : before.Seated above) : after.Seated above := by
  obtain ⟨built, path, handle⟩ := kept.latched seated.built
  refine ⟨built, ?_, ?_⟩
  · rw [path, kept.name]
    exact seated.path
  · rw [handle, path]
    exact seated.handle

theorem Kept.of_unbuilt (before after : Placement) (unbuilt : before.built = false)
    (name : after.name = before.name) : before.Kept after :=
  ⟨name, fun built => by simp [unbuilt] at built⟩

theorem success_of_close (place : Placement) (result : Except Error Unit)
    (built : (place.close result).built = true) : result = .ok () := by
  cases result with
  | error error => simp [close, Except.isOk, Except.toBool] at built
  | ok _ => rfl

theorem close_seated (above : Path) (place : Placement) (result : Except Error Unit)
    (success : result = .ok ()) : ((place.below above).close result).Seated above := by
  subst result
  exact ⟨rfl, rfl, rfl⟩

theorem mark_frame (place : Placement) :
    place.mark.1.name = place.name ∧ place.mark.1.path = place.path ∧
      place.mark.1.handle = place.handle ∧ place.mark.1.built = place.built := by
  unfold mark
  split <;> exact ⟨rfl, rfl, rfl, rfl⟩

/-- A built place with a handle to its path refers to that path, for whatever action. -/
theorem reference_of_handle (place : Placement) (action : Action) (built : place.built = true)
    (handle : place.handle = some place.path) : place.reference action = .ok place.path := by
  simp [reference, built, handle]

end Placement

namespace Node

/-! ## The invariant -/

def MakesFresh : Node → Prop
  | .list _ _ make _ _ => ∀ index, (make index).Fresh
  | .attribute _ _ _ | .key _ _ => True

-- The last three are what declaring and traversing rely on: one element for each declared index and
-- for no other, and a factory whose elements are as good as those of a declared tree.
structure Sound (node : Node) : Prop where
  handle : node.place.built = true → node.place.handle = some node.place.path
  seated : node.place.built = true → ∀ child ∈ node.stored, child.place.Seated node.place.path
  distinct : (node.elements.map Prod.fst).Nodup
  declared : ∀ index, index ∈ node.elements.map Prod.fst ↔ index ∈ node.declared
  makes : node.MakesFresh

theorem fresh_sound (node : Node) (fresh : node.Fresh) : node.Sound := by
  cases fresh with
  | «attribute» name children fresh =>
      constructor <;> simp [place, elements, declared, MakesFresh, Placement.fresh]
  | list name make fresh =>
      constructor <;> simp [place, elements, declared, MakesFresh, Placement.fresh]
      exact fresh
  | key name => constructor <;> simp [place, elements, declared, MakesFresh, Placement.fresh]

/-- A node that keeps its place, its members and its factory is as sound as before. -/
theorem Everywhere.same_members {before after : Node} (sound : before.Everywhere Sound)
    (path : after.place.path = before.place.path)
    (handle : after.place.handle = before.place.handle)
    (built : after.place.built = before.place.built) (stored : after.stored = before.stored)
    (elements : after.elements = before.elements) (declared : after.declared = before.declared)
    (makes : after.MakesFresh ↔ before.MakesFresh) : after.Everywhere Sound := by
  refine .intro after ⟨?_, ?_, ?_, ?_, makes.mpr sound.here.makes⟩ (stored ▸ sound.deeper)
  · rw [built, handle, path]; exact sound.here.handle
  · rw [built, stored, path]; exact sound.here.seated
  · rw [elements]; exact sound.here.distinct
  · rw [elements, declared]; exact sound.here.declared

theorem replace_sound (node entered after : Node) (hop : Hop) (sound : node.Everywhere Sound)
    (found : node.enter? hop = some entered) (deeper : after.Everywhere Sound)
    (kept : entered.place.Kept after.place) :
    (node.replace hop after).Everywhere Sound ∧
      node.place.Kept (node.replace hop after).place := by
  rw [replace_place]
  refine ⟨.intro _ ⟨?_, ?_, ?_, ?_, ?_⟩ ?_, .refl _⟩
  · rw [replace_place]
    exact sound.here.handle
  · rw [replace_place]
    intro built child member
    rcases replace_stored node hop after child member with replaced | old
    · -- If the node is built, the member was seated, and what became of it keeps the seat.
      have seated := sound.here.seated built entered (enter_stored hop node entered found)
      exact replaced ▸ kept.seated seated
    · exact sound.here.seated built child old
  · rw [replace_keys]
    exact sound.here.distinct
  · rw [replace_keys, replace_declared]
    exact sound.here.declared
  · have makes := sound.here.makes
    cases node <;> cases hop <;> exact makes
  · intro child member
    rcases replace_stored node hop after child member with replaced | old
    · exact replaced ▸ deeper
    · exact sound.deeper child old

end Node

/-! ## Settling elements in any order -/

section Settle

variable {α : Type} (attempts : List (Nat × α × Except Error Unit))

/-- Attempts on stored elements only replace members; no index comes or goes. -/
theorem settle_keys (order : List Nat) (elements : List (Nat × α))
    (known : ∀ index ∈ order, index ∈ elements.map Prod.fst) :
    (settle attempts order elements).1.map Prod.fst = elements.map Prod.fst := by
  induction order generalizing elements with
  | nil => rfl
  | cons index rest ih =>
      have stored := known index List.mem_cons_self
      have later : ∀ other ∈ rest, other ∈ elements.map Prod.fst :=
        fun other member => known other (List.mem_cons_of_mem _ member)
      have same (element : α) :
          (putAt index element elements).map Prod.fst = elements.map Prod.fst := by
        rw [putAt_keys, if_pos stored]
      simp only [settle]
      split
      · exact ih elements later
      · next element _ =>
        rw [ih (putAt index element elements) (by rw [same]; exact later), same]
      · next element _ _ => exact same element

/-- A member afterwards is what its attempt gave, or it was there before and is not yet visited.
When all succeeded there is none of the second kind. -/
theorem settle_entry (order : List Nat) (elements : List (Nat × α))
    (tried : ∀ index ∈ order, ∃ attempt, attempts.lookup index = some attempt)
    (distinct : (elements.map Prod.fst).Nodup) (entry : Nat × α)
    (member : entry ∈ (settle attempts order elements).1) :
    (entry ∈ elements ∧ ((settle attempts order elements).2 = .ok () → entry.1 ∉ order)) ∨
      ∃ answer, attempts.lookup entry.1 = some (entry.2, answer) ∧
        ((settle attempts order elements).2 = .ok () → answer = .ok ()) := by
  induction order generalizing elements with
  | nil => exact Or.inl ⟨member, fun _ => List.not_mem_nil⟩
  | cons index rest ih =>
      obtain ⟨⟨element, answer⟩, found⟩ := tried index List.mem_cons_self
      have later : ∀ other ∈ rest, ∃ attempt, attempts.lookup other = some attempt :=
        fun other visited => tried other (List.mem_cons_of_mem _ visited)
      have placed := putAt_entry index element elements distinct entry
      -- An error ends the attempts here; a success goes on with the new member in its place.
      cases answer with
      | error error =>
          simp only [settle, found] at member ⊢
          rcases placed member with rfl | ⟨_, old⟩
          · exact Or.inr ⟨.error error, found, fun success => by cases success⟩
          · exact Or.inl ⟨old, fun success => by cases success⟩
      | ok _ =>
          simp only [settle, found] at member ⊢
          rcases ih _ later (putAt_nodup index element elements distinct) member with
            ⟨kept, unvisited⟩ | attempted
          · rcases placed kept with rfl | ⟨different, old⟩
            · exact Or.inr ⟨.ok (), found, fun _ => rfl⟩
            · refine Or.inl ⟨old, fun success visited => ?_⟩
              rcases List.mem_cons.mp visited with here | there
              · exact different here
              · exact unvisited success there
          · exact Or.inr attempted

end Settle

/-! ## Builds -/

section Build

variable (visit : Visit)

/-- What a build below `above` makes of a sound node, whether it succeeds or ends half way. -/
structure BuildsSoundly (above : Path) (node : Node) (result : Node × Except Error Unit) :
    Prop where
  sound : result.1.Everywhere Node.Sound
  kept : node.place.Kept result.1.place
  seated : result.2 = .ok () → result.1.place.Seated above

theorem buildChildren_sound (route : Route) (above : Path) (children : List Node)
    (sound : ∀ child ∈ children, child.Everywhere Node.Sound)
    (builds : ∀ child ∈ children, ∀ route,
      BuildsSoundly above child (child.build visit route above))
    (position : Nat) :
    let built := buildChildren visit route above position children
    (∀ child ∈ built.1, child.Everywhere Node.Sound) ∧
      (built.2 = .ok () → ∀ child ∈ built.1, child.place.Seated above) := by
  induction children generalizing position with
  | nil => simp [buildChildren]
  | cons first rest ih =>
      obtain ⟨firstSound, restSound⟩ := List.forall_mem_cons.mp sound
      obtain ⟨firstBuilds, restBuilds⟩ := List.forall_mem_cons.mp builds
      have head := firstBuilds (route ++ [.child position])
      have tail := ih restSound restBuilds (position + 1)
      simp only [buildChildren]
      split
      · next child error failed =>
        -- The children after the failed one were not tried and are as they were.
        rw [failed] at head
        refine ⟨List.forall_mem_cons.mpr ⟨head.sound, restSound⟩, fun success => by cases success⟩
      · next child passed =>
        rw [passed] at head
        refine ⟨List.forall_mem_cons.mpr ⟨head.sound, tail.1⟩, fun success => ?_⟩
        exact List.forall_mem_cons.mpr ⟨head.seated rfl, tail.2 success⟩

theorem attemptElements_eq (route : Route) (above : Path) (elements : List (Nat × Node)) :
    attemptElements visit route above elements = elements.map fun entry =>
      (entry.1, entry.2.build visit (route ++ [.element entry.1]) above) := by
  induction elements with
  | nil => rfl
  | cons first rest ih => simp [attemptElements, ih]

theorem attemptElements_lookup (route : Route) (above : Path) (elements : List (Nat × Node))
    (index : Nat) : (attemptElements visit route above elements).lookup index =
      (elements.lookup index).map fun element =>
        element.build visit (route ++ [.element index]) above := by
  rw [attemptElements_eq]
  exact lookup_map (fun key element => element.build visit (route ++ [.element key]) above)
    elements index

/-- An attempt is the build of a stored element. -/
theorem attemptElements_stored (route : Route) (above : Path) (elements : List (Nat × Node))
    (index : Nat) (result : Node × Except Error Unit)
    (found : (attemptElements visit route above elements).lookup index = some result) :
    ∃ element, (index, element) ∈ elements ∧
      element.build visit (route ++ [.element index]) above = result := by
  rw [attemptElements_lookup] at found
  obtain ⟨element, stored, same⟩ := Option.map_eq_some_iff.mp found
  exact ⟨element, mem_of_lookup index element elements stored, same⟩

theorem attemptElements_tried (route : Route) (above : Path) (elements : List (Nat × Node))
    (distinct : (elements.map Prod.fst).Nodup) :
    ∀ index ∈ visit.order route (elements.map Prod.fst),
      ∃ result, (attemptElements visit route above elements).lookup index = some result := by
  intro index member
  have visited := (visit.each_once route (elements.map Prod.fst)).mem_iff.mp member
  obtain ⟨⟨_, element⟩, stored, rfl⟩ := List.mem_map.mp visited
  exact ⟨_, by rw [attemptElements_lookup, lookup_of_mem _ element elements distinct stored]; rfl⟩

theorem buildElements_sound (route : Route) (above : Path) (elements : List (Nat × Node))
    (distinct : (elements.map Prod.fst).Nodup)
    (sound : ∀ entry ∈ elements, entry.2.Everywhere Node.Sound)
    (builds : ∀ entry ∈ elements, ∀ route,
      BuildsSoundly above entry.2 (entry.2.build visit route above)) :
    let built := settle (attemptElements visit route above elements)
      (visit.order route (elements.map Prod.fst)) elements
    built.1.map Prod.fst = elements.map Prod.fst ∧
      (∀ entry ∈ built.1, entry.2.Everywhere Node.Sound) ∧
      (built.2 = .ok () → ∀ entry ∈ built.1, entry.2.place.Seated above) := by
  intro built
  have visited (index : Nat) :
      index ∈ visit.order route (elements.map Prod.fst) ↔ index ∈ elements.map Prod.fst :=
    (visit.each_once route (elements.map Prod.fst)).mem_iff
  have keys : built.1.map Prod.fst = elements.map Prod.fst :=
    settle_keys _ _ elements fun index member => (visited index).mp member
  have tried := attemptElements_tried visit route above elements distinct
  -- A member that no attempt reached is as it was; the others are results of a build.
  have member (entry : Nat × Node) (present : entry ∈ built.1) :
      (entry ∈ elements ∧ built.2 ≠ .ok ()) ∨ ∃ before answer,
        BuildsSoundly above before (entry.2, answer) ∧ (built.2 = .ok () → answer = .ok ()) := by
    rcases settle_entry _ _ elements tried distinct entry present with ⟨old, unvisited⟩ | attempted
    · refine Or.inl ⟨old, fun success => unvisited success ((visited entry.1).mpr ?_)⟩
      exact List.mem_map_of_mem old
    · obtain ⟨answer, result, success⟩ := attempted
      obtain ⟨element, stored, same⟩ := attemptElements_stored visit route above elements _ _ result
      exact Or.inr ⟨element, answer, same ▸ builds _ stored _, success⟩
  refine ⟨keys, fun entry present => ?_, fun success entry present => ?_⟩
  · rcases member entry present with ⟨old, _⟩ | ⟨before, answer, built, _⟩
    · exact sound entry old
    · exact built.sound
  · rcases member entry present with ⟨_, failed⟩ | ⟨before, answer, built, answered⟩
    · exact absurd success failed
    · exact built.seated (answered success)

namespace Node

/-- A node that was built before refuses as it is. -/
theorem build_of_built (route : Route) (above : Path) (node : Node)
    (built : node.place.built = true) :
    node.build visit route above = (node, .error (.alreadyBuilt node.place.path)) := by
  cases node <;> simp_all [Node.build, place]

/-- The members of a node that has just been closed are seated if all of their builds succeeded, and
otherwise the node is not built and promises nothing about them. -/
theorem build_sound (node : Node) (sound : node.Everywhere Sound) (route : Route) (above : Path) :
    BuildsSoundly above node (node.build visit route above) := by
  induction node using stored_induction generalizing route above with
  | step node ih =>
      cases latch : node.place.built with
      | true =>
          rw [build_of_built visit route above node latch]
          exact ⟨sound, .refl _, fun success => by cases success⟩
      | false =>
          cases node with
          | «attribute» place intent children =>
              have unbuilt : place.built = false := latch
              have members := buildChildren_sound visit route (place.below above).path children
                sound.deeper
                (fun child member route => ih child member (sound.deeper child member) route _) 0
              simp only [Node.build, unbuilt, Bool.false_eq_true, ↓reduceIte]
              generalize buildChildren visit route (place.below above).path 0 children = tried
                at members ⊢
              obtain ⟨deeper, seated⟩ := members
              -- The node ends up built only if all below it was, and then that is seated.
              refine ⟨.intro _ ⟨fun _ => rfl, fun built => ?_, List.nodup_nil, fun _ => Iff.rfl,
                trivial⟩ deeper, .of_unbuilt _ _ unbuilt rfl, Placement.close_seated above place _⟩
              exact seated (Placement.success_of_close _ _ built)
          | list place intent make declared elements =>
              have unbuilt : place.built = false := latch
              have stored (entry : Nat × Node) (member : entry ∈ elements) :
                  entry.2 ∈ (Node.list place intent make declared elements).stored :=
                List.mem_map_of_mem member
              have members := buildElements_sound visit route (place.below above).path elements
                sound.here.distinct
                (fun entry member => sound.deeper entry.2 (stored entry member))
                (fun entry member route =>
                  ih entry.2 (stored entry member) (sound.deeper _ (stored entry member)) route _)
              simp only [Node.build, unbuilt, Bool.false_eq_true, ↓reduceIte]
              generalize settle (attemptElements visit route (place.below above).path elements)
                (visit.order route (elements.map Prod.fst)) elements = tried at members ⊢
              obtain ⟨keys, deeper, seated⟩ := members
              refine ⟨.intro _ ⟨fun _ => rfl, fun built => ?_, ?_, ?_, sound.here.makes⟩ ?_,
                .of_unbuilt _ _ unbuilt rfl, Placement.close_seated above place _⟩
              · exact List.forall_mem_map.mpr (seated (Placement.success_of_close _ _ built))
              · simpa only [Node.elements, keys] using sound.here.distinct
              · simpa only [Node.elements, Node.declared, keys] using sound.here.declared
              · exact List.forall_mem_map.mpr deeper
          | key place condition =>
              have unbuilt : place.built = false := latch
              simp only [Node.build, unbuilt, Bool.false_eq_true, ↓reduceIte]
              exact ⟨.intro _ ⟨fun _ => rfl, by simp [stored], List.nodup_nil, fun _ => Iff.rfl,
                trivial⟩ (by simp [stored]), .of_unbuilt _ _ unbuilt rfl,
                fun _ => Placement.close_seated above place _ rfl⟩

end Node

end Build

/-! ## Steps and runs -/

namespace Node

theorem declare_keys (make : Nat → Node) (indices : List Nat) (elements : List (Nat × Node))
    (index : Nat) :
    index ∈ (indices.foldl (fun elements index => putAt index (make index) elements)
        elements).map Prod.fst ↔ index ∈ elements.map Prod.fst ∨ index ∈ indices := by
  induction indices generalizing elements with
  | nil => simp
  | cons first rest ih =>
      rw [List.foldl_cons, ih, putAt_index, List.mem_cons]
      tauto

/-- Declaring keeps one element for each index, and each of them is an old one or a new one. -/
theorem declare_elements (make : Nat → Node) (indices : List Nat) (elements : List (Nat × Node))
    (distinct : (elements.map Prod.fst).Nodup) :
    let written := indices.foldl (fun elements index => putAt index (make index) elements) elements
    (written.map Prod.fst).Nodup ∧
      ∀ entry ∈ written, entry ∈ elements ∨ entry.2 = make entry.1 := by
  induction indices generalizing elements with
  | nil => exact ⟨distinct, fun entry member => Or.inl member⟩
  | cons first rest ih =>
      obtain ⟨kept, members⟩ := ih _ (putAt_nodup first (make first) elements distinct)
      refine ⟨kept, fun entry member => ?_⟩
      rcases members entry member with old | made
      · rcases putAt_entry first (make first) elements distinct entry old with rfl | ⟨_, older⟩
        · exact Or.inr rfl
        · exact Or.inl older
      · exact Or.inr made

theorem declare_sound (indices : List Nat) (node after : Node) (answer : Except Error Unit)
    (sound : node.Everywhere Sound) (done : node.declare? indices = some (after, answer)) :
    after.Everywhere Sound ∧ node.place.Kept after.place := by
  cases node with
  | list place intent make declared elements =>
      cases latch : place.built with
      | true =>
          simp only [declare?, latch, ↓reduceIte, Option.some.injEq, Prod.mk.injEq] at done
          exact done.1 ▸ ⟨sound, .refl _⟩
      | false =>
          simp only [declare?, latch, Bool.false_eq_true, ↓reduceIte, Option.some.injEq,
            Prod.mk.injEq] at done
          obtain ⟨rfl, _⟩ := done
          have keys := declare_keys make indices elements
          obtain ⟨distinct, members⟩ := declare_elements make indices elements sound.here.distinct
          have unbuilt {goal : Prop} (built : place.built = true) : goal := by simp [latch] at built
          -- Only an unbuilt list takes declarations, so its latch has nothing to keep.
          refine ⟨.intro _ ⟨unbuilt, unbuilt, distinct, fun index => ?_, sound.here.makes⟩ ?_,
            .refl _⟩
          · rw [Node.elements, keys index, Node.declared, List.mem_append]
            exact or_congr_left (sound.here.declared index)
          · refine List.forall_mem_map.mpr fun entry member => ?_
            rcases members entry member with old | made
            · exact sound.deeper entry.2 (List.mem_map_of_mem old)
            · exact made ▸ (sound.here.makes entry.1).everywhere fresh_sound _
  | «attribute» => simp [declare?] at done
  | key => simp [declare?] at done

theorem project_sound (node : Node) (sound : node.Everywhere Sound) :
    node.project.1.Everywhere Sound ∧ node.place.Kept node.project.1.place := by
  obtain ⟨name, path, handle, built⟩ := node.place.mark_frame
  have kept : node.place.Kept node.place.mark.1 :=
    ⟨name, fun latched => ⟨built.trans latched, path, handle⟩⟩
  cases node with
  | «attribute» => exact ⟨sound.same_members path handle built rfl rfl rfl Iff.rfl, kept⟩
  | list => exact ⟨sound.same_members path handle built rfl rfl rfl Iff.rfl, kept⟩
  | key => exact ⟨sound.same_members path handle built rfl rfl rfl Iff.rfl, kept⟩

theorem changeIntent_sound (change : Intent → Intent) (node after : Node)
    (sound : node.Everywhere Sound) (done : node.changeIntent? change = some after) :
    after.Everywhere Sound ∧ node.place.Kept after.place := by
  cases node with
  | «attribute» =>
      cases done
      exact ⟨sound.same_members rfl rfl rfl rfl rfl rfl Iff.rfl, .refl _⟩
  | list =>
      cases done
      exact ⟨sound.same_members rfl rfl rfl rfl rfl rfl Iff.rfl, .refl _⟩
  | key => simp [changeIntent?] at done

theorem andKeyCondition_sound (condition : KeyCondition) (node after : Node)
    (sound : node.Everywhere Sound) (done : node.andKeyCondition? condition = some after) :
    after.Everywhere Sound ∧ node.place.Kept after.place := by
  cases node with
  | key =>
      cases done
      exact ⟨sound.same_members rfl rfl rfl rfl rfl rfl Iff.rfl, .refl _⟩
  | «attribute» => simp [andKeyCondition?] at done
  | list => simp [andKeyCondition?] at done

theorem perform_sound (step : Step) (node after : Node) (answer : Except Error Unit)
    (sound : node.Everywhere Sound) (done : step.perform node = some (after, answer)) :
    after.Everywhere Sound ∧ node.place.Kept after.place := by
  cases step with
  | declare indices => exact declare_sound indices node after answer sound done
  | build visit above =>
      have built := build_sound visit node sound [] above
      have result : node.build visit [] above = (after, answer) := Option.some.inj done
      rw [result] at built
      exact ⟨built.sound, built.kept⟩
  | project =>
      have result : node.project = (after, answer) := Option.some.inj done
      have projected := project_sound node sound
      rw [result] at projected
      exact projected
  | andCondition condition =>
      obtain ⟨changed, found, same⟩ := Option.map_eq_some_iff.mp done
      cases same
      exact changeIntent_sound _ node after sound found
  | setUpdate operation payload =>
      obtain ⟨changed, found, same⟩ := Option.map_eq_some_iff.mp done
      cases same
      exact changeIntent_sound _ node after sound found
  | andKeyCondition condition =>
      obtain ⟨changed, found, same⟩ := Option.map_eq_some_iff.mp done
      cases same
      exact andKeyCondition_sound condition node after sound found

/-- A step anywhere in a tree keeps the invariant at every node, and the latch of the root. -/
theorem step_sound (tree after : Node) (route : Route) (step : Step) (answer : Except Error Unit)
    (sound : tree.Everywhere Sound) (done : tree.performAt? route step = some (after, answer)) :
    after.Everywhere Sound ∧ tree.place.Kept after.place :=
  changeAt_keeps (Everywhere Sound) (fun before after => before.place.Kept after.place)
    step.perform
    (fun node entered hop sound found => sound.deeper entered (enter_stored hop node entered found))
    (perform_sound step)
    (fun node entered hop after sound found deeper kept =>
      replace_sound node entered after hop sound found deeper kept)
    route tree after answer sound done

theorem reachable_sound (tree : Node) (reachable : tree.Reachable) : tree.Everywhere Sound :=
  Reachable.invariant (fun tree fresh => fresh.everywhere fresh_sound tree)
    (fun tree after route step answer sound done =>
      (step_sound tree after route step answer sound done).1) tree reachable

/-- Below a built node everything is built, at the path that follows from the node's own path and
the name, and what refers to a node carries just its path. -/
theorem built_paths_follow (tree : Node) (reachable : tree.Reachable) (route : Route) (node : Node)
    (found : tree.get? route = some node) (built : node.place.built = true) :
    (∀ action, node.place.reference action = .ok node.place.path) ∧
      ∀ child ∈ node.stored, child.place.built = true ∧
        child.place.path = node.place.path.below child.name ∧
        ∀ action, child.place.reference action = .ok child.place.path := by
  have sound := (reachable_sound tree reachable).at_route route node found
  refine ⟨fun action => node.place.reference_of_handle action built (sound.here.handle built), ?_⟩
  intro child member
  have seated := sound.here.seated built child member
  exact ⟨seated.built, seated.path, fun action =>
    child.place.reference_of_handle action seated.built seated.handle⟩

/-- A person whose bank account number was built elsewhere before, so that the build of the whole
ends at the bank: the phone numbers are built, the bank and the person are not. -/
def halfBuild : List (Route × Step) :=
  [([.child 1], .declare [10, 2, 10]), ([.child 2, .child 0], .build .asStored ⟨"old"⟩),
    ([], .build .asStored .root)]

def halfBuilt : Node := (Shape.person.fresh.run? halfBuild).getD Shape.person.fresh

theorem halfBuilt_phones_follow :
    halfBuilt.place.built = false ∧
      ∃ phones, halfBuilt.get? [.child 1] = some phones ∧ phones.place.built = true ∧
        phones.stored.map Node.name = ["[10]", "[2]"] ∧
        ∀ child ∈ phones.stored, child.place.path = phones.place.path.below child.name := by
  have reachable : halfBuilt.Reachable :=
    .run halfBuild Shape.person.fresh halfBuilt (.fresh _ Shape.person.fresh_declared) rfl
  refine ⟨rfl, _, rfl, rfl, rfl, fun child member => ?_⟩
  exact ((built_paths_follow halfBuilt reachable [.child 1] _ rfl rfl).2 child member).2.1

end Node

end ItemExpressions

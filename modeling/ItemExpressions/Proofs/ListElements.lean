import ItemExpressions.Proofs.Addresses
import ItemExpressions.Proofs.History

/-!
Elements of lists. A list keeps two things: the indices it was told, in that order and with all
repetitions, and one element for each of them. They are in step in every tree that can come about,
so the element at an index is there just if the index was declared, and a traversal finds one for
each entry. A declaration appends its indices, makes their elements anew and touches no other.
-/

namespace ItemExpressions

/-- Where each index has a member, none is passed over. -/
theorem selectAt_all {α : Type} (indices : List Nat) (members : List (Nat × α))
    (present : ∀ index ∈ indices, (members.lookup index).isSome = true) :
    indices.map (fun index => members.lookup index) = (selectAt indices members).map some := by
  induction indices with
  | nil => rfl
  | cons first rest ih =>
      obtain ⟨here, later⟩ := List.forall_mem_cons.mp present
      obtain ⟨member, found⟩ := Option.isSome_iff_exists.mp here
      simp only [List.map_cons, ih later, selectAt, List.filterMap_cons, found]

namespace Step

/-- The indices that a list takes by a step: those of a declaration that it does not refuse. -/
def slice? (answer : Except Error Unit) : Step → Option (List Nat)
  | .declare indices => if answer.isOk then some indices else none
  | .build _ _ | .project | .andCondition _ | .setUpdate _ _ | .andKeyCondition _ => none

theorem perform_declared (step : Step) (node after : Node) (answer : Except Error Unit)
    (done : step.perform node = some (after, answer)) :
    after.declared = node.declared ++ (step.slice? answer).getD [] := by
  cases step with
  | declare indices =>
      cases node with
      | list place intent make declared elements =>
          simp only [perform, Node.declare?, Option.some.injEq] at done
          split at done <;> cases done
          · exact (List.append_nil declared).symm
          · rfl
      | «attribute» => simp [perform, Node.declare?] at done
      | key => simp [perform, Node.declare?] at done
  | build visit above =>
      have result : node.build visit [] above = (after, answer) := Option.some.inj done
      have alike := Node.build_alike visit node [] above []
      rw [result] at alike
      cases alike with
      | some related => exact related.declared.trans (List.append_nil _).symm
  | project =>
      cases node <;> cases done <;> exact (List.append_nil _).symm
  | andCondition | setUpdate | andKeyCondition =>
      obtain ⟨changed, found, same⟩ := Option.map_eq_some_iff.mp done
      cases same
      cases node <;> cases found <;> exact (List.append_nil _).symm

end Step

namespace Node

/-- What a list took since it was made, one slice for each declaration that it did not refuse. -/
def History.slices (route : Route) : {tree : Node} → tree.History → List (List Nat)
  | _, .declared _ _ => []
  | _, .stepped earlier place step answer _ =>
      if step.renews answer place route then []
      else if route = place then earlier.slices route ++ (step.slice? answer).toList
      else earlier.slices route

/-- Nothing was done to the node since it was made. -/
structure Untouched (node : Node) : Prop where
  unbuilt : node.place.built = false
  unmarked : node.place.projected = false
  intent : ∀ intent, node.intent? = some intent → intent = .empty
  unrestricted : node.keyCondition = none
  undeclared : node.declared = []

theorem Fresh.untouched {node : Node} (fresh : node.Fresh) : node.Untouched := by
  cases fresh with
  | «attribute» | list => exact ⟨rfl, rfl, fun _ same => (Option.some.inj same).symm, rfl, rfl⟩
  | key => exact ⟨rfl, rfl, nofun, rfl, rfl⟩

/-- The slices one after the other are the declared indices. -/
theorem declared_slices {tree : Node} (history : tree.History) (route : Route) (node : Node)
    (found : tree.get? route = some node) : node.declared = (history.slices route).flatten := by
  induction history generalizing node with
  | declared tree fresh => exact (fresh.at_route route node found).untouched.undeclared
  | stepped earlier place step answer done ih =>
      have sound := reachable_sound _ earlier.reachable
      rw [History.slices]
      rcases performAt_since sound done route node found with
        ⟨renewed, fresh⟩ | ⟨kept, before, stood, ⟨here, performed⟩ | ⟨away, alike⟩⟩
      · rw [if_pos renewed]
        exact fresh.untouched.undeclared
      · rw [if_neg (Bool.eq_false_iff.mp kept), if_pos here, List.flatten_append, ← ih before stood,
          step.perform_declared before node answer performed]
        cases step.slice? answer <;> simp
      · rw [if_neg (Bool.eq_false_iff.mp kept), if_neg away, ← ih before stood]
        exact alike.declared

/-! ## Elements and indices -/

theorem Sound.element_isSome {node : Node} (sound : node.Sound) (index : Nat) :
    (node.element? index).isSome = true ↔ index ∈ node.declared := by
  rw [← sound.declared index]
  cases node with
  | list place intent make declared elements => exact lookup_isSome index elements
  | «attribute» | key => simp [element?, Node.elements]

theorem Sound.element_answers {node : Node} (sound : node.Sound) (index : Nat) :
    (index ∈ node.declared → ∃ element, node.element? index = some element ∧
      node.element index = .ok element) ∧
    (index ∉ node.declared → node.element? index = none ∧
      node.element index = .error (.missingElement
        (if node.place.built then node.place.path.text else node.name) index)) := by
  have present := sound.element_isSome index
  constructor
  · intro declared
    obtain ⟨element, stored⟩ := Option.isSome_iff_exists.mp (present.mpr declared)
    exact ⟨element, stored, by rw [Node.element, stored]⟩
  · intro undeclared
    have none := Option.not_isSome_iff_eq_none.mp (mt present.mp undeclared)
    exact ⟨none, by rw [Node.element, none]⟩

/-- An element that is named by its index has the path of its list, with the index behind it. -/
theorem Sound.element_path {list element : Node} (sound : list.Sound) (index : Nat)
    (stored : list.element? index = some element) (name : element.name = Shape.indexName index)
    (path : Path) (documented : list.place.documentPath = some path) :
    element.place.documentPath = some ⟨path.text ++ Shape.indexName index⟩ := by
  obtain ⟨built, same⟩ := Option.ite_none_right_eq_some.mp documented
  have seated := sound.seated built element (enter_stored (.element index) list element stored)
  have place : element.place.path = ⟨path.text ++ Shape.indexName index⟩ := by
    rw [seated.path, ← Option.some.inj same, ← Path.below_indexName, ← name]
    rfl
  rw [Placement.documentPath, if_pos seated.built, place]

/-- A traversal finds an element for each declared index, in the order of declaration. -/
theorem Sound.visited_declared {node : Node} (sound : node.Sound) (list : node.isList = true) :
    node.declared.map node.element? = node.visited.map some := by
  have present := sound.element_isSome
  cases node with
  | list place intent make declared elements =>
      exact selectAt_all declared elements fun index member => (present index).mpr member
  | «attribute» | key => cases list

/-- What becomes of a list that takes a slice. -/
theorem declare_taken (list now : Node) (make : Nat → Node) (factory : list.make? = some make)
    (indices : List Nat) (done : list.declare? indices = some (now, .ok ())) :
    now.declared = list.declared ++ indices ∧ ∀ index,
      now.element? index = if index ∈ indices then some (make index) else list.element? index := by
  cases list with
  | list place intent maker declared elements =>
      cases factory
      simp only [declare?, Option.some.injEq] at done
      split at done <;> cases done
      exact ⟨rfl, declared_lookup make indices elements⟩
  | «attribute» => cases factory
  | key => cases factory

/-- In every tree that can come about, each list has elements just at its declared indices, which
are those of all the slices it took, one after the other. A traversal goes to the element of each
entry in turn. Elements are named as the list makes them, so those of a list that goes by the index
have the path of the list with the index behind it. A list that takes one more slice has fresh
elements for all of it, and keeps the others. -/
theorem list_elements (tree : Node) (history : tree.History) (route : Route) (list : Node)
    (make : Nat → Node) (found : tree.get? route = some list) (factory : list.make? = some make) :
    (∀ index, (index ∈ list.declared → ∃ element, list.element? index = some element ∧
        list.element index = .ok element) ∧
      (index ∉ list.declared → list.element? index = none ∧
        list.element index = .error (.missingElement
          (if list.place.built then list.place.path.text else list.name) index))) ∧
    (∃ (intent : Intent) (visited : List Node), list.declared.map list.element? = visited.map some ∧
      list.outline = .branch list.place intent true (visited.map outline)) ∧
    list.declared = (history.slices route).flatten ∧
    ((∀ index, (make index).name = Shape.indexName index) → ∀ index element,
      list.element? index = some element → element.name = Shape.indexName index ∧
        ∀ path, list.place.documentPath = some path →
          element.place.documentPath = some ⟨path.text ++ Shape.indexName index⟩) ∧
    ∀ indices after, tree.performAt? route (.declare indices) = some (after, .ok ()) →
      ∃ now, after.get? route = some now ∧ now.declared = list.declared ++ indices ∧
        (∀ index, index ∉ indices → now.element? index = list.element? index) ∧
        ∀ index ∈ indices, ∃ element, now.element? index = some element ∧
          ∀ inner inside, element.get? inner = some inside → inside.Untouched := by
  have reachable := history.reachable
  have sound := ((reachable_sound tree reachable).at_route route list found).here
  have kind : list.isList = true ∧ ∃ intent, list.intent? = some intent := by
    cases list with
    | list => exact ⟨rfl, _, rfl⟩
    | «attribute» | key => cases factory
  obtain ⟨isList, intent, carried⟩ := kind
  have outline : list.outline = .branch list.place intent true (list.visited.map outline) :=
    isList ▸ outline_branch list intent carried
  refine ⟨sound.element_answers, ⟨intent, list.visited, sound.visited_declared isList, outline⟩,
    declared_slices history route list found, fun named index element stored => ?_,
    fun indices after done => ?_⟩
  · have name : element.name = Shape.indexName index :=
      (element_named tree reachable route list make index element found factory stored).trans
        (named index)
    exact ⟨name, sound.element_path index stored name⟩
  · obtain ⟨before, now, stood, performed, stands⟩ := changeAt_found _ route tree after _ done
    rw [found] at stood
    cases stood
    obtain ⟨declared, elements⟩ := declare_taken list now make factory indices performed
    refine ⟨now, stands, declared, fun index absent => (elements index).trans (if_neg absent),
      fun index member => ⟨make index, (elements index).trans (if_pos member), ?_⟩⟩
    intro inner inside within
    exact ((sound.made make factory index).at_route inner inside within).untouched

/-- Phone numbers that are declared, one of them twice, and are all to be removed. -/
def telling : List (Route × Step) :=
  [([.child 1], .declare [10, 2, 10]), ([.child 1, .element 10], .setUpdate .remove .empty),
    ([.child 1, .element 2], .setUpdate .remove .empty)]

/-- After a second declaration, which makes one of them anew, they are built, and a third one is
refused. -/
def retelling : List (Route × Step) :=
  telling ++ [([.child 1], .declare [7, 10]), ([], .build .asStored .root),
    ([.child 1], .declare [3])]

def told : Node := (Shape.person.fresh.run? telling).getD Shape.person.fresh

def retold : Node := (Shape.person.fresh.run? retelling).getD Shape.person.fresh

theorem told_list_elements :
    (∃ after phones, told.performAt? [.child 1] (.declare [7, 10]) = some (after, .ok ()) ∧
      after.get? [.child 1] = some phones ∧
      (phones.element? 2).bind intent? = some ⟨none, .remove, .empty⟩ ∧
      ∃ last, phones.element? 10 = some last ∧ last.Untouched) ∧
    ∃ phones, retold.get? [.child 1] = some phones ∧ phones.declared = [10, 2, 10, 7, 10] ∧
      phones.element 3 = .error (.missingElement "phones" 3) ∧
      ∃ last, phones.element? 10 = some last ∧ last.place.documentPath = some ⟨"phones[10]"⟩ := by
  let before : told.History := (History.declared _ Shape.person.fresh_declared).follow telling rfl
  let history : retold.History :=
    (History.declared _ Shape.person.fresh_declared).follow retelling rfl
  obtain ⟨_, _, _, _, taken⟩ := list_elements told before [.child 1] _ _ rfl rfl
  obtain ⟨phones, stands, _, others, fresh⟩ := taken [7, 10] _ rfl
  obtain ⟨renewed, stored, untouched⟩ := fresh 10 (by decide)
  obtain ⟨answers, _, slices, named, _⟩ := list_elements retold history [.child 1] _ _ rfl rfl
  have missing := ((answers 3).2 (by decide)).2
  obtain ⟨last, found, _⟩ := (answers 10).1 (by decide)
  have path := (named (fun _ => rfl) 10 last found).2 ⟨"phones"⟩ rfl
  refine ⟨⟨_, phones, rfl, stands, ?_, renewed, stored, untouched [] renewed rfl⟩,
    _, rfl, slices.trans rfl, missing, last, found, path⟩
  rw [others 2 (by decide)]
  rfl

end Node

end ItemExpressions

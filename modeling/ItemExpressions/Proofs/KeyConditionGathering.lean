import ItemExpressions.Item
import ItemExpressions.Proofs.Faults
import ItemExpressions.Proofs.History

/-!
Key conditions from the keys of an item to their text. However the predicates on the keys were
nested in what was attached, and however they were spread over keys and attachments, it is their
list alone that decides: a single predicate, or an equality and one further predicate, can be
written, and no other list can.
-/

namespace ItemExpressions

/-! ## Predicates of a key condition -/

namespace KeyCondition

/-- The predicates that a key condition joins, from left to right. -/
def predicates : KeyCondition → List KeyCondition
  | .compare key comparator value => [.compare key comparator value]
  | .between key low high => [.between key low high]
  | .beginsWith key stem => [.beginsWith key stem]
  | .and left right => left.predicates ++ right.predicates

/-- The key that a predicate is about. -/
def key? : KeyCondition → Option String
  | .compare key _ _ | .between key _ _ | .beginsWith key _ => some key
  | .and _ _ => none

/-- A single predicate, or an equality and one further predicate. -/
def PicksPartition (predicates : List KeyCondition) : Prop :=
  predicates.length ≤ 2 ∧ (predicates.length = 2 → predicates.head?.any isEquality = true)

theorem not_picksPartition (predicates : List KeyCondition) :
    ¬ PicksPartition predicates ↔ 3 ≤ predicates.length ∨
      predicates.length = 2 ∧ predicates.head?.any isEquality = false := by
  rw [PicksPartition]
  cases predicates.head?.any isEquality with
  | true =>
      simp only [implies_true, and_true, Bool.true_eq_false, and_false, or_false]
      omega
  | false =>
      simp only [Bool.false_eq_true, imp_false, and_true]
      omega

theorem predicates_some (condition : KeyCondition) : 1 ≤ condition.predicates.length := by
  induction condition with
  | compare | between | beginsWith => exact Nat.le_refl 1
  | and left right ihLeft _ =>
      rw [predicates, List.length_append]
      omega

theorem predicates_single (condition : KeyCondition) (single : condition.isConjunction = false) :
    condition.predicates = [condition] := by
  cases condition with
  | compare | between | beginsWith => rfl
  | and left right => cases single

theorem single_of_equality (condition : KeyCondition) (equality : condition.isEquality = true) :
    condition.isConjunction = false := by
  cases condition with
  | compare | between | beginsWith => rfl
  | and left right => cases equality

theorem predicates_conjunction (condition : KeyCondition)
    (joined : condition.isConjunction = true) : 2 ≤ condition.predicates.length := by
  cases condition with
  | compare | between | beginsWith => cases joined
  | and left right =>
      have first := left.predicates_some
      have second := right.predicates_some
      rw [predicates, List.length_append]
      omega

/-- The two members of a conjunction are looked at, and nothing below them: that is enough, as a
member which is itself a conjunction makes three predicates. -/
theorem placed_iff (left right : KeyCondition) :
    (left.isEquality && !right.isConjunction) = true ↔
      PicksPartition (left.and right).predicates := by
  have first := left.predicates_some
  have second := right.predicates_some
  rw [PicksPartition, predicates, List.length_append]
  cases leftJoined : left.isConjunction with
  | true =>
      have more := left.predicates_conjunction leftJoined
      have unequal : left.isEquality = false := by
        by_contra equality
        rw [left.single_of_equality (by simpa using equality)] at leftJoined
        cases leftJoined
      simp only [unequal, Bool.false_and, Bool.false_eq_true, false_iff]
      omega
  | false =>
      cases rightJoined : right.isConjunction with
      | true =>
          have more := right.predicates_conjunction rightJoined
          simp only [Bool.not_true, Bool.and_false, Bool.false_eq_true, false_iff]
          omega
      | false =>
          rw [left.predicates_single leftJoined, right.predicates_single rightJoined]
          simp

/-- Where a conjunction has text, its members are the predicates. -/
theorem predicates_placed (left right : KeyCondition)
    (placed : (left.isEquality && !right.isConjunction) = true) :
    (left.and right).predicates = [left, right] := by
  obtain ⟨equality, plain⟩ := Bool.and_eq_true_iff.mp placed
  have second : right.isConjunction = false := by simpa using plain
  rw [predicates, left.predicates_single (left.single_of_equality equality),
    right.predicates_single second]
  rfl

theorem fault_single (condition : KeyCondition) (single : condition.isConjunction = false) :
    condition.phrase.fault? = if condition.key? = some "" then some .emptyKey else none := by
  cases condition with
  | and left right => cases single
  | compare | between | beginsWith =>
      simp only [phrase, key?, Phrase.fault_append, Phrase.fault_text, Phrase.fault_key,
        Phrase.fault_literal, Phrase.fault_enclosed, Option.some.injEq, Option.or_none,
        Option.none_or]

/-- What stops a key condition is seen from its predicates. -/
theorem fault_predicates (condition : KeyCondition) (fault : Fault) :
    condition.phrase.fault? = some fault ↔
      (fault = .misplacedKeyCondition ∧ ¬ PicksPartition condition.predicates) ∨
      (fault = .emptyKey ∧ PicksPartition condition.predicates ∧
        ∃ predicate ∈ condition.predicates, predicate.key? = some "") := by
  cases joined : condition.isConjunction with
  | false =>
      have picks : PicksPartition [condition] := by simp [PicksPartition]
      rw [condition.fault_single joined, condition.predicates_single joined]
      by_cases empty : condition.key? = some ""
      · simp [empty, picks, @eq_comm Fault]
      · simp [empty, picks]
  | true =>
      cases condition with
      | compare | between | beginsWith => cases joined
      | and left right =>
          by_cases placed : (left.isEquality && !right.isConjunction) = true
          · have picks := (placed_iff left right).mp placed
            obtain ⟨equality, plain⟩ := Bool.and_eq_true_iff.mp placed
            have first := left.single_of_equality equality
            have second : right.isConjunction = false := by simpa using plain
            simp only [phrase, placed, ↓reduceIte, Phrase.fault_append, Phrase.fault_enclosed,
              Phrase.fault_text, Option.or_none, left.fault_single first,
              right.fault_single second, picks, not_true_eq_false, and_false, false_or, true_and]
            rw [predicates_placed left right placed]
            by_cases here : left.key? = some "" <;> by_cases there : right.key? = some "" <;>
              simp [here, there, @eq_comm Fault]
          · have misplaced := (placed_iff left right).not.mp placed
            simp only [phrase, placed, Bool.false_eq_true, ↓reduceIte, Phrase.fault_flaw,
              Option.some.injEq, misplaced, not_false_eq_true, and_true, false_and, and_false,
              or_false, @eq_comm Fault]

/-- Written alone, a key condition is judged by its predicates. -/
theorem written_verdict (condition : KeyCondition) :
    let written := (Draft.ofKeyCondition condition).build
    ((∃ expression, written = .ok expression) ↔ PicksPartition condition.predicates ∧
      ∀ predicate ∈ condition.predicates, predicate.key? ≠ some "") ∧
    (written = .error .misplacedKeyCondition ↔ ¬ PicksPartition condition.predicates) ∧
    (written = .error .emptyKey ↔ PicksPartition condition.predicates ∧
      ∃ predicate ∈ condition.predicates, predicate.key? = some "") ∧
    ∀ fault, written = .error fault → fault = .misplacedKeyCondition ∨ fault = .emptyKey := by
  intro written
  have failed (fault : Fault) : written = .error fault ↔ _ :=
    (Draft.ofKeyCondition_error condition fault).trans (condition.fault_predicates fault)
  refine ⟨?_, ?_, ?_, fun fault failure => ?_⟩
  · constructor
    · rintro ⟨expression, done⟩
      rw [done] at failed
      have picks : PicksPartition condition.predicates := by
        by_contra misplaced
        cases (failed .misplacedKeyCondition).mpr (Or.inl ⟨rfl, misplaced⟩)
      refine ⟨picks, fun predicate member empty => ?_⟩
      cases (failed .emptyKey).mpr (Or.inr ⟨rfl, picks, predicate, member, empty⟩)
    · rintro ⟨picks, keyed⟩
      cases result : written with
      | ok expression => exact ⟨expression, rfl⟩
      | error fault =>
          rcases (failed fault).mp result with ⟨_, misplaced⟩ | ⟨_, _, predicate, member, empty⟩
          · exact absurd picks misplaced
          · exact absurd empty (keyed predicate member)
  · rw [failed]
    simp
  · rw [failed]
    simp
  · exact ((failed fault).mp failure).imp And.left And.left

/-! ## Predicates that were gathered -/

def predicatesOf (gathered : Option KeyCondition) : List KeyCondition :=
  gathered.toList.flatMap predicates

theorem predicatesOf_nil (gathered : Option KeyCondition) :
    predicatesOf gathered = [] ↔ gathered = none := by
  cases gathered with
  | none => simp [predicatesOf]
  | some condition =>
      have given : condition.predicates ≠ [] :=
        List.ne_nil_of_length_pos condition.predicates_some
      simp [predicatesOf, given]

theorem mem_predicatesOf (gathered : Option KeyCondition) (predicate : KeyCondition) :
    predicate ∈ predicatesOf gathered ↔
      ∃ condition, gathered = some condition ∧ predicate ∈ condition.predicates := by
  simp [predicatesOf]

theorem predicatesOf_join (gathered : Option KeyCondition) (conditions : List KeyCondition) :
    predicatesOf (conditions.foldl join gathered) =
      predicatesOf gathered ++ conditions.flatMap predicates := by
  induction conditions generalizing gathered with
  | nil => simp
  | cons next rest ih =>
      have one : predicatesOf (join gathered next) = predicatesOf gathered ++ next.predicates := by
        cases gathered <;> simp [join, andThen, predicatesOf, predicates]
      rw [List.foldl_cons, ih, one, List.append_assoc, List.flatMap_cons]

end KeyCondition

namespace Item

open Node (History)

theorem addKeyCondition_level (gathered : Option KeyCondition) (node : Node)
    (refers : ∀ action, node.place.reference action = .ok node.place.path) :
    node.addKeyCondition gathered =
      .ok (node.keyCondition.toList.foldl KeyCondition.join gathered) := by
  cases node with
  | «attribute» | list => rfl
  | key place condition =>
      have handle : place.reference .gatherKeyConditions = .ok place.path := refers _
      simp only [Node.addKeyCondition, Node.outline, Outline.addKeyCondition, Placement.require,
        handle]
      cases condition <;> rfl

theorem foldlM_keyConditions (nodes : List Node) (gathered : Option KeyCondition)
    (refers : ∀ node ∈ nodes, ∀ action, node.place.reference action = .ok node.place.path) :
    nodes.foldlM (fun gathered child => child.addKeyCondition gathered) gathered =
      .ok ((nodes.flatMap fun node => node.keyCondition.toList).foldl KeyCondition.join
        gathered) := by
  induction nodes generalizing gathered with
  | nil => rfl
  | cons first rest ih =>
      obtain ⟨head, tail⟩ := List.forall_mem_cons.mp refers
      rw [List.foldlM_cons, addKeyCondition_level gathered first head, List.flatMap_cons,
        List.foldl_append]
      exact ih _ tail

theorem keyCondition_eq (item : Item) (reachable : item.root.Reachable)
    (built : item.isBuilt = true) : item.keyCondition =
      .ok ((item.root.children.flatMap fun child => child.keyCondition.toList).foldl
        KeyCondition.join none) := by
  have sound := Node.reachable_sound item.root reachable
  have required : item.require .restrictItemKey = .ok () := if_pos built
  rw [keyCondition, required]
  refine foldlM_keyConditions item.root.children none fun child member action => ?_
  have stored : child ∈ item.root.stored := by
    cases kind : item.root <;> simp_all [Node.children, Node.stored]
  have seated := sound.here.seated built child stored
  exact child.place.reference_of_handle action seated.built seated.handle

/-- The predicates attached to the keys right below the root: key by key, attachment by attachment,
and from left to right in each. -/
def keyPredicates (item : Item) (history : item.root.History) : List KeyCondition :=
  (List.range item.root.children.length).flatMap fun position =>
    (history.brought Step.keyCondition? [.child position]).flatMap KeyCondition.predicates

theorem keyPredicates_eq (item : Item) (history : item.root.History) :
    item.keyPredicates history =
      (item.root.children.flatMap fun child => child.keyCondition.toList).flatMap
        KeyCondition.predicates := by
  rw [keyPredicates, List.flatMap_assoc, List.flatMap_def, List.flatMap_def]
  congr 1
  apply List.ext_getElem
  · simp
  · intro position before after
    have inside : position < item.root.children.length := by simpa using after
    have found : item.root.get? [.child position] = some item.root.children[position] := by
      rw [Node.get?, Node.enter?, List.getElem?_eq_getElem inside]
      rfl
    have attached := Node.keyCondition_accrues.exact history [.child position] _ found
    have gathered := KeyCondition.predicatesOf_join none
      (history.brought Step.keyCondition? [.child position])
    rw [← attached] at gathered
    rw [List.getElem_map, List.getElem_map, List.getElem_range]
    exact gathered.symm

/-- What is gathered from an item has just the predicates that were attached to its keys. -/
theorem keyCondition_predicates (item : Item) (history : item.root.History)
    (built : item.isBuilt = true) : ∃ gathered, item.keyCondition = .ok gathered ∧
      KeyCondition.predicatesOf gathered = item.keyPredicates history := by
  refine ⟨_, item.keyCondition_eq history.reachable built, ?_⟩
  rw [KeyCondition.predicatesOf_join, item.keyPredicates_eq history]
  rfl

/-- Only the list of predicates attached to the keys right below the root matters, in whatever
shapes and portions they came. There is a key condition just when there are predicates; it can be
written when they are at most two, the first an equality if there are two, and all have a key. -/
theorem key_condition_verdict (item : Item) (history : item.root.History)
    (built : item.isBuilt = true) :
    let predicates := item.keyPredicates history
    (item.keyCondition = .ok none ↔ predicates = []) ∧
    ∃ gathered, item.keyCondition = .ok gathered ∧ ∀ condition, gathered = some condition →
      let written := (Draft.ofKeyCondition condition).build
      ((∃ expression, written = .ok expression) ↔
        predicates.length ≤ 2 ∧
        (predicates.length = 2 → predicates.head?.any KeyCondition.isEquality = true) ∧
        ∀ predicate ∈ predicates, predicate.key? ≠ some "") ∧
      (written = .error .misplacedKeyCondition ↔
        3 ≤ predicates.length ∨
        predicates.length = 2 ∧ predicates.head?.any KeyCondition.isEquality = false) ∧
      (written = .error .emptyKey ↔
        predicates.length ≤ 2 ∧
        (predicates.length = 2 → predicates.head?.any KeyCondition.isEquality = true) ∧
        ∃ predicate ∈ predicates, predicate.key? = some "") ∧
      ∀ fault, written = .error fault → fault = .misplacedKeyCondition ∨ fault = .emptyKey := by
  intro predicates
  obtain ⟨gathered, exactly, listed⟩ := item.keyCondition_predicates history built
  refine ⟨?_, gathered, exactly, ?_⟩
  · rw [exactly, Except.ok.injEq, ← KeyCondition.predicatesOf_nil, listed]
  · rintro condition rfl
    have same : condition.predicates = predicates := by
      simpa [KeyCondition.predicatesOf] using listed
    obtain ⟨accepted, misplaced, keyless, faults⟩ := condition.written_verdict
    rw [same] at accepted misplaced keyless
    exact ⟨accepted.trans and_assoc, misplaced.trans (KeyCondition.not_picksPartition predicates),
      keyless.trans and_assoc, faults⟩

/-- An order with two keys, of which the second was restricted first, and a key deeper down. -/
def order : Shape :=
  .attribute "" [.key "customer", .attribute "shop" [.key "city"], .key "number"]

def restricting : List (Route × Step) :=
  [([.child 2], .andKeyCondition (.compare "number" .less (.string "7"))),
    ([.child 1, .child 0], .andKeyCondition (.beginsWith "city" (.string "B"))),
    ([], .build .asStored .root),
    ([.child 0], .andKeyCondition (.compare "customer" .equal (.string "ada")))]

def restricted : Item := ⟨"Order", .permissive, (order.fresh.run? restricting).getD order.fresh⟩

theorem restricted_key_condition_written :
    restricted.isBuilt = true ∧ ∃ condition, restricted.keyCondition = .ok (some condition) ∧
      ∃ expression, (Draft.ofKeyCondition condition).build = .ok expression := by
  let history : restricted.root.History :=
    (History.declared _ order.fresh_declared).follow restricting rfl
  obtain ⟨_, gathered, found, verdict⟩ := key_condition_verdict restricted history rfl
  have joined : gathered = some (.and (.compare "customer" .equal (.string "ada"))
      (.compare "number" .less (.string "7"))) := (Except.ok.inj found).symm
  subst gathered
  have predicates : restricted.keyPredicates history =
      [.compare "customer" .equal (.string "ada"), .compare "number" .less (.string "7")] := rfl
  refine ⟨rfl, _, found, (verdict _ rfl).1.mpr ?_⟩
  rw [predicates]
  exact ⟨Nat.le_refl 2, fun _ => rfl, by simp [KeyCondition.key?]⟩

end Item

end ItemExpressions

import Mathlib.Data.List.Find
import ItemExpressions.Proofs.UpdateAccounting

/-!
Refused updates. A derived value can be set on a list and nowhere else, but it may stand anywhere in
a tree. An update is refused for one that would have to be written: one with an operation that
writes it, and with no operation above. The refusal names the first that a traversal meets.
-/

namespace ItemExpressions

/-- A derived value is to be written where it cannot be. -/
def Intent.overburdens (takesDerived : Bool) : Intent → Bool
  | ⟨_, .set, .derived _⟩ => !takesDerived
  | ⟨_, .add, .derived _⟩ | ⟨_, .delete, .derived _⟩ => true
  | _ => false

namespace Node

def overburdened (node : Node) : Bool :=
  node.intent?.any (Intent.overburdens node.isList)

theorem overburdened_iff (node : Node) :
    node.overburdened = true ↔ ∃ intent value, node.intent? = some intent ∧
      intent.payload = .derived value ∧ (intent.operation = .add ∨ intent.operation = .delete ∨
        intent.operation = .set ∧ node.isList = false) := by
  rw [overburdened]
  cases node.intent? with
  | none => simp
  | some intent =>
      obtain ⟨condition, operation, payload⟩ := intent
      cases operation <;> cases payload <;> simp [Intent.overburdens]

theorem overburdened_operates (node : Node) (overburdened : node.overburdened = true) :
    node.hasOperation = true := by
  obtain ⟨intent, value, carried, _, writes⟩ := node.overburdened_iff.mp overburdened
  rw [hasOperation, carried]
  rcases writes with add | delete | ⟨set, _⟩ <;> simp [Intent.hasOperation, *]

/-- What an operation wants is refused for nothing else. -/
theorem wanted_none (node : Node) (path : Path) (located : node.place.documentPath = some path)
    (operates : node.hasOperation = true) :
    node.wanted? = none ↔ node.overburdened = true := by
  rw [hasOperation] at operates
  rw [wanted?, overburdened, located]
  cases carried : node.intent? with
  | none => simp [carried] at operates
  | some intent =>
      obtain ⟨condition, operation, payload⟩ := intent
      rw [carried] at operates
      cases operation <;> cases payload <;>
        simp_all [Intent.hasOperation, Intent.overburdens, Payload.written?]

end Node

/-- A derived value is to be written that cannot be, with no operation above. -/
def Occurrence.refused (occurrence : Occurrence) : Bool :=
  !occurrence.covered && occurrence.node.overburdened

namespace Node

section Built

variable (node : Node) (sound : node.Everywhere Sound) (built : node.place.built = true)

include sound built

theorem operations_located :
    ∀ occurrence ∈ node.operations, occurrence.path? = some occurrence.path :=
  fun occurrence member =>
    if_pos (walk_built [] node sound built occurrence (List.mem_of_mem_filter member))

/-- The error is that of the first operation which a traversal meets and which is refused. -/
theorem addChanges_error (gathered : Update) (error : Error) :
    node.addChanges (some gathered) = .error error ↔ ∃ first path,
      node.operations.find? Occurrence.refused = some first ∧ first.path? = some path ∧
      error = .unsupportedUpdateValue path := by
  have located := node.operations_located sound built
  have same : ((node.operations.filter fun occurrence => !occurrence.covered).find?
      fun occurrence => occurrence.node.wanted?.isNone) =
        node.operations.find? Occurrence.refused := by
    rw [List.find?_filter]
    apply List.find?_congr
    intro occurrence member
    have unwanted := occurrence.node.wanted_none occurrence.path (located occurrence member)
      (List.mem_filter.mp member).2
    rw [Bool.eq_iff_iff, decide_eq_true_iff, Option.isNone_iff_eq_none, unwanted,
      Occurrence.refused, Bool.and_eq_true_iff]
  rw [node.addChanges_operations sound built, carryOut_error, same]
  constructor
  · rintro ⟨first, least, rfl⟩
    exact ⟨first, first.path, least, located first (List.mem_of_find?_eq_some least), rfl⟩
  · rintro ⟨first, path, least, named, rfl⟩
    have there := located first (List.mem_of_find?_eq_some least)
    exact ⟨first, least, by rw [Option.some.inj (named.symm.trans there)]⟩

theorem addChanges_fails (gathered : Update) :
    (∃ error, node.addChanges (some gathered) = .error error) ↔
      ∃ occurrence ∈ node.operations, occurrence.refused = true := by
  have failure := node.addChanges_error sound built gathered
  constructor
  · rintro ⟨error, failed⟩
    obtain ⟨first, _, least, _⟩ := (failure error).mp failed
    exact ⟨first, List.mem_of_find?_eq_some least, List.find?_some least⟩
  · intro refused
    obtain ⟨first, least⟩ := Option.isSome_iff_exists.mp (List.find?_isSome.mpr refused)
    have located := node.operations_located sound built first (List.mem_of_find?_eq_some least)
    exact ⟨_, (failure _).mpr ⟨first, first.path, least, located, rfl⟩⟩

omit built in
/-- What is refused are the outermost operations that have too much to write. -/
theorem refused_iff : (∃ occurrence ∈ node.operations, occurrence.refused = true) ↔
    ∃ route inside, node.get? route = some inside ∧ inside.overburdened = true ∧
      ∀ upper lower passed, route = upper ++ lower → lower ≠ [] →
        node.get? upper = some passed → passed.hasOperation = false := by
  constructor
  · rintro ⟨occurrence, member, refused⟩
    obtain ⟨walked, operates⟩ := List.mem_filter.mp member
    obtain ⟨uncovered, overburdened⟩ := Bool.and_eq_true_iff.mp refused
    have outer : occurrence ∈ node.outermost hasOperation :=
      List.mem_filter.mpr ⟨walked, Bool.and_eq_true_iff.mpr ⟨uncovered, operates⟩⟩
    obtain ⟨route, found, _, free⟩ :=
      (mem_outermost hasOperation node sound occurrence.node).mp ⟨occurrence, outer, rfl⟩
    exact ⟨route, occurrence.node, found, overburdened, free⟩
  · rintro ⟨route, inside, found, overburdened, free⟩
    have operates := inside.overburdened_operates overburdened
    obtain ⟨occurrence, outer, rfl⟩ :=
      (mem_outermost hasOperation node sound inside).mpr ⟨route, found, operates, free⟩
    obtain ⟨walked, exposed⟩ := List.mem_filter.mp outer
    obtain ⟨uncovered, _⟩ := Bool.and_eq_true_iff.mp exposed
    exact ⟨occurrence, List.mem_filter.mpr ⟨walked, operates⟩,
      Bool.and_eq_true_iff.mpr ⟨uncovered, overburdened⟩⟩

end Built

/-- Gathering the update of a built node fails just if somewhere in it, with no operation above, a
derived value is to be written that cannot be. The error has the document path of the first place
like that which a traversal meets. Derived values that are not to be written, or stand below an
operation, are no hindrance. -/
theorem update_fails_exactly (tree : Node) (reachable : tree.Reachable) (route : Route) (node : Node)
    (found : tree.get? route = some node) (built : node.place.built = true) (gathered : Update) :
    ((∃ error, node.addChanges (some gathered) = .error error) ↔
      ∃ inner inside, node.get? inner = some inside ∧ inside.overburdened = true ∧
        ∀ upper lower passed, inner = upper ++ lower → lower ≠ [] →
          node.get? upper = some passed → passed.hasOperation = false) ∧
    (∀ error, node.addChanges (some gathered) = .error error ↔ ∃ first path,
      node.operations.find? Occurrence.refused = some first ∧ first.path? = some path ∧
      error = .unsupportedUpdateValue path) ∧
    ((∀ inner inside intent value, node.get? inner = some inside → inside.intent? = some intent →
      intent.payload = .derived value → intent.operation = .leave ∨ intent.operation = .remove ∨
        ∃ upper lower passed, inner = upper ++ lower ∧ lower ≠ [] ∧
          node.get? upper = some passed ∧ passed.hasOperation = true) →
      ∃ update, node.addChanges (some gathered) = .ok update) := by
  have sound := (reachable_sound tree reachable).at_route route node found
  have fails := (node.addChanges_fails sound built gathered).trans (node.refused_iff sound)
  refine ⟨fails, node.addChanges_error sound built gathered, fun harmless => ?_⟩
  cases outcome : node.addChanges (some gathered) with
  | ok update => exact ⟨update, rfl⟩
  | error error =>
      obtain ⟨inner, inside, reached, overburdened, free⟩ := fails.mp ⟨error, outcome⟩
      obtain ⟨intent, value, carried, derived, writes⟩ := inside.overburdened_iff.mp overburdened
      rcases harmless inner inside intent value reached carried derived with
        leave | remove | ⟨upper, lower, passed, same, proper, above, operates⟩
      · simp [leave] at writes
      · simp [remove] at writes
      · rw [free upper lower passed same proper above] at operates
        cases operates

/-- Of three derived values in a person only the one that a phone number is to be set to is in the
way: the other phone number is removed, and the bank is replaced with all below it. -/
def misplacing : List (Route × Step) :=
  let raised := Payload.derived (.plus (.path ⟨"count"⟩) (.literal (.number "1")))
  [([.child 1], .declare [2, 10]), ([], .build .asStored .root),
    ([.child 1, .element 2], .setUpdate .remove raised),
    ([.child 1, .element 10], .setUpdate .set raised),
    ([.child 2], .setUpdate .set .empty),
    ([.child 2, .child 0], .setUpdate .add raised)]

def misplaced : Node := (Shape.person.fresh.run? misplacing).getD Shape.person.fresh

theorem misplaced_reachable : misplaced.Reachable :=
  .run misplacing Shape.person.fresh misplaced (.fresh _ Shape.person.fresh_declared) rfl

theorem misplaced_update_refused :
    misplaced.addChanges (some .empty) = .error (.unsupportedUpdateValue ⟨"phones[10]"⟩) ∧
      ∀ bank, misplaced.get? [.child 2] = some bank →
        ∃ update, bank.addChanges (some .empty) = .ok update := by
  obtain ⟨_, failure, _⟩ :=
    update_fails_exactly misplaced misplaced_reachable [] misplaced rfl rfl .empty
  refine ⟨(failure _).mpr ⟨_, _, rfl, rfl, rfl⟩, fun bank found => ?_⟩
  cases found
  exact ⟨_, rfl⟩

end Node

end ItemExpressions

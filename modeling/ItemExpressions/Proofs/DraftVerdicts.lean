import ItemExpressions.Proofs.Numbering
import ItemExpressions.Proofs.PathVerdicts

/-!
Verdicts on drafts. The slots of a draft are written over one table, but what is wrong with one of
them is seen from that slot alone. So a draft is built just when each of its slots would be built
alone, and otherwise it fails as the first that would not. A condition is met by what can stop it in
the order of its text: each of its paths, and before the paths of a test for membership its list of
candidates, which must have one.
-/

namespace ItemExpressions

theorem findSome?_flatMap {α β γ : Type} (select : α → List β) (answer : β → Option γ)
    (members : List α) :
    (members.flatMap select).findSome? answer =
      members.findSome? fun member => (select member).findSome? answer := by
  induction members with
  | nil => rfl
  | cons first rest ih =>
      rw [List.flatMap_cons, List.findSome?_append, ih, List.findSome?_cons]
      cases (select first).findSome? answer <;> rfl

theorem findSome?_filterMap {α β γ : Type} (select : α → Option β) (answer : β → Option γ)
    (members : List α) :
    (members.filterMap select).findSome? answer =
      members.findSome? fun member => (select member).bind answer := by
  induction members with
  | nil => rfl
  | cons first rest ih =>
      cases chosen : select first with
      | none => simp [chosen, ih]
      | some member =>
          rw [List.filterMap_cons_some chosen, List.findSome?_cons, List.findSome?_cons, ih, chosen]
          rfl

theorem Phrase.fault_members {α : Type} (write : α → Phrase) (paths : α → List Path)
    (each : ∀ member, (write member).fault? = (paths member).findSome? Path.fault?)
    (members : List α) :
    (members.map write).findSome? Phrase.fault? =
      (members.flatMap paths).findSome? Path.fault? := by
  rw [List.findSome?_map, findSome?_flatMap]
  exact congrArg (List.findSome? · members) (funext each)

/-! ## Operands -/

mutual

theorem Operand.phrase_fault (operand : Operand) :
    operand.phrase.fault? = operand.paths.findSome? Path.fault? := by
  cases operand with
  | path path => simp [Operand.phrase, Operand.paths, path.phrase_fault]
  | literal value => simp [Operand.phrase, Operand.paths]
  | size path => simp [Operand.phrase, Operand.paths, path.phrase_fault]
  | derived value => simp [Operand.phrase, Operand.paths, value.phrase_fault]

theorem Derived.phrase_fault (value : Derived) :
    value.phrase.fault? = value.paths.findSome? Path.fault? := by
  cases value with
  | listAppend first second =>
      simp [Derived.phrase, Derived.paths, first.phrase_fault, second.phrase_fault]
  | ifNotExists path fallback =>
      simp [Derived.phrase, Derived.paths, path.phrase_fault, fallback.phrase_fault,
        List.findSome?_cons]
      cases path.fault? <;> rfl
  | plus left right =>
      simp [Derived.phrase, Derived.paths, left.phrase_fault, right.phrase_fault]
  | minus left right =>
      simp [Derived.phrase, Derived.paths, left.phrase_fault, right.phrase_fault]

end

/-! ## Conditions -/

/-- What can stop the writing of a condition. -/
inductive Hurdle where
  | path (written : Path)
  | candidates (listed : List Operand)

def Hurdle.fault? : Hurdle → Option Fault
  | .path written => written.fault?
  | .candidates listed => if listed.isEmpty then some .noCandidates else none

namespace Condition

/-- The hurdles of a condition as they are met from left to right. -/
def hurdles : Condition → List Hurdle
  | .compare left _ right => (left.paths ++ right.paths).map .path
  | .between operand low high => (operand.paths ++ low.paths ++ high.paths).map .path
  | .oneOf operand candidates =>
      .candidates candidates :: (operand.paths ++ candidates.flatMap Operand.paths).map .path
  | .joined _ left right => left.hurdles ++ right.hurdles
  | .negated condition => condition.hurdles
  | .holds _ path _ => [.path path]

theorem mem_hurdles (condition : Condition) (path : Path) :
    .path path ∈ condition.hurdles ↔ path ∈ condition.paths := by
  induction condition with
  | compare | between | oneOf | holds => simp [hurdles, paths]
  | joined connective left right ihLeft ihRight => simp [hurdles, paths, ihLeft, ihRight]
  | negated condition ih => simpa [hurdles, paths] using ih

theorem findSome?_paths (paths : List Path) :
    (paths.map Hurdle.path).findSome? Hurdle.fault? = paths.findSome? Path.fault? :=
  List.findSome?_map

theorem phrase_fault (condition : Condition) :
    condition.phrase.fault? = condition.hurdles.findSome? Hurdle.fault? := by
  induction condition with
  | compare left comparator right =>
      simp [phrase, hurdles, findSome?_paths, left.phrase_fault, right.phrase_fault]
  | between operand low high =>
      simp [phrase, hurdles, findSome?_paths, operand.phrase_fault, low.phrase_fault,
        high.phrase_fault]
  | oneOf operand candidates =>
      have listed := Phrase.fault_members _ _ Operand.phrase_fault candidates
      -- Without candidates, nothing in front of them is looked at.
      by_cases none : candidates.isEmpty
      · simp [phrase, hurdles, Hurdle.fault?, none]
      · simp [phrase, hurdles, Hurdle.fault?, none, findSome?_paths, Phrase.commaSeparated, listed,
          operand.phrase_fault]
  | joined connective left right ihLeft ihRight => simp [phrase, hurdles, ihLeft, ihRight]
  | negated condition ih => simp [phrase, hurdles, ih]
  | holds predicate path argument =>
      have plain : (argumentPhrase argument).fault? = none := by cases argument <;> rfl
      simp [phrase, hurdles, Hurdle.fault?, path.phrase_fault, plain]

theorem no_hurdle (condition : Condition) :
    condition.hurdles.findSome? Hurdle.fault? = none ↔
      (∀ path ∈ condition.paths, path.fault? = none) ∧ .candidates [] ∉ condition.hurdles := by
  rw [List.findSome?_eq_none_iff]
  constructor
  · intro clear
    refine ⟨fun path member => clear _ ((condition.mem_hurdles path).mpr member), fun empty => ?_⟩
    cases clear _ empty
  · rintro ⟨paths, given⟩ hurdle member
    cases hurdle with
    | path written => exact paths written ((condition.mem_hurdles written).mp member)
    | candidates listed =>
        cases listed with
        | nil => exact absurd member given
        | cons first rest => rfl

end Condition

/-! ## Slots -/

namespace Draft

/-- What a draft has in one slot, and nothing else. -/
def only (draft : Draft) : Slot → Draft
  | .condition => { empty with condition := draft.condition }
  | .filter => { empty with filter := draft.filter }
  | .keyCondition => { empty with keyCondition := draft.keyCondition }
  | .projection => { empty with projection := draft.projection }
  | .update => { empty with update := draft.update }

/-- The condition in a slot that takes one. -/
def conditionIn (draft : Draft) : Slot → Option Condition
  | .condition => draft.condition
  | .filter => draft.filter
  | .keyCondition | .projection | .update => none

/-- What is wrong with a slot. -/
def slotFault? (draft : Draft) (slot : Slot) : Option Fault :=
  (draft.phrase slot).bind Phrase.fault?

theorem only_phrases (draft : Draft) (slot : Slot) :
    (draft.only slot).phrases = ((draft.phrase slot).map (slot, ·)).toList := by
  cases slot with
  | condition => cases given : draft.condition <;> simp [only, phrases, phrase, empty, given]
  | filter => cases given : draft.filter <;> simp [only, phrases, phrase, empty, given]
  | keyCondition => cases given : draft.keyCondition <;> simp [only, phrases, phrase, empty, given]
  | projection => cases given : draft.projection <;> simp [only, phrases, phrase, empty, given]
  | update => cases given : draft.update <;> simp [only, phrases, phrase, empty, given]

theorem only_empty (draft : Draft) (slot : Slot) :
    draft.only slot = .empty ↔ draft.phrase slot = none := by
  rw [← phrases_nil, only_phrases]
  cases draft.phrase slot <;> simp

theorem only_error (draft : Draft) (slot : Slot) (given : draft.only slot ≠ .empty)
    (fault : Fault) :
    (draft.only slot).build = .error fault ↔ draft.slotFault? slot = some fault := by
  obtain ⟨phrase, chosen⟩ := Option.ne_none_iff_exists'.mp ((draft.only_empty slot).not.mp given)
  have phrases := draft.only_phrases slot
  rw [chosen] at phrases
  rw [build_error _ (by simp [phrases]), phrases, slotFault?, chosen]
  cases found : phrase.fault? <;> simp [found]

theorem only_returns (draft : Draft) (slot : Slot) :
    (draft.only slot ≠ .empty → ∃ expression, (draft.only slot).build = .ok expression) ↔
      draft.slotFault? slot = none := by
  by_cases set : draft.only slot = .empty
  · simp [set, slotFault?, (draft.only_empty slot).mp set]
  · rw [returns_iff (draft.only_error slot set)]
    simp [set]

/-- A slot that is not set has nothing wrong with it. -/
theorem slotFault_some (draft : Draft) (slot : Slot) (fault : Fault) :
    draft.slotFault? slot = some fault ↔
      draft.only slot ≠ .empty ∧ (draft.only slot).build = .error fault := by
  by_cases set : draft.only slot = .empty
  · simp [set, slotFault?, (draft.only_empty slot).mp set]
  · simp [set, draft.only_error slot set]

theorem build_fault (draft : Draft) (given : draft ≠ .empty) (fault : Fault) :
    draft.build = .error fault ↔ Slot.inOrder.findSome? draft.slotFault? = some fault := by
  rw [build_error draft fun none => given (draft.phrases_nil.mp none), phrases,
    findSome?_filterMap]
  have each : (fun slot => ((draft.phrase slot).map (slot, ·)).bind fun entry => entry.2.fault?) =
      draft.slotFault? := by
    funext slot
    cases chosen : draft.phrase slot <;> simp [slotFault?, chosen]
  rw [each]
  rfl

theorem conditionIn_phrase (draft : Draft) (slot : Slot) (condition : Condition)
    (held : draft.conditionIn slot = some condition) :
    draft.phrase slot = some condition.phrase := by
  cases slot with
  | condition | filter => exact congrArg (Option.map Condition.phrase) held
  | keyCondition | projection | update => cases held

theorem conditionIn_fault (draft : Draft) (slot : Slot) (condition : Condition)
    (held : draft.conditionIn slot = some condition) :
    draft.only slot ≠ .empty ∧
      draft.slotFault? slot = condition.hurdles.findSome? Hurdle.fault? := by
  have phrase := draft.conditionIn_phrase slot condition held
  rw [ne_eq, only_empty, slotFault?, phrase]
  exact ⟨Option.some_ne_none _, condition.phrase_fault⟩

/-- A draft with something in it is built just when each slot that is set would be built alone, and
fails as the first one that would not. A condition alone is built just when all of its paths are
accepted and no test for membership is without candidates, and fails at the first hurdle. -/
theorem slots_decide (draft : Draft) (given : draft ≠ .empty) :
    ((∃ expression, draft.build = .ok expression) ↔ ∀ slot, draft.only slot ≠ .empty →
      ∃ expression, (draft.only slot).build = .ok expression) ∧
    (∀ fault, draft.build = .error fault ↔ ∃ before slot after,
      Slot.inOrder = before ++ slot :: after ∧
      (draft.only slot ≠ .empty ∧ (draft.only slot).build = .error fault) ∧
      ∀ earlier ∈ before, draft.only earlier ≠ .empty →
        ∃ expression, (draft.only earlier).build = .ok expression) ∧
    ∀ slot condition, draft.conditionIn slot = some condition →
      ((∃ expression, (draft.only slot).build = .ok expression) ↔
        (∀ path ∈ condition.paths, path.fault? = none) ∧ .candidates [] ∉ condition.hurdles) ∧
      ∀ fault, (draft.only slot).build = .error fault ↔
        condition.hurdles.findSome? Hurdle.fault? = some fault := by
  refine ⟨?_, fun fault => ?_, fun slot condition held => ?_⟩
  · rw [returns_iff (draft.build_fault given), List.findSome?_eq_none_iff]
    have all (slot : Slot) : slot ∈ Slot.inOrder := by cases slot <;> decide
    simp only [all, forall_const, only_returns]
  · simp only [draft.build_fault given, List.findSome?_eq_some_iff, slotFault_some, only_returns]
  · obtain ⟨set, fault⟩ := draft.conditionIn_fault slot condition held
    have failed := draft.only_error slot set
    rw [returns_iff failed, fault, condition.no_hurdle]
    exact ⟨Iff.rfl, fun other => by rw [failed, fault]⟩

/-- The filter alone would fail at its empty list of candidates, in front of the malformed path that
is tested; the projection is empty, but it comes later. -/
def obstructed : Draft where
  condition := some (.holds .exists ⟨"id"⟩ none)
  filter := some (.negated (.oneOf (.path ⟨"a..b"⟩) []))
  keyCondition := none
  projection := some .empty
  update := none

theorem obstructed_at_candidates :
    obstructed ≠ .empty ∧ obstructed.build = .error .noCandidates ∧
      (obstructed.only .projection).build = .error .emptyProjection ∧
      ((∃ expression, (obstructed.only .condition).build = .ok expression) ∧
        ¬ ∃ expression, (obstructed.only .filter).build = .ok expression) := by
  have given : obstructed ≠ .empty := by decide
  obtain ⟨_, failed, alone⟩ := slots_decide obstructed given
  obtain ⟨written, _⟩ := alone .condition _ rfl
  obtain ⟨refused, first⟩ := alone .filter _ rfl
  have built : ∃ expression, (obstructed.only .condition).build = .ok expression :=
    written.mpr ⟨by decide, by simp [Condition.hurdles]⟩
  refine ⟨given, (failed _).mpr ⟨[.condition], .filter, _, rfl, ⟨by decide, (first _).mpr rfl⟩, ?_⟩,
    by decide, built, fun done => (refused.mp done).2 (by simp [Condition.hurdles])⟩
  exact fun earlier member _ => List.mem_singleton.mp member ▸ built

end Draft

end ItemExpressions

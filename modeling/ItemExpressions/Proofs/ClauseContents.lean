import Mathlib.Data.List.Basic
import ItemExpressions.Update

/-!
Contents of updates. An update keeps the changes of each clause in the order in which they were
asked for, and of the order between clauses nothing. So it is known by the changes that it has in
each clause.
-/

namespace ItemExpressions

inductive Clause where
  | add
  | delete
  | remove
  | set
  deriving DecidableEq

namespace Change

def clause : Change → Clause
  | .add _ _ => .add
  | .delete _ _ => .delete
  | .remove _ => .remove
  | .set _ _ => .set

end Change

namespace Clause

/-- The changes of one clause. -/
def select (clause : Clause) (changes : List Change) : List Change :=
  changes.filter fun change => change.clause = clause

theorem select_append (clause : Clause) (first second : List Change) :
    clause.select (first ++ second) = clause.select first ++ clause.select second :=
  List.filter_append _ _

end Clause

namespace Update

def changesIn (update : Update) : Clause → List Change
  | .add => update.additions.map fun change => .add change.1 change.2
  | .delete => update.deletions.map fun change => .delete change.1 change.2
  | .remove => update.removals.map .remove
  | .set => update.assignments.map fun change => .set change.1 change.2

theorem changesIn_push (update : Update) (change : Change) (clause : Clause) :
    (update.push change).changesIn clause = update.changesIn clause ++ clause.select [change] := by
  cases change <;> cases clause <;> simp [push, changesIn, Clause.select, Change.clause]

theorem changesIn_pushAll (update : Update) (changes : List Change) (clause : Clause) :
    (update.pushAll changes).changesIn clause =
      update.changesIn clause ++ clause.select changes := by
  induction changes generalizing update with
  | nil => simp [pushAll, Clause.select]
  | cons first rest ih =>
      have later := ih (update.push first)
      rw [changesIn_push, List.append_assoc, ← Clause.select_append] at later
      exact later

theorem changesIn_ofChanges (changes : List Change) (clause : Clause) :
    (ofChanges changes).changesIn clause = clause.select changes := by
  rw [ofChanges, changesIn_pushAll]
  cases clause <;> rfl

theorem eq_of_changesIn (first second : Update)
    (same : ∀ clause, first.changesIn clause = second.changesIn clause) : first = second := by
  have additions := same .add
  have deletions := same .delete
  have removals := same .remove
  have assignments := same .set
  obtain ⟨_, _, _, _⟩ := first
  obtain ⟨_, _, _, _⟩ := second
  rw [Update.mk.injEq]
  refine ⟨List.map_injective_iff.mpr ?_ additions, List.map_injective_iff.mpr ?_ deletions,
    List.map_injective_iff.mpr ?_ removals, List.map_injective_iff.mpr ?_ assignments⟩
  · rintro ⟨_, _⟩ ⟨_, _⟩ equal
    cases equal
    rfl
  · rintro ⟨_, _⟩ ⟨_, _⟩ equal
    cases equal
    rfl
  · exact fun _ _ equal => Change.remove.inj equal
  · rintro ⟨_, _⟩ ⟨_, _⟩ equal
    cases equal
    rfl

theorem ofChanges_eq_iff (first second : List Change) :
    ofChanges first = ofChanges second ↔
      ∀ clause : Clause, clause.select first = clause.select second := by
  constructor
  · intro same clause
    rw [← changesIn_ofChanges, same, changesIn_ofChanges]
  · intro same
    apply eq_of_changesIn
    intro clause
    rw [changesIn_ofChanges, changesIn_ofChanges, same clause]

theorem isEmpty_iff (update : Update) :
    update.isEmpty = true ↔ ∀ clause, update.changesIn clause = [] := by
  constructor
  · intro empty clause
    simp only [isEmpty, Bool.and_eq_true, List.isEmpty_iff] at empty
    obtain ⟨⟨⟨additions, deletions⟩, removals⟩, assignments⟩ := empty
    cases clause <;> simp [changesIn, additions, deletions, removals, assignments]
  · intro none
    have additions := none .add
    have deletions := none .delete
    have removals := none .remove
    have assignments := none .set
    simp only [changesIn, List.map_eq_nil_iff] at additions deletions removals assignments
    simp [isEmpty, additions, deletions, removals, assignments]

theorem ofChanges_isEmpty (changes : List Change) :
    (ofChanges changes).isEmpty = true ↔ changes = [] := by
  simp only [isEmpty_iff, changesIn_ofChanges, Clause.select, List.filter_eq_nil_iff,
    decide_eq_true_eq]
  constructor
  · intro none
    apply List.eq_nil_iff_forall_not_mem.mpr
    exact fun change member => none change.clause change member rfl
  · rintro rfl
    simp

end Update

end ItemExpressions

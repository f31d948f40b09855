import ItemExpressions.Proofs.Faults
import ItemExpressions.Proofs.PathTexts

/-!
Verdicts on paths. A path is refused if it is empty, or if one of its parts between the points has
no name in it: there is nothing in the part, or it is in brackets as a whole. Every other path is
written, wherever else it has brackets, and the table that it is written over has no say in that.
-/

namespace ItemExpressions

theorem findSome?_where {α β : Type} (holds : α → Prop) [DecidablePred holds] (answer : β)
    (members : List α) :
    members.findSome? (fun member => if holds member then some answer else none) =
      if ∃ member ∈ members, holds member then some answer else none := by
  induction members with
  | nil => simp
  | cons first rest ih =>
      by_cases here : holds first
      · simp [here]
      · simp [here, ih]

namespace Path

/-- Nothing is left of the part in front of what is taken for indices. -/
def Unnamed (segment : List Char) : Prop :=
  segment = [] ∨ segment.head? = some '[' ∧ segment.getLast? = some ']'

instance (segment : List Char) : Decidable (Unnamed segment) :=
  inferInstanceAs (Decidable (_ ∨ _))

/-- Why a path is refused, if it is. -/
def fault? (path : Path) : Option Fault :=
  if path.text = "" then some .emptyPath
  else if ∃ segment ∈ path.text.toList.splitOn '.', Unnamed segment then some .malformedPath
  else none

theorem fieldName_nil (segment : List Char) : fieldName segment = [] ↔ Unnamed segment := by
  rw [fieldName, isIndexed, Unnamed]
  by_cases closed : segment.getLast? = some ']'
  · cases segment with
    | nil => cases closed
    | cons c rest =>
        -- The name ends before it begins just when the first character is the bracket.
        by_cases bracket : c = '[' <;> simp [closed, bracket]
  · simp [closed]

theorem segmentPhrase_fault (segment : List Char) :
    (segmentPhrase segment).fault? = if Unnamed segment then some .malformedPath else none := by
  have unnamed := fieldName_nil segment
  rw [segmentPhrase]
  split
  next none => rw [if_pos (unnamed.mp none), Phrase.fault_flaw]
  next given => rw [if_neg fun none => given (unnamed.mpr none)]; rfl

theorem phrase_fault (path : Path) : path.phrase.fault? = path.fault? := by
  rw [phrase, fault?]
  by_cases empty : path.text = ""
  · simp [empty]
  · have given : ¬ path.text.isEmpty = true := by simpa using empty
    rw [if_neg given, if_neg empty, Phrase.fault_separated, List.findSome?_map, segments,
      split_eq_splitOn, ← findSome?_where]
    exact congrArg (List.findSome? · _) (funext segmentPhrase_fault)

theorem fault_emptyPath (path : Path) : path.fault? = some .emptyPath ↔ path.text = "" := by
  rw [fault?]
  split
  next empty => simp [empty]
  next given => split <;> simp [given]

theorem fault_malformedPath (path : Path) : path.fault? = some .malformedPath ↔
    path.text ≠ "" ∧ ∃ segment ∈ path.text.toList.splitOn '.', Unnamed segment := by
  rw [fault?]
  split
  next empty => simp [empty]
  next given =>
    split
    next unnamed => exact ⟨fun _ => ⟨given, unnamed⟩, fun _ => rfl⟩
    next named => exact ⟨nofun, fun ⟨_, unnamed⟩ => absurd unnamed named⟩

theorem fault_none (path : Path) : path.fault? = none ↔
    path.text ≠ "" ∧ ∀ segment ∈ path.text.toList.splitOn '.', ¬ Unnamed segment := by
  rw [fault?]
  split
  next empty => simp [empty]
  next given => simp [given]

/-- Over any table, an empty path is refused as such, any other one just for an unnamed part, and
all that are not refused are written. -/
theorem write_verdict (path : Path) (table : Placeholders) :
    ((path.phrase.write table).1 = .error .emptyPath ↔ path.text = "") ∧
    ((path.phrase.write table).1 = .error .malformedPath ↔
      path.text ≠ "" ∧ ∃ segment ∈ path.text.toList.splitOn '.', Unnamed segment) ∧
    ((∃ text, (path.phrase.write table).1 = .ok text) ↔
      path.text ≠ "" ∧ ∀ segment ∈ path.text.toList.splitOn '.', ¬ Unnamed segment) := by
  rw [path.phrase.write_error, path.phrase.write_error, path.phrase.write_returns,
    path.phrase_fault]
  exact ⟨path.fault_emptyPath, path.fault_malformedPath, path.fault_none⟩

example :
    ["", "a..b", "a.[1]", "[", "]", "[a]b", "a]b[", "a[x].b"].map (fun text => fault? ⟨text⟩) =
      [some .emptyPath, some .malformedPath, some .malformedPath, none, none, none, none, none] := by
  decide

end Path

end ItemExpressions

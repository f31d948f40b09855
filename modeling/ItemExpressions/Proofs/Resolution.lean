import Mathlib.Data.List.Basic
import ItemExpressions.Proofs.InertPhrases

/-!
Resolution. Looking up every label of a text in the tables beside it gives back the phrase that the
text was written from. The tables only grow while one phrase after the other is written, and no
entry ever changes its position; a mark made early is therefore resolved by the finished tables as
it was by those it was made over, also where later phrases share it.
-/

namespace ItemExpressions

/-- What is left of an expression once its grammar is spelled out: characters of the grammar, and
names and values in their place, whatever characters these hold. -/
inductive Piece where
  | char (c : Char)
  | name (name : String)
  | value (value : AttributeValue)
  deriving DecidableEq

def Word.pieces : Word → List Piece
  | .text written => written.toList.map .char
  | .name field => [.name field]
  | .value literal => [.value literal]
  | .flaw _ => []

def Phrase.pieces (phrase : Phrase) : List Piece := phrase.flatMap Word.pieces

/-- A label that neither table has stays as it is. -/
def Token.resolve (names : List (String × String)) (values : List (String × AttributeValue)) :
    Token → List Piece
  | .char c => [.char c]
  | .label spelled =>
      match names.lookup spelled, values.lookup spelled with
      | some name, _ => [.name name]
      | none, some value => [.value value]
      | none, none => spelled.toList.map .char

def Placeholders.resolveText (table : Placeholders) (text : String) : List Piece :=
  (Token.tokens text.toList).flatMap (Token.resolve table.nameEntries table.valueEntries)

def Expression.resolve (expression : Expression) (text : String) : List Piece :=
  (Token.tokens text.toList).flatMap (Token.resolve expression.names expression.values)

/-! ## Looking up labels -/

section Labelled

variable {α : Type} (label : Nat → String)

theorem lookup_labelled_from (injective : Function.Injective label) (members : List α)
    (start index : Nat) :
    ((members.zipIdx start).map fun member => (label member.2, member.1)).lookup
      (label (start + index)) = members[index]? := by
  induction members generalizing start index with
  | nil => rfl
  | cons first rest ih =>
      rw [List.zipIdx_cons, List.map_cons, List.lookup_cons]
      cases index with
      | zero => simp
      | succ next =>
          have different : label (start + (next + 1)) ≠ label start := by
            intro same
            have equal := injective same
            omega
          rw [beq_false_of_ne different, show start + (next + 1) = start + 1 + next by omega]
          exact ih (start + 1) next

theorem lookup_labelled (injective : Function.Injective label) (members : List α) (index : Nat) :
    (labelled label members).lookup (label index) = members[index]? := by
  have found := lookup_labelled_from label injective members 0 index
  rwa [Nat.zero_add] at found

theorem lookup_labelled_other (other : String) (different : ∀ index, label index ≠ other)
    (members : List α) : (labelled label members).lookup other = none := by
  rw [List.lookup_eq_none_iff]
  intro entry member
  obtain ⟨source, _, rfl⟩ := List.mem_map.mp member
  exact bne_iff_ne.mpr fun same => different source.2 same.symm

end Labelled

namespace Placeholders

def resolve (table : Placeholders) (mark : Mark) : List Piece :=
  mark.tokens.flatMap (Token.resolve table.nameEntries table.valueEntries)

theorem resolve_text (table : Placeholders) (written : String) :
    table.resolve (.text written) = written.toList.map .char := by
  rw [resolve, Mark.tokens]
  induction written.toList with
  | nil => rfl
  | cons c rest ih => simpa [Token.resolve] using ih

theorem resolve_name (table : Placeholders) {index : Nat} {name : String}
    (found : table.names[index]? = some name) : table.resolve (.name index) = [.name name] := by
  have bound : table.nameEntries.lookup (Mark.nameLabel index) = some name := by
    rw [nameEntries, lookup_labelled _ (Mark.label_injective _ _ Mark.nameLabel_chars), found]
  simp [resolve, Mark.tokens, Token.resolve, bound]

theorem resolve_value (table : Placeholders) {index : Nat} {value : AttributeValue}
    (found : table.values[index]? = some value) :
    table.resolve (.value index) = [.value value] := by
  have unnamed : table.nameEntries.lookup (Mark.valueLabel index) = none :=
    lookup_labelled_other _ _ (fun other => Mark.labels_differ other index) _
  have bound : table.valueEntries.lookup (Mark.valueLabel index) = some value := by
    rw [valueEntries, lookup_labelled _ (Mark.label_injective _ _ Mark.valueLabel_chars), found]
  simp [resolve, Mark.tokens, Token.resolve, unnamed, bound]

/-! ## Tables only grow -/

structure Extends (later earlier : Placeholders) : Prop where
  names : earlier.names <+: later.names
  values : earlier.values <+: later.values

theorem Extends.refl (table : Placeholders) : table.Extends table where
  names := List.prefix_refl _
  values := List.prefix_refl _

theorem Extends.trans {last later earlier : Placeholders} (second : last.Extends later)
    (first : later.Extends earlier) : last.Extends earlier where
  names := first.names.trans second.names
  values := first.values.trans second.values

/-- What an entry stands for does not change as the table grows. -/
theorem getElem?_of_extended {β : Type} {earlier later : List β} (grown : earlier <+: later)
    {index : Nat} {entry : β} (found : earlier[index]? = some entry) :
    later[index]? = some entry := by
  obtain ⟨inside, same⟩ := List.getElem?_eq_some_iff.mp found
  rw [List.prefix_iff_getElem?.mp grown index inside, same]

theorem admitName_extends (name : String) (table : Placeholders) :
    (table.admitName name).2.Extends table := by
  rw [admitName]
  by_cases known : name ∈ table.names
  · simpa [known] using Extends.refl table
  · simp only [known, ↓reduceIte]
    exact ⟨List.prefix_append _ _, List.prefix_refl _⟩

theorem admitValue_extends (value : AttributeValue) (table : Placeholders) :
    (table.admitValue value).2.Extends table :=
  ⟨List.prefix_refl _, List.prefix_append _ _⟩

theorem admitName_found (name : String) (table : Placeholders) :
    (table.admitName name).2.names[(table.admitName name).1]? = some name := by
  by_cases known : name ∈ table.names
  · have inside : table.names.idxOf name < table.names.length := List.idxOf_lt_length_iff.mpr known
    simp [admitName, known, List.getElem?_eq_getElem inside]
  · simp [admitName, known]

theorem admitValue_found (value : AttributeValue) (table : Placeholders) :
    (table.admitValue value).2.values[(table.admitValue value).1]? = some value := by
  simp [admitValue]

end Placeholders

/-! ## Numbering and writing -/

theorem map_ok {ε β γ : Type} {change : β → γ} {result : Except ε β} {answer : γ}
    (returned : result.map change = .ok answer) :
    ∃ given, result = .ok given ∧ change given = answer := by
  cases result with
  | error fault => cases returned
  | ok given => exact ⟨given, rfl, Except.ok.inj returned⟩

namespace Phrase

theorem number_extends (phrase : Phrase) (table : Placeholders) :
    (phrase.number table).2.Extends table := by
  induction phrase generalizing table with
  | nil => exact .refl table
  | cons word rest ih =>
      cases word with
      | text written => exact ih table
      | name name => exact (ih _).trans (table.admitName_extends name)
      | value value => exact (ih _).trans (table.admitValue_extends value)
      | flaw fault => exact .refl table

theorem number_inert (phrase : Phrase) (inert : phrase.Inert) (table : Placeholders)
    (marks : List Mark) (numbered : (phrase.number table).1 = .ok marks) :
    ∀ mark ∈ marks, mark.Inert := by
  induction phrase generalizing table marks with
  | nil =>
      cases numbered
      intro mark member
      simp at member
  | cons word rest ih =>
      have tail : Phrase.Inert rest := fun word member => inert word (List.mem_cons_of_mem _ member)
      have head : word.Inert := inert word List.mem_cons_self
      cases word with
      | flaw fault => cases numbered
      | text written =>
          obtain ⟨others, found, rfl⟩ := map_ok numbered
          exact List.forall_mem_cons.mpr ⟨head, ih tail _ _ found⟩
      | name name =>
          obtain ⟨others, found, rfl⟩ := map_ok numbered
          exact List.forall_mem_cons.mpr ⟨trivial, ih tail _ _ found⟩
      | value value =>
          obtain ⟨others, found, rfl⟩ := map_ok numbered
          exact List.forall_mem_cons.mpr ⟨trivial, ih tail _ _ found⟩

/-- The marks mean the same to every table that the one they were made over grows into. -/
theorem number_resolved (phrase : Phrase) (table later : Placeholders) (marks : List Mark)
    (numbered : (phrase.number table).1 = .ok marks)
    (grown : later.Extends (phrase.number table).2) :
    marks.flatMap later.resolve = phrase.pieces := by
  induction phrase generalizing table marks with
  | nil =>
      cases numbered
      rfl
  | cons word rest ih =>
      rw [pieces, List.flatMap_cons]
      cases word with
      | flaw fault => cases numbered
      | text written =>
          obtain ⟨others, found, rfl⟩ := map_ok numbered
          have tail := ih table others found grown
          rw [List.flatMap_cons, later.resolve_text, tail, Word.pieces, pieces]
      | name name =>
          obtain ⟨others, found, rfl⟩ := map_ok numbered
          have tail := ih _ others found grown
          -- The rest is numbered over a table that has this name, and only adds to it.
          have entry := table.admitName_found name
          have between := grown.trans (number_extends rest (table.admitName name).2)
          have bound := Placeholders.getElem?_of_extended between.names entry
          rw [List.flatMap_cons, later.resolve_name bound, tail, Word.pieces, pieces]
      | value value =>
          obtain ⟨others, found, rfl⟩ := map_ok numbered
          have tail := ih _ others found grown
          have entry := table.admitValue_found value
          have between := grown.trans (number_extends rest (table.admitValue value).2)
          have bound := Placeholders.getElem?_of_extended between.values entry
          rw [List.flatMap_cons, later.resolve_value bound, tail, Word.pieces, pieces]

theorem write_resolved (phrase : Phrase) (inert : phrase.Inert) (table later : Placeholders)
    (text : String) (written : (phrase.write table).1 = .ok text)
    (grown : later.Extends (phrase.write table).2) :
    later.resolveText text = phrase.pieces := by
  obtain ⟨marks, numbered, rfl⟩ := map_ok written
  have marked := phrase.number_inert inert table marks numbered
  rw [Placeholders.resolveText, Mark.tokens_spellAll marks marked, List.flatMap_assoc]
  exact phrase.number_resolved table later marks numbered grown

end Phrase

theorem writeSlots_extends (phrases : List (Slot × Phrase)) (table : Placeholders) :
    (writeSlots phrases table).2.Extends table := by
  induction phrases generalizing table with
  | nil => exact .refl table
  | cons entry rest ih =>
      have grown := entry.2.number_extends table
      rw [writeSlots]
      split
      next fault last failed =>
        have after : (entry.2.write table).2 = last := congrArg Prod.snd failed
        rw [← after]
        exact grown
      next text last done =>
        have after : (entry.2.write table).2 = last := congrArg Prod.snd done
        exact (ih last).trans (after ▸ grown)

theorem writeSlots_resolved (phrases : List (Slot × Phrase))
    (inert : ∀ entry ∈ phrases, entry.2.Inert) (table later : Placeholders)
    (texts : List (Slot × String)) (written : (writeSlots phrases table).1 = .ok texts)
    (grown : later.Extends (writeSlots phrases table).2) (slot : Slot) :
    (texts.lookup slot).map later.resolveText = (phrases.lookup slot).map Phrase.pieces := by
  induction phrases generalizing table texts with
  | nil =>
      cases written
      rfl
  | cons entry rest ih =>
      have tail : ∀ entry ∈ rest, entry.2.Inert :=
        fun entry member => inert entry (List.mem_cons_of_mem _ member)
      have head : entry.2.Inert := inert entry List.mem_cons_self
      rw [writeSlots] at written grown
      split at written
      next fault last failed => cases written
      next text last done =>
        simp only [done] at grown
        obtain ⟨others, found, rfl⟩ := map_ok written
        -- The later texts grow the table once more before this one is resolved.
        have first : later.resolveText text = entry.2.pieces := by
          apply entry.2.write_resolved head table later text (congrArg Prod.fst done)
          rw [done]
          exact grown.trans (writeSlots_extends rest last)
        rw [List.lookup_cons, List.lookup_cons]
        by_cases same : slot = entry.1
        · simp [same, first]
        · simpa [beq_false_of_ne same] using ih tail last others found grown

namespace Draft

theorem lookup_of_slots (chosen : Slot → Option Phrase) (slots : List Slot) (slot : Slot) :
    (slots.filterMap fun slot => (chosen slot).map (slot, ·)).lookup slot =
      if slot ∈ slots then chosen slot else none := by
  induction slots with
  | nil => rfl
  | cons first rest ih =>
      rw [List.filterMap_cons]
      by_cases same : slot = first
      · subst same
        -- A slot that is left out here may still be asked for further on, with the same answer.
        cases found : chosen slot with
        | none => simpa [found] using ih
        | some phrase => simp
      · cases found : chosen first with
        | none => simpa [same] using ih
        | some phrase => simpa [List.lookup_cons, same, beq_false_of_ne same] using ih

theorem phrases_lookup (draft : Draft) (slot : Slot) :
    draft.phrases.lookup slot = draft.phrase slot := by
  rw [phrases, lookup_of_slots]
  cases slot <;> rfl

theorem phrases_inert (draft : Draft)
    (indexed : ∀ slot, ∀ path ∈ draft.paths slot, path.DecimallyIndexed) :
    ∀ entry ∈ draft.phrases, entry.2.Inert := by
  intro entry member
  obtain ⟨slot, _, given⟩ := List.mem_filterMap.mp member
  obtain ⟨phrase, chosen, rfl⟩ := Option.map_eq_some_iff.mp given
  exact draft.phrase_inert slot (indexed slot) phrase chosen

/-- Whatever a draft holds, each text of the expression built from it says, once its labels are
looked up in the tables of that expression, what the draft holds for its slot. -/
theorem texts_resolve (draft : Draft) (expression : Expression)
    (indexed : ∀ slot, ∀ path ∈ draft.paths slot, path.DecimallyIndexed)
    (built : draft.build = .ok expression) (slot : Slot) :
    (expression.text slot).map expression.resolve = (draft.phrase slot).map Phrase.pieces := by
  rw [build] at built
  split at built
  · cases built
  · obtain ⟨texts, written, rfl⟩ := map_ok built
    rw [← draft.phrases_lookup]
    exact writeSlots_resolved draft.phrases (draft.phrases_inert indexed) .empty _ texts written
      (.refl _) slot

/-- Three expressions over the same two fields, and a key that is spelled like a label. -/
def sharing : Draft where
  condition := some (.compare (.path ⟨"scores[1][2].total"⟩) .less (.literal (.string "a")))
  filter := none
  keyCondition := some (.compare "#1" .equal (.string ":0"))
  projection := some ⟨[⟨"total"⟩, ⟨"scores"⟩]⟩
  update := none

def shared : Expression where
  texts := [(.condition, "#0[1][2].#1 < :0"), (.keyCondition, "#2 = :1"), (.projection, "#1, #0")]
  placeholders := ⟨["scores", "total", "#1"], [.string "a", .string ":0"]⟩

theorem sharing_indexed : ∀ slot, ∀ path ∈ sharing.paths slot, path.DecimallyIndexed := by
  have second : DecimalIndices "[2]".toList := .more ['2'] [] (by decide) (by simp) .none
  have both : DecimalIndices "[1][2]".toList := .more ['1'] _ (by decide) (by simp) second
  have bare (name : List Char) (unindexed : Path.indices name = []) :
      DecimalIndices (Path.indices name) := unindexed ▸ .none
  intro slot path member segment inside
  cases slot with
  | condition =>
      rw [List.mem_singleton.mp member] at inside
      have cases : segment = "scores[1][2]".toList ∨ segment = "total".toList := by
        simpa [Path.segments, Path.split] using inside
      rcases cases with rfl | rfl
      · exact both
      · exact bare _ (by decide)
  | filter => cases member
  | keyCondition => cases member
  | projection =>
      have listed : path = ⟨"total"⟩ ∨ path = ⟨"scores"⟩ := by
        simpa [Draft.paths, sharing] using member
      have named : segment = "total".toList ∨ segment = "scores".toList := by
        rcases listed with rfl | rfl
        · exact .inl (List.mem_singleton.mp inside)
        · exact .inr (List.mem_singleton.mp inside)
      rcases named with rfl | rfl <;> exact bare _ (by decide)
  | update => cases member

/-- The fields of the projection resolve to what they are although the condition numbered them, and
the key is not taken for the label that it is spelled like. -/
theorem sharing_texts_resolve :
    sharing.build = .ok shared ∧
      (shared.text .projection).map shared.resolve =
        some [.name "total", .char ',', .char ' ', .name "scores"] ∧
      (shared.text .keyCondition).map shared.resolve =
        some [.name "#1", .char ' ', .char '=', .char ' ', .value (.string ":0")] := by
  have built : sharing.build = .ok shared := by decide
  have resolved := texts_resolve sharing shared sharing_indexed built
  refine ⟨built, ?_, ?_⟩
  · rw [resolved .projection]
    decide
  · rw [resolved .keyCondition]
    decide

end Draft

end ItemExpressions

import Mathlib.Data.Finset.Card
import ItemExpressions.Proofs.Mentions
import ItemExpressions.Proofs.Resolution

/-!
Numbers of placeholders. Writing the expressions of a request one after the other numbers the same
marks as writing all of their phrases at once would. Names are numbered by the order in which they
are first met, values by the order in which they are met; so along the texts the labels of values
count up without a gap, and the labels of names do where each is first seen.
-/

namespace ItemExpressions

/-! ## First occurrences -/

section FirstOccurrences

variable {α β : Type} [DecidableEq α] [DecidableEq β]

theorem eraseDups_concat (members : List α) (last : α) :
    (members ++ [last]).eraseDups =
      if last ∈ members then members.eraseDups else members.eraseDups ++ [last] := by
  rw [List.eraseDups_append]
  by_cases known : last ∈ members
  · simp [List.removeAll, known]
  · simp [List.removeAll, known, List.eraseDups_cons]

theorem eraseDups_nodup (members : List α) : members.eraseDups.Nodup := by
  induction members using List.reverseRecOn with
  | nil => simp
  | append_singleton earlier last ih =>
      rw [eraseDups_concat]
      split
      · exact ih
      · next fresh =>
        exact List.nodup_append.mpr ⟨ih, List.nodup_singleton _, by
          intro member inside other same equal
          rw [List.mem_singleton.mp same] at equal
          exact fresh (equal ▸ List.mem_eraseDups.mp inside)⟩

theorem eraseDups_of_nodup {members : List α} (distinct : members.Nodup) :
    members.eraseDups = members := by
  induction members using List.reverseRecOn with
  | nil => rfl
  | append_singleton earlier last ih =>
      have parts := List.nodup_append.mp distinct
      have fresh : last ∉ earlier := fun inside => parts.2.2 last inside last List.mem_cons_self rfl
      rw [eraseDups_concat, if_neg fresh, ih parts.1]

theorem eraseDups_length (members : List α) :
    members.eraseDups.length = members.toFinset.card := by
  rw [← List.toFinset_card_of_nodup (eraseDups_nodup members)]
  congr 1
  ext member
  simp

theorem eraseDups_map (change : α → β) (members : List α)
    (injective : ∀ first ∈ members, ∀ second ∈ members,
      change first = change second → first = second) :
    (members.map change).eraseDups = members.eraseDups.map change := by
  induction members using List.reverseRecOn with
  | nil => rfl
  | append_singleton earlier last ih =>
      have inside : last ∈ earlier ++ [last] := List.mem_append_right _ List.mem_cons_self
      have known : change last ∈ earlier.map change ↔ last ∈ earlier := by
        refine ⟨fun found => ?_, List.mem_map_of_mem⟩
        obtain ⟨other, member, same⟩ := List.mem_map.mp found
        exact injective other (List.mem_append_left _ member) last inside same ▸ member
      have rest := ih fun first left second right =>
        injective first (List.mem_append_left _ left) second (List.mem_append_left _ right)
      rw [List.map_append, List.map_singleton, eraseDups_concat, eraseDups_concat, rest]
      by_cases old : last ∈ earlier
      · rw [if_pos (known.mpr old), if_pos old]
      · rw [if_neg fun found => old (known.mp found), if_neg old, List.map_append,
          List.map_singleton]

theorem map_idxOf {members : List α} (distinct : members.Nodup) :
    members.map members.idxOf = List.range members.length := by
  apply List.ext_getElem (by simp)
  intro position before _
  have inside : position < members.length := by simpa using before
  simp [distinct.idxOf_getElem position inside]

end FirstOccurrences

theorem labelled_keys {α : Type} (label : Nat → String) (members : List α) :
    (labelled label members).map Prod.fst = (List.range members.length).map label := by
  rw [labelled, List.map_map, List.range_eq_range', ← List.zipIdx_map_snd 0 members, List.map_map]
  rfl

theorem labelled_members {α : Type} (label : Nat → String) (members : List α) :
    (labelled label members).map Prod.snd = members := by
  rw [labelled, List.map_map]
  exact List.zipIdx_map_fst 0 members

/-! ## Numbering a phrase -/

namespace Mark

def nameIndex? : Mark → Option Nat
  | .name index => some index
  | .text _ | .value _ => none

def valueIndex? : Mark → Option Nat
  | .value index => some index
  | .text _ | .name _ => none

end Mark

namespace Placeholders

theorem admitName_mem (name : String) (table : Placeholders) :
    name ∈ (table.admitName name).2.names :=
  List.mem_of_getElem? (table.admitName_found name)

theorem admitName_position (name : String) (table : Placeholders) :
    (table.admitName name).1 = (table.admitName name).2.names.idxOf name := by
  by_cases known : name ∈ table.names
  · simp [admitName, known]
  · simp [admitName, known, List.idxOf_append_of_notMem]

/-- As a table grows, its names keep their positions. -/
theorem position_of_extends {later earlier : Placeholders} (grown : later.Extends earlier)
    (name : String) (known : name ∈ earlier.names) :
    later.names.idxOf name = earlier.names.idxOf name := by
  obtain ⟨appended, names⟩ := grown.names
  rw [← names, List.idxOf_append_of_mem known]

end Placeholders

namespace Phrase

def names (phrase : Phrase) : List String := phrase.mentions.filterMap Mention.name?

def literals (phrase : Phrase) : List AttributeValue := phrase.mentions.filterMap Mention.value?

theorem number_flawless (phrase : Phrase) (table : Placeholders) (marks : List Mark)
    (numbered : (phrase.number table).1 = .ok marks) : phrase.Flawless := by
  induction phrase generalizing table marks with
  | nil => simp [Flawless]
  | cons word rest ih =>
      refine List.forall_mem_cons.mpr ?_
      cases word with
      | flaw fault => cases numbered
      | text written =>
          obtain ⟨others, found, _⟩ := map_ok numbered
          exact ⟨rfl, ih _ _ found⟩
      | name field =>
          obtain ⟨others, found, _⟩ := map_ok numbered
          exact ⟨rfl, ih _ _ found⟩
      | value literal =>
          obtain ⟨others, found, _⟩ := map_ok numbered
          exact ⟨rfl, ih _ _ found⟩

/-- Values are numbered from where the table ends, and appended to it. -/
theorem number_values (phrase : Phrase) (table : Placeholders) (marks : List Mark)
    (numbered : (phrase.number table).1 = .ok marks) :
    (phrase.number table).2.values = table.values ++ phrase.literals ∧
      marks.filterMap Mark.valueIndex? =
        List.range' table.values.length phrase.literals.length := by
  induction phrase generalizing table marks with
  | nil =>
      cases numbered
      simp [number, literals, mentions]
  | cons word rest ih =>
      cases word with
      | flaw fault => cases numbered
      | text written =>
          obtain ⟨others, found, rfl⟩ := map_ok numbered
          exact ih table others found
      | name field =>
          obtain ⟨others, found, rfl⟩ := map_ok numbered
          have kept : (table.admitName field).2.values = table.values := by
            rw [Placeholders.admitName]
            by_cases known : field ∈ table.names <;> simp [known]
          have tail := ih _ others found
          rw [kept] at tail
          exact tail
      | value literal =>
          obtain ⟨others, found, rfl⟩ := map_ok numbered
          obtain ⟨appended, numbers⟩ := ih _ others found
          have grown : (table.admitValue literal).2.values = table.values ++ [literal] := rfl
          rw [grown] at appended numbers
          rw [List.append_assoc] at appended
          rw [List.length_append, List.length_singleton] at numbers
          refine ⟨appended, ?_⟩
          have here : (Mark.value (table.admitValue literal).1 :: others).filterMap
              Mark.valueIndex? = table.values.length :: others.filterMap Mark.valueIndex? := rfl
          rw [here, numbers, ← List.range'_succ]
          rfl

/-- The table holds the first occurrences of all names met so far, those before the phrase too. -/
theorem number_names (phrase : Phrase) (table : Placeholders) (marks : List Mark)
    (numbered : (phrase.number table).1 = .ok marks) (met : List String)
    (known : table.names = met.eraseDups) :
    (phrase.number table).2.names = (met ++ phrase.names).eraseDups := by
  induction phrase generalizing table marks met with
  | nil =>
      cases numbered
      simpa [number, names, mentions] using known
  | cons word rest ih =>
      cases word with
      | flaw fault => cases numbered
      | text written =>
          obtain ⟨others, found, rfl⟩ := map_ok numbered
          exact ih table others found met known
      | name field =>
          obtain ⟨others, found, rfl⟩ := map_ok numbered
          have admitted : (table.admitName field).2.names = (met ++ [field]).eraseDups := by
            rw [Placeholders.admitName, eraseDups_concat, ← known]
            have same : field ∈ table.names ↔ field ∈ met := by rw [known, List.mem_eraseDups]
            by_cases old : field ∈ met <;> simp [same, old]
          have tail := ih _ others found (met ++ [field]) admitted
          rw [List.append_assoc] at tail
          exact tail
      | value literal =>
          obtain ⟨others, found, rfl⟩ := map_ok numbered
          exact ih _ others found met known

theorem number_indices (phrase : Phrase) (table : Placeholders) (marks : List Mark)
    (numbered : (phrase.number table).1 = .ok marks) :
    marks.filterMap Mark.nameIndex? = phrase.names.map (phrase.number table).2.names.idxOf := by
  induction phrase generalizing table marks with
  | nil =>
      cases numbered
      rfl
  | cons word rest ih =>
      cases word with
      | flaw fault => cases numbered
      | text written =>
          obtain ⟨others, found, rfl⟩ := map_ok numbered
          exact ih table others found
      | name field =>
          obtain ⟨others, found, rfl⟩ := map_ok numbered
          have kept : (number rest (table.admitName field).2).2.names.idxOf field =
              (table.admitName field).1 := by
            rw [Placeholders.position_of_extends (number_extends rest _) field
              (table.admitName_mem field), ← table.admitName_position field]
          have here : (Mark.name (table.admitName field).1 :: others).filterMap Mark.nameIndex? =
              (table.admitName field).1 :: others.filterMap Mark.nameIndex? := rfl
          rw [here, ← kept, ih _ others found]
          rfl
      | value literal =>
          obtain ⟨others, found, rfl⟩ := map_ok numbered
          exact ih _ others found

theorem number_append (first second : Phrase) (table : Placeholders) (marks : List Mark)
    (numbered : (first.number table).1 = .ok marks) :
    number (first ++ second) table =
      ((second.number (first.number table).2).1.map (marks ++ ·),
        (second.number (first.number table).2).2) := by
  induction first generalizing table marks with
  | nil =>
      cases numbered
      have same : (second.number table).1.map ([] ++ ·) = (second.number table).1 := by
        cases (second.number table).1 <;> rfl
      rw [List.nil_append, number, same]
  | cons word rest ih =>
      cases word with
      | flaw fault => cases numbered
      | text written =>
          obtain ⟨others, found, rfl⟩ := map_ok numbered
          rw [List.cons_append, number, number, ih table others found]
          cases (second.number (number rest table).2).1 <;> rfl
      | name field =>
          obtain ⟨others, found, rfl⟩ := map_ok numbered
          rw [List.cons_append, number, number, ih _ others found]
          cases (second.number (number rest (table.admitName field).2).2).1 <;> rfl
      | value literal =>
          obtain ⟨others, found, rfl⟩ := map_ok numbered
          rw [List.cons_append, number, number, ih _ others found]
          cases (second.number (number rest (table.admitValue literal).2).2).1 <;> rfl

end Phrase

/-- The texts are read as if they had been written in one piece. -/
theorem writeSlots_numbered (phrases : List (Slot × Phrase))
    (inert : ∀ entry ∈ phrases, entry.2.Inert) (table : Placeholders)
    (texts : List (Slot × String)) (written : (writeSlots phrases table).1 = .ok texts) :
    texts.map Prod.fst = phrases.map Prod.fst ∧ ∃ marks,
      Phrase.number (phrases.flatMap Prod.snd) table = (.ok marks, (writeSlots phrases table).2) ∧
      texts.flatMap (fun entry => Token.tokens entry.2.toList) = marks.flatMap Mark.tokens := by
  induction phrases generalizing table texts with
  | nil =>
      cases written
      exact ⟨rfl, [], rfl, rfl⟩
  | cons entry rest ih =>
      obtain ⟨head, tail⟩ := List.forall_mem_cons.mp inert
      rw [writeSlots] at written ⊢
      split at written
      next fault last failed => cases written
      next text last done =>
        obtain ⟨others, found, rfl⟩ := map_ok written
        obtain ⟨marks, numbered, rfl⟩ := map_ok (congrArg Prod.fst done)
        have after : (entry.2.number table).2 = last := congrArg Prod.snd done
        obtain ⟨slots, laterMarks, later, tokens⟩ := ih tail last others found
        have marked := entry.2.number_inert head table marks numbered
        refine ⟨congrArg _ slots, marks ++ laterMarks, ?_, ?_⟩
        · rw [List.flatMap_cons, Phrase.number_append _ _ table marks numbered, after, later]
          rfl
        · rw [List.flatMap_cons, List.flatMap_append, tokens, Mark.tokens_spellAll marks marked]

theorem writeSlots_flawless (phrases : List (Slot × Phrase)) (table : Placeholders)
    (texts : List (Slot × String)) (written : (writeSlots phrases table).1 = .ok texts) :
    ∀ entry ∈ phrases, entry.2.Flawless := by
  induction phrases generalizing table texts with
  | nil => simp
  | cons entry rest ih =>
      rw [writeSlots] at written
      split at written
      next fault last failed => cases written
      next text last done =>
        obtain ⟨others, found, rfl⟩ := map_ok written
        obtain ⟨marks, numbered, rfl⟩ := map_ok (congrArg Prod.fst done)
        exact List.forall_mem_cons.mpr
          ⟨entry.2.number_flawless table marks numbered, ih last others found⟩

/-! ## Labels along the texts -/

namespace Token

/-- The whole label, if it opens with the given sign. -/
def labelWith? (sign : Char) : Token → Option String
  | .char _ => none
  | .label spelled => if spelled.toList.head? = some sign then some spelled else none

end Token

namespace Mark

theorem chars_unlabelled (sign : Char) (chars : List Char) :
    (chars.map Token.char).filterMap (Token.labelWith? sign) = [] := by
  rw [List.filterMap_map]
  exact List.filterMap_eq_nil_iff.mpr fun _ _ => rfl

/-- A mark shows the label that it numbers, if it numbers one of this sign. -/
theorem tokens_labels (sign : Char) (label : Nat → String) (index? : Mark → Option Nat)
    (shown : ∀ mark : Mark, mark.tokens.filterMap (Token.labelWith? sign) =
      ((index? mark).map label).toList) (marks : List Mark) :
    (marks.flatMap tokens).filterMap (Token.labelWith? sign) =
      (marks.filterMap index?).map label := by
  induction marks with
  | nil => rfl
  | cons first rest ih =>
      rw [List.flatMap_cons, List.filterMap_append, shown, ih, List.filterMap_cons]
      cases index? first <;> rfl

theorem tokens_nameLabel (mark : Mark) :
    mark.tokens.filterMap (Token.labelWith? '#') = (mark.nameIndex?.map nameLabel).toList := by
  cases mark with
  | text written => exact chars_unlabelled '#' written.toList
  | name index => simp [tokens, nameIndex?, Token.labelWith?, nameLabel_chars]
  | value index => simp [tokens, nameIndex?, Token.labelWith?, valueLabel_chars]

theorem tokens_valueLabel (mark : Mark) :
    mark.tokens.filterMap (Token.labelWith? ':') = (mark.valueIndex?.map valueLabel).toList := by
  cases mark with
  | text written => exact chars_unlabelled ':' written.toList
  | name index => simp [tokens, valueIndex?, Token.labelWith?, nameLabel_chars]
  | value index => simp [tokens, valueIndex?, Token.labelWith?, valueLabel_chars]

end Mark

namespace Expression

/-- All texts, in the order of the slots and each from left to right. -/
def tokens (expression : Expression) : List Token :=
  Slot.inOrder.flatMap fun slot =>
    ((expression.text slot).map fun text => Token.tokens text.toList).getD []

def nameLabels (expression : Expression) : List String :=
  expression.tokens.filterMap (Token.labelWith? '#')

def valueLabels (expression : Expression) : List String :=
  expression.tokens.filterMap (Token.labelWith? ':')

end Expression

/-- Looking the slots up in their order passes over all entries in theirs. -/
theorem flatMap_lookup {β γ : Type} (read : β → List γ) (slots : List Slot)
    (distinct : slots.Nodup) (entries : List (Slot × β))
    (ordered : (entries.map Prod.fst).Sublist slots) :
    (slots.flatMap fun slot => ((entries.lookup slot).map read).getD []) =
      entries.flatMap fun entry => read entry.2 := by
  induction slots generalizing entries with
  | nil =>
      rw [List.map_eq_nil_iff.mp (List.sublist_nil.mp ordered)]
      rfl
  | cons slot rest ih =>
      obtain ⟨absent, distinctRest⟩ := List.nodup_cons.mp distinct
      rcases List.sublist_cons_iff.mp ordered with skipped | ⟨others, taken, inside⟩
      · have none : entries.lookup slot = none := by
          rw [List.lookup_eq_none_iff]
          intro entry member
          refine bne_iff_ne.mpr fun same => absent ?_
          exact same ▸ skipped.subset (List.mem_map_of_mem member)
        rw [List.flatMap_cons, none, ih distinctRest entries skipped]
        rfl
      · obtain ⟨⟨first, here⟩, tail, rfl, rfl, rfl⟩ := List.map_eq_cons_iff.mp taken
        have behind : ∀ other ∈ rest,
            ((((first, here) :: tail).lookup other).map read).getD [] =
              ((tail.lookup other).map read).getD [] := by
          intro other member
          have different : other ≠ first := fun same => absent (same ▸ member)
          rw [List.lookup_cons, beq_false_of_ne different]
        rw [List.flatMap_cons, List.flatMap_def, List.map_congr_left behind, ← List.flatMap_def,
          ih distinctRest tail inside]
        simp

namespace Draft

theorem phrases_ordered (draft : Draft) : (draft.phrases.map Prod.fst).Sublist Slot.inOrder := by
  have chosen (slots : List Slot) :
      ((slots.filterMap fun slot => (draft.phrase slot).map (slot, ·)).map Prod.fst).Sublist
        slots := by
    induction slots with
    | nil => exact List.nil_sublist _
    | cons slot rest ih =>
        rw [List.filterMap_cons]
        cases draft.phrase slot with
        | none => exact ih.cons slot
        | some phrase => exact ih.cons_cons slot
  exact chosen Slot.inOrder

theorem phrase_mem (draft : Draft) (slot : Slot) (phrase : Phrase)
    (given : draft.phrase slot = some phrase) : (slot, phrase) ∈ draft.phrases :=
  List.mem_filterMap.mpr ⟨slot, by cases slot <;> decide, by rw [given]; rfl⟩

theorem build_written (draft : Draft) (expression : Expression)
    (built : draft.build = .ok expression) :
    writeSlots draft.phrases .empty = (.ok expression.texts, expression.placeholders) := by
  rw [build] at built
  split at built
  · cases built
  · obtain ⟨texts, written, rfl⟩ := map_ok built
    exact Prod.ext written rfl

theorem build_flawless (draft : Draft) (expression : Expression)
    (built : draft.build = .ok expression) (slot : Slot) :
    ∀ phrase ∈ draft.phrase slot, phrase.Flawless := by
  have written := congrArg Prod.fst (draft.build_written expression built)
  intro phrase given
  exact writeSlots_flawless _ _ _ written _ (draft.phrase_mem slot phrase given)

/-- All texts of a request are numbered as one phrase that mentions what the draft does. -/
theorem build_numbered (draft : Draft) (expression : Expression)
    (indexed : ∀ slot, ∀ path ∈ draft.paths slot, path.DecimallyIndexed)
    (built : draft.build = .ok expression) :
    ∃ phrase : Phrase, ∃ marks, phrase.mentions = draft.mentions ∧
      phrase.number .empty = (.ok marks, expression.placeholders) ∧
      expression.tokens = marks.flatMap Mark.tokens := by
  have written := draft.build_written expression built
  have distinct : Slot.inOrder.Nodup := by decide
  have ordered := draft.phrases_ordered
  obtain ⟨slots, marks, numbered, tokens⟩ := writeSlots_numbered draft.phrases
    (draft.phrases_inert indexed) .empty expression.texts (congrArg Prod.fst written)
  rw [written] at numbered
  refine ⟨draft.phrases.flatMap Prod.snd, marks, ?_, numbered, ?_⟩
  · have mentioned (slot : Slot) :
        ((draft.phrases.lookup slot).map Phrase.mentions).getD [] = draft.mentionsIn slot := by
      rw [draft.phrases_lookup]
      exact draft.phrase_mentions slot (draft.build_flawless expression built slot)
    have read := flatMap_lookup Phrase.mentions Slot.inOrder distinct draft.phrases ordered
    simp only [mentioned] at read
    rw [mentions, read, Phrase.mentions, List.filterMap_flatMap]
    rfl
  · rw [← slots] at ordered
    rw [← tokens]
    exact flatMap_lookup (fun text : String => Token.tokens text.toList) Slot.inOrder distinct
      expression.texts ordered

/-- The table of names has each name once, in the order of first encounter, and the texts use all
of its labels and no others: along the texts they are first seen in the order of their numbers. -/
theorem names_canonical (draft : Draft) (expression : Expression)
    (indexed : ∀ slot, ∀ path ∈ draft.paths slot, path.DecimallyIndexed)
    (built : draft.build = .ok expression) :
    expression.names.map Prod.fst =
        (List.range draft.names.toFinset.card).map Mark.nameLabel ∧
      (expression.names.map Prod.snd).Nodup ∧
      (∀ index, expression.names.lookup (Mark.nameLabel index) = draft.names.eraseDups[index]?) ∧
      expression.nameLabels.eraseDups = expression.names.map Prod.fst := by
  obtain ⟨phrase, marks, mentioned, numbered, tokens⟩ :=
    build_numbered draft expression indexed built
  have done : (phrase.number .empty).1 = .ok marks := congrArg Prod.fst numbered
  have names : phrase.names = draft.names := congrArg _ mentioned
  have table : expression.placeholders.names = draft.names.eraseDups := by
    have appended := phrase.number_names .empty marks done [] rfl
    rwa [numbered, names] at appended
  have indices : marks.filterMap Mark.nameIndex? = draft.names.map draft.names.eraseDups.idxOf := by
    rw [phrase.number_indices .empty marks done, numbered, names, table]
  have keys : expression.names.map Prod.fst =
      (List.range draft.names.eraseDups.length).map Mark.nameLabel := by
    rw [Expression.names, Placeholders.nameEntries, labelled_keys, table]
  refine ⟨?_, ?_, ?_, ?_⟩
  · rw [keys, eraseDups_length]
  · rw [Expression.names, Placeholders.nameEntries, labelled_members, table]
    exact eraseDups_nodup draft.names
  · intro index
    rw [Expression.names, Placeholders.nameEntries,
      lookup_labelled _ (Mark.label_injective _ _ Mark.nameLabel_chars), table]
  · rw [keys, Expression.nameLabels, tokens,
      Mark.tokens_labels '#' Mark.nameLabel Mark.nameIndex? Mark.tokens_nameLabel, indices,
      eraseDups_map _ _ fun first _ second _ same => Mark.label_injective _ _ Mark.nameLabel_chars same,
      eraseDups_map, map_idxOf (eraseDups_nodup draft.names)]
    intro first left second _ same
    exact (List.idxOf_inj (List.mem_eraseDups.mpr left)).mp same

/-- The projection and the condition share two names, and a key is spelled like one of their
labels. -/
theorem sharing_names_canonical :
    sharing.build = .ok shared ∧ shared.nameLabels = ["#0", "#1", "#2", "#1", "#0"] ∧
      shared.nameLabels.eraseDups = ["#0", "#1", "#2"] ∧
      shared.names.lookup "#2" = sharing.names.eraseDups[2]? := by
  have built : sharing.build = .ok shared := by decide
  obtain ⟨_, _, bound, seen⟩ := names_canonical sharing shared sharing_indexed built
  exact ⟨built, by decide, seen, bound 2⟩

/-- Every literal has a label of its own: the table lists them as they are read, and along the
texts the labels of values count up from zero, each standing just once. -/
theorem values_linear (draft : Draft) (expression : Expression)
    (indexed : ∀ slot, ∀ path ∈ draft.paths slot, path.DecimallyIndexed)
    (built : draft.build = .ok expression) :
    expression.values.map Prod.fst = (List.range draft.literals.length).map Mark.valueLabel ∧
      (∀ index, expression.values.lookup (Mark.valueLabel index) = draft.literals[index]?) ∧
      expression.valueLabels = (List.range draft.literals.length).map Mark.valueLabel ∧
      expression.valueLabels.Nodup := by
  obtain ⟨phrase, marks, mentioned, numbered, tokens⟩ :=
    build_numbered draft expression indexed built
  have done : (phrase.number .empty).1 = .ok marks := congrArg Prod.fst numbered
  have literals : phrase.literals = draft.literals := congrArg _ mentioned
  obtain ⟨table, indices⟩ := phrase.number_values .empty marks done
  rw [literals] at table indices
  have table : expression.placeholders.values = draft.literals := by rwa [numbered] at table
  have labels : expression.valueLabels =
      (List.range draft.literals.length).map Mark.valueLabel := by
    rw [Expression.valueLabels, tokens,
      Mark.tokens_labels ':' Mark.valueLabel Mark.valueIndex? Mark.tokens_valueLabel, indices,
      List.range_eq_range']
    rfl
  have injective := Mark.label_injective _ _ Mark.valueLabel_chars
  refine ⟨?_, ?_, labels, ?_⟩
  · rw [Expression.values, Placeholders.valueEntries, labelled_keys, table]
  · intro index
    rw [Expression.values, Placeholders.valueEntries, lookup_labelled _ injective, table]
  · rw [labels]
    exact List.nodup_range.map injective

theorem indexed_of_bare (draft : Draft) (bare : ∀ slot, ∀ path ∈ draft.paths slot,
    ∀ segment ∈ path.segments, Path.indices segment = []) :
    ∀ slot, ∀ path ∈ draft.paths slot, path.DecimallyIndexed :=
  fun slot path member => .of_bare (bare slot path member)

/-- The literal one, three times: as a bound, as an increment and inside a sum. -/
def raising : Draft where
  condition := some (.compare (.path ⟨"score"⟩) .less (.literal (.number "1")))
  filter := none
  keyCondition := none
  projection := none
  update := some <| .ofChanges [
    .set ⟨"score"⟩ (.derived (.plus (.path ⟨"score"⟩) (.literal (.number "1")))),
    .add ⟨"count"⟩ (.number "1")]

def raised : Expression where
  texts := [(.condition, "#0 < :0"), (.update, "ADD #1 :1\nSET #0 = #0 + :2\n")]
  placeholders := ⟨["score", "count"], [.number "1", .number "1", .number "1"]⟩

theorem raising_indexed : ∀ slot, ∀ path ∈ raising.paths slot, path.DecimallyIndexed := by
  apply indexed_of_bare
  intro slot
  cases slot <;> decide

theorem raising_values_linear :
    raising.build = .ok raised ∧ raised.valueLabels = [":0", ":1", ":2"] ∧
      raised.values.lookup ":2" = some (.number "1") := by
  have built : raising.build = .ok raised := by decide
  obtain ⟨_, bound, labels, _⟩ := values_linear raising raised raising_indexed built
  exact ⟨built, labels, bound 2⟩

end Draft

end ItemExpressions

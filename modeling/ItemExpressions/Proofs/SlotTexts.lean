import Mathlib.Data.List.Forall2
import ItemExpressions.Proofs.Numbering

/-!
Texts and their slots. A built expression has a text for just those slots that the draft has
something for. Each was written from the phrase of its slot, over a table which those written later
have only added to.
-/

namespace ItemExpressions

/-- Text that a phrase was written as, over some table that has grown into this one since. -/
def Placeholders.Wrote (table : Placeholders) (phrase : Phrase) (text : String) : Prop :=
  ∃ before, (phrase.write before).1 = .ok text ∧ table.Extends (phrase.write before).2

theorem writeSlots_each (phrases : List (Slot × Phrase)) (table : Placeholders)
    (texts : List (Slot × String)) (written : (writeSlots phrases table).1 = .ok texts) :
    List.Forall₂ (fun source entry => source.1 = entry.1 ∧
      (writeSlots phrases table).2.Wrote source.2 entry.2) phrases texts := by
  induction phrases generalizing table texts with
  | nil =>
      cases written
      exact .nil
  | cons source rest ih =>
      rw [writeSlots] at written ⊢
      split at written
      next fault last failed => cases written
      next text last done =>
        obtain ⟨others, found, rfl⟩ := map_ok written
        have after : (source.2.write table).2 = last := congrArg Prod.snd done
        have grown : (writeSlots rest last).2.Extends (source.2.write table).2 :=
          after ▸ writeSlots_extends rest last
        exact .cons ⟨rfl, table, congrArg Prod.fst done, grown⟩ (ih last others found)

theorem slots_of_each {related : Phrase → String → Prop} {phrases : List (Slot × Phrase)}
    {texts : List (Slot × String)} (each : List.Forall₂ (fun source entry =>
      source.1 = entry.1 ∧ related source.2 entry.2) phrases texts) :
    texts.map Prod.fst = phrases.map Prod.fst := by
  induction each with
  | nil => rfl
  | cons head _ ih => rw [List.map_cons, List.map_cons, ih, head.1]

theorem lookup_of_each {related : Phrase → String → Prop} {phrases : List (Slot × Phrase)}
    {texts : List (Slot × String)} (each : List.Forall₂ (fun source entry =>
      source.1 = entry.1 ∧ related source.2 entry.2) phrases texts) (slot : Slot) :
    Option.Rel related (phrases.lookup slot) (texts.lookup slot) := by
  induction each with
  | nil => exact .none
  | @cons source entry _ _ head _ ih =>
      rw [List.lookup_cons, List.lookup_cons, head.1]
      by_cases here : slot = entry.1
      · simpa [here] using Option.Rel.some head.2
      · simpa [beq_false_of_ne here] using ih

/-- No slot has more than one text. -/
def Expression.OneTextEach (expression : Expression) : Prop :=
  (expression.texts.map Prod.fst).Nodup

namespace Draft

section Built

variable (draft : Draft) (expression : Expression) (built : draft.build = .ok expression)

include built

theorem texts_each : List.Forall₂ (fun source entry => source.1 = entry.1 ∧
    expression.placeholders.Wrote source.2 entry.2) draft.phrases expression.texts := by
  have written := draft.build_written expression built
  have each := writeSlots_each draft.phrases .empty expression.texts (congrArg Prod.fst written)
  rwa [written] at each

theorem build_oneTextEach : expression.OneTextEach := by
  rw [Expression.OneTextEach, slots_of_each (draft.texts_each expression built)]
  exact draft.phrases_ordered.nodup (by decide)

theorem text_written (slot : Slot) :
    Option.Rel expression.placeholders.Wrote (draft.phrase slot) (expression.text slot) := by
  rw [← draft.phrases_lookup]
  exact lookup_of_each (draft.texts_each expression built) slot

theorem text_of_phrase (slot : Slot) (phrase : Phrase) (given : draft.phrase slot = some phrase) :
    ∃ text, expression.text slot = some text ∧ expression.placeholders.Wrote phrase text := by
  have written := draft.text_written expression built slot
  rw [given] at written
  cases found : expression.text slot with
  | none =>
      rw [found] at written
      cases written
  | some text =>
      rw [found] at written
      cases written with
      | some wrote => exact ⟨text, rfl, wrote⟩

theorem phrase_of_text (slot : Slot) (text : String) (given : expression.text slot = some text) :
    ∃ phrase, draft.phrase slot = some phrase ∧ expression.placeholders.Wrote phrase text := by
  have written := draft.text_written expression built slot
  rw [given] at written
  cases source : draft.phrase slot with
  | none =>
      rw [source] at written
      cases written
  | some phrase =>
      rw [source] at written
      cases written with
      | some wrote => exact ⟨phrase, rfl, wrote⟩

end Built

end Draft

end ItemExpressions

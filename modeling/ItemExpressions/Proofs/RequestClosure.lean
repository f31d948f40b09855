import ItemExpressions.Proofs.Overlay

/-!
Closed requests. Whatever label stands in a text that a request took over, the request binds it to
what the expression does. A request without values is no exception: it takes over a projection at
most, and no value is ever written in one. If the request was fresh and has a place for all that was
drafted, it binds no label that is not in its texts either.
-/

namespace ItemExpressions

/-- The labels in a text that open with a sign, as often as they occur. -/
def labelsIn (sign : Char) (text : String) : List String :=
  (Token.tokens text.toList).filterMap (Token.labelWith? sign)

/-! ## Labels of one text -/

theorem Phrase.write_valueLabels (phrase : Phrase) (inert : phrase.Inert) (table : Placeholders)
    (text : String) (written : (phrase.write table).1 = .ok text) : labelsIn ':' text =
      (List.range' table.values.length phrase.literals.length).map Mark.valueLabel := by
  obtain ⟨marks, numbered, rfl⟩ := map_ok written
  have marked := phrase.number_inert inert table marks numbered
  rw [labelsIn, Mark.tokens_spellAll marks marked,
    Mark.tokens_labels ':' Mark.valueLabel Mark.valueIndex? Mark.tokens_valueLabel,
    (phrase.number_values table marks numbered).2]

theorem Projection.literals_nil (projection : Projection)
    (flawless : projection.phrase.Flawless) : projection.phrase.literals = [] := by
  rw [Phrase.literals, projection.phrase_mentions flawless, List.filterMap_eq_nil_iff]
  intro mention member
  obtain ⟨path, _, inside⟩ := List.mem_flatMap.mp member
  obtain ⟨segment, _, rfl⟩ := List.mem_map.mp inside
  rfl

theorem Expression.mem_labels (expression : Expression) (sign : Char) (label : String) :
    label ∈ expression.tokens.filterMap (Token.labelWith? sign) ↔
      ∃ slot text, expression.text slot = some text ∧ label ∈ labelsIn sign text := by
  rw [Expression.tokens, List.filterMap_flatMap, List.mem_flatMap]
  constructor
  · rintro ⟨slot, _, inside⟩
    cases found : expression.text slot with
    | none => simp [found] at inside
    | some text => exact ⟨slot, text, found, by simpa [found, labelsIn] using inside⟩
  · rintro ⟨slot, text, found, inside⟩
    exact ⟨slot, by cases slot <;> decide, by simpa [found, labelsIn] using inside⟩

namespace Draft

section Built

variable (draft : Draft) (expression : Expression)
  (indexed : ∀ slot, ∀ path ∈ draft.paths slot, path.DecimallyIndexed)
  (built : draft.build = .ok expression)

include indexed built

/-- The labels of names along the texts are just those of the table. -/
theorem nameLabels_bound (label : String) :
    label ∈ expression.nameLabels ↔ label ∈ expression.names.map Prod.fst := by
  obtain ⟨phrase, marks, _, numbered, tokens⟩ := build_numbered draft expression indexed built
  have done : (phrase.number .empty).1 = .ok marks := congrArg Prod.fst numbered
  have table : expression.placeholders.names = phrase.names.eraseDups := by
    have appended := phrase.number_names .empty marks done [] rfl
    rwa [numbered] at appended
  rw [Expression.nameLabels, tokens,
    Mark.tokens_labels '#' Mark.nameLabel Mark.nameIndex? Mark.tokens_nameLabel,
    phrase.number_indices .empty marks done, numbered, Expression.names, Placeholders.nameEntries,
    labelled_keys, table, ← map_idxOf (eraseDups_nodup phrase.names)]
  simp

/-- So are the labels of values. -/
theorem valueLabels_bound (label : String) :
    label ∈ expression.valueLabels ↔ label ∈ expression.values.map Prod.fst := by
  obtain ⟨phrase, marks, _, numbered, tokens⟩ := build_numbered draft expression indexed built
  obtain ⟨table, indices⟩ := phrase.number_values .empty marks (congrArg Prod.fst numbered)
  rw [numbered] at table
  rw [Expression.valueLabels, tokens,
    Mark.tokens_labels ':' Mark.valueLabel Mark.valueIndex? Mark.tokens_valueLabel, indices,
    Expression.values, Placeholders.valueEntries, labelled_keys, table, List.range_eq_range']
  rfl

/-- No value is written in a projection. -/
theorem projection_valueless (text : String) (given : expression.text .projection = some text) :
    labelsIn ':' text = [] := by
  obtain ⟨phrase, source, before, written, _⟩ :=
    draft.phrase_of_text expression built .projection text given
  have inert := draft.phrase_inert .projection (indexed .projection) phrase source
  have flawless := draft.build_flawless expression built .projection phrase source
  obtain ⟨projection, _, rfl⟩ := Option.map_eq_some_iff.mp source
  rw [Phrase.write_valueLabels _ inert before text written, projection.literals_nil flawless]
  rfl

end Built

/-- Requests of the kind have a place for all that is drafted. -/
def Fits (draft : Draft) (kind : RequestKind) : Prop :=
  ∀ slot, draft.phrase slot ≠ none → kind.Carries slot

end Draft

namespace Request

/-- A label of the sign stands in a text of the request. -/
def Shows (request : Request) (sign : Char) (label : String) : Prop :=
  ∃ slot text, request.fields slot = some text ∧ label ∈ labelsIn sign text

section Built

variable (draft : Draft) (expression : Expression)
  (indexed : ∀ slot, ∀ path ∈ draft.paths slot, path.DecimallyIndexed)
  (built : draft.build = .ok expression)

include built

theorem carried_of_fits (kind : RequestKind) (fits : draft.Fits kind) (slot : Slot) (text : String)
    (given : expression.text slot = some text) : kind.Carries slot := by
  obtain ⟨phrase, source, _⟩ := draft.phrase_of_text expression built slot text given
  apply fits slot
  rw [source]
  exact Option.some_ne_none phrase

theorem fields_of_fits (kind : RequestKind) (fits : draft.Fits kind) (slot : Slot) :
    ((fresh kind).apply expression).fields slot = expression.text slot := by
  have laid := (fresh kind).overlays_apply expression (draft.build_oneTextEach expression built)
  by_cases carried : kind.Carries slot
  · exact (laid.carried slot carried).trans Option.or_none
  · cases found : expression.text slot with
    | none => exact laid.others slot carried
    | some text =>
        exact absurd (carried_of_fits draft expression built kind fits slot text found) carried

theorem shows_of_fits (kind : RequestKind) (fits : draft.Fits kind) (sign : Char) (label : String) :
    ((fresh kind).apply expression).Shows sign label ↔
      label ∈ expression.tokens.filterMap (Token.labelWith? sign) := by
  rw [expression.mem_labels, Shows]
  simp only [fields_of_fits draft expression built kind fits]

include indexed

theorem name_taken (request : Request) (label : String)
    (shown : label ∈ expression.nameLabels) : ∃ name, expression.names.lookup label = some name ∧
      (request.apply expression).name? label = some name := by
  have laid := request.overlays_apply expression (draft.build_oneTextEach expression built)
  exact laid.names.taken label ((draft.nameLabels_bound expression indexed built label).mp shown)

theorem value_taken (request : Request) (takes : request.kind ≠ .getItem) (label : String)
    (shown : label ∈ expression.valueLabels) :
    ∃ value, expression.values.lookup label = some value ∧
      (request.apply expression).value? label = some value := by
  have laid := request.overlays_apply expression (draft.build_oneTextEach expression built)
  have known := (draft.valueLabels_bound expression indexed built label).mp shown
  exact (laid.values takes).taken label known

/-- A request that picks attributes of one item takes over no label of a value. -/
theorem picked_valueless (slot : Slot) (carried : RequestKind.getItem.Carries slot) (text : String)
    (given : expression.text slot = some text) : labelsIn ':' text = [] := by
  have projection : slot = .projection := carried
  exact draft.projection_valueless expression indexed built text (projection ▸ given)

theorem text_taken (request : Request) (slot : Slot) (carried : request.kind.Carries slot)
    (text : String) (given : expression.text slot = some text) :
    (request.apply expression).fields slot = some text ∧
      (∀ label ∈ labelsIn '#' text, ∃ name, expression.names.lookup label = some name ∧
        (request.apply expression).name? label = some name) ∧
      ∀ label ∈ labelsIn ':' text, ∃ value, expression.values.lookup label = some value ∧
        (request.apply expression).value? label = some value := by
  have laid := request.overlays_apply expression (draft.build_oneTextEach expression built)
  have shown (sign : Char) (label : String) (inside : label ∈ labelsIn sign text) :
      label ∈ expression.tokens.filterMap (Token.labelWith? sign) :=
    (expression.mem_labels sign label).mpr ⟨slot, text, given, inside⟩
  refine ⟨?_, fun label inside => ?_, fun label inside => ?_⟩
  · rw [laid.carried slot carried, given]
    rfl
  · exact name_taken draft expression indexed built request label (shown '#' label inside)
  · by_cases picking : request.kind = .getItem
    · rw [picking] at carried
      rw [picked_valueless draft expression indexed built slot carried text given] at inside
      cases inside
    · exact value_taken draft expression indexed built request picking label
        (shown ':' label inside)

theorem names_of_fits (kind : RequestKind) (fits : draft.Fits kind) (label : String) :
    (((fresh kind).apply expression).name? label).isSome = true ↔
      ((fresh kind).apply expression).Shows '#' label := by
  have laid := (fresh kind).overlays_apply expression (draft.build_oneTextEach expression built)
  have found : ((fresh kind).apply expression).name? label = expression.names.lookup label :=
    (laid.names.bound label).trans Option.or_none
  rw [found, lookup_isSome, ← draft.nameLabels_bound expression indexed built,
    shows_of_fits draft expression built kind fits, Expression.nameLabels]

theorem values_of_fits (kind : RequestKind) (fits : draft.Fits kind) (label : String) :
    (((fresh kind).apply expression).value? label).isSome = true ↔
      ((fresh kind).apply expression).Shows ':' label := by
  have laid := (fresh kind).overlays_apply expression (draft.build_oneTextEach expression built)
  by_cases picking : kind = .getItem
  · -- There is no map, so it is for the texts to have no label that would need one.
    have none : ((fresh kind).apply expression).value? label = none := by
      rw [value?, laid.valueless picking]
      rfl
    rw [none, Option.isSome_none, shows_of_fits draft expression built kind fits,
      expression.mem_labels, Bool.false_eq_true, false_iff]
    rintro ⟨slot, text, given, inside⟩
    have carried := carried_of_fits draft expression built kind fits slot text given
    rw [picking] at carried
    rw [picked_valueless draft expression indexed built slot carried text given] at inside
    cases inside
  · have found : ((fresh kind).apply expression).value? label = expression.values.lookup label :=
      ((laid.values picking).bound label).trans Option.or_none
    rw [found, lookup_isSome, ← draft.valueLabels_bound expression indexed built,
      shows_of_fits draft expression built kind fits, Expression.valueLabels]

end Built

/-- Each label in a text that was taken over is bound to what the expression binds it to. A fresh
request that has a place for all that was drafted binds just the labels in its texts. -/
theorem requests_closed (draft : Draft) (expression : Expression)
    (indexed : ∀ slot, ∀ path ∈ draft.paths slot, path.DecimallyIndexed)
    (built : draft.build = .ok expression) :
    (∀ (request : Request) (slot : Slot), request.kind.Carries slot → ∀ text,
      expression.text slot = some text →
        (request.apply expression).fields slot = some text ∧
        (∀ label ∈ labelsIn '#' text, ∃ name, expression.names.lookup label = some name ∧
          (request.apply expression).name? label = some name) ∧
        ∀ label ∈ labelsIn ':' text, ∃ value, expression.values.lookup label = some value ∧
          (request.apply expression).value? label = some value) ∧
    ∀ kind, draft.Fits kind → ∀ label,
      ((((fresh kind).apply expression).name? label).isSome = true ↔
        ((fresh kind).apply expression).Shows '#' label) ∧
      ((((fresh kind).apply expression).value? label).isSome = true ↔
        ((fresh kind).apply expression).Shows ':' label) := by
  refine ⟨text_taken draft expression indexed built, fun kind fits label => ?_⟩
  exact ⟨names_of_fits draft expression indexed built kind fits label,
    values_of_fits draft expression indexed built kind fits label⟩

/-- The name that the query had under a label gives way to the one that the label stands for in the
projection. Of the same expression a scan takes over the projection, and what puts or deletes an
item the condition. An update has a place for all that was drafted, and none of its values is left
over. -/
theorem asked_and_raising_closed :
    Draft.sharing.build = .ok Draft.shared ∧
      (∃ name, Draft.shared.names.lookup "#1" = some name ∧
        (asked.apply Draft.shared).name? "#1" = some name) ∧
      ((fresh .scan).apply Draft.shared).fields .projection = some "#1, #0" ∧
      ((fresh .putItem).apply Draft.shared).fields .condition = some "#0[1][2].#1 < :0" ∧
      ((fresh .deleteItem).apply Draft.shared).fields .condition = some "#0[1][2].#1 < :0" ∧
      (∃ value, Draft.shared.values.lookup ":0" = some value ∧
        ((fresh .deleteItem).apply Draft.shared).value? ":0" = some value) ∧
      Draft.raising.build = .ok Draft.raised ∧ Draft.raising.Fits .updateItem ∧
      ((((fresh .updateItem).apply Draft.raised).value? ":2").isSome = true ↔
        ((fresh .updateItem).apply Draft.raised).Shows ':' ":2") ∧
      ((fresh .updateItem).apply Draft.raised).Shows ':' ":2" := by
  have shared : Draft.sharing.build = .ok Draft.shared := by decide
  have raised : Draft.raising.build = .ok Draft.raised := by decide
  obtain ⟨taken, _⟩ := requests_closed Draft.sharing Draft.shared Draft.sharing_indexed shared
  obtain ⟨_, exactly⟩ := requests_closed Draft.raising Draft.raised Draft.raising_indexed raised
  obtain ⟨_, names, _⟩ := taken asked .projection (.inr (.inr rfl)) "#1, #0" rfl
  obtain ⟨scanned, _, _⟩ := taken (fresh .scan) .projection (.inr rfl) "#1, #0" rfl
  obtain ⟨put, _, _⟩ := taken (fresh .putItem) .condition rfl "#0[1][2].#1 < :0" rfl
  obtain ⟨deleted, _, values⟩ := taken (fresh .deleteItem) .condition rfl "#0[1][2].#1 < :0" rfl
  have fits : Draft.raising.Fits .updateItem := by
    intro slot given
    cases slot with
    | condition => exact .inr rfl
    | update => exact .inl rfl
    | filter | keyCondition | projection => exact absurd rfl given
  obtain ⟨_, bound⟩ := exactly .updateItem fits ":2"
  refine ⟨shared, names "#1" (by decide), scanned, put, deleted, values ":0" (by decide), raised,
    fits, bound, ?_⟩
  exact ⟨.update, "ADD #1 :1\nSET #0 = #0 + :2\n", rfl, by decide⟩

end Request

end ItemExpressions

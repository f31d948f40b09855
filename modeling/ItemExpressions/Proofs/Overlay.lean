import ItemExpressions.Request
import ItemExpressions.Proofs.SlotTexts

/-!
Expressions laid over requests. Which texts and values a request has a place for is said by its
kind, apart from the tables that are read when an expression is applied. Entries are written into a
map one by one, but as each has a key of its own, what is found afterwards is known without looking
at the order: the new entry of a key if there is one, and the old one otherwise. A map is found by
its entries, so every order leaves the same map, and entries that are written again change nothing.
-/

namespace ItemExpressions

theorem labelled_distinct {α : Type} (label : Nat → String) (injective : Function.Injective label)
    (members : List α) : ((labelled label members).map Prod.fst).Nodup := by
  rw [labelled_keys]
  exact List.nodup_range.map injective

namespace Expression

theorem names_distinct (expression : Expression) : (expression.names.map Prod.fst).Nodup :=
  labelled_distinct _ (Mark.label_injective _ _ Mark.nameLabel_chars) _

theorem values_distinct (expression : Expression) : (expression.values.map Prod.fst).Nodup :=
  labelled_distinct _ (Mark.label_injective _ _ Mark.valueLabel_chars) _

end Expression

/-! ## What each kind has -/

namespace RequestKind

/-- The texts that requests of each kind have. -/
def Carries (kind : RequestKind) (slot : Slot) : Prop :=
  match kind with
  | .query => slot = .keyCondition ∨ slot = .filter ∨ slot = .projection
  | .scan => slot = .filter ∨ slot = .projection
  | .getItem => slot = .projection
  | .putItem => slot = .condition
  | .updateItem => slot = .update ∨ slot = .condition
  | .deleteItem => slot = .condition

theorem mem_slots (kind : RequestKind) (slot : Slot) : slot ∈ kind.slots ↔ kind.Carries slot := by
  cases kind <;> simp [slots, Carries]

/-- All requests have values but those that only pick attributes of one item. -/
theorem takesValues_iff (kind : RequestKind) : kind.takesValues = true ↔ kind ≠ .getItem := by
  cases kind <;> decide

end RequestKind

namespace Request

variable {α : Type}

/-! ## Maps of a request -/

/-- What a map has for a label; while there is no map, nothing. -/
def bound (map : Option (Dictionary α)) (label : String) : Option α :=
  map.bind (Dictionary.get? label)

def name? (request : Request) (label : String) : Option String := bound request.names label

def value? (request : Request) (label : String) : Option AttributeValue :=
  bound request.values label

theorem map_of_bound (first second : Option (Dictionary α)) (absent : first = none ↔ second = none)
    (same : ∀ label, bound first label = bound second label) : first = second := by
  cases first with
  | none => exact (absent.mp rfl).symm
  | some dictionary =>
      cases second with
      | none => cases absent.mpr rfl
      | some other => exact congrArg some (dictionary.eq_of_get? other same)

theorem bound_insert (entry : String × α) (map : Option (Dictionary α)) (label : String) :
    bound (insert entry map) label = if label = entry.1 then some entry.2 else bound map label := by
  cases map <;> simp [insert, bound]

/-- What a map is after entries were laid over it. -/
structure Overlaid (before : Option (Dictionary α)) (entries : List (String × α))
    (after : Option (Dictionary α)) : Prop where
  bound : ∀ label, bound after label = (entries.lookup label).or (bound before label)
  /-- Only the first entry makes a map. -/
  absent : after = none ↔ before = none ∧ entries = []

/-- A label that has an entry is bound to what the entry says. -/
theorem Overlaid.taken {before after : Option (Dictionary α)} {entries : List (String × α)}
    (overlaid : Overlaid before entries after) (label : String)
    (written : label ∈ entries.map Prod.fst) :
    ∃ value, entries.lookup label = some value ∧ Request.bound after label = some value := by
  obtain ⟨value, found⟩ := Option.isSome_iff_exists.mp ((lookup_isSome label entries).mpr written)
  refine ⟨value, found, ?_⟩
  rw [overlaid.bound, found]
  rfl

theorem insertAll_overlaid (entries : List (String × α)) (distinct : (entries.map Prod.fst).Nodup)
    (map : Option (Dictionary α)) : Overlaid map entries (insertAll entries map) := by
  induction entries generalizing map with
  | nil => exact ⟨fun _ => rfl, (and_iff_left rfl).symm⟩
  | cons first rest ih =>
      obtain ⟨fresh, others⟩ := List.nodup_cons.mp distinct
      have later := ih others (insert first map)
      refine ⟨fun label => ?_, ?_⟩
      · rw [insertAll, List.foldl_cons, ← insertAll, later.bound, bound_insert, List.lookup_cons]
        by_cases here : label = first.1
        · -- The key does not come again, so its entry is not written over.
          rw [lookup_of_absent label rest (here ▸ fresh), if_pos here, here, beq_self_eq_true]
          rfl
        · simp [here, beq_false_of_ne here]
      · rw [insertAll, List.foldl_cons, ← insertAll, later.absent]
        simp [insert]

theorem Overlaid.reorder {before after : Option (Dictionary α)} {entries others : List (String × α)}
    (overlaid : Overlaid before entries after) (perm : entries.Perm others)
    (distinct : (others.map Prod.fst).Nodup) : Overlaid before others after := by
  have same := lookup_of_perm others entries perm.symm distinct
  refine ⟨fun label => ?_, ?_⟩
  · rw [overlaid.bound, same]
  · rw [overlaid.absent, ← List.perm_nil, ← List.perm_nil, perm.congr_left]

theorem Overlaid.unique {before first second : Option (Dictionary α)} {entries : List (String × α)}
    (left : Overlaid before entries first) (right : Overlaid before entries second) :
    first = second := by
  apply map_of_bound
  · rw [left.absent, right.absent]
  · intro label
    rw [left.bound, right.bound]

theorem Overlaid.again {before after last : Option (Dictionary α)} {entries : List (String × α)}
    (once : Overlaid before entries after) (twice : Overlaid after entries last) :
    last = after := by
  apply map_of_bound
  · rw [twice.absent, once.absent]
    simp
  · intro label
    rw [twice.bound, once.bound]
    cases entries.lookup label <;> rfl

/-! ## Texts of a request -/

theorem setTexts_rest (texts : List (Slot × String)) (request : Request) :
    (request.setTexts texts).kind = request.kind ∧
      (request.setTexts texts).names = request.names ∧
      (request.setTexts texts).values = request.values := by
  induction texts generalizing request with
  | nil => exact ⟨rfl, rfl, rfl⟩
  | cons first rest ih => exact ih (request.setText first.1 first.2)

theorem setText_carried (request : Request) (slot other : Slot) (text : String)
    (carried : request.kind.Carries other) : (request.setText slot text).fields other =
      if other = slot then some text else request.fields other := by
  have taken : other = slot ∧ slot ∈ request.kind.slots ↔ other = slot :=
    ⟨And.left, fun same => ⟨same, same ▸ (request.kind.mem_slots other).mpr carried⟩⟩
  simp only [setText, taken]

theorem setText_other (request : Request) (slot other : Slot) (text : String)
    (outside : ¬ request.kind.Carries other) :
    (request.setText slot text).fields other = request.fields other := by
  apply if_neg
  rintro ⟨rfl, taken⟩
  exact outside ((request.kind.mem_slots other).mp taken)

theorem setTexts_carried (texts : List (Slot × String)) (single : (texts.map Prod.fst).Nodup)
    (request : Request) (slot : Slot) (carried : request.kind.Carries slot) :
    (request.setTexts texts).fields slot = (texts.lookup slot).or (request.fields slot) := by
  induction texts generalizing request with
  | nil => rfl
  | cons first rest ih =>
      obtain ⟨fresh, others⟩ := List.nodup_cons.mp single
      have later := ih others (request.setText first.1 first.2) carried
      rw [setTexts, List.foldl_cons, ← setTexts, later,
        request.setText_carried first.1 slot first.2 carried, List.lookup_cons]
      by_cases here : slot = first.1
      · -- The slot does not come again, so its text is not written over.
        rw [lookup_of_absent slot rest (here ▸ fresh), if_pos here, here, beq_self_eq_true]
        rfl
      · rw [if_neg here, beq_false_of_ne here]

theorem setTexts_other (texts : List (Slot × String)) (request : Request) (slot : Slot)
    (outside : ¬ request.kind.Carries slot) :
    (request.setTexts texts).fields slot = request.fields slot := by
  induction texts generalizing request with
  | nil => rfl
  | cons first rest ih =>
      exact (ih (request.setText first.1 first.2) outside).trans
        (request.setText_other first.1 slot first.2 outside)

/-! ## Values of a request -/

theorem addValues_taken (request : Request) (takes : request.kind ≠ .getItem)
    (entries : List (String × AttributeValue)) :
    request.addValues entries = { request with values := insertAll entries request.values } :=
  if_pos (request.kind.takesValues_iff.mpr takes)

theorem addValues_getItem (request : Request) (picking : request.kind = .getItem)
    (entries : List (String × AttributeValue)) : request.addValues entries = request :=
  if_neg fun takes => request.kind.takesValues_iff.mp takes picking

/-! ## Whole expressions -/

/-- Lays an expression over a request with the entries in the order in which they are given. -/
def applyInOrder (request : Request) (expression : Expression) (names : List (String × String))
    (values : List (String × AttributeValue)) : Request :=
  ((request.setTexts expression.texts).addNames names).addValues values

/-- What a request is after an expression was laid over it. -/
structure Overlays (before : Request) (expression : Expression) (after : Request) : Prop where
  kind : after.kind = before.kind
  carried : ∀ slot, before.kind.Carries slot →
    after.fields slot = (expression.text slot).or (before.fields slot)
  others : ∀ slot, ¬ before.kind.Carries slot → after.fields slot = before.fields slot
  names : Overlaid before.names expression.names after.names
  values : before.kind ≠ .getItem → Overlaid before.values expression.values after.values
  valueless : before.kind = .getItem → after.values = before.values

theorem applyInOrder_overlays (request : Request) (expression : Expression)
    (single : expression.OneTextEach) (names : List (String × String))
    (values : List (String × AttributeValue)) (anyNames : names.Perm expression.names)
    (anyValues : values.Perm expression.values) :
    request.Overlays expression (request.applyInOrder expression names values) := by
  obtain ⟨kind, oldNames, oldValues⟩ := request.setTexts_rest expression.texts
  have nameKeys := expression.names_distinct
  have valueKeys := expression.values_distinct
  have named := (insertAll_overlaid names ((anyNames.map Prod.fst).nodup_iff.mpr nameKeys)
    request.names).reorder anyNames nameKeys
  have valued := (insertAll_overlaid values ((anyValues.map Prod.fst).nodup_iff.mpr valueKeys)
    request.values).reorder anyValues valueKeys
  -- Texts and names leave the kind as it is, so that of the request decides about the values.
  have texts := request.setTexts_carried expression.texts single
  have rest := request.setTexts_other expression.texts
  let laid := (request.setTexts expression.texts).addNames names
  by_cases picking : request.kind = .getItem
  · rw [applyInOrder, addValues_getItem laid (kind.trans picking)]
    refine ⟨kind, texts, rest, oldNames ▸ named, fun taken => ?_, fun _ => oldValues⟩
    exact absurd picking taken
  · rw [applyInOrder, addValues_taken laid fun same => picking (kind.symm.trans same)]
    refine ⟨kind, texts, rest, oldNames ▸ named, fun _ => oldValues ▸ valued, fun same => ?_⟩
    exact absurd same picking

theorem overlays_apply (request : Request) (expression : Expression)
    (single : expression.OneTextEach) : request.Overlays expression (request.apply expression) :=
  request.applyInOrder_overlays expression single expression.names expression.values (.refl _)
    (.refl _)

theorem eq_of_parts (first second : Request) (kind : first.kind = second.kind)
    (fields : first.fields = second.fields) (names : first.names = second.names)
    (values : first.values = second.values) : first = second := by
  cases first
  cases second
  cases kind
  cases fields
  cases names
  cases values
  rfl

theorem Overlays.unique {before first second : Request} {expression : Expression}
    (left : before.Overlays expression first) (right : before.Overlays expression second) :
    first = second := by
  have kind := left.kind.trans right.kind.symm
  have fields (slot : Slot) : first.fields slot = second.fields slot := by
    by_cases carried : before.kind.Carries slot
    · exact (left.carried slot carried).trans (right.carried slot carried).symm
    · exact (left.others slot carried).trans (right.others slot carried).symm
  have names := left.names.unique right.names
  have values : first.values = second.values := by
    by_cases picking : before.kind = .getItem
    · exact (left.valueless picking).trans (right.valueless picking).symm
    · exact (left.values picking).unique (right.values picking)
  exact eq_of_parts first second kind (funext fields) names values

theorem Overlays.again {before after last : Request} {expression : Expression}
    (once : before.Overlays expression after) (twice : after.Overlays expression last) :
    last = after := by
  have fields (slot : Slot) : last.fields slot = after.fields slot := by
    by_cases carried : before.kind.Carries slot
    · rw [twice.carried slot (once.kind ▸ carried), once.carried slot carried]
      cases expression.text slot <;> rfl
    · exact twice.others slot (once.kind ▸ carried)
  have values : last.values = after.values := by
    by_cases picking : before.kind = .getItem
    · exact twice.valueless (once.kind.trans picking)
    · exact (once.values picking).again (twice.values (once.kind ▸ picking))
  exact eq_of_parts last after twice.kind (funext fields) (once.names.again twice.names) values

/-- An expression is laid over a request: the fields that both have and the entries of its tables
are the expression's, and all else stays. No order of the entries makes a difference, and neither
does doing it again. -/
theorem apply_overlays (request : Request) (expression : Expression)
    (single : expression.OneTextEach) :
    request.Overlays expression (request.apply expression) ∧
      (∀ names values, names.Perm expression.names → values.Perm expression.values →
        request.applyInOrder expression names values = request.apply expression) ∧
      (request.apply expression).apply expression = request.apply expression := by
  have once := request.overlays_apply expression single
  have twice := (request.apply expression).overlays_apply expression single
  refine ⟨once, fun names values anyNames anyValues => ?_, once.again twice⟩
  have ordered := request.applyInOrder_overlays expression single names values anyNames anyValues
  exact ordered.unique once

/-- A query that has a projection, two names and two values of its own already. -/
def asked : Request :=
  (((fresh .query).setText .projection "#1").addNames [("#1", "old"), ("#9", "kept")]).addValues
    [(":1", .string "old"), (":9", .string "kept")]

/-- The projection, a name and a value are replaced, and the condition has no place in a query. A
request that picks attributes of one item has only the projection taken over, and no values. -/
theorem asked_overlaid :
    Draft.shared.OneTextEach ∧
      (asked.apply Draft.shared).fields .projection = some "#1, #0" ∧
      (asked.apply Draft.shared).fields .condition = none ∧
      (asked.apply Draft.shared).name? "#1" = some "total" ∧
      (asked.apply Draft.shared).name? "#9" = some "kept" ∧
      (asked.apply Draft.shared).value? ":1" = some (.string ":0") ∧
      (asked.apply Draft.shared).value? ":9" = some (.string "kept") ∧
      asked.applyInOrder Draft.shared Draft.shared.names.reverse Draft.shared.values.reverse =
        asked.apply Draft.shared ∧
      (asked.apply Draft.shared).apply Draft.shared = asked.apply Draft.shared ∧
      ((fresh .getItem).apply Draft.shared).fields .projection = some "#1, #0" ∧
      ((fresh .getItem).apply Draft.shared).fields .keyCondition = none ∧
      ((fresh .getItem).apply Draft.shared).values = none := by
  have single := Draft.sharing.build_oneTextEach Draft.shared (by decide)
  obtain ⟨laid, inOrder, again⟩ := apply_overlays asked Draft.shared single
  obtain ⟨picked, _, _⟩ := apply_overlays (fresh .getItem) Draft.shared single
  have values := laid.values (by decide)
  refine ⟨single, ?_, ?_, ?_, ?_, ?_, ?_, ?_, again, ?_, ?_, picked.valueless rfl⟩
  · exact laid.carried .projection (.inr (.inr rfl))
  · apply laid.others .condition
    rintro (same | same | same) <;> cases same
  · rw [name?, laid.names.bound]
    decide
  · rw [name?, laid.names.bound]
    decide
  · rw [value?, values.bound]
    decide
  · rw [value?, values.bound]
    decide
  · exact inOrder _ _ (List.reverse_perm _) (List.reverse_perm _)
  · exact picked.carried .projection rfl
  · exact picked.others .keyCondition nofun

end Request

end ItemExpressions

/-!
Finite maps from text to values. A dictionary holds one entry for each key, in increasing key
order, so two dictionaries with the same entries are the same dictionary, whatever order they were
written in: a dictionary is known by what is found in it. Writing a key that is there replaces its
value.
-/

namespace ItemExpressions

variable {α κ : Type} [BEq κ] [LawfulBEq κ]

/-! ## Looking up entries -/

theorem mem_of_lookup (key : κ) (value : α) (entries : List (κ × α))
    (found : entries.lookup key = some value) : (key, value) ∈ entries := by
  obtain ⟨before, after, same, _⟩ := List.lookup_eq_some_iff.mp found
  simp [same]

theorem lookup_of_mem (key : κ) (value : α) (entries : List (κ × α))
    (distinct : (entries.map Prod.fst).Nodup) (stored : (key, value) ∈ entries) :
    entries.lookup key = some value := by
  induction entries with
  | nil => simp at stored
  | cons first rest ih =>
      obtain ⟨here, content⟩ := first
      obtain ⟨absent, tail⟩ := List.nodup_cons.mp distinct
      rcases List.mem_cons.mp stored with head | later
      · cases head
        simp
      · have different : (key == here) = false := by
          simp only [beq_eq_false_iff_ne, ne_eq]
          rintro rfl
          exact absent (List.mem_map.mpr ⟨_, later, rfl⟩)
        rw [List.lookup_cons, different]
        exact ih tail later

theorem lookup_isSome (key : κ) (entries : List (κ × α)) :
    (entries.lookup key).isSome = true ↔ key ∈ entries.map Prod.fst := by
  rw [List.lookup_isSome_iff, List.mem_map]
  constructor
  · rintro ⟨entry, member, same⟩
    exact ⟨entry, member, (eq_of_beq same).symm⟩
  · rintro ⟨entry, member, same⟩
    exact ⟨entry, member, beq_iff_eq.mpr same.symm⟩

theorem lookup_of_absent (key : κ) (entries : List (κ × α)) (absent : key ∉ entries.map Prod.fst) :
    entries.lookup key = none :=
  Option.not_isSome_iff_eq_none.mp (mt (lookup_isSome key entries).mp absent)

/-- Where keys are distinct, the order of the entries has no part in what is found. -/
theorem lookup_of_perm (first second : List (κ × α)) (perm : first.Perm second)
    (distinct : (first.map Prod.fst).Nodup) (key : κ) : first.lookup key = second.lookup key := by
  apply Option.ext
  intro value
  constructor
  · intro found
    have member := perm.mem_iff.mp (mem_of_lookup key value first found)
    exact lookup_of_mem key value second ((perm.map Prod.fst).nodup_iff.mp distinct) member
  · intro found
    exact lookup_of_mem key value first distinct
      (perm.mem_iff.mpr (mem_of_lookup key value second found))

/-! ## Entries in order -/

def insertEntry (key : String) (value : α) : List (String × α) → List (String × α)
  | [] => [(key, value)]
  | first :: rest =>
      if key = first.1 then (key, value) :: rest
      else if key < first.1 then (key, value) :: first :: rest
      else first :: insertEntry key value rest

theorem mem_insertEntry (key : String) (value : α) (entries : List (String × α))
    (entry : String × α) (member : entry ∈ insertEntry key value entries) :
    entry = (key, value) ∨ entry ∈ entries := by
  induction entries with
  | nil => exact Or.inl (by simpa [insertEntry] using member)
  | cons first rest ih =>
      simp only [insertEntry] at member
      split at member
      · cases member with
        | head => exact Or.inl rfl
        | tail _ later => exact Or.inr (List.mem_cons_of_mem _ later)
      · split at member
        · cases member with
          | head => exact Or.inl rfl
          | tail _ later => exact Or.inr later
        · cases member with
          | head => exact Or.inr List.mem_cons_self
          | tail _ later => exact (ih later).imp id (List.mem_cons_of_mem _)

def KeysIncrease (entries : List (String × α)) : Prop :=
  entries.Pairwise fun before after => before.1 < after.1

theorem keysIncrease_insertEntry (key : String) (value : α) (entries : List (String × α))
    (ordered : KeysIncrease entries) : KeysIncrease (insertEntry key value entries) := by
  induction entries with
  | nil => exact List.pairwise_singleton _ _
  | cons first rest ih =>
      obtain ⟨least, tail⟩ := List.pairwise_cons.mp ordered
      simp only [insertEntry]
      split
      · next same =>
        exact List.pairwise_cons.mpr ⟨fun entry member => same ▸ least entry member, tail⟩
      · next different =>
        split
        · next below =>
          refine List.pairwise_cons.mpr ⟨fun entry member => ?_, ordered⟩
          cases member with
          | head => exact below
          | tail _ later => exact String.lt_trans below (least entry later)
        · next notBelow =>
          refine List.pairwise_cons.mpr ⟨fun entry member => ?_, ih tail⟩
          rcases mem_insertEntry key value rest entry member with inserted | later
          · have above : first.1 ≤ key := String.not_lt.mp notBelow
            have apart : ¬ key ≤ first.1 := fun low => different (String.le_antisymm low above)
            exact inserted ▸ String.not_le.mp apart
          · exact least entry later

theorem lookup_insertEntry (key : String) (value : α) (entries : List (String × α))
    (other : String) : (insertEntry key value entries).lookup other =
      if other = key then some value else entries.lookup other := by
  induction entries with
  | nil =>
      by_cases same : other = key
      · simp [insertEntry, same]
      · simp [insertEntry, same, List.lookup_cons, beq_false_of_ne same]
  | cons first rest ih =>
      rw [insertEntry]
      split
      · next here =>
        by_cases same : other = key
        · simp [same]
        · have apart : other ≠ first.1 := fun equal => same (equal.trans here.symm)
          rw [if_neg same, List.lookup_cons, List.lookup_cons, beq_false_of_ne same,
            beq_false_of_ne apart]
      · next different =>
        split
        · by_cases same : other = key
          · simp [same]
          · simp [same, List.lookup_cons, beq_false_of_ne same]
        · rw [List.lookup_cons, List.lookup_cons, ih]
          by_cases same : other = first.1
          · have kept : other ≠ key := fun equal => different (equal.symm.trans same)
            simp [same, same ▸ kept]
          · simp [beq_false_of_ne same]

theorem KeysIncrease.distinct {entries : List (String × α)} (ordered : KeysIncrease entries) :
    (entries.map Prod.fst).Nodup := by
  apply List.pairwise_map.mpr
  apply ordered.imp
  intro before after below same
  exact String.lt_irrefl after.1 (same ▸ below)

structure Dictionary (α : Type) where
  entries : List (String × α)
  ordered : KeysIncrease entries

namespace Dictionary

def empty : Dictionary α := ⟨[], List.Pairwise.nil⟩

def put (key : String) (value : α) (dictionary : Dictionary α) : Dictionary α :=
  ⟨insertEntry key value dictionary.entries,
    keysIncrease_insertEntry key value dictionary.entries dictionary.ordered⟩

/-- Writes the entries one after the other, so of two with one key the later stays. -/
def putAll (entries : List (String × α)) (dictionary : Dictionary α) : Dictionary α :=
  entries.foldl (fun written entry => written.put entry.1 entry.2) dictionary

def ofList (entries : List (String × α)) : Dictionary α :=
  empty.putAll entries

def get? (key : String) (dictionary : Dictionary α) : Option α :=
  dictionary.entries.lookup key

@[simp]
theorem get?_empty (key : String) : (empty : Dictionary α).get? key = none := rfl

@[simp]
theorem get?_put (key other : String) (value : α) (dictionary : Dictionary α) :
    (dictionary.put key value).get? other =
      if other = key then some value else dictionary.get? other :=
  lookup_insertEntry key value dictionary.entries other

/-- A dictionary is known by what is found in it. -/
theorem eq_of_get? (first second : Dictionary α) (same : ∀ key, first.get? key = second.get? key) :
    first = second := by
  obtain ⟨entries, ordered⟩ := first
  obtain ⟨others, increasing⟩ := second
  have found (key : String) : entries.lookup key = others.lookup key := same key
  have members : ∀ entry, entry ∈ entries ↔ entry ∈ others := by
    rintro ⟨key, value⟩
    constructor
    · intro member
      exact mem_of_lookup key value others
        (found key ▸ lookup_of_mem key value entries ordered.distinct member)
    · intro member
      exact mem_of_lookup key value entries
        (found key ▸ lookup_of_mem key value others increasing.distinct member)
  have once (listed : List (String × α)) (increase : KeysIncrease listed) : listed.Nodup :=
    List.Pairwise.of_map Prod.fst (fun _ _ differ equal => differ (congrArg Prod.fst equal))
      increase.distinct
  have perm : entries.Perm others :=
    (List.perm_ext_iff_of_nodup (once entries ordered) (once others increasing)).mpr members
  have equal : entries = others := by
    refine List.Perm.eq_of_pairwise (fun before after _ _ below above => ?_) ordered increasing perm
    exact absurd (String.lt_trans below above) (String.lt_irrefl _)
  subst equal
  rfl

end Dictionary

end ItemExpressions

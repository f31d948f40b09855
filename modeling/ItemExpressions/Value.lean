import ItemExpressions.Dictionary

/-!
Attribute values. A number is kept as the text it was written with. Sets keep the order and the
repetitions they were given. A map is stored as the entries of a dictionary, so that equality of
values does not see the order in which a map was filled.
-/

namespace ItemExpressions

inductive AttributeValue where
  | string (text : String)
  | number (text : String)
  | binary (bytes : List UInt8)
  | bool (flag : Bool)
  | null (flag : Bool)
  | stringSet (members : List String)
  | numberSet (members : List String)
  | binarySet (members : List (List UInt8))
  | list (elements : List AttributeValue)
  | map (entries : List (String × AttributeValue))

namespace AttributeValue

def ofDictionary (dictionary : Dictionary AttributeValue) : AttributeValue :=
  .map dictionary.entries

/-! Lists and maps nest values inside library types, so equality is decided by a walk over both
values at once that is shown to accept equal values only. -/

mutual

def same : AttributeValue → AttributeValue → Bool
  | .string a, .string b => a == b
  | .number a, .number b => a == b
  | .binary a, .binary b => a == b
  | .bool a, .bool b => a == b
  | .null a, .null b => a == b
  | .stringSet a, .stringSet b => a == b
  | .numberSet a, .numberSet b => a == b
  | .binarySet a, .binarySet b => a == b
  | .list a, .list b => sameElements a b
  | .map a, .map b => sameEntries a b
  | _, _ => false

def sameElements : List AttributeValue → List AttributeValue → Bool
  | [], [] => true
  | a :: before, b :: after => same a b && sameElements before after
  | _, _ => false

def sameEntries : List (String × AttributeValue) → List (String × AttributeValue) → Bool
  | [], [] => true
  | (key, a) :: before, (other, b) :: after => key == other && same a b && sameEntries before after
  | _, _ => false

end

mutual

theorem same_self (value : AttributeValue) : same value value = true := by
  cases value with
  | list elements => simpa [same] using sameElements_self elements
  | map entries => simpa [same] using sameEntries_self entries
  | _ => simp [same]

theorem sameElements_self (elements : List AttributeValue) :
    sameElements elements elements = true := by
  cases elements with
  | nil => rfl
  | cons first rest => simp [sameElements, same_self first, sameElements_self rest]

theorem sameEntries_self (entries : List (String × AttributeValue)) :
    sameEntries entries entries = true := by
  cases entries with
  | nil => rfl
  | cons first rest =>
      obtain ⟨key, value⟩ := first
      simp [sameEntries, same_self value, sameEntries_self rest]

end

mutual

theorem eq_of_same (a b : AttributeValue) (accepted : same a b = true) : a = b := by
  cases a with
  | list before =>
      cases b with
      | list after =>
          exact congrArg _ (eq_of_sameElements before after (by simpa [same] using accepted))
      | _ => simp [same] at accepted
  | map before =>
      cases b with
      | map after =>
          exact congrArg _ (eq_of_sameEntries before after (by simpa [same] using accepted))
      | _ => simp [same] at accepted
  | _ => cases b <;> simp_all [same]

theorem eq_of_sameElements (before after : List AttributeValue)
    (accepted : sameElements before after = true) : before = after := by
  cases before with
  | nil => cases after <;> simp_all [sameElements]
  | cons a rest =>
      cases after with
      | nil => simp [sameElements] at accepted
      | cons b tail =>
          simp only [sameElements, Bool.and_eq_true] at accepted
          rw [eq_of_same a b accepted.1, eq_of_sameElements rest tail accepted.2]

theorem eq_of_sameEntries (before after : List (String × AttributeValue))
    (accepted : sameEntries before after = true) : before = after := by
  cases before with
  | nil => cases after <;> simp_all [sameEntries]
  | cons a rest =>
      cases after with
      | nil => simp [sameEntries] at accepted
      | cons b tail =>
          obtain ⟨key, value⟩ := a
          obtain ⟨other, written⟩ := b
          simp only [sameEntries, Bool.and_eq_true, beq_iff_eq] at accepted
          rw [accepted.1.1, eq_of_same value written accepted.1.2,
            eq_of_sameEntries rest tail accepted.2]

end

theorem same_iff (a b : AttributeValue) : same a b = true ↔ a = b :=
  ⟨eq_of_same a b, fun equal => equal ▸ same_self a⟩

instance : DecidableEq AttributeValue := fun a b => decidable_of_iff _ (same_iff a b)

end AttributeValue

end ItemExpressions

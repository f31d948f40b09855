import ItemExpressions.Numeral
import ItemExpressions.Value

/-!
Program data and the attribute value each datum is stored as. A record is a mapping whose keys are
texts, and a tagged alternative is a mapping with its tag as the only key. Wrappers and present
optionals are stored as what they hold, an absent one as null.

A mapping is stored entry by entry, each key before its value, so the first thing that cannot be
stored decides the failure; of two entries with one key the later stays.
-/

namespace ItemExpressions

inductive SetKind where
  | string
  | number
  | binary
  deriving DecidableEq

inductive Datum where
  | integer (value : Int)
  /-- An integer of 128 bits: too wide to be stored, but good as a key. -/
  | wideInteger (signed : Bool) (value : Int)
  | real (value : Numeral)
  | flag (value : Bool)
  | text (value : String)
  | bytes (value : List UInt8)
  | absent
  | present (inner : Datum)
  | wrapper (inner : Datum)
  | sequence (elements : List Datum)
  | mapping (entries : List (Datum × Datum))
  | set (kind : SetKind) (inner : Datum)
  /-- A datum that refuses to be stored, for the given reason. -/
  | refusing (reason : String)

/-- Why a datum could not be stored. -/
inductive StorageFault where
  | tooWide (signed : Bool)
  | keyNotText
  | notSequence
  | wrongMember (kind : SetKind)
  | refused (reason : String)
  deriving DecidableEq

def StorageFault.message : StorageFault → String
  | .tooWide true => "i128 is not supported"
  | .tooWide false => "u128 is not supported"
  | .keyNotText => "Key must be a string"
  | .notSequence => "Not a set-like sequence"
  | .wrongMember .string => "String set element does not serialize to string"
  | .wrongMember .number => "Number set element does not serialize to number"
  | .wrongMember .binary => "Binary set element does not serialize to binary"
  | .refused reason => reason

/-! ## Sets

A set is stored from a list whose members are all of the set's kind. -/

namespace SetKind

def stringMember : AttributeValue → Except StorageFault String
  | .string text => .ok text
  | _ => .error (.wrongMember .string)

def numberMember : AttributeValue → Except StorageFault String
  | .number text => .ok text
  | _ => .error (.wrongMember .number)

def binaryMember : AttributeValue → Except StorageFault (List UInt8)
  | .binary bytes => .ok bytes
  | _ => .error (.wrongMember .binary)

def collect (kind : SetKind) (members : List AttributeValue) :
    Except StorageFault AttributeValue :=
  match kind with
  | .string => (members.mapM stringMember).map .stringSet
  | .number => (members.mapM numberMember).map .numberSet
  | .binary => (members.mapM binaryMember).map .binarySet

def ofValue (kind : SetKind) : AttributeValue → Except StorageFault AttributeValue
  | .list members => kind.collect members
  | _ => .error .notSequence

end SetKind

/-! ## Storing -/

namespace Datum

def record (fields : List (String × Datum)) : Datum :=
  .mapping (fields.map fun field => (.text field.1, field.2))

def tagged (tag : String) (content : Datum) : Datum :=
  .mapping [(.text tag, content)]

/-- The text under which a datum serves as a key of a mapping. -/
def key : Datum → Except StorageFault String
  | .integer value | .wideInteger _ value => .ok (toString value)
  | .flag value => .ok (if value then "true" else "false")
  | .text value => .ok value
  | .wrapper inner | .set _ inner => inner.key
  | .refusing reason => .error (.refused reason)
  | .real _ | .bytes _ | .absent | .present _ | .sequence _ | .mapping _ => .error .keyNotText

mutual

def store : Datum → Except StorageFault AttributeValue
  | .integer value => .ok (.number (toString value))
  | .wideInteger signed _ => .error (.tooWide signed)
  | .real value => .ok (.number value.text)
  | .flag value => .ok (.bool value)
  | .text value => .ok (.string value)
  | .bytes value => .ok (.binary value)
  | .absent => .ok (.null true)
  | .present inner | .wrapper inner => inner.store
  | .sequence elements => (storeAll elements).map .list
  | .mapping entries => (storeEntries entries .empty).map .ofDictionary
  | .set kind inner => inner.store.bind kind.ofValue
  | .refusing reason => .error (.refused reason)

def storeAll : List Datum → Except StorageFault (List AttributeValue)
  | [] => .ok []
  | first :: rest => do
      let value ← first.store
      let values ← storeAll rest
      return value :: values

def storeEntries : List (Datum × Datum) → Dictionary AttributeValue →
    Except StorageFault (Dictionary AttributeValue)
  | [], stored => .ok stored
  | (key, content) :: rest, stored => do
      let name ← key.key
      let value ← content.store
      storeEntries rest (stored.put name value)

end

end Datum

end ItemExpressions

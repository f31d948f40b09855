import ItemExpressions.Placeholders

/-!
Document paths. A path names an attribute of an item: field names separated by points, each with
the indices of list elements behind it, as in `a.b[1].c`. Fields get placeholders, indices stay in
the text.
-/

namespace ItemExpressions

structure Path where
  text : String
  deriving DecidableEq

namespace Path

def root : Path := ⟨""⟩

/-- List elements are named by their index in brackets and attach without a point. -/
def below (parent : Path) (name : String) : Path :=
  if name.toList.getLast? = some ']' then ⟨parent.text ++ name⟩
  else if parent.text.isEmpty then ⟨name⟩
  else ⟨parent.text ++ "." ++ name⟩

/-! ## Segments -/

/-- The parts between the points, one more than there are points. -/
def split : List Char → List (List Char)
  | [] => [[]]
  | c :: rest =>
      if c = '.' then [] :: split rest
      else match split rest with
        | [] => [[c]]
        | first :: others => (c :: first) :: others

def segments (path : Path) : List (List Char) :=
  split path.text.toList

/-- Only a segment that ends with a bracket has indices: all from its first opening bracket on. -/
def isIndexed (segment : List Char) : Bool :=
  segment.getLast? == some ']'

def fieldName (segment : List Char) : List Char :=
  if isIndexed segment then segment.takeWhile (· != '[') else segment

def indices (segment : List Char) : List Char :=
  if isIndexed segment then segment.dropWhile (· != '[') else []

def segmentPhrase (segment : List Char) : Phrase :=
  match fieldName segment with
  | [] => .flaw .malformedPath
  | name => [.name (String.ofList name), .text (String.ofList (indices segment))]

def phrase (path : Path) : Phrase :=
  if path.text.isEmpty then .flaw .emptyPath
  else .separated "." (path.segments.map segmentPhrase)

end Path

end ItemExpressions

import ItemExpressions.Proofs.Addresses
import ItemExpressions.Proofs.Frame
import Mathlib.Data.List.Induction

/-!
Paths along routes. In a tree with plain names, each step down a route is written at the end of the
path, as the name of a field or as an index in brackets, and nothing else is written in paths. So
the path of a built node is made of the same parts as the route that leads to it: names of fields,
each with the indices that follow it.
-/

namespace ItemExpressions

/-- What a step down is called in the path of the node that it leads to. -/
def Segment.written : Segment → String
  | .field name => name
  | .index position => Shape.indexName position

/-- Below a regular path, each step down is read back from where it was written. -/
theorem Path.below_segment (path : Path) (regular : path.Regular) (segment : Segment)
    (plain : ∀ name, segment = .field name → Path.Plain name) :
    (path.below segment.written).Regular ∧
      (path.below segment.written).address = path.address ++ [segment] := by
  cases segment with
  | field name => exact path.below_plain name (plain name rfl)
  | index index => exact path.below_index regular index

/-! ## Parts of paths -/

/-- The name of a field with the indices behind it. -/
structure Part where
  name : String
  indices : List Nat

namespace Part

def chars (part : Part) : List Char := part.name.toList ++ Path.bracketed part.indices

def segments (part : Part) : List Segment := .field part.name :: part.indices.map .index

theorem chars_pointless (part : Part) (plain : Path.Plain part.name) : '.' ∉ part.chars := by
  rw [chars, List.mem_append, Path.bracketed, List.mem_flatMap]
  rintro (inside | ⟨index, _, behind⟩)
  · exact (plain.unreserved '.' inside).1 rfl
  · simp [Path.indexName_chars, Path.digits_unreserved index '.' (by decide)] at behind

end Part

namespace Path

theorem intercalate_concat (front : List (List Char)) (last : List Char) (given : front ≠ []) :
    ['.'].intercalate (front ++ [last]) = ['.'].intercalate front ++ '.' :: last := by
  induction front with
  | nil => exact absurd rfl given
  | cons first rest ih =>
      cases rest with
      | nil => simp [List.intercalate_cons_cons]
      | cons second others =>
          have later := ih (List.cons_ne_nil second others)
          rw [List.cons_append, List.cons_append, List.intercalate_cons_cons,
            ← List.cons_append, later, List.intercalate_cons_cons]
          simp

theorem intercalate_more (front : List (List Char)) (last more : List Char) :
    ['.'].intercalate (front ++ [last ++ more]) = ['.'].intercalate (front ++ [last]) ++ more := by
  cases front with
  | nil => simp
  | cons first rest =>
      have given := List.cons_ne_nil first rest
      rw [intercalate_concat _ _ given, intercalate_concat _ _ given]
      simp

theorem split_intercalate (pieces : List (List Char)) (given : pieces ≠ [])
    (pointless : ∀ piece ∈ pieces, '.' ∉ piece) : split (['.'].intercalate pieces) = pieces := by
  induction pieces with
  | nil => exact absurd rfl given
  | cons first rest ih =>
      obtain ⟨head, tail⟩ := List.forall_mem_cons.mp pointless
      cases rest with
      | nil => simpa using split_unreserved first head
      | cons second others =>
          rw [List.intercalate_cons_cons, List.append_assoc, List.singleton_append, split_point,
            split_unreserved first head, ih (List.cons_ne_nil second others) tail,
            List.singleton_append]

/-- The path is written as plain names with indices behind them, and points between. -/
structure Parted (path : Path) (parts : List Part) : Prop where
  text : path.text.toList = ['.'].intercalate (parts.map Part.chars)
  plain : ∀ part ∈ parts, Plain part.name

theorem parted_root : root.Parted [] := ⟨rfl, List.forall_mem_nil _⟩

theorem Parted.text_ne {path : Path} {parts : List Part} (parted : path.Parted parts)
    (given : parts ≠ []) : path.text ≠ "" := by
  intro empty
  obtain ⟨first, rest, rfl⟩ := List.exists_cons_of_ne_nil given
  have text := parted.text
  have none : first.chars = [] := by
    rw [empty] at text
    cases rest with
    | nil => simpa using text.symm
    | cons second others => simp [List.intercalate_cons_cons] at text
  exact (parted.plain first List.mem_cons_self).nonempty
    (String.toList_eq_nil_iff.mp (List.append_eq_nil_iff.mp none).1)

theorem Parted.below_field {path : Path} {parts : List Part} (parted : path.Parted parts)
    (name : String) (plain : Plain name) : (path.below name).Parted (parts ++ [⟨name, []⟩]) := by
  have field : name.toList.getLast? ≠ some ']' :=
    fun last => (plain.unreserved ']' (List.mem_of_getLast? last)).2.2 rfl
  refine ⟨?_, List.forall_mem_append.mpr ⟨parted.plain, List.forall_mem_singleton.mpr plain⟩⟩
  have alone : Part.chars ⟨name, []⟩ = name.toList := List.append_nil _
  rw [below, if_neg field, List.map_append, List.map_singleton, alone]
  by_cases top : parts = []
  · subst top
    have empty : path.text = "" := String.toList_eq_nil_iff.mp parted.text
    simp [empty]
  · have written := parted.text_ne top
    rw [intercalate_concat _ _ (by simpa using top), ← parted.text]
    simp [written]

theorem Parted.below_index {path : Path} {front : List Part} {last : Part}
    (parted : path.Parted (front ++ [last])) (index : Nat) :
    (path.below (Shape.indexName index)).Parted
      (front ++ [⟨last.name, last.indices ++ [index]⟩]) := by
  obtain ⟨before, here⟩ := List.forall_mem_append.mp parted.plain
  have name : Plain last.name := here last (List.mem_singleton_self last)
  have more : Part.chars ⟨last.name, last.indices ++ [index]⟩ =
      last.chars ++ (Shape.indexName index).toList := by
    simp [Part.chars, bracketed]
  refine ⟨?_, List.forall_mem_append.mpr ⟨before, List.forall_mem_singleton.mpr name⟩⟩
  rw [below_indexName, String.toList_append, parted.text]
  simp [more, intercalate_more]

theorem Parted.segments_eq {path : Path} {parts : List Part} (parted : path.Parted parts)
    (given : parts ≠ []) : path.segments = parts.map Part.chars := by
  rw [segments, parted.text]
  exact split_intercalate _ (by simpa using given)
    (List.forall_mem_map.mpr fun part member => part.chars_pointless (parted.plain part member))

theorem Parted.address {path : Path} {parts : List Part} (parted : path.Parted parts) :
    path.address = parts.flatMap Part.segments := by
  cases parts with
  | nil => exact path.address_of_empty (by simpa using parted.text)
  | cons first rest =>
      rw [Path.address, parted.segments_eq (List.cons_ne_nil first rest), List.flatMap_map]
      apply List.flatMap_congr
      intro part member
      have plain := parted.plain part member
      have given : part.name.toList ≠ [] :=
        fun none => plain.nonempty (String.toList_eq_nil_iff.mp none)
      rw [Part.chars, segmentAddress_bracketed _ (fun c inside => (plain.unreserved c inside).2),
        if_neg given, String.ofList_toList]
      rfl

end Path

/-! ## Steps and routes -/

namespace Node

def address (node : Node) : List Segment := node.place.path.address

/-- Children have plain names, and elements are named by their index. -/
structure PlainlyNamed (node : Node) : Prop where
  plain : ∀ child ∈ node.children, Path.Plain child.name
  indexed : ∀ make, node.make? = some make → ∀ index, (make index).name = Shape.indexName index

/-- The step from a node to the child that a hop enters. -/
def segment (hop : Hop) (child : Node) : Segment :=
  match hop with
  | .child _ => .field child.name
  | .element index => .index index

/-- The steps down a route, by name and index. -/
def segments : Route → Node → List Segment
  | [], _ => []
  | hop :: rest, node =>
      match node.enter? hop with
      | none => []
      | some child => segment hop child :: segments rest child

theorem segments_append (route : Route) (hop : Hop) (node parent child : Node)
    (reached : node.get? route = some parent) (entered : parent.enter? hop = some child) :
    node.segments (route ++ [hop]) = node.segments route ++ [segment hop child] := by
  induction route generalizing node with
  | nil =>
      cases reached
      simp [segments, entered]
  | cons first rest ih =>
      obtain ⟨inner, through, inside⟩ := Option.bind_eq_some_iff.mp reached
      simp [segments, through, ih inner inside]

theorem segments_nil (route : Route) (node inner : Node) (found : node.get? route = some inner) :
    node.segments route = [] ↔ route = [] := by
  cases route with
  | nil => simp [segments]
  | cons hop rest =>
      obtain ⟨entered, through, _⟩ := Option.bind_eq_some_iff.mp found
      simp [segments, through]

section Named

variable (tree : Node) (reachable : tree.Reachable) (named : tree.Everywhere PlainlyNamed)

include reachable named

/-- A member is called as the step to it is written, and if it is a field, plainly. -/
theorem enter_named (route : Route) (node child : Node) (hop : Hop)
    (found : tree.get? route = some node) (entered : node.enter? hop = some child) :
    child.name = (segment hop child).written ∧
      ∀ name, segment hop child = .field name → Path.Plain name := by
  have names := (named.at_route route node found).here
  cases hop with
  | child position =>
      have plain := names.plain child (List.mem_of_getElem? entered)
      refine ⟨rfl, fun name same => ?_⟩
      cases same
      exact plain
  | element index =>
      have list : ∃ make, node.make? = some make := by
        cases node with
        | list place intent make => exact ⟨make, rfl⟩
        | «attribute» => simp [enter?, element?] at entered
        | key => simp [enter?, element?] at entered
      obtain ⟨make, factory⟩ := list
      have name : child.name = Shape.indexName index :=
        (element_named tree reachable route node make index child found factory entered).trans
          (names.indexed make factory index)
      exact ⟨name, fun _ same => by cases same⟩

/-- The path of a member goes on from that of its node by the step of the hop. -/
theorem enter_path (route : Route) (node child : Node) (hop : Hop)
    (found : tree.get? route = some node) (built : node.place.built = true)
    (entered : node.enter? hop = some child) :
    child.place.built = true ∧
      child.place.path = node.place.path.below (segment hop child).written := by
  have sound := ((reachable_sound tree reachable).at_route route node found).here
  have seated := sound.seated built child (enter_stored hop node child entered)
  have name := (enter_named tree reachable named route node child hop found entered).1
  exact ⟨seated.built, name ▸ seated.path⟩

theorem enter_address (route : Route) (node child : Node) (hop : Hop)
    (found : tree.get? route = some node) (built : node.place.built = true)
    (regular : node.place.path.Regular) (entered : node.enter? hop = some child) :
    child.place.path.Regular ∧ child.address = node.address ++ [segment hop child] := by
  have plain := (enter_named tree reachable named route node child hop found entered).2
  rw [address, (enter_path tree reachable named route node child hop found built entered).2]
  exact node.place.path.below_segment regular _ plain

variable (built : tree.place.built = true)

include built

theorem regular_at_route (regular : tree.place.path.Regular) (route : Route) (node : Node)
    (found : tree.get? route = some node) :
    node.place.built = true ∧ node.place.path.Regular := by
  induction route using List.reverseRecOn generalizing node with
  | nil =>
      cases found
      exact ⟨built, regular⟩
  | append_singleton rest hop ih =>
      rw [get_append] at found
      obtain ⟨parent, reached, step⟩ := Option.bind_eq_some_iff.mp found
      obtain ⟨entered, through, same⟩ := Option.bind_eq_some_iff.mp step
      cases same
      obtain ⟨parentBuilt, parentRegular⟩ := ih parent reached
      exact ⟨(enter_path tree reachable named rest parent _ hop reached parentBuilt through).1,
        (enter_address tree reachable named rest parent _ hop reached parentBuilt parentRegular
          through).1⟩

/-- Below the root, the parts of a path are those of the route to its node. -/
theorem parted_at_route (root : tree.place.path = .root) (fields : tree.isList = false)
    (route : Route) (node : Node) (found : tree.get? route = some node) :
    node.place.built = true ∧ ∃ parts, node.place.path.Parted parts ∧
      parts.flatMap Part.segments = tree.segments route := by
  induction route using List.reverseRecOn generalizing node with
  | nil =>
      cases found
      exact ⟨built, [], root ▸ Path.parted_root, rfl⟩
  | append_singleton rest hop ih =>
      rw [get_append] at found
      obtain ⟨parent, reached, step⟩ := Option.bind_eq_some_iff.mp found
      obtain ⟨entered, through, same⟩ := Option.bind_eq_some_iff.mp step
      cases same
      obtain ⟨parentBuilt, parts, parted, spelled⟩ := ih parent reached
      obtain ⟨seated, path⟩ :=
        enter_path tree reachable named rest parent _ hop reached parentBuilt through
      have plain := (enter_named tree reachable named rest parent _ hop reached through).2
      have further := segments_append rest hop tree parent _ reached through
      refine ⟨seated, ?_⟩
      rw [path, further, ← spelled]
      cases hop with
      | child position =>
          rw [segment, Segment.written]
          refine ⟨_, parted.below_field node.name (plain node.name rfl), ?_⟩
          simp [Part.segments]
      | element index =>
          rcases List.eq_nil_or_concat parts with rfl | ⟨front, last, rfl⟩
          · -- Only the root has no name in its path, and it is not a list.
            have top := (segments_nil rest tree parent reached).mp spelled.symm
            subst top
            cases reached
            cases tree with
            | list => cases fields
            | «attribute» => simp [enter?, element?] at through
            | key => simp [enter?, element?] at through
          · rw [List.concat_eq_append] at *
            refine ⟨_, parted.below_index index, ?_⟩
            simp [Part.segments, segment]

end Named

end Node

end ItemExpressions

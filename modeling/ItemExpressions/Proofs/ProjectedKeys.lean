import Mathlib.Data.List.TakeWhile
import ItemExpressions.Proofs.ProjectionGathering
import ItemExpressions.Proofs.WrittenParts

/-!
Keys that are read and restricted. A key condition has the name of a key as a whole, while the
projection has its path, which is read like any other path. The two are written alike just for keys
right below the root path whose name could not be taken for more than a field: without points, and
without indices behind it.
-/

namespace ItemExpressions

namespace Path

/-! ## Names that are paths -/

theorem below_text (parent : Path) (name : String) :
    (parent.below name).text = name ↔ parent = .root := by
  constructor
  · intro same
    have length := congrArg String.length same
    rw [below] at length
    split at length
    · have empty : parent.text = "" := by simpa using length
      exact congrArg Path.mk empty
    · split at length
      next empty => exact congrArg Path.mk (String.isEmpty_iff.mp empty)
      next =>
          have point : ".".length = 1 := rfl
          simp only [String.length_append, point] at length
          omega
  · rintro rfl
    rw [below]
    split
    · exact String.empty_append
    · rfl

/-- There is no point in the text, and there are no indices behind it. -/
structure Undivided (text : String) : Prop where
  pointless : '.' ∉ text.toList
  unindexed : text.toList.getLast? = some ']' → '[' ∉ text.toList

theorem undivided_iff (text : String) :
    ('.' ∉ text.toList ∧ (text.toList.getLast? = some ']' → '[' ∉ text.toList)) ↔
      Undivided text :=
  ⟨fun ⟨pointless, unindexed⟩ => ⟨pointless, unindexed⟩,
    fun undivided => ⟨undivided.pointless, undivided.unindexed⟩⟩

instance (text : String) : Decidable (Undivided text) := decidable_of_iff _ (undivided_iff text)

theorem indices_nil (segment : List Char) :
    indices segment = [] ↔ (segment.getLast? = some ']' → '[' ∉ segment) := by
  rw [indices, isIndexed]
  by_cases closed : segment.getLast? = some ']'
  · simp only [closed, beq_self_eq_true, ↓reduceIte, List.dropWhile_eq_nil_iff, forall_const,
      bne_iff_ne]
    exact ⟨fun others inside => others '[' inside rfl,
      fun absent c member same => absent (same ▸ member)⟩
  · simp [closed]

theorem fieldName_of_bare (segment : List Char) (bare : indices segment = []) :
    fieldName segment = segment := by
  have whole := fieldName_indices segment
  rwa [bare, List.append_nil] at whole

theorem Undivided.phrase_eq {text : String} (undivided : Undivided text) (given : text ≠ "") :
    phrase ⟨text⟩ = [.name text, .text ""] := by
  have bare := (indices_nil text.toList).mpr undivided.unindexed
  have field := fieldName_of_bare text.toList bare
  have chars : text.toList ≠ [] := by simpa using given
  rw [phrase, if_neg (by simpa using given), segments, split_unreserved _ undivided.pointless,
    List.map_singleton, segmentPhrase, bare]
  split
  · next none => exact absurd (field.symm.trans none) chars
  · rw [field, String.ofList_toList]
    rfl

/-- A path that is written as nothing but a label is undivided, and it is its own field name. -/
theorem undivided_of_label (path : Path) (flawless : path.phrase.Flawless) (label : String → String)
    (plain : ∀ name, Plain (label name)) (name : String)
    (same : path.phrase.inLabels label = label name) :
    Undivided path.text ∧ .name path.text ∈ path.phrase := by
  have items := path.split_inLabels flawless label plain
  have whole : '.' ∉ (label name).toList :=
    fun point => ((plain name).unreserved '.' point).1 rfl
  rw [same, split_unreserved _ whole] at items
  obtain ⟨segment, single, written⟩ := List.map_eq_singleton_iff.mp items.symm
  -- A label has no point in it, so there was a single segment, and that is the whole path.
  have read : path.text.toList = segment := by
    rw [← split_joined path.text.toList, ← segments, single, List.intercalate_singleton]
  -- Indices would begin with a bracket, and there is none in a label.
  have bare : indices segment = [] := by
    cases behind : indices segment with
    | nil => rfl
    | cons c rest =>
        have bracket := indices_head segment c (by rw [behind]; rfl)
        have inside : c ∈ (label name).toList := by
          rw [← written, segmentText, behind]
          exact List.mem_append_right _ List.mem_cons_self
        exact absurd bracket ((plain name).unreserved c inside).2.1
  have field : String.ofList (fieldName segment) = path.text := by
    rw [fieldName_of_bare segment bare, ← read, String.ofList_toList]
  have member : segment ∈ path.segments := single ▸ List.mem_singleton_self segment
  refine ⟨⟨?_, ?_⟩, ?_⟩
  · exact read ▸ split_pointless path.text.toList segment member
  · exact read ▸ (indices_nil segment).mp bare
  · have named := path.phrase_field flawless segment member
    rwa [field] at named

/-- A path and a key are the same to every table just when the path has nothing but the key as its
text, and that is undivided. -/
theorem write_key_iff (path : Path) (name : String) (named : name ≠ "") :
    (∀ table, path.phrase.write table = (Phrase.key name).write table) ↔
      path.text = name ∧ Undivided name := by
  have alone : Phrase.key name = [.name name] := if_neg (by simpa using named)
  constructor
  · intro alike
    -- The empty table is enough to compare them: afterwards it has no name but the key.
    have first : path.phrase.write .empty = (.ok (Mark.nameLabel 0), ⟨[name], []⟩) := by
      rw [alike, alone]
      simp [Phrase.write, Phrase.number, Placeholders.admitName, Placeholders.empty,
        Mark.spellAll, Mark.spell, Except.map]
    obtain ⟨marks, numbered, _⟩ := map_ok (congrArg Prod.fst first)
    have flawless := path.phrase.number_flawless .empty marks numbered
    obtain ⟨labelled, known⟩ := path.phrase.write_inLabels (path.phrase_isPlain flawless) .empty
    rw [first] at labelled known
    have label : Mark.nameLabel 0 = Placeholders.labelOf ⟨[name], []⟩ name := by
      simp [Placeholders.labelOf]
    obtain ⟨undivided, member⟩ := path.undivided_of_label flawless _
      (Placeholders.labelOf_plain _) name ((Except.ok.inj labelled).symm.trans label)
    have same : path.text = name := List.mem_singleton.mp (known path.text member)
    exact ⟨same, same ▸ undivided⟩
  · rintro ⟨rfl, undivided⟩ table
    rw [alone, undivided.phrase_eq named]
    simp [Phrase.write, Phrase.number, Mark.spellAll, Mark.spell, Except.map]

end Path

theorem Expression.pathText_undivided (expression : Expression) (path : Path)
    (undivided : Path.Undivided path.text) (given : path.text ≠ "") :
    expression.pathText path = expression.placeholders.labelOf path.text := by
  rw [pathText, undivided.phrase_eq given]
  exact String.append_empty

theorem Node.visited_of_child (node child : Node) (member : child ∈ node.children) :
    child ∈ node.visited := by
  cases node with
  | «attribute» => exact member
  | list | key => cases member

namespace Item

/-! ## Keys below the root -/

section Keys

variable (item : Item) (reachable : item.root.Reachable) (built : item.isBuilt = true)

include reachable built

/-- All that was attached to a key right below the root is in the key condition. -/
theorem keyCondition_includes (place : Placement) (restriction predicate : KeyCondition)
    (member : .key place (some restriction) ∈ item.root.children)
    (restricted : predicate ∈ restriction.predicates) :
    ∃ condition, item.keyCondition = .ok (some condition) ∧ predicate ∈ condition.predicates := by
  have attached : predicate ∈
      (item.root.children.flatMap fun child => child.keyCondition.toList).flatMap
        KeyCondition.predicates := by
    refine List.mem_flatMap.mpr ⟨restriction, List.mem_flatMap.mpr ⟨_, member, ?_⟩, restricted⟩
    exact Option.mem_toList.mpr rfl
  have gathered := List.mem_append_right (KeyCondition.predicatesOf none) attached
  rw [← KeyCondition.predicatesOf_join, KeyCondition.mem_predicatesOf] at gathered
  obtain ⟨condition, joined, included⟩ := gathered
  exact ⟨condition, (item.keyCondition_eq reachable built).trans (congrArg Except.ok joined),
    included⟩

theorem projection_includes (place : Placement) (condition : Option KeyCondition)
    (member : .key place condition ∈ item.root.children) (marked : place.projected = true)
    (free : item.root.isMarked = false) (projection : Projection)
    (gathered : item.projection = .ok projection) : place.path ∈ projection.paths := by
  rw [item.projection_eq reachable built] at gathered
  have visited := item.root.visited_of_child (.key place condition) member
  have alone := Node.outermost_of_chosen Node.isMarked [item.root] (.key place condition) marked
    (by simp [free])
  rw [← Except.ok.inj gathered, Node.outermost,
    Node.outermost_of_other Node.isMarked [] item.root free]
  refine List.mem_map.mpr ⟨⟨.key place condition, [item.root]⟩, ?_, rfl⟩
  refine List.mem_flatMap.mpr ⟨.key place condition, visited, ?_⟩
  rw [alone]
  exact List.mem_singleton_self _

/-- The root path cannot be written, so a projection that is written has no mark at the root. -/
theorem root_unmarked (projection : Projection) (gathered : item.projection = .ok projection)
    (flawless : ∀ path ∈ projection.paths, path.phrase.Flawless)
    (top : item.root.place.path = .root) : item.root.isMarked = false := by
  rw [item.projection_eq reachable built] at gathered
  cases marked : item.root.isMarked with
  | false => rfl
  | true =>
      rw [← Except.ok.inj gathered, Node.outermost,
        Node.outermost_of_chosen Node.isMarked [] item.root marked rfl] at flawless
      have empty := flawless item.root.place.path (List.mem_singleton_self _)
      rw [top] at empty
      exact absurd empty (Phrase.not_flawless_flaw _)

/-- The path of a key is its name just when there is nothing above it to be written. -/
theorem key_handle (place : Placement) (condition : Option KeyCondition)
    (member : .key place condition ∈ item.root.children) (handle : Path)
    (refers : place.reference .referToKey = .ok handle) :
    handle = place.path ∧ (handle.text = place.name ↔ item.root.place.path = .root) := by
  have sound := Node.reachable_sound item.root reachable
  have stored := item.root.visited_stored _ (item.root.visited_of_child _ member)
  have seated : place.Seated item.root.place.path := sound.here.seated built _ stored
  have same : handle = place.path :=
    Except.ok.inj (refers.symm.trans (place.reference_of_handle _ seated.built seated.handle))
  refine ⟨same, ?_⟩
  rw [same, seated.path]
  exact Path.below_text item.root.place.path place.name

end Keys

/-- A key right below the root that is to be read and has to equal a value. Whatever else is
gathered with it, the key condition has the label of its path where it compares the key, and the
projection lists the texts of its paths. The path of the key is one of these, written as that very
label and standing for the name of the key, just when the root is at the root path and the name is
undivided; and just then the path and the name are the same to every table. -/
theorem projected_key_written (item : Item) (reachable : item.root.Reachable)
    (built : item.isBuilt = true) (place : Placement) (restriction : KeyCondition)
    (value : AttributeValue) (handle : Path)
    (member : .key place (some restriction) ∈ item.root.children) (named : place.name ≠ "")
    (marked : place.projected = true) (refers : place.reference .referToKey = .ok handle)
    (restricted : .compare handle.text .equal value ∈ restriction.predicates) :
    ∃ projection condition, item.projection = .ok projection ∧
      item.keyCondition = .ok (some condition) ∧
      ((∀ table, handle.phrase.write table = (Phrase.key place.name).write table) ↔
        item.root.place.path = .root ∧ Path.Undivided place.name) ∧
      ∀ (draft : Draft) (expression : Expression), draft.projection = some projection →
        draft.keyCondition = some condition → draft.build = .ok expression →
        let label := expression.placeholders.labelOf handle.text
        (∃ written number, expression.text .keyCondition = some written ∧
          KeyCondition.StandsIn (label ++ " = " ++ Mark.valueLabel number) written ∧
          expression.values.lookup (Mark.valueLabel number) = some value) ∧
        expression.text .projection =
          some (", ".intercalate (projection.paths.map expression.pathText)) ∧
        (handle ∈ projection.paths ∧ expression.pathText handle = label ∧
            expression.names.lookup label = some place.name ↔
          item.root.place.path = .root ∧ Path.Undivided place.name) := by
  obtain ⟨same, top⟩ := item.key_handle reachable built place _ member handle refers
  obtain ⟨condition, gathered, included⟩ :=
    item.keyCondition_includes reachable built place restriction _ member restricted
  refine ⟨_, condition, item.projection_eq reachable built, gathered, ?_, ?_⟩
  · rw [handle.write_key_iff place.name named, top]
  · intro draft expression projected required done label
    obtain ⟨known, written, number, keyed⟩ :=
      draft.compared_in_text expression done condition required handle.text .equal value included
    obtain ⟨listed, flawless⟩ := draft.paths_in_text expression done _ projected
    have bound := expression.placeholders.labelOf_bound handle.text known
    refine ⟨⟨written, number, keyed⟩, listed, ?_⟩
    constructor
    · rintro ⟨inside, whole, keeps⟩
      have own : handle.text = place.name := Option.some.inj (bound.symm.trans keeps)
      have undivided := (handle.undivided_of_label (flawless handle inside) _
        expression.placeholders.labelOf_plain handle.text whole).1
      exact ⟨top.mp own, own ▸ undivided⟩
    · rintro ⟨rooted, undivided⟩
      have own := top.mpr rooted
      -- A mark at the root would leave its own path for the projection, which cannot be written.
      have gathered := item.projection_eq reachable built
      have free := item.root_unmarked reachable built _ gathered flawless rooted
      have inside :=
        item.projection_includes reachable built place _ member marked free _ gathered
      refine ⟨same ▸ inside, ?_, own ▸ bound⟩
      rw [← own] at undivided named
      exact expression.pathText_undivided handle undivided named

/-- A customer is named by a key that ends with a bracket, which is restricted together with the
number of an order and read together with the shop. -/
def customer : Shape := .attribute "" [.key "id]", .attribute "shop" [], .key "number"]

def querying : List (Route × Step) :=
  [([], .build .asStored .root), ([.child 0], .project), ([.child 1], .project),
    ([.child 2], .andKeyCondition (.compare "number" .less (.string "7"))),
    ([.child 0], .andKeyCondition (.compare "id]" .equal (.string "ada")))]

def queried : Item := ⟨"Customer", .permissive, (customer.fresh.run? querying).getD customer.fresh⟩

theorem queried_key_written :
    ∃ projection condition expression, queried.projection = .ok projection ∧
      queried.keyCondition = .ok (some condition) ∧
      Draft.build ⟨none, none, some condition, some projection, none⟩ = .ok expression ∧
      ⟨"id]"⟩ ∈ projection.paths ∧ expression.pathText ⟨"id]"⟩ = "#0" ∧
      expression.names.lookup "#0" = some "id]" := by
  have reachable : queried.root.Reachable :=
    .run querying customer.fresh queried.root (.fresh _ customer.fresh_declared) rfl
  obtain ⟨projection, condition, gathered, joined, _, written⟩ :=
    projected_key_written queried reachable rfl _ _ (.string "ada") ⟨"id]"⟩ List.mem_cons_self
      (by decide) rfl rfl List.mem_cons_self
  obtain rfl : projection = ⟨[⟨"id]"⟩, ⟨"shop"⟩]⟩ := Except.ok.inj (gathered.symm.trans rfl)
  obtain rfl : condition = .and (.compare "id]" .equal (.string "ada"))
      (.compare "number" .less (.string "7")) :=
    Option.some.inj (Except.ok.inj (joined.symm.trans rfl))
  let expression : Expression :=
    ⟨[(.keyCondition, "(#0 = :0) AND (#1 < :1)"), (.projection, "#0, #2")],
      ⟨["id]", "number", "shop"], [.string "ada", .string "7"]⟩⟩
  have built : Draft.build ⟨none, none, some (.and (.compare "id]" .equal (.string "ada"))
      (.compare "number" .less (.string "7"))), some ⟨[⟨"id]"⟩, ⟨"shop"⟩]⟩, none⟩ =
        .ok expression := by decide
  have label : expression.placeholders.labelOf (Path.mk "id]").text = "#0" := by decide
  obtain ⟨inside, whole, bound⟩ :=
    (written _ expression rfl rfl built).2.2.mpr ⟨rfl, by decide⟩
  rw [label] at whole bound
  exact ⟨_, _, expression, gathered, joined, built, inside, whole, bound⟩

/-- An item with a single key, which has a point in its name. -/
def point : Shape := .attribute "" [.key "a.b"]

def pointing : List (Route × Step) :=
  [([], .build .asStored .root), ([.child 0], .project),
    ([.child 0], .andKeyCondition (.compare "a.b" .equal (.string "x")))]

def pointed : Item := ⟨"Point", .permissive, (point.fresh.run? pointing).getD point.fresh⟩

/-- The key condition restricts the attribute with the point in its name, while the projection reads
a field of another one. -/
theorem pointed_key_divided :
    pointed.root.Reachable ∧ pointed.isBuilt = true ∧
      (∃ place, place.name = "a.b" ∧ place.projected = true ∧
        place.reference .referToKey = .ok ⟨"a.b"⟩ ∧ pointed.root.children =
          [.key place (some (.compare "a.b" .equal (.string "x")))]) ∧
      pointed.expression = .ok ⟨[(.keyCondition, "#0 = :0"), (.projection, "#1.#2")],
        ⟨["a.b", "a", "b"], [.string "x"]⟩⟩ := by
  have reachable : pointed.root.Reachable :=
    .run pointing point.fresh pointed.root (.fresh _ point.fresh_declared) rfl
  exact ⟨reachable, rfl, ⟨_, rfl, rfl, rfl, rfl⟩, rfl⟩

end Item

end ItemExpressions

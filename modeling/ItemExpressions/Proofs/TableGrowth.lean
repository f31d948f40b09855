import Mathlib.Data.List.TakeWhile
import ItemExpressions.Proofs.Numbering
import ItemExpressions.Proofs.PathVerdicts

/-!
Growth of the table. Whatever is written over a table, its entries stay where they are, and new ones
come behind them: each name that was met and is not yet there, once and in the order in which it is
first met, and each value that was met. What is met is read off the expression: all of it if it is
written, and otherwise what stands in front of the fault that ends the writing.
-/

namespace ItemExpressions

/-! ## What is met on the way -/

/-- What stands in an expression, to be written in its turn. -/
inductive Station where
  /-- A part of a path between the points. -/
  | part (segment : List Char)
  | key (name : String)
  | literal (value : AttributeValue)
  /-- A form that is refused as it stands, whatever else is in it. -/
  | refusal (fault : Fault)

namespace Station

/-- Why the writing ends here, if it does. -/
def fault? : Station → Option Fault
  | .part segment => if Path.Unnamed segment then some .malformedPath else none
  | .key name => if name = "" then some .emptyKey else none
  | .literal _ => none
  | .refusal fault => some fault

/-- What gets a placeholder here. -/
def met : Station → List Mention
  | .part segment =>
      if Path.Unnamed segment then [] else [.name (String.ofList (Path.fieldName segment))]
  | .key name => if name = "" then [] else [.name name]
  | .literal value => [.value value]
  | .refusal _ => []

/-- Nothing is met behind the station at which the writing ends. -/
def metAlong : List Station → List Mention
  | [] => []
  | first :: rest => first.met ++ if first.fault? = none then metAlong rest else []

theorem metAlong_append (first second : List Station) :
    metAlong (first ++ second) =
      metAlong first ++ if first.findSome? fault? = none then metAlong second else [] := by
  induction first with
  | nil => rfl
  | cons head tail ih =>
      rw [List.cons_append, metAlong, metAlong, List.findSome?_cons]
      cases head.fault? with
      | none => simp [ih]
      | some fault => simp

end Station

def Path.stations (path : Path) : List Station :=
  if path.text.isEmpty then [.refusal .emptyPath] else path.segments.map .part

mutual

def Operand.stations : Operand → List Station
  | .path path | .size path => path.stations
  | .literal value => [.literal value]
  | .derived value => value.stations

def Derived.stations : Derived → List Station
  | .listAppend first second | .plus first second | .minus first second =>
      first.stations ++ second.stations
  | .ifNotExists path fallback => path.stations ++ fallback.stations

end

/-- A test for membership is refused for want of candidates before anything in it is written. -/
def Condition.stations : Condition → List Station
  | .compare left _ right => left.stations ++ right.stations
  | .between operand low high => operand.stations ++ low.stations ++ high.stations
  | .oneOf operand candidates =>
      if candidates.isEmpty then [.refusal .noCandidates]
      else operand.stations ++ candidates.flatMap Operand.stations
  | .joined _ left right => left.stations ++ right.stations
  | .negated condition => condition.stations
  | .holds _ path argument => path.stations ++ argument.toList.map .literal

def KeyCondition.stations : KeyCondition → List Station
  | .compare key _ value => [.key key, .literal value]
  | .between key low high => [.key key, .literal low, .literal high]
  | .beginsWith key stem => [.key key, .literal stem]
  | .and left right =>
      if left.isEquality && !right.isConjunction then left.stations ++ right.stations
      else [.refusal .misplacedKeyCondition]

def Projection.stations (projection : Projection) : List Station :=
  if projection.isEmpty then [.refusal .emptyProjection] else projection.paths.flatMap Path.stations

def Update.stations (update : Update) : List Station :=
  if update.isEmpty then [.refusal .emptyUpdate]
  else
    update.additions.flatMap (fun change => change.1.stations ++ [.literal change.2]) ++
    update.deletions.flatMap (fun change => change.1.stations ++ [.literal change.2]) ++
    update.removals.flatMap Path.stations ++
    update.assignments.flatMap fun change => change.1.stations ++ change.2.stations

/-! ## Phrases meet what their expressions do -/

namespace Phrase

/-- The words in front of the first flaw. -/
def begun (phrase : Phrase) : Phrase := phrase.takeWhile fun word => !word.isFlaw

theorem begun_append (first second : Phrase) :
    begun (first ++ second) = first.begun ++ if first.fault? = none then second.begun else [] := by
  induction first with
  | nil => simp [begun, fault?]
  | cons word rest ih =>
      cases word with
      | flaw fault => simp [begun, fault?, Word.isFlaw, Word.fault?]
      | text written | name field | value literal =>
          simpa [begun, fault?, Word.isFlaw, Word.fault?] using ih

theorem begun_of_flawless (phrase : Phrase) (flawless : phrase.Flawless) :
    phrase.begun = phrase := by
  apply List.takeWhile_eq_self_iff.mpr
  intro word member
  simp [flawless word member]

/-- Writing the phrase meets the same as passing the stations, and ends at the same fault. -/
structure Meets (phrase : Phrase) (stations : List Station) : Prop where
  fault : phrase.fault? = stations.findSome? Station.fault?
  met : phrase.begun.mentions = Station.metAlong stations

theorem Meets.append {first second : Phrase} {front back : List Station}
    (head : first.Meets front) (tail : second.Meets back) :
    Meets (first ++ second) (front ++ back) where
  fault := by rw [fault_append, head.fault, tail.fault, List.findSome?_append]
  met := by
    rw [begun_append, mentions_append, head.met, head.fault, Station.metAlong_append, ← tail.met]
    split <;> rfl

theorem Meets.text (written : String) : Meets (.text written) [] := ⟨rfl, rfl⟩

theorem Meets.literal (value : AttributeValue) : Meets (.literal value) [.literal value] :=
  ⟨rfl, rfl⟩

theorem Meets.flaw (fault : Fault) : Meets (.flaw fault) [.refusal fault] := ⟨rfl, rfl⟩

theorem Meets.key (name : String) : Meets (.key name) [.key name] := by
  by_cases empty : name = ""
  · subst empty
    exact ⟨rfl, rfl⟩
  · constructor <;> simp [Phrase.key, empty, fault?, Word.fault?, Station.fault?, Station.metAlong,
      Station.met, begun, Word.isFlaw, mentions, Word.mention?]

theorem Meets.enclosed {phrase : Phrase} {stations : List Station} (meets : phrase.Meets stations) :
    phrase.enclosed.Meets stations := by
  have written := ((Meets.text "(").append meets).append (.text ")")
  rwa [List.nil_append, List.append_nil] at written

/-- Two phrases with grammar text between them. -/
theorem Meets.around {first second : Phrase} {front back : List Station} (between : String)
    (head : first.Meets front) (tail : second.Meets back) :
    Meets (first ++ .text between ++ second) (front ++ back) := by
  have written := (head.append (.text between)).append tail
  rwa [List.append_nil] at written

/-- Members that are written one by one between separators. -/
theorem Meets.members {β : Type} (separator : String) (members : List β) (render : β → Phrase)
    (stations : β → List Station)
    (each : ∀ member ∈ members, (render member).Meets (stations member)) :
    (separated separator (members.map render)).Meets (members.flatMap stations) := by
  induction members with
  | nil => exact ⟨rfl, rfl⟩
  | cons first rest ih =>
      obtain ⟨head, tail⟩ := List.forall_mem_cons.mp each
      cases rest with
      | nil => simpa [separated] using head
      | cons second others => exact head.around separator (ih tail)

end Phrase

open Phrase (Meets)

theorem Path.segmentPhrase_meets (segment : List Char) :
    (Path.segmentPhrase segment).Meets [.part segment] := by
  have unnamed := Path.fieldName_nil segment
  rw [Path.segmentPhrase]
  split
  · next none =>
    have nothing := unnamed.mp none
    constructor <;> simp [Station.fault?, Station.metAlong, Station.met, nothing, Phrase.begun,
      Phrase.flaw, Phrase.fault?, Word.fault?, Word.isFlaw, Phrase.mentions]
  · next given =>
    have named : ¬ Path.Unnamed segment := fun none => given (unnamed.mpr none)
    constructor <;> simp [Station.fault?, Station.metAlong, Station.met, named, Phrase.begun,
      Phrase.fault?, Word.fault?, Word.isFlaw, Phrase.mentions, Word.mention?]

theorem Path.phrase_meets (path : Path) : path.phrase.Meets path.stations := by
  rw [Path.phrase, Path.stations]
  split
  · exact .flaw _
  · have listed := Meets.members "." path.segments Path.segmentPhrase (fun segment => [.part segment])
      fun segment _ => Path.segmentPhrase_meets segment
    rwa [← List.map_eq_flatMap] at listed

mutual

theorem Operand.phrase_meets (operand : Operand) : operand.phrase.Meets operand.stations := by
  cases operand with
  | path path =>
      rw [Operand.phrase]
      exact path.phrase_meets
  | literal value => exact .literal value
  | size path => exact (Meets.text "size ").append path.phrase_meets.enclosed
  | derived value =>
      rw [Operand.phrase]
      exact value.phrase_meets

theorem Derived.phrase_meets (value : Derived) : value.phrase.Meets value.stations := by
  cases value with
  | listAppend first second =>
      have arguments := first.phrase_meets.around ", " second.phrase_meets
      exact (Meets.text "list_append").append arguments.enclosed
  | ifNotExists path fallback =>
      have arguments := path.phrase_meets.around ", " fallback.phrase_meets
      exact (Meets.text "if_not_exists").append arguments.enclosed
  | plus left right => exact left.phrase_meets.around " + " right.phrase_meets
  | minus left right => exact left.phrase_meets.around " - " right.phrase_meets

end

theorem Condition.phrase_meets (condition : Condition) :
    condition.phrase.Meets condition.stations := by
  induction condition with
  | compare left comparator right => exact left.phrase_meets.around _ right.phrase_meets
  | between operand low high =>
      exact (operand.phrase_meets.around " BETWEEN " low.phrase_meets).around " AND "
        high.phrase_meets
  | oneOf operand candidates =>
      rw [Condition.phrase, Condition.stations]
      split
      · exact .flaw _
      · have listed := Meets.members ", " candidates Operand.phrase Operand.stations
          fun candidate _ => candidate.phrase_meets
        exact operand.phrase_meets.around " IN " listed.enclosed
  | joined connective left right ihLeft ihRight => exact ihLeft.enclosed.around _ ihRight.enclosed
  | negated condition ih => exact (Meets.text "NOT ").append ih.enclosed
  | holds predicate path argument =>
      have further : (Condition.argumentPhrase argument).Meets (argument.toList.map .literal) := by
        cases argument <;> exact ⟨rfl, rfl⟩
      exact (Meets.text _).append (path.phrase_meets.append further).enclosed

theorem KeyCondition.phrase_meets (condition : KeyCondition) :
    condition.phrase.Meets condition.stations := by
  induction condition with
  | compare key comparator value => exact (Meets.key key).around _ (.literal value)
  | between key low high =>
      exact ((Meets.key key).around " BETWEEN " (.literal low)).around " AND " (.literal high)
  | beginsWith key stem =>
      have arguments := (Meets.key key).around ", " (.literal stem)
      exact (Meets.text "begins_with ").append arguments.enclosed
  | and left right ihLeft ihRight =>
      rw [KeyCondition.phrase, KeyCondition.stations]
      split
      · exact ihLeft.enclosed.around " AND " ihRight.enclosed
      · exact .flaw _

theorem Projection.phrase_meets (projection : Projection) :
    projection.phrase.Meets projection.stations := by
  rw [Projection.phrase, Projection.stations]
  split
  · exact .flaw _
  · exact .members ", " projection.paths Path.phrase Path.stations fun path _ => path.phrase_meets

namespace Update

theorem clause_meets {β : Type} (keyword : String) (changes : List β) (render : β → Phrase)
    (stations : β → List Station) (each : ∀ change, (render change).Meets (stations change)) :
    (clause keyword (changes.map render)).Meets (changes.flatMap stations) := by
  rw [clause]
  split
  · next none =>
    rw [List.map_eq_nil_iff.mp (List.isEmpty_iff.mp none)]
    exact ⟨rfl, rfl⟩
  · have listed := Meets.members ", " changes render stations fun change _ => each change
    have line := ((Meets.text (keyword ++ " ")).append listed).append (.text "\n")
    rwa [List.nil_append, List.append_nil] at line

theorem phrase_meets (update : Update) : update.phrase.Meets update.stations := by
  have valued (change : Path × AttributeValue) :
      (valuePhrase change).Meets (change.1.stations ++ [.literal change.2]) :=
    change.1.phrase_meets.around " " (.literal change.2)
  have assigned (change : Path × Operand) :
      (assignmentPhrase change).Meets (change.1.stations ++ change.2.stations) :=
    change.1.phrase_meets.around " = " change.2.phrase_meets
  rw [phrase, stations]
  split
  · exact .flaw _
  · have additions := clause_meets "ADD" update.additions _ _ valued
    have deletions := clause_meets "DELETE" update.deletions _ _ valued
    have removals := clause_meets "REMOVE" update.removals _ _ Path.phrase_meets
    have assignments := clause_meets "SET" update.assignments _ _ assigned
    exact ((additions.append deletions).append removals).append assignments

end Update

/-! ## The table after writing -/

namespace Phrase

/-- The words in front of the first flaw are all that the table sees of a phrase. -/
theorem number_begun (phrase : Phrase) (table : Placeholders) :
    ∃ marks, phrase.begun.number table = (.ok marks, (phrase.number table).2) := by
  induction phrase generalizing table with
  | nil => exact ⟨[], rfl⟩
  | cons word rest ih =>
      cases word with
      | flaw fault => exact ⟨[], rfl⟩
      | text written =>
          obtain ⟨marks, numbered⟩ := ih table
          have begun : begun (.text written :: rest) = .text written :: begun rest := rfl
          exact ⟨.text written :: marks, by rw [begun, number, numbered]; rfl⟩
      | name field =>
          obtain ⟨marks, numbered⟩ := ih (table.admitName field).2
          have begun : begun (.name field :: rest) = .name field :: begun rest := rfl
          exact ⟨.name (table.admitName field).1 :: marks, by rw [begun, number, numbered]; rfl⟩
      | value literal =>
          obtain ⟨marks, numbered⟩ := ih (table.admitValue literal).2
          have begun : begun (.value literal :: rest) = .value literal :: begun rest := rfl
          exact ⟨.value (table.admitValue literal).1 :: marks, by rw [begun, number, numbered]; rfl⟩

/-- Names that are new to the table are appended to it as they are first met, and all values. -/
theorem write_table (phrase : Phrase) (table : Placeholders) (distinct : table.names.Nodup) :
    (phrase.write table).2.names = table.names ++
        (phrase.begun.names.filter fun name => !decide (name ∈ table.names)).eraseDups ∧
      (phrase.write table).2.values = table.values ++ phrase.begun.literals ∧
      (phrase.write table).2.names.Nodup := by
  obtain ⟨marks, numbered⟩ := phrase.number_begun table
  have done : (phrase.begun.number table).1 = .ok marks := congrArg Prod.fst numbered
  have known : table.names = table.names.eraseDups := (eraseDups_of_nodup distinct).symm
  have names := phrase.begun.number_names table marks done table.names known
  have values := (phrase.begun.number_values table marks done).1
  rw [numbered] at names values
  have after : (phrase.number table).2 = (phrase.write table).2 := rfl
  rw [after] at names values
  refine ⟨?_, values, ?_⟩
  · rw [names, List.eraseDups_append, ← known, List.removeAll]
    simp
  · rw [names]
    exact eraseDups_nodup _

end Phrase

/-! ## All that is written over a table -/

/-- What is written over a table, from a single name to a whole expression. -/
inductive Form where
  | path (path : Path)
  | key (name : String)
  | size (path : Path)
  | literal (value : AttributeValue)
  | derived (value : Derived)
  | operand (operand : Operand)
  | condition (condition : Condition)
  | keyCondition (condition : KeyCondition)
  | projection (projection : Projection)
  | update (update : Update)

def Form.phrase : Form → Phrase
  | .path target => target.phrase
  | .key name => .key name
  | .size target => (Operand.size target).phrase
  | .literal value => .literal value
  | .derived value => value.phrase
  | .operand part => part.phrase
  | .condition test => test.phrase
  | .keyCondition test => test.phrase
  | .projection selection => selection.phrase
  | .update changes => changes.phrase

def Form.stations : Form → List Station
  | .path target | .size target => target.stations
  | .key name => [.key name]
  | .literal value => [.literal value]
  | .derived value => value.stations
  | .operand part => part.stations
  | .condition test => test.stations
  | .keyCondition test => test.stations
  | .projection selection => selection.stations
  | .update changes => changes.stations

def Form.mentions : Form → List Mention
  | .path target | .size target => target.mentions
  | .key name => [.name name]
  | .literal value => [.value value]
  | .derived value => value.mentions
  | .operand part => part.mentions
  | .condition test => test.mentions
  | .keyCondition test => test.mentions
  | .projection selection => selection.mentions
  | .update changes => changes.mentions

namespace Form

/-- What is met in writing the form. -/
def met (form : Form) : List Mention := Station.metAlong form.stations

theorem phrase_meets (form : Form) : form.phrase.Meets form.stations := by
  cases form with
  | path path => exact path.phrase_meets
  | key name => exact .key name
  | size path => exact (Operand.size path).phrase_meets
  | literal value => exact .literal value
  | derived value => exact value.phrase_meets
  | operand operand => exact operand.phrase_meets
  | condition condition => exact condition.phrase_meets
  | keyCondition condition => exact condition.phrase_meets
  | projection projection => exact projection.phrase_meets
  | update update => exact update.phrase_meets

theorem phrase_mentions (form : Form) (flawless : form.phrase.Flawless) :
    form.phrase.mentions = form.mentions := by
  cases form with
  | path path => exact path.phrase_mentions flawless
  | key name => exact Phrase.mentions_key name flawless
  | size path => exact (Operand.size path).phrase_mentions flawless
  | literal value => rfl
  | derived value => exact value.phrase_mentions flawless
  | operand operand => exact operand.phrase_mentions flawless
  | condition condition => exact condition.phrase_mentions flawless
  | keyCondition condition => exact condition.phrase_mentions flawless
  | projection projection => exact projection.phrase_mentions flawless
  | update update => exact update.phrase_mentions flawless

/-- All of a form is met if it is written. -/
theorem met_of_written (form : Form) (table : Placeholders) (text : String)
    (written : (form.phrase.write table).1 = .ok text) : form.met = form.mentions := by
  obtain ⟨marks, numbered, _⟩ := map_ok written
  have flawless := form.phrase.number_flawless table marks numbered
  rw [met, ← form.phrase_meets.met, form.phrase.begun_of_flawless flawless,
    form.phrase_mentions flawless]

/-- Whatever is written, the table keeps what it has and its names stay distinct. The names that are
not yet there are appended as they are first met, and the values as they are met. That is all of the
form if it is written, and otherwise all in front of the fault that ends the writing. -/
theorem table_grows (form : Form) (table : Placeholders) (distinct : table.names.Nodup) :
    let after := (form.phrase.write table).2
    after.Extends table ∧ after.names.Nodup ∧
    after.names = table.names ++ ((form.met.filterMap Mention.name?).filter
      fun name => !decide (name ∈ table.names)).eraseDups ∧
    after.values = table.values ++ form.met.filterMap Mention.value? ∧
    (∀ text, (form.phrase.write table).1 = .ok text → form.met = form.mentions) ∧
    ∀ fault, (form.phrase.write table).1 = .error fault ↔
      form.stations.findSome? Station.fault? = some fault := by
  intro after
  obtain ⟨names, values, kept⟩ := form.phrase.write_table table distinct
  rw [Phrase.names, form.phrase_meets.met] at names
  rw [Phrase.literals, form.phrase_meets.met] at values
  refine ⟨form.phrase.number_extends table, kept, names, values,
    form.met_of_written table, fun fault => ?_⟩
  rw [form.phrase.write_error, form.phrase_meets.fault]

/-- The writing ends at the empty part of the last path, behind `b.d` and the literal. -/
theorem ended_table_grows :
    let table : Placeholders := ⟨["b", "a"], [.bool true]⟩
    let form := condition <| .between (.path ⟨"a.c"⟩) (.literal (.string "x")) (.path ⟨"b.d..e"⟩)
    table.names.Nodup ∧ (form.phrase.write table).1 = .error .malformedPath ∧
      (form.phrase.write table).2 = ⟨["b", "a", "c", "d"], [.bool true, .string "x"]⟩ := by
  intro table form
  have distinct : table.names.Nodup := by decide
  obtain ⟨_, _, names, values, _, refused⟩ := form.table_grows table distinct
  have met : form.met = [.name "a", .name "c", .value (.string "x"), .name "b", .name "d"] := by
    decide
  rw [met] at names values
  exact ⟨distinct, (refused _).mpr (by decide), congrArg₂ Placeholders.mk names values⟩

end Form

end ItemExpressions

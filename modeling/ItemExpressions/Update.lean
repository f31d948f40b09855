import ItemExpressions.Operand

/-!
Updates of an item. An update has four clauses, each a list of changes in the order they were
asked for; the order between changes of different clauses is not kept. The text has one line for
each clause that has changes.
-/

namespace ItemExpressions

inductive Change where
  | add (path : Path) (value : AttributeValue)
  | delete (path : Path) (value : AttributeValue)
  | remove (path : Path)
  | set (path : Path) (operand : Operand)
  deriving DecidableEq

structure Update where
  additions : List (Path × AttributeValue)
  deletions : List (Path × AttributeValue)
  removals : List Path
  assignments : List (Path × Operand)
  deriving DecidableEq

namespace Update

def empty : Update := ⟨[], [], [], []⟩

def isEmpty (update : Update) : Bool :=
  update.additions.isEmpty && update.deletions.isEmpty && update.removals.isEmpty &&
    update.assignments.isEmpty

def push (update : Update) : Change → Update
  | .add path value => { update with additions := update.additions ++ [(path, value)] }
  | .delete path value => { update with deletions := update.deletions ++ [(path, value)] }
  | .remove path => { update with removals := update.removals ++ [path] }
  | .set path operand => { update with assignments := update.assignments ++ [(path, operand)] }

def pushAll (update : Update) (changes : List Change) : Update :=
  changes.foldl push update

def ofChanges (changes : List Change) : Update := empty.pushAll changes

def valuePhrase (change : Path × AttributeValue) : Phrase :=
  change.1.phrase ++ .text " " ++ .literal change.2

def assignmentPhrase (change : Path × Operand) : Phrase :=
  change.1.phrase ++ .text " = " ++ change.2.phrase

def clause (keyword : String) (changes : List Phrase) : Phrase :=
  if changes.isEmpty then []
  else .text (keyword ++ " ") ++ .commaSeparated changes ++ .text "\n"

def phrase (update : Update) : Phrase :=
  if update.isEmpty then .flaw .emptyUpdate
  else
    clause "ADD" (update.additions.map valuePhrase) ++
    clause "DELETE" (update.deletions.map valuePhrase) ++
    clause "REMOVE" (update.removals.map Path.phrase) ++
    clause "SET" (update.assignments.map assignmentPhrase)

end Update

end ItemExpressions

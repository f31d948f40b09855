import ItemExpressions.Path

/-!
Projections: the paths to be read from an item, in order and with repetitions.
-/

namespace ItemExpressions

structure Projection where
  paths : List Path
  deriving DecidableEq

namespace Projection

def empty : Projection := ⟨[]⟩

def isEmpty (projection : Projection) : Bool := projection.paths.isEmpty

def add (projection : Projection) (path : Path) : Projection :=
  ⟨projection.paths ++ [path]⟩

def phrase (projection : Projection) : Phrase :=
  if projection.isEmpty then .flaw .emptyProjection
  else .commaSeparated (projection.paths.map Path.phrase)

end Projection

end ItemExpressions

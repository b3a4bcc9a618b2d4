import AnnotationEdit.Token.Stream
import AnnotationEdit.Tree.File

/-!
# Where the targets are

The ranges of the targets of a file, sorted by where they start, to ask which targets stand inside
a statement.
-/

namespace AnnotationEdit.Tree

structure TargetEntry where
  name : String
  range : Range
deriving DecidableEq, Repr

structure TargetIndex where
  entries : Array TargetEntry

namespace TargetIndex

/-- The targets that stand in the source. -/
def ofFile (f : File) : TargetIndex :=
  let entries := f.targets.filterMap fun t => t.range.map fun r => TargetEntry.mk t.name r
  ⟨(entries.mergeSort fun a b => a.range.start ≤ b.range.start).toArray⟩

def within (index : TargetIndex) (statement : Range) : List TargetEntry :=
  let first := partitionPoint index.entries fun e => e.range.start < statement.start
  let candidates := (index.entries.toList.drop first).takeWhile fun e =>
    e.range.start < statement.stop
  candidates.filter fun e => statement.contains e.range

/-- Whether a target inside the statement is not among the deleted ones. -/
def hasSurvivor (index : TargetIndex) (statement : Range) (deleted : List String) : Bool :=
  (index.within statement).any fun e => !deleted.contains e.name

end TargetIndex

end AnnotationEdit.Tree

import AnnotationEdit.Batch.Bubble
import AnnotationEdit.Batch.Fold
import AnnotationEdit.Batch.Shadow

/-!
# Reducing a batch

Turns the operations of a batch into those that are carried out. The result does not depend on
where in the batch the deletions stand: they are ordered by pointer, after everything else.
-/

namespace AnnotationEdit.Batch

/-- Insertions into an empty list go to its start. -/
def anchorInEmpty (file : Syntax.File) (o : Operation) : Operation :=
  if o.isListInsert && (file.resolve? o.pointer).bind (·.listLength?) == some 0 then
    o.withIndex (some 0)
  else o

def comesFirst (a b : Operation) : Bool :=
  ((a.pointer.compare b.pointer).then (compare a.kindName b.kindName)) != .gt

def order (operations : List Operation) : List Operation :=
  operations.filter (!·.isDeletion) ++ (operations.filter (·.isDeletion)).mergeSort comesFirst

/-- The operations that are carried out for a batch. -/
def reduce (file : Syntax.File) (operations : List Operation) : List Operation :=
  let operations := operations.map (anchorInEmpty file)
  let operations := removeShadowed operations
  let operations := Command.runAll operations (replacements operations)
  let operations := Command.runAll operations (compounds file operations)
  order (removeShadowed (bubble file operations))

end AnnotationEdit.Batch

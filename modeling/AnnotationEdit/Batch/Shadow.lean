import AnnotationEdit.Operation

/-!
# Shadowed operations

Of several destructive operations at one pointer only the last one counts, and nothing that happens
at or below a node matters once the node is removed or overwritten. `shadowing` says for each
operation of a batch whether it is kept.
-/

namespace AnnotationEdit.Batch

def lastAtPointer : List Operation → List Bool
  | [] => []
  | o :: rest =>
    let overridden :=
      o.isDestructive && rest.any fun later => later.isDestructive && later.pointer == o.pointer
    (!overridden) :: lastAtPointer rest

def removedPointers (operations : List Operation) : List Pointer :=
  ((operations.zip (lastAtPointer operations)).filter fun (o, last) =>
    last && o.removesSubtree).map (·.1.pointer)

/-- The operation works on something that is removed: a destructive one strictly below a removed
node, any other one at or below it, by its pointer or by what it moves. -/
def isShadowed (removed : List Pointer) (o : Operation) : Bool :=
  if o.isDestructive then removed.any fun r => r.isAncestorOf o.pointer
  else removed.any fun r => r.isPrefixOf o.pointer || o.sources.any r.isPrefixOf

def shadowing (operations : List Operation) : List Command :=
  let removed := removedPointers operations
  (operations.zip (lastAtPointer operations)).map fun (o, last) =>
    if last && !isShadowed removed o then .pick else .drop

/-- The operations that are neither overridden nor shadowed. -/
def removeShadowed (operations : List Operation) : List Operation :=
  Command.runAll operations (shadowing operations)

end AnnotationEdit.Batch

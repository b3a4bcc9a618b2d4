import AnnotationEdit.Operation
import AnnotationEdit.Syntax.Node

/-!
# Emptied containers

When all children of a container are deleted, the container goes too, and then perhaps the
container around it. Containers are looked at from the deepest level up and on one level in the
order of their pointers, so each is looked at once, after everything below it.
-/

namespace AnnotationEdit.Batch

open Syntax (Node)

/-- The container a deleted node counts for, if its deletion can empty one: the list it is a member
of, the group its items belong to, or the annotation or property whose value it is. -/
def containerOf? (file : Syntax.File) (p : Pointer) : Option Pointer := do
  let last ← p.last?
  let isMember := p.lastIndex?.isSome
  let container ← if isMember then p.ancestor? 2 else p.parent?
  let node ← file.resolve? container
  let accepted := match node with
    | .target _ | .groupItems _ | .record _ => isMember
    | .group _ => last == "items"
    | Node.annotation _ | .property _ => last == "value"
    | _ => false
  if accepted then some container else none

/-- The container that a deletion counts for. A qualifier is no child. -/
def emptiedBy? (file : Syntax.File) (o : Operation) : Option Pointer :=
  match o.action with
  | .delete .qualifier => none
  | .delete _ => containerOf? file o.pointer
  | _ => none

/-- The number of children that must go before the container is empty. -/
def childCount : Node → Nat
  | Node.annotation a => if a.value.isSome then 1 else 0
  | .property p => if p.value.isSome then 1 else 0
  | .group _ => 1
  | n => n.listLength?.getD 0

def emptiedKind? : Node → Option Deletable
  | .target _ => some .target
  | .groupItems _ => some .annotationGroupItems
  | .group _ => some .annotationGroup
  | .record _ => some .record
  | Node.annotation a =>
    some (if a.embedded then Deletable.embeddedAnnotation else Deletable.annotation)
  | .property _ => some .recordProperty
  | _ => none

/-- The operation keeps a container alive: it works at or below it and deletes nothing. -/
def keeps (container : Pointer) (o : Operation) : Bool :=
  !o.isDeletion && container.isPrefixOf o.pointer

def emptied? (file : Syntax.File) (container : Pointer) (operations : List Operation) :
    Option Operation := do
  let node ← file.resolve? container
  let children := operations.filter fun o => emptiedBy? file o == some container
  let keys := (children.filterMap fun o => o.pointer.last?).eraseDups
  if keys.length < childCount node || operations.any (keeps container) then none
  else
    let kind ← emptiedKind? node
    return ⟨container, .delete kind⟩

def bubbleContainer (file : Syntax.File) (operations : List Operation) (container : Pointer) :
    List Operation :=
  match emptied? file container operations with
  | some deletion =>
    (operations.filter fun o => emptiedBy? file o != some container) ++ [deletion]
  | none => operations

/-- The containers at a depth that deletions count for, in the order of their pointers. -/
def containersAt (file : Syntax.File) (operations : List Operation) (depth : Nat) : List Pointer :=
  let found := (operations.filterMap (emptiedBy? file)).filter fun p => p.depth == depth
  found.eraseDups.mergeSort fun p q => p.compare q != .gt

def bubbleLevel (file : Syntax.File) (operations : List Operation) (depth : Nat) : List Operation :=
  (containersAt file operations depth).foldl (bubbleContainer file) operations

/-- Deletes the emptied containers at the depths below `depth`, the deepest first. -/
def bubbleBelow (file : Syntax.File) : Nat → List Operation → List Operation
  | 0, operations => operations
  | depth + 1, operations => bubbleBelow file depth (bubbleLevel file operations depth)

def maxDepth (operations : List Operation) : Nat :=
  operations.foldl (fun depth o => Nat.max depth o.pointer.depth) 0

/-- Deletes emptied containers instead of their children, up to the file. -/
def bubble (file : Syntax.File) (operations : List Operation) : List Operation :=
  bubbleBelow file (maxDepth operations) operations

end AnnotationEdit.Batch

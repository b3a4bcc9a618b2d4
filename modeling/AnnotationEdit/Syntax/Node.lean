import AnnotationEdit.Pointer
import AnnotationEdit.Syntax.Basic

/-!
# Nodes of the concrete tree

Every addressable part of the concrete tree as one type. A node lists its children with the
segments that lead to them, a name alone or a name and a number, and pointers are resolved along
these segments.
-/

namespace AnnotationEdit.Syntax

inductive Node where
  | file (file : File)
  | declaration (declaration : Declaration)
  | target (target : Target)
  | annotation (a : Annotation)
  | group (group : Group)
  | groupItems (items : GroupItems)
  | record (record : Record)
  | property (property : Property)
  | collection (collection : Collection)
  | primitive (primitive : Primitive)
  | qualifier (qualifier : Identifier)

namespace Node

def ofValue : Value → Node
  | .record r => record r
  | .collection c => collection c
  | .primitive p => primitive p

def ofAssignment : Assignment → Node
  | .single a => annotation a
  | .group g => group g

def ofEntry : Entry → Node
  | .property p => property p
  | .embedded a => annotation a

def range : Node → Range
  | file f => f.range
  | declaration d => d.range
  | target t => t.range
  | annotation a => a.range
  | group g => g.range
  | groupItems i => i.range
  | record r => r.range
  | property p => p.range
  | collection c => c.range
  | primitive p => p.range
  | qualifier q => q.range

def kindName : Node → String
  | file _ => "document"
  | declaration _ => "using"
  | target _ => "target"
  | annotation a => if a.embedded then "embedded annotation" else "annotation"
  | group _ => "annotation group"
  | groupItems _ => "annotation group items"
  | record _ => "record"
  | property _ => "record property"
  | collection _ => "collection"
  | primitive _ => "primitive value"
  | qualifier _ => "qualifier"

/-- The members of a list under its name and their numbers. -/
def numbered (name : String) (nodes : List Node) : List (List String × Node) :=
  nodes.zipIdx.map fun (node, i) => ([name, toString i], node)

/-- The children of a node with the segments that lead to them. -/
def children : Node → List (List String × Node)
  | file f =>
    numbered "usings" (f.declarations.map declaration) ++ numbered "targets" (f.targets.map target)
  | target t => numbered "assignments" (t.assignments.map ofAssignment)
  | annotation a =>
    (a.qualifier.toList.map fun q => (["qualifier"], qualifier q)) ++
      a.value.toList.map fun v => (["value"], ofValue v)
  | group g => [(["items"], groupItems g.items)]
  | groupItems i => numbered "items" (i.items.map annotation)
  | record r => numbered "properties" (r.entries.map ofEntry)
  | property p => p.value.toList.map fun v => (["value"], ofValue v)
  | collection c => numbered "items" (c.items.map ofValue)
  | declaration _ | primitive _ | qualifier _ => []

/-- The child that exactly these segments lead to. -/
def child? (n : Node) (path : List String) : Option Node :=
  (n.children.find? (·.1 == path)).map (·.2)

/-- The node that the segments lead to. -/
def resolve? (n : Node) : List String → Option Node
  | [] => some n
  | s :: rest =>
    match n.child? [s], rest with
    | some c, rest => c.resolve? rest
    | none, [] => none
    | none, t :: rest =>
      match n.child? [s, t] with
      | some c => c.resolve? rest
      | none => none

def isValue : Node → Bool
  | record _ | collection _ | primitive _ => true
  | _ => false

/-- An annotation or property written without a value. -/
def isValueless : Node → Bool
  | annotation a => a.value.isNone
  | property p => p.value.isNone
  | _ => false

def memberRanges? : Node → Option (List Range)
  | target t => some (t.assignments.map (·.range))
  | groupItems i => some (i.items.map (·.range))
  | record r => some (r.entries.map (·.range))
  | collection c => some (c.items.map (·.range))
  | _ => none

def listLength? (n : Node) : Option Nat := n.memberRanges?.map (·.length)

def memberRanges (n : Node) : List Range := n.memberRanges?.getD []

end Node

namespace File

/-- The node a pointer addresses. -/
def resolve? (f : File) (p : Pointer) : Option Node := (Node.file f).resolve? p.segments

end File

end AnnotationEdit.Syntax

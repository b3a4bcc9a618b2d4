import AnnotationEdit.Pointer
import AnnotationEdit.Tree.Element

/-!
# Annotation files

The annotation tree of a file: its references to other files and its targets with their terms.
Nodes are addressed by pointers such as `/targets/0/terms/1/content/0`; `walk?` lists the nodes on
the way.
-/

namespace AnnotationEdit.Tree

/-- A reference to another file or namespace, perhaps under a nickname. -/
structure Reference where
  name : String
  nickname : Option String
  uri : Option String
  range : Option Range
deriving DecidableEq, Repr

/-- An annotated entity, or a member of one, and its annotations. -/
structure Target where
  name : String
  range : Option Range
  nameRange : Option Range
  terms : List Element

namespace Target

def entity (t : Target) : String :=
  match Text.splitOnce? '/' t.name with
  | some (entity, _) => entity
  | none => t.name

/-- The element, action or parameter below the entity. -/
def member? (t : Target) : Option String := (Text.splitOnce? '/' t.name).map (·.2)

end Target

structure File where
  uri : String
  range : Option Range
  references : List Reference
  targets : List Target

/-- A node of the tree with what is needed to place it. -/
inductive View where
  | file (file : File)
  | reference (reference : Reference)
  | target (target : Target)
  | element (element : Element)
  | text (text : TextNode) (parent : Element)
  | attr (a : Attribute) (parent : Element)

namespace View

/-- The range of a node; a text or attribute without one has that of its element. -/
def range : View → Option Range
  | file f => f.range
  | reference r => r.range
  | target t => t.range
  | element e => e.range
  | text t parent => t.range.or parent.range
  | attr a parent => a.range.or parent.range

def ofNode (parent : Element) : Node → View
  | .element e => .element e
  | .text t => .text t parent

/-- The child of a node that a name and the segment after it lead to. -/
def child? (v : View) (name key : String) : Option View :=
  match v, name with
  | file f, "targets" => (Text.number? key).bind fun i => f.targets[i]?.map .target
  | file f, "references" => (Text.number? key).bind fun i => f.references[i]?.map .reference
  | target t, "terms" => (Text.number? key).bind fun i => t.terms[i]?.map .element
  | element e, "content" => (Text.number? key).bind fun i => e.content[i]?.map (ofNode e)
  | element e, "attributes" => (e.attribute? key).map fun a => .attr a e
  | _, _ => none

/-- The nodes below `v` on the way along the segments, two of which make a step. -/
def walkFrom? (v : View) : List String → Option (List View)
  | [] => some []
  | [_] => none
  | name :: key :: rest =>
    match v.child? name key with
    | some next => (next.walkFrom? rest).map (next :: ·)
    | none => none

end View

namespace File

def walk? (f : File) (p : Pointer) : Option (List View) :=
  ((View.file f).walkFrom? p.segments).map (.file f :: ·)

/-- The node a pointer addresses. -/
def resolve? (f : File) (p : Pointer) : Option View := (f.walk? p).bind (·.getLast?)

def targetIndex? (f : File) (name : String) : Option Nat := f.targets.findIdx? (·.name == name)

end File

end AnnotationEdit.Tree

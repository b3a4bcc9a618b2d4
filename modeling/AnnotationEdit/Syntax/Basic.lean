import AnnotationEdit.Text.Position

/-!
# The concrete tree

The source as it is written: declarations, annotate statements with bare, compound and grouped
annotations, records, collections and literals, each with its range.

* The range of an annotation starts at its term; the `@` in front is kept in `atSign`.
* The range of a qualifier includes its `#`.
* The range of a bracketed list includes the brackets.
* The range of an embedded annotation covers the whole entry, `!` and brackets included.
-/

namespace AnnotationEdit.Syntax

structure Identifier where
  text : String
  range : Range
deriving DecidableEq, Repr

/-- A dotted name. -/
structure Path where
  range : Range
  segments : List Identifier
deriving DecidableEq, Repr

inductive PrimitiveKind where
  | string
  | multiLineString
  | number
  | boolean
  | null
  | enum
  | path
deriving DecidableEq, Repr

/-- A literal; the text is that of the source, with its quotes or `#`. -/
structure Primitive where
  range : Range
  kind : PrimitiveKind
  text : String
deriving DecidableEq, Repr

mutual

inductive Value where
  | record (record : Record)
  | collection (collection : Collection)
  | primitive (primitive : Primitive)

structure Record where
  range : Range
  entries : List Entry

inductive Entry where
  | property (property : Property)
  | embedded (a : Annotation)

structure Property where
  range : Range
  name : Path
  colon : Option Range
  value : Option Value

structure Collection where
  range : Range
  items : List Value

structure Annotation where
  range : Range
  atSign : Option Range
  term : Path
  qualifier : Option Identifier
  colon : Option Range
  value : Option Value
  embedded : Bool

end

structure GroupItems where
  range : Range
  items : List Annotation

/-- Annotations of one vocabulary, written under its alias. -/
structure Group where
  range : Range
  atSign : Option Range
  name : Identifier
  colon : Range
  items : GroupItems

inductive Assignment where
  | single (a : Annotation)
  | group (group : Group)

inductive TargetKind where
  | entity
  | element
  | boundAction
  | parameter
deriving DecidableEq, Repr

/-- An annotated name. A member is named after its entity and a slash; `compound` is the range of
the list in parentheses, from its `@` on. -/
structure Target where
  kind : TargetKind
  name : String
  nameRange : Range
  range : Range
  compound : Option Range
  assignments : List Assignment

structure Declaration where
  range : Range
  name : Option Path
  nickname : Option Identifier
  source : Option Primitive

structure File where
  uri : String
  range : Range
  declarations : List Declaration
  targets : List Target

namespace Path

def text (p : Path) : String :=
  match p.segments with
  | [] => ""
  | first :: rest => rest.foldl (fun s segment => s ++ "." ++ segment.text) first.text

end Path

namespace Value

def range : Value → Range
  | record r => r.range
  | collection c => c.range
  | primitive p => p.range

end Value

namespace Entry

def range : Entry → Range
  | property p => p.range
  | embedded a => a.range

end Entry

namespace Record

def property? (r : Record) (name : String) : Option (Nat × Property) :=
  r.entries.zipIdx.findSome? fun (entry, i) =>
    match entry with
    | .property p => if p.name.text == name then some (i, p) else none
    | .embedded _ => none

def valueEntry? (r : Record) : Option (Nat × Property) := r.property? "$value"

def typeEntry? (r : Record) : Option (Nat × Property) := r.property? "$Type"

end Record

namespace Annotation

def headEnd (a : Annotation) : Position :=
  match a.qualifier with
  | some q => q.range.stop
  | none => a.term.range.stop

def qualifierText? (a : Annotation) : Option String :=
  a.qualifier.map fun q => String.ofList (q.text.toList.dropWhile (· == '#'))

end Annotation

namespace Assignment

def range : Assignment → Range
  | single a => a.range
  | group g => g.range

def atSign : Assignment → Option Range
  | single a => a.atSign
  | group g => g.atSign

def fullRange (a : Assignment) : Range :=
  match a.atSign with
  | some r => r.union a.range
  | none => a.range

def head : Assignment → String
  | single a => a.term.text
  | group g => g.name.text

end Assignment

namespace Target

/-- The assignment is written inside the list in parentheses. -/
def inCompound (t : Target) (a : Assignment) : Bool :=
  match t.compound with
  | some r => r.contains a.range
  | none => false

def bareAssignments (t : Target) : List Assignment := t.assignments.filter fun a => !t.inCompound a

end Target

end AnnotationEdit.Syntax

import AnnotationEdit.Tree.File

/-!
# Edit operations

An operation says what to do at a pointer. Submitted operations address the annotation tree; the
writer turns them into operations that address the concrete tree. An operation is destructive when
it removes or overwrites what stands at its pointer.
-/

namespace AnnotationEdit

/-- What is added to a list of the tree. -/
inductive Insertable where
  | annotation
  | embeddedAnnotation
  | record
  | collection
  | recordProperty
  | primitiveValue
deriving DecidableEq, Repr

/-- What is taken out of the tree. -/
inductive Deletable where
  | target
  | annotation
  | annotationGroup
  | annotationGroupItems
  | embeddedAnnotation
  | record
  | collection
  | primitiveValue
  | recordProperty
  | qualifier
deriving DecidableEq, Repr

inductive Action where
  | insertTarget (index : Option Nat) (target : Tree.Target)
  | insert (what : Insertable) (index : Option Nat) (element : Tree.Element)
  | insertQualifier (value : String)
  | insertReference (reference : Tree.Reference)
  | delete (what : Deletable)
  | replaceNode (element : Tree.Element)
  | replaceRecordProperty (element : Tree.Element)
  | replaceTextValue (text : String)
  | updatePrimitiveValue (element : Tree.Element)
  | setFlags (value : String)
  | moveCollectionValue (index : Option Nat) (sources : List Pointer)
  /-- Marks a target whose only annotation is put into parentheses; unnecessary when that
  annotation is deleted in the same batch. -/
  | convertToCompound (unnecessary : Bool)

structure Operation where
  pointer : Pointer
  action : Action

namespace Insertable

def name : Insertable → String
  | annotation => "annotation"
  | embeddedAnnotation => "embedded-annotation"
  | record => "record"
  | collection => "collection"
  | recordProperty => "record-property"
  | primitiveValue => "primitive-value"

end Insertable

namespace Deletable

def name : Deletable → String
  | target => "target"
  | annotation => "annotation"
  | annotationGroup => "annotation-group"
  | annotationGroupItems => "annotation-group-items"
  | embeddedAnnotation => "embedded-annotation"
  | record => "record"
  | collection => "collection"
  | primitiveValue => "primitive-value"
  | recordProperty => "record-property"
  | qualifier => "qualifier"

end Deletable

namespace Action

def kindName : Action → String
  | insertTarget .. => "insert-target"
  | insert what .. => "insert-" ++ what.name
  | insertQualifier _ => "insert-qualifier"
  | insertReference _ => "insert-reference"
  | delete what => "delete-" ++ what.name
  | replaceNode _ => "replace-node"
  | replaceRecordProperty _ => "replace-record-property"
  | replaceTextValue _ => "replace-text-value"
  | updatePrimitiveValue _ => "update-primitive-value"
  | setFlags _ => "set-flags"
  | moveCollectionValue .. => "move-collection-value"
  | convertToCompound _ => "convert-to-compound-annotation"

/-- The place in a list at which something is added. -/
def index? : Action → Option Nat
  | insertTarget index _ => index
  | insert _ index _ => index
  | moveCollectionValue index _ => index
  | _ => none

def withIndex (index : Option Nat) : Action → Action
  | insertTarget _ target => insertTarget index target
  | insert what _ element => insert what index element
  | moveCollectionValue _ sources => moveCollectionValue index sources
  | action => action

def element? : Action → Option Tree.Element
  | insert _ _ element => some element
  | replaceNode element => some element
  | replaceRecordProperty element => some element
  | updatePrimitiveValue element => some element
  | _ => none

end Action

namespace Operation

def kindName (o : Operation) : String := o.action.kindName

def index? (o : Operation) : Option Nat := o.action.index?

def element? (o : Operation) : Option Tree.Element := o.action.element?

def withPointer (o : Operation) (p : Pointer) : Operation := { o with pointer := p }

def withIndex (o : Operation) (index : Option Nat) : Operation :=
  { o with action := o.action.withIndex index }

def isInsert (o : Operation) : Bool :=
  match o.action with
  | .insertTarget .. | .insert .. | .insertQualifier _ | .insertReference _ => true
  | _ => false

def isListInsert (o : Operation) : Bool :=
  match o.action with
  | .insertTarget .. | .insert .. => true
  | _ => false

def isDeletion (o : Operation) : Bool :=
  match o.action with
  | .delete _ => true
  | _ => false

/-- Removes or overwrites what stands at the pointer. -/
def isDestructive (o : Operation) : Bool :=
  match o.action with
  | .delete _ | .replaceNode _ | .replaceRecordProperty _ | .replaceTextValue _
  | .updatePrimitiveValue _ | .setFlags _ => true
  | _ => false

/-- Removes or overwrites the whole node at the pointer; a qualifier is not one. -/
def removesSubtree (o : Operation) : Bool :=
  match o.action with
  | .delete .qualifier => false
  | _ => o.isDestructive

/-- The pointers the operation reads from besides its own. -/
def sources (o : Operation) : List Pointer :=
  match o.action with
  | .moveCollectionValue _ sources => sources
  | _ => []

end Operation

/-- What becomes of one operation of a batch. -/
inductive Command where
  | pick
  | drop
  | replace (operations : List Operation)

namespace Command

def run (o : Operation) : Command → List Operation
  | pick => [o]
  | drop => []
  | replace operations => operations

/-- Carries out one command per operation; what has no partner is left out. -/
def runAll (operations : List Operation) (commands : List Command) : List Operation :=
  (operations.zip commands).flatMap fun (o, c) => c.run o

end Command

end AnnotationEdit

import AnnotationEdit.Document
import AnnotationEdit.Locate
import AnnotationEdit.Operation

/-!
# From submitted operations to concrete ones

A submitted operation addresses the annotation tree. Here its pointers are replaced by pointers into
the concrete tree and the node found there is checked against the operation. The place of an
insertion follows the ranges of the children, the deletion of a level that is folded into a dotted
name becomes the deletion of what carries the name, and an annotation for an annotation with a
record goes into that record.
-/

namespace AnnotationEdit.Conversion

open Syntax (Node)
open AnnotationEdit.Tree (Element ElementKind)

/-- The document an operation is for and the names known there. -/
structure Context where
  document : Document
  vocabulary : Vocabulary

def refuse {α : Type} (kind reason : String) : Except Error α := .error (.unsupported kind reason)

def expectKind (kind : String) (e : Element) (accept : ElementKind → Bool) : Except Error Unit :=
  if accept e.kind then .ok () else refuse kind ("unexpected " ++ e.kind.name ++ " payload")

namespace Context

/-- The concrete place of a node and what stands there. -/
def resolve (c : Context) (p : Pointer) : Except Error (Located × Node) := do
  let located ← locate p c.document.tree c.document.syntaxTree c.vocabulary
  match c.document.syntaxTree.resolve? located.pointer with
  | some node => return (located, node)
  | none => throw (.unresolved p.display "translated pointer does not resolve")

/-- The same for a node that is edited in place, which must have a concrete node of its own. -/
def resolveEditable (c : Context) (kind : String) (p : Pointer) :
    Except Error (Located × Node) := do
  let (located, node) ← c.resolve p
  if located.collapsed then
    refuse kind ("node is folded into the flattened " ++ node.kindName)
  else return (located, node)

def childRanges (c : Context) (p : Pointer) : List (Option Range) :=
  match c.document.tree.resolve? p with
  | some (.file f) => f.targets.map (·.range)
  | some (.target t) => t.terms.map (·.range)
  | some (.element e) => e.content.map (·.range)
  | _ => []

def place? (c : Context) (p : Pointer) (index : Option Nat) (node : Node) : Option Nat :=
  insertIndex? index (c.childRanges p) node.memberRanges

def groupFor? (c : Context) (t : Syntax.Target) (e : Element) : Option Nat := do
  let term ← e.term?
  let (vocabulary, _) ← Text.splitOnce? '.' (c.vocabulary.shorten term)
  t.assignments.findIdx? fun a =>
    match a with
    | .group g => g.name.text == vocabulary
    | .single _ => false

/-! ## Insertions -/

def insertAnnotation (c : Context) (kind : String) (p : Pointer) (index : Option Nat)
    (e : Element) : Except Error Operation := do
  expectKind kind e (· == ElementKind.annotation)
  let (located, node) ← c.resolve p
  match node with
  | .target t =>
    match c.groupFor? t e with
    | some group =>
      return ⟨located.pointer.append ["assignments", toString group, "items"],
        .insert Insertable.annotation none e⟩
    | none => return ⟨located.pointer, .insert Insertable.annotation (c.place? p index node) e⟩
  | node => refuse kind ("cannot insert into a " ++ node.kindName)

def insertEmbedded (c : Context) (kind : String) (p : Pointer) (index : Option Nat) (e : Element) :
    Except Error Operation := do
  expectKind kind e (· == ElementKind.annotation)
  let (located, node) ← c.resolve p
  match node with
  | .record _ =>
    return ⟨located.pointer, .insert Insertable.embeddedAnnotation (c.place? p index node) e⟩
  | Node.annotation ⟨_, _, _, _, _, some (.record _), _⟩ =>
    return ⟨located.pointer.child "value", .insert Insertable.embeddedAnnotation none e⟩
  | Node.annotation _ => return ⟨located.pointer, .insert Insertable.embeddedAnnotation none e⟩
  | node => refuse kind ("a " ++ node.kindName ++ " cannot carry annotations")

def insertProperty (c : Context) (kind : String) (p : Pointer) (index : Option Nat) (e : Element) :
    Except Error Operation := do
  expectKind kind e (· == .propertyValue)
  let (located, node) ← c.resolve p
  match node with
  | .record _ => return ⟨located.pointer, .insert .recordProperty (c.place? p index node) e⟩
  | node => refuse kind ("cannot add a property to a " ++ node.kindName)

def isValueFor : Insertable → ElementKind → Bool
  | .record, kind => kind == .record
  | .collection, kind => kind == .collection
  | _, kind => kind.isPrimitive

def insertValue (c : Context) (kind : String) (what : Insertable) (p : Pointer)
    (index : Option Nat) (e : Element) : Except Error Operation := do
  expectKind kind e (isValueFor what)
  let (located, node) ← c.resolveEditable kind p
  match node with
  | .collection _ => return ⟨located.pointer, .insert what (c.place? p index node) e⟩
  | Node.annotation _ | .property _ =>
    if node.isValueless then return ⟨located.pointer, .insert what none e⟩
    else refuse kind ("the " ++ node.kindName ++ " already has a value")
  | node => refuse kind ("cannot insert a value into a " ++ node.kindName)

def insertQualifier (c : Context) (kind : String) (p : Pointer) (value : String) :
    Except Error Operation := do
  let (located, node) ← c.resolve p
  match node with
  | Node.annotation a =>
    if a.qualifier.isNone then return ⟨located.pointer, .insertQualifier value⟩
    else refuse kind "annotation is already qualified"
  | node => refuse kind ("a " ++ node.kindName ++ " has no qualifier")

/-! ## Deletions -/

def annotationKind (a : Syntax.Annotation) : Deletable :=
  if a.embedded then Deletable.embeddedAnnotation else Deletable.annotation

def deleteTarget (c : Context) (kind : String) (p : Pointer) : Except Error Operation := do
  let (located, node) ← c.resolve p
  match node with
  | .target _ => return ⟨located.pointer, .delete .target⟩
  | node => refuse kind ("expected a target, found a " ++ node.kindName)

def deleteAnnotation (c : Context) (kind : String) (p : Pointer) : Except Error Operation := do
  let (located, node) ← c.resolve p
  match node with
  | Node.annotation a => return ⟨located.pointer, .delete (annotationKind a)⟩
  | .group _ => return ⟨located.pointer, .delete .annotationGroup⟩
  | node => refuse kind ("expected an annotation, found a " ++ node.kindName)

def deleteEmbedded (c : Context) (kind : String) (p : Pointer) : Except Error Operation := do
  let (located, node) ← c.resolve p
  let refusal : Except Error Operation :=
    refuse kind ("expected an embedded annotation, found a " ++ node.kindName)
  match node with
  | Node.annotation a =>
    if a.embedded then return ⟨located.pointer, .delete Deletable.embeddedAnnotation⟩ else refusal
  | _ => refusal

def isDeleted : Deletable → Node → Bool
  | .record, .record _ => true
  | .collection, .collection _ => true
  | .primitiveValue, .primitive _ => true
  | .recordProperty, .property _ => true
  | _, _ => false

/-- Deletes a value or property; a folded level goes with what carries its name. -/
def deleteValue (c : Context) (kind : String) (what : Deletable) (p : Pointer) :
    Except Error Operation := do
  let (located, node) ← c.resolve p
  if located.collapsed then
    match node with
    | Node.annotation a => return ⟨located.pointer, .delete (annotationKind a)⟩
    | .property _ => return ⟨located.pointer, .delete .recordProperty⟩
    | node => refuse kind ("flattened path ends at a " ++ node.kindName)
  else if isDeleted what node then return ⟨located.pointer, .delete what⟩
  else refuse kind ("pointer addresses a " ++ node.kindName)

def deleteQualifier (c : Context) (kind : String) (p : Pointer) : Except Error Operation := do
  let (located, node) ← c.resolve p
  let refusal : Except Error Operation :=
    refuse kind ("the " ++ node.kindName ++ " has no qualifier")
  match node with
  | .qualifier _ => return ⟨located.pointer, .delete .qualifier⟩
  | Node.annotation a =>
    if a.qualifier.isSome then return ⟨located.pointer.child "qualifier", .delete .qualifier⟩
    else refusal
  | _ => refusal

/-! ## Replacements -/

def canReplace (e : Element) (node : Node) : Bool :=
  match node with
  | Node.annotation _ | .group _ => e.kind == ElementKind.annotation
  | node => node.isValue && e.kind != ElementKind.annotation

def replaceNode (c : Context) (kind : String) (p : Pointer) (e : Element) :
    Except Error Operation := do
  let (located, node) ← c.resolveEditable kind p
  if canReplace e node then return ⟨located.pointer, .replaceNode e⟩
  else refuse kind ("cannot replace a " ++ node.kindName ++ " with " ++ e.kind.name)

def replaceProperty (c : Context) (kind : String) (p : Pointer) (e : Element) :
    Except Error Operation := do
  expectKind kind e (· == .propertyValue)
  let (located, node) ← c.resolveEditable kind p
  match node with
  | .property _ => return ⟨located.pointer, .replaceRecordProperty e⟩
  | node => refuse kind ("expected a record property, found a " ++ node.kindName)

def replaceText (c : Context) (kind : String) (p : Pointer) (text : String) :
    Except Error Operation := do
  let (located, node) ← c.resolveEditable kind p
  match node with
  | .primitive _ => return ⟨located.pointer, .replaceTextValue text⟩
  | node => refuse kind ("a " ++ node.kindName ++ " has no text value")

def updatePrimitive (c : Context) (kind : String) (p : Pointer) (e : Element) :
    Except Error Operation := do
  expectKind kind e ElementKind.isPrimitive
  let (located, node) ← c.resolveEditable kind p
  let fits := match node with
    | .primitive _ => true
    | node => node.isValueless
  if fits then return ⟨located.pointer, .updatePrimitiveValue e⟩
  else refuse kind ("a " ++ node.kindName ++ " is not a primitive value")

def setFlags (c : Context) (kind : String) (p : Pointer) (value : String) :
    Except Error Operation := do
  let (located, node) ← c.resolveEditable kind p
  let fits := match node with
    | .collection _ | .primitive _ => true
    | node => node.isValueless
  if fits then return ⟨located.pointer, .setFlags value⟩
  else refuse kind ("a " ++ node.kindName ++ " cannot hold flags")

/-! ## Moves -/

def moveSource (c : Context) (kind : String) (source : Pointer) : Except Error Pointer := do
  let (located, _) ← c.resolveEditable kind source
  let isItem := located.pointer.lastIndex?.isSome &&
    (match (located.pointer.ancestor? 2).bind c.document.syntaxTree.resolve? with
    | some (.collection _) => true
    | _ => false)
  if isItem then return located.pointer
  else refuse kind ("'" ++ source.display ++ "' is not a collection item")

def move (c : Context) (kind : String) (p : Pointer) (index : Option Nat) (sources : List Pointer) :
    Except Error Operation := do
  let (located, node) ← c.resolveEditable kind p
  match node with
  | .collection _ =>
    let sources ← sources.mapM (c.moveSource kind)
    return ⟨located.pointer, .moveCollectionValue (c.place? p index node) sources⟩
  | node => refuse kind ("cannot move values into a " ++ node.kindName)

end Context

/-- The operation on the concrete tree that a submitted operation stands for. -/
def convert (c : Context) (o : Operation) : Except Error Operation :=
  let kind := o.kindName
  let p := o.pointer
  match o.action with
  | .insertTarget index target =>
    if p.isRoot then
      let members := c.document.syntaxTree.targets.map (·.range)
      .ok ⟨p, .insertTarget (insertIndex? index (c.childRanges p) members) target⟩
    else refuse kind "targets are inserted at the file root"
  | .insertReference _ =>
    if p.isRoot then .ok o else refuse kind "references are inserted at the file root"
  | .insert Insertable.annotation index e => c.insertAnnotation kind p index e
  | .insert Insertable.embeddedAnnotation index e => c.insertEmbedded kind p index e
  | .insert .recordProperty index e => c.insertProperty kind p index e
  | .insert what index e => c.insertValue kind what p index e
  | .insertQualifier value => c.insertQualifier kind p value
  | .delete .target => c.deleteTarget kind p
  | .delete Deletable.annotation => c.deleteAnnotation kind p
  | .delete Deletable.embeddedAnnotation => c.deleteEmbedded kind p
  | .delete .qualifier => c.deleteQualifier kind p
  | .delete .annotationGroup | .delete .annotationGroupItems | .convertToCompound _ =>
    refuse kind "operation is derived during optimization only"
  | .delete what => c.deleteValue kind what p
  | .replaceNode e => c.replaceNode kind p e
  | .replaceRecordProperty e => c.replaceProperty kind p e
  | .replaceTextValue text => c.replaceText kind p text
  | .updatePrimitiveValue e => c.updatePrimitive kind p e
  | .setFlags value => c.setFlags kind p value
  | .moveCollectionValue index sources => c.move kind p index sources

end AnnotationEdit.Conversion

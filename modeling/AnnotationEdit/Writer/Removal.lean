import AnnotationEdit.Writer.Draft

/-!
# Writing deletions

Nodes of lists are only noted while the operations are gone through: neighbours that are deleted
together share their separators and may take the text around them along, so their ranges are worked
out at the end. The value after a name, a qualifier and the items of a group go at once.
-/

namespace AnnotationEdit.Scene

open Syntax (Node)

def targetPattern (t : Syntax.Target) : PrintPattern :=
  if t.compound.isNone then .bareAnnotations else .commaList

def deleteTarget (s : Scene) (d : Draft) (p : Pointer) : Except Error Draft := do
  match ← s.node p with
  | .target t =>
    let requests := t.assignments.zipIdx.map fun (a, i) =>
      DeletionRequest.mk a.range (some a.head) (targetPattern t) i true
    return { d with
      deletedTargets := t.name :: d.deletedTargets
      deletions := d.deletions ++ requests }
  | _ => throw (.internal ("'" ++ p.display ++ "' is not a target"))

def listChild (node : Node) : Except Error (Range × String) :=
  match node with
  | Node.annotation a => .ok (a.range, a.term.text)
  | .group g => .ok (g.range, g.name.text)
  | .property p => .ok (p.range, p.name.text)
  | node => .error (.internal ("cannot delete a " ++ node.kindName ++ " as a list child"))

/-- Deletes an annotation, a group or an entry of a record. -/
def deleteListChild (s : Scene) (d : Draft) (p : Pointer) : Except Error Draft := do
  let node ← s.node p
  match p.lastIndex?, p.ancestor? 2 with
  | some sibling, some container =>
    let pattern := match ← s.node container with
      | .target t => targetPattern t
      | _ => .commaList
    let (range, term) ← listChild node
    return d.request ⟨range, some term, pattern, sibling, false⟩
  | _, _ => throw (.internal ("'" ++ p.display ++ "' is not a list child"))

/-- Deletes an item of a collection, or the value after a name. -/
def deleteValue (s : Scene) (d : Draft) (p : Pointer) : Except Error Draft := do
  let range := (← s.node p).range
  if p.last? == some "value" then
    match p.parent? with
    | none => throw (.internal "value without owner")
    | some owner =>
      match ← s.node owner with
      | Node.annotation a => return d.delete ⟨a.headEnd, range.stop⟩
      | .property q => return d.delete ⟨q.name.range.stop, range.stop⟩
      | node => throw (.internal (node.kindName ++ " does not hold a value"))
  else
    match p.lastIndex? with
    | some sibling => return d.request ⟨range, none, .commaList, sibling, false⟩
    | none => throw (.internal ("'" ++ p.display ++ "' is not a value"))

def deleteQualifier (s : Scene) (d : Draft) (p : Pointer) : Except Error Draft := do
  match ← s.node p with
  | .qualifier q => return d.delete q.range
  | _ => throw (.internal ("'" ++ p.display ++ "' is not a qualifier"))

def deleteGroupItems (s : Scene) (d : Draft) (p : Pointer) : Except Error Draft := do
  match ← s.node p with
  | .groupItems items =>
    let start := items.range.start
    let stop := items.range.stop
    let inner : Range := ⟨⟨start.line, start.character + 1⟩, ⟨stop.line, stop.character - 1⟩⟩
    return if inner.isEmpty then d else d.delete inner
  | _ => throw (.internal ("'" ++ p.display ++ "' is not an annotation group"))

def deleteElement (s : Scene) (d : Draft) (p : Pointer) (what : Deletable) : Except Error Draft :=
  match what with
  | .target => s.deleteTarget d p
  | Deletable.annotation | .annotationGroup | Deletable.embeddedAnnotation | .recordProperty =>
    s.deleteListChild d p
  | .annotationGroupItems => s.deleteGroupItems d p
  | .record | .collection | .primitiveValue => s.deleteValue d p
  | .qualifier => s.deleteQualifier d p

/-- What the growth of the noted deletions depends on. -/
def deletionContext (s : Scene) (d : Draft) : DeletionContext :=
  ⟨s.tokens, s.document.lines, s.document.targets, d.deletedTargets⟩

def deletionRange? (s : Scene) (r : DeletionRequest) : Option DeletionRange :=
  (DeletionRange.ofNode? s.tokens r.range r.term s.printer.vocabulary r.pattern r.sibling).map
    fun range => { range with includeTarget := r.includeTarget }

def writeDeletions (s : Scene) (d : Draft) : Draft :=
  let context := s.deletionContext d
  let ranges := DeletionRange.settle context (d.deletions.filterMap s.deletionRange?)
  (DeletionRange.allEdits context ranges).foldl (fun d e => d.push e .normal) d

end AnnotationEdit.Scene

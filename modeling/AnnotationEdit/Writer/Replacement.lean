import AnnotationEdit.Writer.Insertion

/-!
# Writing replacements

A node that is replaced keeps its place: the new text takes exactly its range, so the `@` in front
of an annotation stays, and an annotation inside a group is written without the name of the group. A
string keeps the quotes of the one it replaces.
-/

namespace AnnotationEdit.Scene

open AnnotationEdit.Tree (Element)

/-- The segments of the innermost group around a node: those before the last pair of neighbours
`items`, `items`. -/
def groupSegments? : List String → Option (List String)
  | [] => none
  | segment :: rest =>
    match groupSegments? rest with
    | some front => some (segment :: front)
    | none => if segment == "items" && rest.head? == some "items" then some [] else none

def enclosingGroup? (s : Scene) (p : Pointer) : Option String := do
  let segments ← groupSegments? p.segments
  match ← s.document.syntaxTree.resolve? ⟨segments⟩ with
  | .group g => some g.name.text
  | _ => none

/-- The level of an annotation or group of a target, one deeper when parentheses are put around
it. -/
def assignmentLevel (s : Scene) (p : Pointer) (range : Range) : Nat :=
  let level := s.level range.start.line
  let isConverted :=
    (p.indexAfter? "assignments").isSome && (p.ancestor? (p.depth - 2)).any s.isConverting
  if isConverted then level + 1 else level

def assignmentText (s : Scene) (p : Pointer) (range : Range) (e : Element) : String :=
  let text := s.printer.annotation .compound e (s.assignmentLevel p range)
  match s.enclosingGroup? p with
  | some group => withoutGroup group text
  | none => text

def replaceNode (s : Scene) (d : Draft) (p : Pointer) (e : Element) : Except Error Draft := do
  let node ← s.node p
  let range := node.range
  match node with
  | Syntax.Node.annotation a =>
    if a.embedded then
      return d.replace range (s.printer.annotation .embedded e (s.level range.start.line))
    else return d.replace range (s.assignmentText p range e)
  | .group _ => return d.replace range (s.assignmentText p range e)
  | .record _ | .collection _ | .primitive _ =>
    return d.replace range (s.printer.value e (s.level range.start.line))
  | node => throw (.internal ("cannot replace a " ++ node.kindName))

def replaceProperty (s : Scene) (d : Draft) (p : Pointer) (e : Element) : Except Error Draft := do
  match ← s.node p with
  | .property q => return d.replace q.range (s.printer.property e (s.level q.range.start.line))
  | _ => throw (.internal ("'" ++ p.display ++ "' is not a record property"))

def requote (existing : Syntax.Primitive) (text : String) : String :=
  if existing.kind == .multiLineString && existing.text.toList.head? == some '\x60' then
    "\x60" ++ text ++ "\x60"
  else Printer.quote text

def replaceText (s : Scene) (d : Draft) (p : Pointer) (text : String) : Except Error Draft := do
  match ← s.node p with
  | .primitive q => return d.replace q.range (requote q text)
  | _ => throw (.internal ("'" ++ p.display ++ "' is not a primitive value"))

def primitiveText (s : Scene) (existing : Syntax.Primitive) (e : Element) : String :=
  let text := e.textOrEmpty
  match e.kind with
  | .string => requote existing text
  | .enumMember =>
    if (Text.wordsOf text).length == 1 then Printer.enumMember text
    else s.printer.value e (s.level existing.range.start.line)
  | _ => s.printer.value e (s.level existing.range.start.line)

def updatePrimitive (s : Scene) (d : Draft) (p : Pointer) (e : Element) : Except Error Draft := do
  match ← s.node p with
  | .primitive q => return d.replace q.range (s.primitiveText q e)
  | node => s.fillSlot d node (s.printer.value e)

/-- Writes a set of members of an enumeration. A single member in its place may be meant to stay
single, so it is left alone. -/
def setFlags (s : Scene) (d : Draft) (p : Pointer) (value : String) : Except Error Draft := do
  match ← s.node p with
  | .collection c => return d.replace c.range (Printer.flags value)
  | .primitive q =>
    throw (.ambiguous "set-flags"
      ("'" ++ q.text ++ "' at " ++ q.range.display ++ " is a single value, not a flag collection"))
  | node => s.fillSlot d node fun _ => Printer.flags value

end AnnotationEdit.Scene

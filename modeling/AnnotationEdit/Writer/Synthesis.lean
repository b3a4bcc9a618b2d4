import AnnotationEdit.Batch.Reduce
import AnnotationEdit.Writer.Compound
import AnnotationEdit.Writer.Insertion
import AnnotationEdit.Writer.Move
import AnnotationEdit.Writer.Removal
import AnnotationEdit.Writer.Replacement

/-!
# From operations to edits

The operations of a batch are written into a draft one after the other; an operation that is
ambiguous is skipped. What the draft has noted is then written too, insertions inside deleted text
move to its start, and the edits are sorted. Edits that overlap are an error: they could not be
applied.
-/

namespace AnnotationEdit

/-- An edit with its rank among the edits of one range. -/
abbrev RankedEdit := TextEdit × EditPriority

namespace RankedEdit

/-- By range, then by priority; sorting keeps the order of the rest. -/
def comesFirst (a b : RankedEdit) : Bool :=
  ((a.1.range.compare b.1.range).then (compare a.2.rank b.2.rank)) != .gt

def dropRepeatedFrom (previous : TextEdit) : List TextEdit → List TextEdit
  | [] => []
  | e :: rest =>
    if e.isDeletion && e = previous then dropRepeatedFrom previous rest
    else e :: dropRepeatedFrom e rest

def dropRepeated : List TextEdit → List TextEdit
  | [] => []
  | e :: rest => e :: dropRepeatedFrom e rest

/-- An insertion strictly inside deleted text, moved to its start. Blanks that are deleted in front
of it are written again, so that it keeps its indentation. -/
def relocate (lines : Lines) (deleted : List Range) (e : TextEdit) : TextEdit :=
  let position := e.range.start
  if !e.isInsertion then e
  else match deleted.find? fun r => r.start < position && position < r.stop with
    | none => e
    | some r =>
      let skipped := lines.slice ⟨r.start, position⟩
      TextEdit.insert r.start
        (if Text.allBlank skipped then String.ofList skipped ++ e.newText else e.newText)

/-- The first edit that starts before the ones in front of it have ended at `stop`. -/
def overlap? (stop : Position) : List TextEdit → Option TextEdit
  | [] => none
  | e :: rest => if e.range.start < stop then some e else overlap? (stop.max e.range.stop) rest

/-- The edits in the order in which they are applied. -/
def arrange (lines : Lines) (edits : List RankedEdit) : List TextEdit :=
  let deleted := (edits.filter (·.1.isDeletion)).map (·.1.range)
  let moved := edits.map fun (e, priority) => (relocate lines deleted e, priority)
  dropRepeated ((moved.mergeSort comesFirst).map (·.1))

end RankedEdit

namespace Scene

def write (s : Scene) (d : Draft) (o : Operation) : Except Error Draft :=
  let p := o.pointer
  match o.action with
  | .insertTarget index target => .ok (s.insertTarget d index target)
  | .insertReference reference => .ok (s.insertReference d reference)
  | .insert what index e => s.insertElement d p what index e
  | .insertQualifier value => s.insertQualifier d p value
  | .delete what => s.deleteElement d p what
  | .replaceNode e => s.replaceNode d p e
  | .replaceRecordProperty e => s.replaceProperty d p e
  | .replaceTextValue text => s.replaceText d p text
  | .updatePrimitiveValue e => s.updatePrimitive d p e
  | .setFlags value => s.setFlags d p value
  | .moveCollectionValue index sources => s.moveItems d p index sources
  | .convertToCompound unnecessary => s.convertToCompound d p unnecessary

/-- Writes all operations; an ambiguous one leaves the draft as it was. -/
def writeAll (s : Scene) (d : Draft) : List Operation → Except Error Draft
  | [] => .ok d
  | o :: rest => do
    let written ← recoverable (s.write d o)
    s.writeAll (written.getD d) rest

def complete (s : Scene) (d : Draft) : Draft :=
  s.writeShifts (s.writeDeletions (s.writePromotions (s.writeEmptyLists d)))

def finish (s : Scene) (d : Draft) : Except Error (List TextEdit) :=
  let edits := RankedEdit.arrange s.document.lines (s.complete d).edits
  match RankedEdit.overlap? Position.origin edits with
  | some e => .error (.internal ("edits overlap at " ++ e.range.display))
  | none => .ok edits

end Scene

def synthesize (document : Document) (config : Configuration) (operations : List Operation) :
    Except Error (List TextEdit) := do
  let reduced := Batch.reduce document.syntaxTree operations
  let scene := Scene.ofOperations document config reduced
  let draft ← scene.writeAll Draft.empty reduced
  scene.finish draft

end AnnotationEdit

import AnnotationEdit.Error
import AnnotationEdit.Text.Lines

/-!
# Text edits

A text edit replaces a range of the source by a new text. A list of edits is applied in one pass:
sorted by range, edits of one range in their order in the list, each may start only where the ones
before it have ended.
-/

namespace AnnotationEdit

structure TextEdit where
  range : Range
  newText : String
deriving DecidableEq, Repr

namespace TextEdit

def insert (p : Position) (text : String) : TextEdit := ⟨Range.empty p, text⟩

def delete (r : Range) : TextEdit := ⟨r, ""⟩

/-- Adds text and takes none away. -/
def isInsertion (e : TextEdit) : Bool := e.range.isEmpty && !e.newText.isEmpty

/-- Takes text away and adds none. -/
def isDeletion (e : TextEdit) : Bool := !e.range.isEmpty && e.newText.isEmpty

/-- The order in which edits are applied. Sorting by it keeps the order of edits of one range. -/
def comesFirst (a b : TextEdit) : Bool := a.range.compare b.range != .gt

/-- Copies the text from `cursor` on, putting each edit in its place. -/
def splice (lines : Lines) (cursor : Nat) : List TextEdit → Except Error (List Char)
  | [] => .ok (lines.chars.drop cursor)
  | e :: es =>
    let first := lines.index e.range.start
    let last := lines.index e.range.stop
    if first < cursor then
      .error (.invalidEdit ("edit at " ++ e.range.display ++ " overlaps a previous edit"))
    else
      match splice lines (Nat.max last first) es with
      | .ok rest => .ok (lines.between cursor first ++ (e.newText.toList ++ rest))
      | .error err => .error err

/-- The text after all edits. -/
def applyAll (text : String) (edits : List TextEdit) : Except Error String :=
  (splice (Lines.ofString text) 0 (edits.mergeSort comesFirst)).map String.ofList

end TextEdit

end AnnotationEdit

import AnnotationEdit.Data.Basic
import AnnotationEdit.Pointer
import AnnotationEdit.Text.Edit

/-!
# Positions, edits and pointers as data

The exchange format: how values of the library are written as data and read back. Lines and
characters have 32 bits, a pointer is its text.
-/

namespace AnnotationEdit

namespace Position

def ofData? (d : Data) : Option Position := do
  match ← d.fields? ["line", "character"] 2 with
  | [line, character] => return ⟨← (← line).small?, ← (← character).small?⟩
  | _ => none

def toData (p : Position) : Data :=
  .table [("line", .number p.line), ("character", .number p.character)]

end Position

namespace Range

def ofData? (d : Data) : Option Range := do
  match ← d.fields? ["start", "end"] 2 with
  | [start, stop] => return ⟨← Position.ofData? (← start), ← Position.ofData? (← stop)⟩
  | _ => none

def toData (r : Range) : Data := .table [("start", r.start.toData), ("end", r.stop.toData)]

end Range

namespace TextEdit

def ofData? (d : Data) : Option TextEdit := do
  match ← d.fields? ["range", "newText"] 2 with
  | [range, text] => return ⟨← Range.ofData? (← range), ← (← text).text?⟩
  | _ => none

def toData (e : TextEdit) : Data :=
  .table [("range", e.range.toData), ("newText", .text e.newText)]

end TextEdit

namespace Pointer

def ofData? (d : Data) : Option Pointer := do
  match parse (← d.text?) with
  | .ok p => some p
  | .error _ => none

def toData (p : Pointer) : Data := .text p.display

end Pointer

end AnnotationEdit

import AnnotationEdit.Writer.Draft

/-!
# Putting parentheses around an annotation

A target with one annotation after a plain `@` takes no second one. Before another is added, the
annotation is wrapped into `@( ... )` and moves one level in; its further lines are shifted at the
end, unless another edit overwrites them.
-/

namespace AnnotationEdit.Scene

/-- Writes the parentheses around the only annotation of a target. Nothing is written when nothing
is left to wrap. -/
def convertToCompound (s : Scene) (d : Draft) (p : Pointer) (unnecessary : Bool) :
    Except Error Draft := do
  if unnecessary then return d
  match ← s.node p with
  | .target t =>
    match t.assignments.head? with
    | none => throw (.internal "nothing to convert to compound syntax")
    | some first =>
      match first.atSign with
      | none => throw (.internal "bare annotation without '@'")
      | some sign =>
        let range := first.range
        let level := s.level sign.start.line
        let wrapped :=
          (d.push (.insert sign.stop ("(\n" ++ s.indent (level + 1))) .opening).push
            (.insert range.stop ("\n" ++ s.indent level ++ ")")) .closing
        if s.replaced.contains (p.append ["assignments", "0"]) then return wrapped
        else
          let count := range.stop.line - range.start.line
          let lines := (List.range count).map (range.start.line + 1 + ·)
          return { wrapped with shiftedLines := wrapped.shiftedLines ++ lines }
  | _ => throw (.internal ("'" ++ p.display ++ "' is not a target"))

/-- The edit takes away or overwrites the blanks at the start of a line. -/
def overwritesLine (e : TextEdit) (line : Nat) : Bool :=
  let position : Position := ⟨line, 0⟩
  !e.isInsertion && position < e.range.stop &&
    (e.range.start < position || (e.isDeletion && e.range.start == position))

def shiftLine (s : Scene) (d : Draft) (line : Nat) : Draft :=
  if Text.allBlank (s.document.lines.lineText line) || d.edits.any (overwritesLine ·.1 line) then d
  else d.insert ⟨line, 0⟩ s.printer.indentUnit

def writeShifts (s : Scene) (d : Draft) : Draft :=
  ((d.shiftedLines.mergeSort (· ≤ ·)).eraseReps).foldl s.shiftLine d

end AnnotationEdit.Scene

import AnnotationEdit.Writer.Conversion
import AnnotationEdit.Writer.Synthesis

/-!
# Writers

A writer collects the operations of one batch for one document. An operation is turned into one on
the concrete tree when it is added, and refused when that fails; the edits of all operations are
worked out together, against the text the document was read from.
-/

namespace AnnotationEdit

structure Writer where
  document : Document
  config : Configuration
  /-- The operations added so far, on the concrete tree. -/
  changes : List Operation

namespace Writer

def ofDocument (document : Document) (config : Configuration) : Writer := ⟨document, config, []⟩

/-- Adds an operation on the annotation tree. -/
def add (w : Writer) (o : Operation) : Except Error Writer := do
  if w.document.ghost then throw (.readOnly w.document.uri)
  let converted ← Conversion.convert ⟨w.document, w.config.aliases⟩ o
  return { w with changes := w.changes ++ [converted] }

/-- Adds operations up to the first that is refused. -/
def addAll (w : Writer) : List Operation → Except Error Writer
  | [] => .ok w
  | o :: rest => do (← w.add o).addAll rest

def reset (w : Writer) : Writer := { w with changes := [] }

/-- The edits for all operations. -/
def textEdits (w : Writer) : Except Error (List TextEdit) :=
  synthesize w.document w.config w.changes

/-- The text of the document after all operations. -/
def editedText (w : Writer) : Except Error String := do
  TextEdit.applyAll w.document.text (← w.textEdits)

end Writer

/-- The text after a batch of operations, read and written with the default configuration. -/
def applyOperations (uri text : String) (operations : List Operation) :
    Except SyntaxError (Except Error String) := do
  let document ← Document.parse uri text Configuration.default
  return do ((← (Writer.ofDocument document Configuration.default).addAll operations).editedText)

end AnnotationEdit

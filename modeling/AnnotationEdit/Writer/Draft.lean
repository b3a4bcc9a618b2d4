import AnnotationEdit.Deletion.Edits
import AnnotationEdit.Deletion.Merge
import AnnotationEdit.Document
import AnnotationEdit.Operation
import AnnotationEdit.Printer

/-!
# Drafts

A draft collects what the operations of one batch ask for. Most of it is known at once and kept as
edits; some has to wait until all operations are seen: deletions grow and merge together, a list
without members is written once, the value of an annotation is wrapped once, and lines are shifted
only if no other edit overwrites them.
-/

namespace AnnotationEdit

/-- The order of edits of one range: opening parentheses before everything else there, closing ones
after. -/
inductive EditPriority where
  | opening
  | normal
  | closing
deriving DecidableEq, Repr

def EditPriority.rank : EditPriority → Nat
  | opening => 0
  | normal => 1
  | closing => 2

structure DeletionRequest where
  range : Range
  /-- The term or name the node starts with. -/
  term : Option String
  pattern : PrintPattern
  sibling : Nat
  includeTarget : Bool

/-- A list without members and what goes between its brackets. -/
structure EmptyList where
  opening : Range
  closing : Range
  level : Nat
  fragments : List String

/-- An annotation whose value becomes the entry `$value` of a record, and the other entries. -/
structure Promotion where
  headEnd : Position
  value : Option Range
  level : Nat
  fragments : List String

structure Draft where
  edits : List (TextEdit × EditPriority)
  deletions : List DeletionRequest
  deletedTargets : List String
  emptyLists : List (Pointer × EmptyList)
  promotions : List (Pointer × Promotion)
  /-- Lines that move one level in. -/
  shiftedLines : List Nat
  /-- Lists on one line whose closing bracket was moved to a line of its own. -/
  movedBrackets : List Pointer
  /-- The ends of last members that a comma was already added to. -/
  separated : List Position

namespace Draft

def empty : Draft := ⟨[], [], [], [], [], [], [], []⟩

def push (d : Draft) (e : TextEdit) (priority : EditPriority) : Draft :=
  { d with edits := d.edits ++ [(e, priority)] }

def insert (d : Draft) (p : Position) (text : String) : Draft := d.push (.insert p text) .normal

def replace (d : Draft) (r : Range) (text : String) : Draft := d.push ⟨r, text⟩ .normal

def delete (d : Draft) (r : Range) : Draft := d.push (.delete r) .normal

def request (d : Draft) (r : DeletionRequest) : Draft := { d with deletions := d.deletions ++ [r] }

end Draft

def upsert {α : Type} (key : Pointer) (change : α → α) (fresh : α) :
    List (Pointer × α) → List (Pointer × α)
  | [] => [(key, fresh)]
  | (k, a) :: rest =>
    if k = key then (k, change a) :: rest else (k, a) :: upsert key change fresh rest

/-- What does not change while a batch is written: the document, how text is printed, and what the
batch as a whole says about parentheses and replacements. -/
structure Scene where
  document : Document
  config : Configuration
  /-- The targets that get parentheses, with whether that is unnecessary. -/
  converting : List (Pointer × Bool)
  /-- The nodes that are replaced as a whole. -/
  replaced : List Pointer

namespace Scene

def ofOperations (document : Document) (config : Configuration) (operations : List Operation) :
    Scene where
  document := document
  config := config
  converting := operations.filterMap fun o =>
    match o.action with
    | .convertToCompound unnecessary => some (o.pointer, unnecessary)
    | _ => none
  replaced := operations.filterMap fun o =>
    match o.action with
    | .replaceNode _ => some o.pointer
    | _ => none

def tokens (s : Scene) : TokenStream := s.document.tokens

def printer (s : Scene) : Printer := Printer.ofConfiguration s.config

def indent (s : Scene) (level : Nat) : String := s.printer.indent level

/-- The target gets parentheses in this batch. -/
def isConverting (s : Scene) (p : Pointer) : Bool :=
  (s.converting.reverse.find? (·.1 == p)).any (!·.2)

def node (s : Scene) (p : Pointer) : Except Error Syntax.Node :=
  match s.document.syntaxTree.resolve? p with
  | some n => .ok n
  | none => .error (.internal ("pointer '" ++ p.display ++ "' does not resolve"))

/-- The level of a line: the column of its first token over the width of a level. -/
def level (s : Scene) (line : Nat) : Nat :=
  let column := match s.tokens.firstOnLine? line with
    | some i => (s.tokens.rangeAt i).start.character
    | none => (s.document.lines.lineIndent line).length
  match s.config.style with
  | .tabs => column
  | .spaces => column / s.config.size

end Scene

/-! ## Shifting copied text -/

/-- A line moved out by `n` levels, at most by the blanks it has. -/
def outdentLine (unit : List Char) : Nat → List Char → List Char
  | 0, line => line
  | n + 1, line => outdentLine unit n ((Text.dropFront? unit line).getD (Text.trimStart line))

/-- A line moved by a number of levels; a blank line stays. -/
def shiftLine (unit : List Char) (levels : Int) (line : List Char) : List Char :=
  if Text.allBlank line then line
  else match levels with
    | .ofNat n => (List.replicate n unit).flatten ++ line
    | .negSucc n => outdentLine unit (n + 1) line

def reindent (text : List Char) (unit : String) (levels : Int) : String :=
  match Text.pieces '\n' text with
  | [] => ""
  | first :: rest =>
    Text.joined "\n" ((first :: rest.map (shiftLine unit.toList levels)).map String.ofList)

end AnnotationEdit

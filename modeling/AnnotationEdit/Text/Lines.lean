import AnnotationEdit.Text.Cut
import AnnotationEdit.Text.Position

/-!
# The lines of a text

A text seen as lines. Lines end at line feeds only, and the carriage returns at the end of a line
do not belong to its text. A position outside the text is moved to the nearest place inside: past
the end of a line to the end of its text, past the last line to the end of the whole text. So every
position has a place, counted in characters (`index`) or in bytes (`offset`).
-/

namespace AnnotationEdit

/-- A text whose places are positions. -/
structure Lines where
  chars : List Char
deriving DecidableEq

namespace Lines

def ofString (s : String) : Lines := ⟨s.toList⟩

def text (l : Lines) : String := String.ofList l.chars

/-- The lines with their carriage returns, without their line feeds. -/
def rows (l : Lines) : List (List Char) := Text.pieces '\n' l.chars

def count (l : Lines) : Nat := l.rows.length

/-- The characters without the carriage returns at the end. -/
def dropReturns (cs : List Char) : List Char := (cs.reverse.dropWhile (· == '\r')).reverse

def lineText (l : Lines) (line : Nat) : List Char :=
  match l.rows[line]? with
  | some row => dropReturns row
  | none => []

/-- The position after the last character of a line. -/
def lineEnd (l : Lines) (line : Nat) : Position := ⟨line, (l.lineText line).length⟩

/-- The position after the last character of the text. -/
def stop (l : Lines) : Position := l.lineEnd (l.count - 1)

def lineIndent (l : Lines) (line : Nat) : List Char := (l.lineText line).takeWhile Text.isBlank

/-- The number of characters before a line: each line before it and its line feed. -/
def lineStart (l : Lines) (line : Nat) : Nat := Text.total ((l.rows.take line).map (·.length + 1))

def index (l : Lines) (p : Position) : Nat :=
  if p.line < l.count then l.lineStart p.line + Nat.min p.character (l.lineText p.line).length
  else l.chars.length

/-- The number of bytes in front of a position. -/
def offset (l : Lines) (p : Position) : Nat := Text.byteLength (l.chars.take (l.index p))

/-- The number of characters that make up exactly `n` bytes, if some do. -/
def boundary? : List Char → Nat → Option Nat
  | _, 0 => some 0
  | [], _ + 1 => none
  | c :: cs, n + 1 =>
    if c.utf8Size ≤ n + 1 then (boundary? cs (n + 1 - c.utf8Size)).map (· + 1) else none

/-- The position of a byte offset, the end of the text for a larger one. There is none inside a
character. -/
def position? (l : Lines) (offset : Nat) : Option Position :=
  (boundary? l.chars (Nat.min offset (Text.byteLength l.chars))).map fun n =>
    Position.origin.after (l.chars.take n)

def between (l : Lines) (first last : Nat) : List Char := (l.chars.drop first).take (last - first)

/-- The characters of a range, none when it ends before it starts. -/
def slice (l : Lines) (r : Range) : List Char := l.between (l.index r.start) (l.index r.stop)

end Lines

end AnnotationEdit

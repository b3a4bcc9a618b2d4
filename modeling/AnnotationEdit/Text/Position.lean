/-!
# Positions and ranges

A position counts lines and the characters of a line from zero. A range runs from its start up to,
and without, its end; nothing forces the end to come after the start, so every statement about
ranges says what it needs.
-/

namespace AnnotationEdit

/-- A place between two characters of a text. -/
structure Position where
  line : Nat
  character : Nat
deriving DecidableEq, Repr, Inhabited

namespace Position

/-- The start of a text. -/
def origin : Position := ⟨0, 0⟩

def compare (a b : Position) : Ordering :=
  (Ord.compare a.line b.line).then (Ord.compare a.character b.character)

instance : LT Position :=
  ⟨fun a b => a.line < b.line ∨ (a.line = b.line ∧ a.character < b.character)⟩
instance : LE Position :=
  ⟨fun a b => a.line < b.line ∨ (a.line = b.line ∧ a.character ≤ b.character)⟩

theorem lt_def {a b : Position} :
    a < b ↔ a.line < b.line ∨ (a.line = b.line ∧ a.character < b.character) := Iff.rfl

theorem le_def {a b : Position} :
    a ≤ b ↔ a.line < b.line ∨ (a.line = b.line ∧ a.character ≤ b.character) := Iff.rfl

instance (a b : Position) : Decidable (a < b) := decidable_of_iff' _ lt_def
instance (a b : Position) : Decidable (a ≤ b) := decidable_of_iff' _ le_def

def min (a b : Position) : Position := if a ≤ b then a else b

def max (a b : Position) : Position := if a ≤ b then b else a

/-- The position as people count: lines and columns from one. -/
def display (p : Position) : String := toString (p.line + 1) ++ ":" ++ toString (p.character + 1)

/-- The position after a character: a line feed starts the next line. -/
def advance (p : Position) (c : Char) : Position :=
  if c = '\n' then ⟨p.line + 1, 0⟩ else ⟨p.line, p.character + 1⟩

/-- The position after a text that starts here. -/
def after (p : Position) (cs : List Char) : Position := cs.foldl advance p

end Position

/-- The text between two positions. -/
structure Range where
  start : Position
  stop : Position
deriving DecidableEq, Repr, Inhabited

namespace Range

def empty (p : Position) : Range := ⟨p, p⟩

def isEmpty (r : Range) : Bool := r.start == r.stop

/-- `s` lies inside `r`; sharing an end is allowed. -/
def contains (r s : Range) : Bool := r.start ≤ s.start && s.stop ≤ r.stop

def containsPosition (r : Range) (p : Position) : Bool := r.start ≤ p && p ≤ r.stop

def union (r s : Range) : Range := ⟨r.start.min s.start, r.stop.max s.stop⟩

/-- The ranges have a character in common. -/
def overlaps (r s : Range) : Bool := r.start < s.stop && s.start < r.stop

def display (r : Range) : String := r.start.display ++ "-" ++ r.stop.display

/-- Earlier starts first, then earlier ends. -/
def compare (r s : Range) : Ordering := (r.start.compare s.start).then (r.stop.compare s.stop)

end Range

end AnnotationEdit

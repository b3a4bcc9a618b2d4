import AnnotationEdit.Config.Vocabulary

/-!
# Configuration

How inserted text is indented, which vocabularies are known and how the project is laid out. Every
setting may be left open; what then counts is said by the function of the setting's name.
-/

namespace AnnotationEdit

inductive IndentStyle where
  | spaces
  | tabs
deriving DecidableEq, Repr

def IndentStyle.all : List IndentStyle := [.spaces, .tabs]

def IndentStyle.name : IndentStyle → String
  | spaces => "spaces"
  | tabs => "tabs"

/-- The parts of a project that must not import each other, named by the start of their uris. -/
structure ProjectLayout where
  isolatedRoots : List String
deriving DecidableEq, Repr

namespace ProjectLayout

/-- The root is the uri itself or one of the directories above it. -/
def holds (uri root : String) : Bool :=
  match Text.stripFront? root uri with
  | some rest => rest.isEmpty || Text.startsWith "/" rest
  | none => false

/-- The isolated part a uri belongs to: the longest root above it. -/
def unitOf? (layout : ProjectLayout) (uri : String) : Option String :=
  (layout.isolatedRoots.filter (holds uri)).foldl
    (fun best root => match best with
      | none => some root
      | some b => if root.length < b.length then some b else some root) none

/-- A reference between two uris leaves one isolated part for another. -/
def crossesBoundary (layout : ProjectLayout) (source destination : String) : Bool :=
  match layout.unitOf? source, layout.unitOf? destination with
  | some a, some b => a != b
  | _, _ => false

end ProjectLayout

structure Configuration where
  indentStyle : Option IndentStyle
  indentSize : Option Nat
  vocabulary : Option Vocabulary
  project : Option ProjectLayout
deriving DecidableEq, Repr

namespace Configuration

def defaultIndentSize : Nat := 4

def blank : Configuration := ⟨none, none, none, none⟩

def default : Configuration :=
  ⟨some .spaces, some defaultIndentSize, some .standard, some ⟨[]⟩⟩

def style (c : Configuration) : IndentStyle := c.indentStyle.getD .spaces

/-- The width of one level of indentation; zero counts as not set. -/
def size (c : Configuration) : Nat :=
  match c.indentSize with
  | some (n + 1) => n + 1
  | _ => defaultIndentSize

/-- One level of indentation is short enough to be written out: less than `2 ^ 63` characters. -/
def isWritable (c : Configuration) : Bool := c.style == .tabs || c.size < Nat.pow 2 63

def unit (c : Configuration) : String :=
  match c.style with
  | .spaces => Text.times " " c.size
  | .tabs => "\t"

def indent (c : Configuration) (level : Nat) : String := Text.times c.unit level

def layout (c : Configuration) : ProjectLayout := c.project.getD ⟨[]⟩

def aliases (c : Configuration) : Vocabulary := c.vocabulary.getD .standard

/-- The settings of `c`, and those of `base` where `c` leaves them open. Aliases are merged one by
one. -/
def merge (c base : Configuration) : Configuration where
  indentStyle := c.indentStyle.or base.indentStyle
  indentSize := c.indentSize.or base.indentSize
  vocabulary :=
    match c.vocabulary, base.vocabulary with
    | some v, some w => some (v.merge w)
    | none, w => w
    | v, none => v
  project := c.project.or base.project

end Configuration

end AnnotationEdit

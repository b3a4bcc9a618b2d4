import AnnotationEdit.Error
import AnnotationEdit.Text.Cut

/-!
# Pointers

A pointer addresses a node of a tree by the names and numbers on the way to it. In a pointer's text
each segment follows a slash; a slash inside a segment is written `~1` and a tilde `~0`. The root is
written as the empty text, and a lone slash is read as the root too.
-/

namespace AnnotationEdit

structure Pointer where
  segments : List String
deriving DecidableEq, Repr, Inhabited

namespace Pointer

def root : Pointer := ⟨[]⟩

def escape : List Char → List Char
  | [] => []
  | c :: cs =>
    if c = '~' then '~' :: '0' :: escape cs
    else if c = '/' then '~' :: '1' :: escape cs
    else c :: escape cs

/-- A written segment as it is meant. A tilde that starts no escape stands for itself. -/
def unescape : List Char → List Char
  | [] => []
  | '~' :: '1' :: cs => '/' :: unescape cs
  | '~' :: '0' :: cs => '~' :: unescape cs
  | c :: cs => c :: unescape cs

/-- Reads the text of a pointer; every text but the empty one starts with a slash. -/
def parse (text : String) : Except Error Pointer :=
  match text.toList with
  | [] => .ok root
  | ['/'] => .ok root
  | '/' :: rest =>
    .ok ⟨(Text.pieces '/' rest).map fun segment => String.ofList (unescape segment)⟩
  | _ => .error (.unresolved text "pointer must start with '/'")

def display (p : Pointer) : String :=
  String.ofList (p.segments.flatMap fun segment => '/' :: escape segment.toList)

def isRoot (p : Pointer) : Bool := p.segments.isEmpty

def depth (p : Pointer) : Nat := p.segments.length

def last? (p : Pointer) : Option String := p.segments.getLast?

def lastIndex? (p : Pointer) : Option Nat := p.last?.bind Text.number?

def ancestor? (p : Pointer) (levels : Nat) : Option Pointer :=
  if p.depth < levels then none else some ⟨p.segments.take (p.depth - levels)⟩

def parent? (p : Pointer) : Option Pointer := p.ancestor? 1

def child (p : Pointer) (segment : String) : Pointer := ⟨p.segments ++ [segment]⟩

def append (p : Pointer) (segments : List String) : Pointer := ⟨p.segments ++ segments⟩

/-- The pointer followed by the segments of a relative path, taken as they stand. -/
def join (p : Pointer) (path : String) : Pointer :=
  p.append ((Text.split '/' path).filter (!·.isEmpty))

/-- `q` lies at or below `p`. -/
def isPrefixOf (p q : Pointer) : Bool := p.segments.isPrefixOf q.segments

/-- `q` lies strictly below `p`. -/
def isAncestorOf (p q : Pointer) : Bool := p.depth < q.depth && p.isPrefixOf q

def indexAfter? (p : Pointer) (name : String) : Option Nat :=
  match p.segments.dropWhile (· != name) with
  | _ :: next :: _ => Text.number? next
  | _ => none

/-- Numbers before names; numbers by value, names by their characters. -/
def compareSegments (a b : String) : Ordering :=
  match Text.number? a, Text.number? b with
  | some m, some n => compare m n
  | some _, none => .lt
  | none, some _ => .gt
  | none, none => compare a b

def compareLists : List String → List String → Ordering
  | [], [] => .eq
  | [], _ :: _ => .lt
  | _ :: _, [] => .gt
  | a :: as, b :: bs => (compareSegments a b).then (compareLists as bs)

/-- Segment by segment, a pointer before everything below it. -/
protected def compare (p q : Pointer) : Ordering := compareLists p.segments q.segments

end Pointer

end AnnotationEdit

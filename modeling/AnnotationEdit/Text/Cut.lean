import AnnotationEdit.Text.Blank
import AnnotationEdit.Text.Letter

/-!
# Cutting texts

Splitting a text at a separator and taking a text off either end. The functions work on lists of
characters, where their laws are short, and the string versions at the end only convert.
-/

namespace AnnotationEdit.Text

/-- The pieces between the separators: one more than there are separators, empty ones included. -/
def pieces (sep : Char) : List Char → List (List Char)
  | [] => [[]]
  | c :: cs =>
    if c = sep then [] :: pieces sep cs
    else match pieces sep cs with
      | [] => [[c]]
      | p :: ps => (c :: p) :: ps

/-- What is left after taking a text off the front. -/
def dropFront? : List Char → List Char → Option (List Char)
  | [], cs => some cs
  | _ :: _, [] => none
  | p :: ps, c :: cs => if p = c then dropFront? ps cs else none

/-- The parts before and after the first separator. -/
def cutFirst? (sep : Char) : List Char → Option (List Char × List Char)
  | [] => none
  | c :: cs =>
    if c = sep then some ([], cs)
    else (cutFirst? sep cs).map fun p => (c :: p.1, p.2)

/-- The parts before and after the last separator. -/
def cutLast? (sep : Char) (cs : List Char) : Option (List Char × List Char) :=
  (cutFirst? sep cs.reverse).map fun p => (p.2.reverse, p.1.reverse)

def afterLast (sep : Char) (cs : List Char) : List Char :=
  match cutLast? sep cs with
  | some (_, rest) => rest
  | none => cs

def total (ns : List Nat) : Nat := ns.foldr (· + ·) 0

/-- The number of bytes of the characters in UTF-8. -/
def byteLength (cs : List Char) : Nat := total (cs.map fun c => c.utf8Size)

/-! ## The same on strings -/

/-- The pieces of a text between the separators. -/
def split (sep : Char) (s : String) : List String := (pieces sep s.toList).map String.ofList

def stripFront? (front s : String) : Option String :=
  (dropFront? front.toList s.toList).map String.ofList

def stripBack? (back s : String) : Option String :=
  (dropFront? back.toList.reverse s.toList.reverse).map fun cs => String.ofList cs.reverse

def startsWith (front s : String) : Bool := (dropFront? front.toList s.toList).isSome

/-- The parts of a text around its first separator. -/
def splitOnce? (sep : Char) (s : String) : Option (String × String) :=
  (cutFirst? sep s.toList).map fun p => (String.ofList p.1, String.ofList p.2)

/-- The words of a text, blanks around them ignored. -/
def wordsOf (s : String) : List String := (words s.toList).map String.ofList

def isBlankText (s : String) : Bool := allBlank s.toList

def times (s : String) (n : Nat) : String := String.join (List.replicate n s)

def joined (sep : String) : List String → String
  | [] => ""
  | [s] => s
  | s :: ss => s ++ sep ++ joined sep ss

def lowerAsciiText (s : String) : String := String.ofList (s.toList.map lowerAscii)

/-- The numbers of 64 bits are those below it. -/
def wordBound : Nat := Nat.pow 2 64

/-- The number of 64 bits written in a text: ASCII digits, a plus sign in front allowed. -/
def number? (s : String) : Option Nat :=
  let digits := match s.toList with
    | '+' :: rest => rest
    | cs => cs
  if digits.isEmpty || !digits.all isDigit then none
  else
    let value := digits.foldl (fun n c => 10 * n + (c.toNat - '0'.toNat)) 0
    if value < wordBound then some value else none

end AnnotationEdit.Text

/-!
# Blank characters

The characters with the Unicode property `White_Space`, and what trimming and counting them needs.
Blanks separate tokens, make up the indentation of a line and are ignored around fragments.
-/

namespace AnnotationEdit.Text

/-- A character that separates tokens: tab, line feed, vertical tab, form feed, carriage return,
space, next line, no-break space and the blanks of the other scripts. -/
def isBlank (c : Char) : Bool :=
  let n := c.toNat
  (9 ≤ n && n ≤ 13) || n == 0x20 || n == 0x85 || n == 0xa0 || n == 0x1680 ||
    (0x2000 ≤ n && n ≤ 0x200a) || n == 0x2028 || n == 0x2029 || n == 0x202f || n == 0x205f ||
    n == 0x3000

def trimStart (cs : List Char) : List Char := cs.dropWhile isBlank

/-- Whether nothing but blanks is left. -/
def allBlank (cs : List Char) : Bool := cs.all isBlank

def words : List Char → List (List Char)
  | [] => []
  | c :: cs =>
    if isBlank c then words cs
    else
      -- the word starting at `c` swallows the first word of the rest when no blank is between
      match cs with
      | [] => [[c]]
      | d :: _ =>
        if isBlank d then [c] :: words cs
        else match words cs with
          | [] => [[c]]
          | w :: ws => (c :: w) :: ws

end AnnotationEdit.Text

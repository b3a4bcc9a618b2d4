import AnnotationEdit.Data.Basic
import AnnotationEdit.Text.Letter

/-!
# Reading JSON

A reader for JSON texts. It takes exactly one value, with blanks around it, and refuses what the
notation does not allow, such as leading zeros or control characters in strings. Half of a surrogate
pair is allowed by the notation but stands for no character, so a text with one, and a table with
one in a name, is data of no use.
-/

namespace AnnotationEdit.Data.Json

def isBlank (c : Char) : Bool := c == ' ' || c == '\n' || c == '\t' || c == '\r'

def skipBlanks (cs : List Char) : List Char := cs.dropWhile isBlank

def hexDigit? (c : Char) : Option Nat :=
  if '0' ≤ c && c ≤ '9' then some (c.toNat - 48)
  else if 'a' ≤ c && c ≤ 'f' then some (c.toNat - 87)
  else if 'A' ≤ c && c ≤ 'F' then some (c.toNat - 55)
  else none

/-- The number four hexadecimal digits stand for. -/
def hex4? (a b c d : Char) : Option Nat := do
  let a ← hexDigit? a
  let b ← hexDigit? b
  let c ← hexDigit? c
  let d ← hexDigit? d
  return ((a * 16 + b) * 16 + c) * 16 + d

def escaped? (c : Char) : Option Nat :=
  match c with
  | '\x22' => some 0x22
  | '\\' => some 0x5c
  | '/' => some 0x2f
  | 'b' => some 8
  | 'f' => some 12
  | 'n' => some 10
  | 'r' => some 13
  | 't' => some 9
  | _ => none

/-- The code points and surrogates of a string up to its closing quote, and what follows it. -/
def units? : List Char → Option (List Nat × List Char)
  | [] => none
  | '\\' :: 'u' :: a :: b :: c :: d :: cs => do
    let unit ← hex4? a b c d
    let (rest, after) ← units? cs
    return (unit :: rest, after)
  | '\\' :: c :: cs => do
    let unit ← escaped? c
    let (rest, after) ← units? cs
    return (unit :: rest, after)
  | c :: cs =>
    if c = '\x22' then some ([], cs)
    else if c.toNat < 32 || c = '\\' then none
    else do
      let (rest, after) ← units? cs
      return (c.toNat :: rest, after)

/-- The characters of code points and surrogates; surrogates come in pairs. -/
def characters? : List Nat → Option (List Char)
  | [] => some []
  | [u] => if 0xd800 ≤ u && u ≤ 0xdfff then none else some [Char.ofNat u]
  | u :: v :: us =>
    if 0xd800 ≤ u && u ≤ 0xdbff then
      if 0xdc00 ≤ v && v ≤ 0xdfff then
        (characters? us).map (Char.ofNat (0x10000 + (u - 0xd800) * 1024 + (v - 0xdc00)) :: ·)
      else none
    else if 0xdc00 ≤ u && u ≤ 0xdfff then none
    else (characters? (v :: us)).map (Char.ofNat u :: ·)

/-- The string after an opening quote, if its escapes stand for characters, and what follows it. -/
def string? (cs : List Char) : Option (Option String × List Char) := do
  let (units, rest) ← units? cs
  return ((characters? units).map String.ofList, rest)

/-- A fraction or an exponent mark and digits; nothing when the mark is not there. -/
def tail? (isMark : Char → Bool) (signed : Bool) (cs : List Char) : Option (Bool × List Char) :=
  match cs with
  | [] => some (false, [])
  | c :: rest =>
    if isMark c then
      let rest := match signed, rest with
        | true, '+' :: more => more
        | true, '-' :: more => more
        | _, rest => rest
      match rest with
      | d :: more => if Text.isDigit d then some (true, more.dropWhile Text.isDigit) else none
      | [] => none
    else some (false, cs)

/-- A number. With a fraction, with an exponent, or as a zero with a sign it is not whole. -/
def number? (cs : List Char) : Option (Data × List Char) := do
  let (negative, cs) := match cs with
    | '-' :: rest => (true, rest)
    | cs => (false, cs)
  let digits := cs.takeWhile Text.isDigit
  let rest := cs.dropWhile Text.isDigit
  if digits.isEmpty || (digits.head? == some '0' && 1 < digits.length) then none
  else
    let (fraction, rest) ← tail? (· == '.') false rest
    let (exponent, rest) ← tail? (fun c => c == 'e' || c == 'E') true rest
    let value : Nat := digits.foldl (fun n c => 10 * n + (c.toNat - 48)) 0
    if fraction || exponent || (negative && value == 0) then return (.other, rest)
    else return (.integer (if negative then -(value : Int) else value), rest)

def word? : List Char → List Char → Option (List Char)
  | [], cs => some cs
  | _ :: _, [] => none
  | w :: ws, c :: cs => if w = c then word? ws cs else none

/-- Items separated by commas up to the mark `close`, at most `n` of them. There is at least one,
and no comma after the last one. -/
def separated? {α : Type} (close : Char) (item : List Char → Option (α × List Char)) :
    Nat → List Char → Option (List α × List Char)
  | 0, _ => none
  | n + 1, cs => do
    let (first, rest) ← item cs
    match skipBlanks rest with
    | ',' :: more =>
      let (others, rest) ← separated? close item n more
      return (first :: others, rest)
    | c :: more => if c = close then return ([first], more) else none
    | [] => none

def bracketed? {α : Type} (close : Char) (item : List Char → Option (α × List Char))
    (cs : List Char) : Option (List α × List Char) :=
  match skipBlanks cs with
  | c :: rest =>
    if c = close then some ([], rest) else separated? close item (cs.length + 1) (c :: rest)
  | [] => none

def field? (value : List Char → Option (Data × List Char)) (cs : List Char) :
    Option ((Option String × Data) × List Char) :=
  match skipBlanks cs with
  | '\x22' :: rest => do
    let (name, rest) ← string? rest
    match skipBlanks rest with
    | ':' :: rest =>
      let (data, rest) ← value rest
      return ((name, data), rest)
    | _ => none
  | _ => none

def textOf : Option String → Data
  | some s => .text s
  | none => .other

def tableOf (fields : List (Option String × Data)) : Data :=
  match fields.mapM fun (name, d) => name.map fun name => (name, d) with
  | some fields => .table fields
  | none => .other

/-- A value with fewer than `n` brackets inside each other. -/
def value? : Nat → List Char → Option (Data × List Char)
  | 0, _ => none
  | n + 1, cs =>
    match skipBlanks cs with
    | '\x22' :: rest => (string? rest).map fun (s, rest) => (textOf s, rest)
    | '[' :: rest =>
      (bracketed? ']' (value? n) rest).map fun (items, rest) => (.list items, rest)
    | '\x7b' :: rest =>
      (bracketed? '\x7d' (field? (value? n)) rest).map fun (fields, rest) => (tableOf fields, rest)
    | 't' :: rest => (word? "rue".toList rest).map fun rest => (.bool true, rest)
    | 'f' :: rest => (word? "alse".toList rest).map fun rest => (.bool false, rest)
    | 'n' :: rest => (word? "ull".toList rest).map fun rest => (.null, rest)
    | cs => number? cs

/-- The data of a JSON text; a text has fewer brackets than characters. -/
def parse? (text : String) : Option Data :=
  let cs := text.toList
  match value? (cs.length + 1) cs with
  | some (data, rest) => if (skipBlanks rest).isEmpty then some data else none
  | none => none

end AnnotationEdit.Data.Json

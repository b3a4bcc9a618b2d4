import AnnotationEdit.Data.Json
import AnnotationEdit.Data.Moment

/-!
# Reading TOML

A reader for TOML texts. A text is a sequence of lines, each a table header or a key with its value;
`Item` is the table being built, which remembers how each of its tables came to be, because that
decides what may still be added to it: a table may be opened by one header, a dotted key may add
only to tables that dotted keys have made, and an inline table is closed.

Whole numbers have up to 128 bits and others are doubles; a number beyond that overflows. A moment
is read as a table with its text under a key of its own.
-/

namespace AnnotationEdit.Data.Toml

/-! ## Characters and strings -/

def isBlank (c : Char) : Bool := c == ' ' || c == '\t'

def skipBlanks (cs : List Char) : List Char := cs.dropWhile isBlank

/-- A character that may stand in a comment or a string: a tab, or no control character. -/
def isPlain (c : Char) : Bool := c == '\t' || (32 ≤ c.toNat && c.toNat != 127)

def lineBreak? : List Char → Option (List Char)
  | '\n' :: cs => some cs
  | '\r' :: '\n' :: cs => some cs
  | _ => none

def skipComment? (cs : List Char) : Option (List Char) :=
  match cs with
  | '#' :: rest =>
    let after := rest.dropWhile isPlain
    if after.isEmpty || (lineBreak? after).isSome then some after else none
  | cs => some cs

def skipBreaks? : Nat → List Char → Option (List Char)
  | 0, cs => some cs
  | n + 1, cs => do
    let rest ← skipComment? (skipBlanks cs)
    match lineBreak? rest with
    | some rest => skipBreaks? n rest
    | none => some rest

/-- What follows blanks, comments and line breaks. -/
def skipLines? (cs : List Char) : Option (List Char) := skipBreaks? (cs.length + 1) cs

def escape? : List Char → Option (Char × List Char)
  | 'x' :: a :: b :: cs => do
    let n ← Json.hex4? '0' '0' a b
    return (Char.ofNat n, cs)
  | 'u' :: a :: b :: c :: d :: cs => do
    let n ← Json.hex4? a b c d
    if n.isValidChar then some (Char.ofNat n, cs) else none
  | 'U' :: a :: b :: c :: d :: e :: f :: g :: h :: cs => do
    let high ← Json.hex4? a b c d
    let low ← Json.hex4? e f g h
    let n := high * 65536 + low
    if n.isValidChar then some (Char.ofNat n, cs) else none
  | 'b' :: cs => some (Char.ofNat 8, cs)
  | 'e' :: cs => some (Char.ofNat 27, cs)
  | 't' :: cs => some ('\t', cs)
  | 'n' :: cs => some ('\n', cs)
  | 'f' :: cs => some (Char.ofNat 12, cs)
  | 'r' :: cs => some ('\r', cs)
  | '\x22' :: cs => some ('\x22', cs)
  | '\\' :: cs => some ('\\', cs)
  | _ => none

/-- A string in double quotes after its opening quote; `n` bounds its characters. -/
def basic? : Nat → List Char → Option (List Char × List Char)
  | 0, _ => none
  | n + 1, cs =>
    match cs with
    | [] => none
    | '\\' :: rest => do
      let (c, rest) ← escape? rest
      let (body, after) ← basic? n rest
      return (c :: body, after)
    | c :: rest =>
      if c = '\x22' then some ([], rest)
      else if isPlain c then (basic? n rest).map fun (body, after) => (c :: body, after)
      else none

/-- A string in single quotes after its opening quote. -/
def literal? : List Char → Option (List Char × List Char)
  | [] => none
  | c :: rest =>
    if c = '\x27' then some ([], rest)
    else if isPlain c then (literal? rest).map fun (body, after) => (c :: body, after)
    else none

def closing? (quote : Char) (cs : List Char) : Option (List Char × List Char) :=
  let count := (cs.takeWhile (· == quote)).length
  if count < 3 then none
  else
    let extra := Nat.min (count - 3) 2
    some (List.replicate extra quote, cs.drop (extra + 3))

def skipWhite : Nat → List Char → List Char
  | 0, cs => cs
  | n + 1, cs =>
    match lineBreak? (skipBlanks cs) with
    | some rest => skipWhite n rest
    | none => skipBlanks cs

/-- What follows the blanks and line breaks that a backslash at the end of a line swallows. -/
def joinLines? (cs : List Char) : Option (List Char) :=
  (lineBreak? (skipBlanks cs)).map (skipWhite cs.length)

/-- A string of several lines after its opening quotes; escapes count only in double quotes. -/
def multiLine? (quote : Char) (escapes : Bool) : Nat → List Char → Option (List Char × List Char)
  | 0, _ => none
  | n + 1, cs =>
    match closing? quote cs with
    | some found => some found
    | none =>
      match cs with
      | [] => none
      | '\r' :: '\n' :: rest =>
        (multiLine? quote escapes n rest).map fun (body, after) => ('\r' :: '\n' :: body, after)
      | c :: rest =>
        if escapes && c = '\\' then
          match joinLines? rest with
          | some rest => multiLine? quote escapes n rest
          | none => do
            let (c, rest) ← escape? rest
            let (body, after) ← multiLine? quote escapes n rest
            return (c :: body, after)
        else if isPlain c || c == '\n' then
          (multiLine? quote escapes n rest).map fun (body, after) => (c :: body, after)
        else none

def afterBreak (cs : List Char) : List Char := (lineBreak? cs).getD cs

def string? (cs : List Char) : Option (String × List Char) :=
  let result := match cs with
    | '\x22' :: '\x22' :: '\x22' :: rest =>
      multiLine? '\x22' true (rest.length + 1) (afterBreak rest)
    | '\x27' :: '\x27' :: '\x27' :: rest =>
      multiLine? '\x27' false (rest.length + 1) (afterBreak rest)
    | '\x22' :: rest => basic? (rest.length + 1) rest
    | '\x27' :: rest => literal? rest
    | _ => none
  result.map fun (body, rest) => (String.ofList body, rest)

/-! ## Keys -/

def isBareKeyChar (c : Char) : Bool :=
  (c.val < 128 && Text.isAlphanumeric c) || c == '_' || c == '-'

def keyPart? (cs : List Char) : Option (String × List Char) :=
  match cs with
  | '\x22' :: rest => (basic? (rest.length + 1) rest).map fun (k, rest) => (String.ofList k, rest)
  | '\x27' :: rest => (literal? rest).map fun (k, rest) => (String.ofList k, rest)
  | cs =>
    let name := cs.takeWhile isBareKeyChar
    if name.isEmpty then none else some (String.ofList name, cs.dropWhile isBareKeyChar)

def key? : Nat → List Char → Option (List String × List Char)
  | 0, _ => none
  | n + 1, cs => do
    let (part, rest) ← keyPart? (skipBlanks cs)
    match skipBlanks rest with
    | '.' :: more =>
      let (parts, rest) ← key? n more
      return (part :: parts, rest)
    | rest => return ([part], rest)

def maxParts : Nat := 80

/-! ## Numbers and moments -/

def digits? (isDigit : Char → Bool) : List Char → Option (List Char)
  | [] => none
  | [c] => if isDigit c then some [c] else none
  | c :: '_' :: rest => if isDigit c then (digits? isDigit rest).map (c :: ·) else none
  | c :: rest => if isDigit c then (digits? isDigit rest).map (c :: ·) else none

def valueOf (base : Nat) (digits : List Char) : Nat :=
  digits.foldl (fun n c => n * base + (Json.hexDigit? c).getD 0) 0

def decimalDigits? (cs : List Char) : Option (List Char) := do
  let digits ← digits? Text.isDigit cs
  if digits.head? == some '0' && 1 < digits.length then none else some digits

def magnitude? (cs : List Char) : Option Nat :=
  match cs with
  | '0' :: 'x' :: rest => (digits? (fun c => (Json.hexDigit? c).isSome) rest).map (valueOf 16)
  | '0' :: 'o' :: rest => (digits? (fun c => '0' ≤ c && c ≤ '7') rest).map (valueOf 8)
  | '0' :: 'b' :: rest => (digits? (fun c => c == '0' || c == '1') rest).map (valueOf 2)
  | cs => (decimalDigits? cs).map (valueOf 10)

def signed (cs : List Char) : Option Bool × List Char :=
  match cs with
  | '+' :: rest => (some false, rest)
  | '-' :: rest => (some true, rest)
  | cs => (none, cs)

def integer? (cs : List Char) : Option Int :=
  match signed cs with
  | (none, cs) => (magnitude? cs).map fun n => (n : Int)
  | (some negative, cs) => (decimalDigits? cs).map fun digits =>
    let n : Int := valueOf 10 digits
    if negative then -n else n

/-- The data of a whole number: below zero it has 127 bits and a sign, above 128 bits. -/
def integerData (n : Int) : Data :=
  if -Int.ofNat (Nat.pow 2 127) ≤ n && n < Int.ofNat (Nat.pow 2 128) then .integer n else .overflow

/-- The least number that rounds to no double: halfway between the largest one and `2 ^ 1024`. -/
def doubleBound : Nat := Nat.pow 2 1024 - Nat.pow 2 970

/-- Digits and a power of ten make a number that rounds to no double. The number of digits before
the point decides, but for numbers of 309 digits. -/
def exceedsDouble (digits : List Char) (exponent : Int) : Bool :=
  let significant := digits.dropWhile (· == '0')
  let places := significant.length + exponent
  if significant.isEmpty || places < 309 then false
  else if 309 < places then true
  else match exponent with
    | .ofNat e => doubleBound ≤ valueOf 10 significant * Nat.pow 10 e
    | .negSucc e => doubleBound * Nat.pow 10 (e + 1) ≤ valueOf 10 significant

/-- The digits of a fraction after its point; none when there is no fraction. -/
def fractionDigits? (cs : List Char) : Option (List Char) :=
  match cs with
  | [] => some []
  | _ :: digits => digits? Text.isDigit digits

/-- The number an exponent after its mark stands for; zero when there is no exponent. -/
def exponent? (cs : List Char) : Option Int :=
  match cs with
  | [] => some 0
  | _ :: rest => do
    let (sign, digits) := signed rest
    let n : Int := valueOf 10 (← digits? Text.isDigit digits)
    return if sign = some true then -n else n

/-- A number with a fraction or an exponent, an infinity or a value that is no number. -/
def real? (cs : List Char) : Option Data :=
  let (_, cs) := signed cs
  let isExponentMark (c : Char) : Bool := c == 'e' || c == 'E'
  let mantissa := cs.takeWhile fun c => !isExponentMark c
  let power := cs.dropWhile fun c => !isExponentMark c
  let fraction := mantissa.dropWhile (· != '.')
  if cs == "inf".toList || cs == "nan".toList then some .other
  else if fraction.isEmpty && power.isEmpty then none
  else do
    let whole ← decimalDigits? (mantissa.takeWhile (· != '.'))
    let part ← fractionDigits? fraction
    let exponent ← exponent? power
    return if exceedsDouble (whole ++ part) (exponent - part.length) then .overflow else .other

def momentKey : String := "$__toml_private_datetime"

def momentData (m : Moment) : Data := .table [(momentKey, .text m.display)]

/-- A character of a number, a moment or a truth value. -/
def isAtomChar (c : Char) : Bool :=
  (c.val < 128 && Text.isAlphanumeric c) || c == '_' || c == '-' || c == '+' || c == '.' || c == ':'

/-- The characters of an atom. A single blank may stand between a date and a time. -/
def atom (cs : List Char) : List Char × List Char :=
  let first := cs.takeWhile isAtomChar
  match cs.dropWhile isAtomChar with
  | ' ' :: d :: rest =>
    if Moment.isDate first && Text.isDigit d then
      (first ++ ' ' :: (d :: rest).takeWhile isAtomChar, (d :: rest).dropWhile isAtomChar)
    else (first, ' ' :: d :: rest)
  | rest => (first, rest)

def atomData? (cs : List Char) : Option Data :=
  if cs == "true".toList then some (.bool true)
  else if cs == "false".toList then some (.bool false)
  else ((integer? cs).map integerData).or ((real? cs).or ((Moment.parse? cs).map momentData))

/-! ## Tables -/

/-- A table under construction. -/
inductive Item where
  /-- A value that nothing can be added to. -/
  | leaf (data : Data)
  /-- A table; `implicit` when no header has opened it, `dotted` when a dotted key has made it. -/
  | table (implicit dotted : Bool) (fields : List (String × Item))
  /-- The tables opened by headers in double brackets; the last one is being filled. -/
  | tables (earlier : List (List (String × Item))) (last : List (String × Item))

abbrev Fields := List (String × Item)

def lookup? (fields : Fields) (name : String) : Option Item :=
  (fields.find? (·.1 == name)).map (·.2)

/-- Sets a field: in its place when it is there, else at the end. -/
def store (fields : Fields) (name : String) (item : Item) : Fields :=
  if fields.any (·.1 == name) then
    fields.map fun field => if field.1 == name then (name, item) else field
  else fields ++ [(name, item)]

/-- Changes the table that the names lead to, making the tables on the way. `change` is told
whether a dotted key has made the table. -/
def descend? (byDots : Bool) (change : Bool → Fields → Option Fields) :
    List String → Bool → Fields → Option Fields
  | [], dotted, fields => change dotted fields
  | name :: names, _, fields =>
    match lookup? fields name with
    | none => do
      let inner ← descend? byDots change names byDots []
      return store fields name (.table true byDots inner)
    | some (.leaf _) => none
    | some (.tables earlier last) => do
      let inner ← descend? byDots change names false last
      return store fields name (.tables earlier inner)
    | some (.table implicit dotted inner) =>
      if byDots && !implicit then none
      else do
        let inner ← descend? byDots change names dotted inner
        return store fields name (.table implicit dotted inner)

def addKey? (key : List String) (data : Data) (fields : Fields) : Option Fields :=
  match key.reverse with
  | [] => none
  | name :: above =>
    descend? true (fun dotted fields =>
      if dotted == above.isEmpty || (lookup? fields name).isSome then none
      else some (store fields name (.leaf data))) above.reverse false fields

/-- The table after a header in single brackets. -/
def openTable? (key : List String) (fields : Fields) : Option Fields :=
  match key.reverse with
  | [] => none
  | name :: above =>
    descend? false (fun _ fields =>
      match lookup? fields name with
      | none => some (store fields name (.table false false []))
      | some (.table true false inner) => some (store fields name (.table false false inner))
      | some _ => none) above.reverse false fields

/-- The table after a header in double brackets. -/
def openTables? (key : List String) (fields : Fields) : Option Fields :=
  match key.reverse with
  | [] => none
  | name :: above =>
    descend? false (fun _ fields =>
      match lookup? fields name with
      | none => some (store fields name (.tables [] []))
      | some (.tables earlier last) => some (store fields name (.tables (earlier ++ [last]) []))
      | some _ => none) above.reverse false fields

mutual

def Item.data : Item → Data
  | .leaf data => data
  | .table _ _ fields => .table (fieldsData fields)
  | .tables earlier last => .list (tablesData earlier ++ [.table (fieldsData last)])

def fieldsData : List (String × Item) → List (String × Data)
  | [] => []
  | (name, item) :: rest => (name, item.data) :: fieldsData rest

def tablesData : List (List (String × Item)) → List Data
  | [] => []
  | fields :: rest => .table (fieldsData fields) :: tablesData rest

end

/-! ## Values -/

/-- A key, an equals sign and a value, with what `skip` passes over around the equals sign. -/
def keyValue? (skip : List Char → Option (List Char))
    (value : List Char → Option (Data × List Char)) (cs : List Char) :
    Option ((List String × Data) × List Char) := do
  let (key, rest) ← key? maxParts cs
  match ← skip rest with
  | '=' :: rest =>
    let (data, rest) ← value (← skip rest)
    return ((key, data), rest)
  | _ => none

/-- The items of an array after its opening bracket, fewer than `n` of them. -/
def items? (value : List Char → Option (Data × List Char)) :
    Nat → List Char → Option (List Data × List Char)
  | 0, _ => none
  | n + 1, cs => do
    match ← skipLines? cs with
    | ']' :: rest => return ([], rest)
    | cs =>
      let (first, rest) ← value cs
      match ← skipLines? rest with
      | ',' :: rest =>
        let (others, rest) ← items? value n rest
        return (first :: others, rest)
      | ']' :: rest => return ([first], rest)
      | _ => none

/-- The keys and values of an inline table after its opening brace, fewer than `n` of them. As in an
array, line breaks and comments may stand anywhere between them, and a comma after the last. -/
def inlineFields? (value : List Char → Option (Data × List Char)) :
    Nat → List Char → Option (List (List String × Data) × List Char)
  | 0, _ => none
  | n + 1, cs => do
    match ← skipLines? cs with
    | '\x7d' :: rest => return ([], rest)
    | cs =>
      let (first, rest) ← keyValue? skipLines? value cs
      match ← skipLines? rest with
      | ',' :: rest =>
        let (others, rest) ← inlineFields? value n rest
        return (first :: others, rest)
      | '\x7d' :: rest => return ([first], rest)
      | _ => none

def inlineTable? (fields : List (List String × Data)) : Option Data := do
  let fields ← fields.foldlM (fun fields (key, data) => addKey? key data fields) []
  return .table (fieldsData fields)

def scalar? (cs : List Char) : Option (Data × List Char) :=
  match cs with
  | '\x22' :: _ | '\x27' :: _ => (string? cs).map fun (s, rest) => (.text s, rest)
  | cs =>
    let (chars, rest) := atom cs
    (atomData? chars).map fun data => (data, rest)

/-- A value with at most `n` brackets inside each other. -/
def value? : Nat → List Char → Option (Data × List Char)
  | 0, cs => scalar? cs
  | n + 1, cs =>
    match cs with
    | '[' :: rest =>
      (items? (value? n) (rest.length + 1) rest).map fun (items, rest) => (.list items, rest)
    | '\x7b' :: rest => do
      let (fields, rest) ← inlineFields? (value? n) (rest.length + 1) rest
      return (← inlineTable? fields, rest)
    | cs => scalar? cs

def maxDepth : Nat := 80

/-! ## Texts -/

/-- The table being built and the names that lead to the part of it that is open. -/
structure State where
  root : Fields
  current : List String

/-- The state after the header or key at the start of the text, and what follows it. -/
def line? (state : State) (cs : List Char) : Option (State × List Char) :=
  match cs with
  | '[' :: '[' :: rest => do
    let (key, rest) ← key? maxParts rest
    match rest with
    | ']' :: ']' :: rest => return (⟨← openTables? key state.root, key⟩, rest)
    | _ => none
  | '[' :: rest => do
    let (key, rest) ← key? maxParts rest
    match rest with
    | ']' :: rest => return (⟨← openTable? key state.root, key⟩, rest)
    | _ => none
  | cs => do
    let ((key, data), rest) ← keyValue? (fun cs => some (skipBlanks cs)) (value? maxDepth) cs
    let add := fun _ fields => addKey? key data fields
    let root ← descend? false add state.current false state.root
    return (⟨root, state.current⟩, rest)

def lines? : Nat → State → List Char → Option Fields
  | 0, _, _ => none
  | n + 1, state, cs => do
    let cs ← skipLines? cs
    if cs.isEmpty then return state.root
    else
      let (state, rest) ← line? state cs
      let rest ← skipComment? (skipBlanks rest)
      match rest with
      | [] => return state.root
      | rest => lines? n state (← lineBreak? rest)

/-- The data of a TOML text, a mark of byte order in front aside. -/
def parse? (text : String) : Option Data :=
  let cs := match text.toList with
    | '\ufeff' :: rest => rest
    | cs => cs
  (lines? (cs.length + 1) ⟨[], []⟩ cs).map fun fields => .table (fieldsData fields)

end AnnotationEdit.Data.Toml

/-!
# Data

What a text in a data notation holds, whichever notation it is. Some data is well formed and yet of
no use here: a number that is not whole, a text with half of a surrogate pair. It is read as
`other`, which nothing takes but everything may pass over. A number too large for the notation is
read as `overflow`, which nothing may even pass over.

Records are read strictly: a field of the wrong type is refused, a field of another name passed
over. A record may also be given as the list of its fields. A `Manner` says how far a reader goes
beyond that.
-/

namespace AnnotationEdit

inductive Data where
  | null
  | bool (b : Bool)
  | integer (n : Int)
  | text (s : String)
  | list (items : List Data)
  /-- The fields in the order in which they are written. -/
  | table (fields : List (String × Data))
  | other
  | overflow

namespace Data

/-! ## Depth -/

mutual

/-- The levels of lists and tables inside each other. -/
def depth : Data → Nat
  | list items => listDepth items + 1
  | table fields => tableDepth fields + 1
  | _ => 0

def listDepth : List Data → Nat
  | [] => 0
  | d :: ds => Nat.max d.depth (listDepth ds)

def tableDepth : List (String × Data) → Nat
  | [] => 0
  | (_, d) :: fields => Nat.max d.depth (tableDepth fields)

end

/-! ## Passing over -/

mutual

def isReadable : Data → Bool
  | list items => listIsReadable items
  | table fields => tableIsReadable fields
  | overflow => false
  | _ => true

def listIsReadable : List Data → Bool
  | [] => true
  | d :: ds => d.isReadable && listIsReadable ds

def tableIsReadable : List (String × Data) → Bool
  | [] => true
  | (_, d) :: fields => d.isReadable && tableIsReadable fields

end

/-! ## Manners -/

/-- How freely data may be written. -/
structure Manner where
  /-- What may stand after the name of a choice that has no data. -/
  isNothing : Data → Bool
  /-- A variant may be named by its number. -/
  numbered : Bool
  /-- A record given as a list may go on after its last field. -/
  overlong : Bool

namespace Manner

def isNull : Data → Bool
  | null => true
  | _ => false

/-- As data is exchanged: a choice has null after its name, and variants have names. -/
def plain : Manner := ⟨isNull, false, false⟩

/-- Inside a variant: an empty table counts as null, and variants may be numbered. -/
def inVariant : Manner where
  isNothing
    | null | table [] => true
    | _ => false
  numbered := true
  overlong := false

/-- As a file is written by hand in a notation without null: an empty list or table stands for it,
and a list may be longer than the record it is read as. -/
def handwritten : Manner where
  isNothing
    | list [] | table [] => true
    | _ => false
  numbered := false
  overlong := true

end Manner

/-! ## Reading -/

def bool? : Data → Option Bool
  | bool b => some b
  | _ => none

def text? : Data → Option String
  | text s => some s
  | _ => none

def list? : Data → Option (List Data)
  | list items => some items
  | _ => none

/-- A whole number that is not negative and fits in 64 bits. -/
def natural? : Data → Option Nat
  | integer (.ofNat n) => if n < Nat.pow 2 64 then some n else none
  | _ => none

/-- A whole number that is not negative and fits in 32 bits. -/
def small? (d : Data) : Option Nat := d.natural?.filter (· < Nat.pow 2 32)

def listOf? {α : Type} (read : Data → Option α) (d : Data) : Option (List α) :=
  d.list?.bind (·.mapM read)

def choice? (m : Manner) : Data → Option String
  | text s => some s
  | table [(name, d)] => if m.isNothing d then some name else none
  | _ => none

def optional {α : Type} (read : Data → Option α) : Data → Option (Option α)
  | null => some none
  | d => (read d).map some

/-- The values of the named fields of a record: a table with each of the names at most once and
any other fields that can be passed over, or a list of the values in the order of the names, of
which the first `least` must be there. -/
def fieldsIn? (m : Manner) (names : List String) (least : Nat) : Data → Option (List (Option Data))
  | table fields =>
    if fields.any fun (name, d) => !names.contains name && !d.isReadable then none
    else names.mapM fun name =>
      match fields.filter (·.1 == name) with
      | [] => some none
      | [(_, d)] => some (some d)
      | _ => none
  | list items =>
    if least ≤ items.length && (m.overlong || items.length ≤ names.length) then
      some (names.zipIdx.map fun (_, i) => items[i]?)
    else none
  | _ => none

def fields? (names : List String) (least : Nat) (d : Data) : Option (List (Option Data)) :=
  d.fieldsIn? .plain names least

def maybe? {α : Type} (read : Data → Option α) : Option Data → Option (Option α)
  | none => some none
  | some d => d.optional read

def orDefault? {α : Type} (value : α) (read : Data → Option α) : Option Data → Option α
  | none => some value
  | some d => read d

def field? (d : Data) (name : String) : Option Data :=
  match d with
  | table fields => fields.lookup name
  | _ => none

def variantName? (m : Manner) (names : List String) : Data → Option String
  | text s => if names.contains s then some s else none
  | integer (.ofNat i) => if m.numbered then names[i]? else none
  | _ => none

/-- What names a variant, its field `type`, and the data with the other fields. In a list the name
comes first. -/
def parts? : Data → Option (Data × Data)
  | table fields => do return (← fields.lookup "type", table (fields.filter (·.1 != "type")))
  | list (name :: rest) => some (name, list rest)
  | _ => none

def variant? (m : Manner) (names : List String) (d : Data) : Option (String × Data) := do
  let (name, rest) ← d.parts?
  return (← variantName? m names name, rest)

def namedVariant? (d : Data) : Option (String × Data) := do
  let (name, rest) ← d.parts?
  return (← name.text?, rest)

/-! ## Writing -/

def number (n : Nat) : Data := integer n

def listOf {α : Type} (write : α → Data) (items : List α) : Data := list (items.map write)

def orNull {α : Type} (write : α → Data) : Option α → Data
  | some a => write a
  | none => null

def optionalField {α : Type} (name : String) (write : α → Data) : Option α → List (String × Data)
  | some a => [(name, write a)]
  | none => []

def variant (name : String) (fields : List (String × Data)) : Data :=
  table (("type", text name) :: fields)

end Data

end AnnotationEdit

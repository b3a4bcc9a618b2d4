import AnnotationEdit.Config.Basic
import AnnotationEdit.Token.Basic
import AnnotationEdit.Tree.File

/-!
# Printing fragments

The source text of elements: annotations, values, properties, target statements and references. A
fragment is placed after existing text, so its first line has no indentation; the lines after it
are indented for the level of the line the fragment starts on.
-/

namespace AnnotationEdit

open AnnotationEdit.Tree (Element ElementKind)

inductive AnnotationForm where
  /-- `@Term#Q : value` -/
  | bare
  /-- `Term#Q : value`, an item of a list in parentheses -/
  | compound
  /-- `![@Term#Q] : value`, an entry of a record -/
  | embedded
deriving DecidableEq, Repr

structure Printer where
  indentUnit : String
  vocabulary : Vocabulary

namespace Printer

def ofConfiguration (c : Configuration) : Printer := ⟨c.unit, c.aliases⟩

def indent (p : Printer) (level : Nat) : String := Text.times p.indentUnit level

/-! ## Literals -/

/-- A string in single quotes, a quote inside it written twice. -/
def quote (text : String) : String :=
  String.ofList ('\x27' :: doubled text.toList ++ ['\x27'])
where
  doubled : List Char → List Char
    | [] => []
    | c :: cs => if c = '\x27' then c :: c :: doubled cs else c :: doubled cs

/-- The member of an enumeration: what follows the last slash, after a `#`. -/
def enumMember (text : String) : String := "#" ++ String.ofList (Text.afterLast '/' text.toList)

def flags (value : String) : String :=
  "[ " ++ Text.joined ", " ((Text.wordsOf value).map enumMember) ++ " ]"

def annotationPath (p : Printer) (path : String) : String :=
  match Text.splitOnce? '@' path with
  | some (navigation, term) => navigation ++ "@" ++ p.vocabulary.shorten term
  | none => path

/-- A value that is written on one line. -/
def primitive (p : Printer) (kind : ElementKind) (text : String) : String :=
  match kind with
  | .string => quote text
  | .enumMember => if 1 < (Text.wordsOf text).length then flags text else enumMember text
  | .annotationPath => quote (p.annotationPath text)
  | .null => "null"
  | .bool => Text.lowerAsciiText text
  | _ => text

/-! ## Blocks -/

/-- Entries between brackets, one on a line; brackets alone when there are none. -/
def block (p : Printer) (opening closing : String) (entries : List String) (level : Nat) : String :=
  if entries.isEmpty then opening ++ closing
  else
    let inner := p.indent (level + 1)
    opening ++ "\n" ++ Text.joined ",\n" (entries.map (inner ++ ·)) ++ "\n" ++ p.indent level ++
      closing

def braces (p : Printer) (entries : List String) (level : Nat) : String :=
  p.block Token.openBrace Token.closeBrace entries level

def headed (head : String) : Option String → String
  | some value => head ++ " : " ++ value
  | none => head

def term (p : Printer) (e : Element) : String :=
  let name := p.vocabulary.shorten (e.term?.getD "")
  match e.qualifier? with
  | some qualifier => name ++ "#" ++ qualifier
  | none => name

def annotationHead (p : Printer) (form : AnnotationForm) (e : Element) : String :=
  match form with
  | .bare => "@" ++ p.term e
  | .compound => p.term e
  | .embedded => "![@" ++ p.term e ++ "]"

/-- The value of an annotation from the texts of its parts: `valueAt` writes the value for a level.
With annotations of its own the value becomes the entry `$value` of a record, one level deeper. -/
def promoted (p : Printer) (embedded : List String) (valueAt : Nat → Option String) (level : Nat) :
    Option String :=
  match embedded with
  | [] => valueAt level
  | _ :: _ =>
    some (p.braces (((valueAt (level + 1)).map ("$value : " ++ ·)).toList ++ embedded) level)

def typeEntry (p : Printer) (e : Element) : List String :=
  match e.attributeValue? Tree.typeKey with
  | some type => ["$Type : " ++ quote (p.vocabulary.shorten type)]
  | none => []

def propertyName (e : Element) : String := (e.attributeValue? Tree.propertyKey).getD ""

/-! ## Elements -/

mutual

def value (p : Printer) : Element → Nat → String
  | ⟨kind, attributes, content, range, nameRange⟩, level =>
    let e : Element := ⟨kind, attributes, content, range, nameRange⟩
    match kind with
    | .record => p.braces (p.typeEntry e ++ p.entries content (level + 1)) level
    | .collection => p.block "[" "]" (p.items content (level + 1)) level
    | ElementKind.annotation =>
      headed (p.annotationHead .embedded e)
        (p.promoted (p.embedded content (level + 1)) (fun l => p.firstValue content l) level)
    | .propertyValue => headed (propertyName e) (p.firstValue content level)
    | _ => p.primitive kind e.textOrEmpty

def items (p : Printer) : List Tree.Node → Nat → List String
  | [], _ => []
  | .element e :: nodes, level => p.value e level :: p.items nodes level
  | .text _ :: nodes, level => p.items nodes level

def entries (p : Printer) : List Tree.Node → Nat → List String
  | [], _ => []
  | .element ⟨kind, attributes, content, range, nameRange⟩ :: nodes, level =>
    let e : Element := ⟨kind, attributes, content, range, nameRange⟩
    (if kind = ElementKind.annotation then
        p.value ⟨kind, attributes, content, range, nameRange⟩ level
      else headed (propertyName e) (p.firstValue content level)) :: p.entries nodes level
  | .text _ :: nodes, level => p.entries nodes level

/-- The annotations among the content. -/
def embedded (p : Printer) : List Tree.Node → Nat → List String
  | [], _ => []
  | .element e :: nodes, level =>
    if e.kind = ElementKind.annotation then p.value e level :: p.embedded nodes level
    else p.embedded nodes level
  | .text _ :: nodes, level => p.embedded nodes level

def firstValue (p : Printer) : List Tree.Node → Nat → Option String
  | [], _ => none
  | .element e :: nodes, level =>
    if e.kind = ElementKind.annotation then p.firstValue nodes level else some (p.value e level)
  | .text _ :: nodes, level => p.firstValue nodes level

end

def annotationValue (p : Printer) (e : Element) (level : Nat) : Option String :=
  p.promoted (p.embedded e.content (level + 1)) (p.firstValue e.content) level

def annotation (p : Printer) (form : AnnotationForm) (e : Element) (level : Nat) : String :=
  headed (p.annotationHead form e) (p.annotationValue e level)

def property (p : Printer) (e : Element) (level : Nat) : String :=
  headed (propertyName e) (p.firstValue e.content level)

/-! ## Statements -/

/-- The annotations of a target: a single one bare, any other number in parentheses. -/
def assignments (p : Printer) (terms : List Element) (level : Nat) : String :=
  match terms with
  | [single] => p.annotation .bare single level
  | several =>
    "@" ++ p.block "(" ")" (several.map fun e => p.annotation .compound e (level + 1)) level

def target (p : Printer) (t : Tree.Target) : String :=
  match t.member? with
  | none => "annotate " ++ t.entity ++ " with " ++ p.assignments t.terms 0 ++ ";"
  | some member =>
    "annotate " ++ t.entity ++ " with " ++ Token.openBrace ++ "\n" ++ p.indent 1 ++
      String.ofList (Text.afterLast '/' member.toList) ++ " " ++ p.assignments t.terms 1 ++ ";\n" ++
      Token.closeBrace ++ ";"

def reference (r : Tree.Reference) : String :=
  "using" ++ (if r.name.isEmpty then "" else " " ++ r.name) ++
    (match r.nickname with
    | some name => " as " ++ name
    | none => "") ++
    (match r.uri with
    | some uri => " from " ++ quote uri
    | none => "") ++ ";"

end Printer

end AnnotationEdit

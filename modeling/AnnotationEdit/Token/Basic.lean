import AnnotationEdit.Text.Cut
import AnnotationEdit.Text.Position

/-!
# Tokens

A token is a piece of the source with its kind and range; an identifier may also carry the role the
parser gave it. Front ends hand out tokens in two shapes, an image with the place where it starts or
a text with its whole span, and both become the same `Token`.
-/

namespace AnnotationEdit

inductive TokenKind where
  | identifier
  | keyword
  | punctuation
  | string
  | number
  | lineComment
  | blockComment
deriving DecidableEq, Repr

inductive IdentifierKind where
  | entity
  | element
  | boundAction
  | param
  | term
  | property
  | other
deriving DecidableEq, Repr

namespace TokenKind

def guess (text : String) : TokenKind :=
  match text.toList with
  | '/' :: '/' :: _ => .lineComment
  | '/' :: '*' :: _ => .blockComment
  | [] => .punctuation
  | c :: _ =>
    if c = '\x27' || c = '\x60' then .string
    else if Text.isDigit c then .number
    else if Text.isAlphabetic c || c = '_' || c = '$' then .identifier
    else .punctuation

/-- The kind a front end's type name stands for, capitals aside. An unknown name leaves the decision
to the text. -/
def classify (typeName text : String) : TokenKind :=
  match Text.lowerAsciiText typeName with
  | "identifier" | "name" => .identifier
  | "keyword" => .keyword
  | "punctuation" | "operator" | "symbol" => .punctuation
  | "string" | "stringliteral" | "multilinestring" => .string
  | "number" | "numberliteral" => .number
  | "linecomment" | "comment" => .lineComment
  | "blockcomment" => .blockComment
  | _ => guess text

/-- The type name of a kind; `classify` takes it back to the kind. -/
def name : TokenKind → String
  | .identifier => "identifier"
  | .keyword => "keyword"
  | .punctuation => "punctuation"
  | .string => "string"
  | .number => "number"
  | .lineComment => "lineComment"
  | .blockComment => "blockComment"

def isComment : TokenKind → Bool
  | .lineComment | .blockComment => true
  | _ => false

end TokenKind

structure Token where
  kind : TokenKind
  text : String
  range : Range
  identifier : Option IdentifierKind
deriving DecidableEq, Repr

/-- A token as a front end hands it out. -/
inductive RawToken where
  /-- The text and where it starts; lines count from one, columns from zero. -/
  | image (image typeName : String) (line column : Nat) (identifier : Option IdentifierKind)
  /-- The text and its range. -/
  | span (text typeName : String) (range : Range) (identifier : Option IdentifierKind)
deriving DecidableEq, Repr

namespace Token

/-- The token of a raw token. The end of an image follows from its characters. -/
def ofRaw : RawToken → Token
  | .image image typeName line column identifier =>
    let start : Position := ⟨line - 1, column⟩
    ⟨TokenKind.classify typeName image, image, ⟨start, start.after image.toList⟩, identifier⟩
  | .span text typeName range identifier =>
    ⟨TokenKind.classify typeName text, text, range, identifier⟩

def toSpan (t : Token) : RawToken := .span t.text t.kind.name t.range t.identifier

def toImage (t : Token) : RawToken :=
  .image t.text t.kind.name (t.range.start.line + 1) t.range.start.character t.identifier

def isComment (t : Token) : Bool := t.kind.isComment

def isCode (t : Token) : Bool := !t.isComment

def is (t : Token) (mark : String) : Bool := t.kind == .punctuation && t.text == mark

def isKeyword (t : Token) (word : String) : Bool := t.kind == .keyword && t.text == word

/-- The word `word`, whether it counts as a keyword or as a name. -/
def isWord (t : Token) (word : String) : Bool :=
  (t.kind == .keyword || t.kind == .identifier) && t.text == word

def openBrace : String := "\x7b"

def closeBrace : String := "\x7d"

def isCloser (t : Token) : Bool := t.is ")" || t.is "]" || t.is closeBrace

def trails (t previous : Token) : Bool :=
  t.isComment && t.range.start.line == previous.range.stop.line

end Token

end AnnotationEdit

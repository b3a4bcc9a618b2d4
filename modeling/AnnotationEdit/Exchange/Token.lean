import AnnotationEdit.Exchange.Text
import AnnotationEdit.Token.Basic

/-!
# Tokens as data

A raw token is read in either of its shapes, the one with an image first.
-/

namespace AnnotationEdit

namespace IdentifierKind

def all : List IdentifierKind := [entity, element, boundAction, param, term, property, other]

def name : IdentifierKind → String
  | entity => "Entity"
  | element => "Element"
  | boundAction => "BoundAction"
  | param => "Param"
  | term => "Term"
  | property => "Property"
  | other => "Other"

def ofData? (d : Data) : Option IdentifierKind := do
  let name ← d.choice? .plain
  all.find? (·.name == name)

end IdentifierKind

namespace RawToken

def imageOfData? (d : Data) : Option RawToken := do
  match ← d.fields? ["image", "tokenType", "line", "column", "identifierKind"] 4 with
  | [text, typeName, line, column, identifier] =>
    return image (← (← text).text?) (← (← typeName).text?) (← (← line).small?) (← (← column).small?)
      (← Data.maybe? IdentifierKind.ofData? identifier)
  | _ => none

def rangeOfData? (d : Data) : Option Range := do
  match ← d.fields? ["line", "col", "endLine", "endCol"] 4 with
  | [line, column, endLine, endColumn] =>
    return ⟨⟨← (← line).small?, ← (← column).small?⟩,
      ⟨← (← endLine).small?, ← (← endColumn).small?⟩⟩
  | _ => none

def spanOfData? (d : Data) : Option RawToken := do
  match ← d.fields? ["text", "kind", "range", "identifierKind"] 3 with
  | [text, kind, range, identifier] =>
    return span (← (← text).text?) (← (← kind).text?) (← rangeOfData? (← range))
      (← Data.maybe? IdentifierKind.ofData? identifier)
  | _ => none

def ofData? (d : Data) : Option RawToken := (imageOfData? d).or (spanOfData? d)

end RawToken

def TokenKind.tag : TokenKind → String
  | identifier => "Identifier"
  | keyword => "Keyword"
  | punctuation => "Punctuation"
  | string => "String"
  | number => "Number"
  | lineComment => "LineComment"
  | blockComment => "BlockComment"

def Token.toData (t : Token) : Data :=
  .table [
    ("kind", .text t.kind.tag),
    ("text", .text t.text),
    ("range", t.range.toData),
    ("identifier", .orNull (fun k => .text k.name) t.identifier)]

end AnnotationEdit

import AnnotationEdit.Config.Vocabulary
import AnnotationEdit.Syntax.Basic
import AnnotationEdit.Token.Lexer
import AnnotationEdit.Tree.File

/-!
# From the concrete tree to the annotation tree

What a written file says. Three ways of writing are undone here:

* an item of a group stands for the term `Group.Item`;
* a dotted term such as `UI.HeaderInfo.Title.Value` stands for the term `UI.HeaderInfo` whose value
  is a record with the property `Title` whose value is a record with the property `Value`, and a
  dotted property name likewise; the records in between have the range of the whole;
* a record with the property `$value` as the value of an annotation stands for that value and the
  annotations beside it.
-/

namespace AnnotationEdit.Syntax

open AnnotationEdit.Tree (Element ElementKind Reference)

def unquote (text : String) : String :=
  let inner (quote : Char) : Option (List Char) :=
    match text.toList with
    | c :: cs => if c = quote && cs.getLast? == some quote then some cs.dropLast else none
    | [] => none
  match inner Lexer.quote, inner Lexer.backquote with
  | some cs, _ => String.ofList (single cs)
  | none, some cs => String.ofList cs
  | none, none => text
where
  /-- Two quotes stand for one. -/
  single : List Char → List Char
    | [] => []
    | [c] => [c]
    | c :: d :: cs =>
      if c = Lexer.quote && d = Lexer.quote then c :: single cs else c :: single (d :: cs)

/-- The vocabulary term of a written term, and the property names flattened into it. -/
def splitTerm (vocabulary : Vocabulary) (term : String) : String × List String :=
  match Text.split '.' (vocabulary.shorten term) with
  | first :: second :: third :: rest =>
    if vocabulary.isAlias first then (first ++ "." ++ second, third :: rest) else (term, [])
  | _ => (term, [])

/-- A property value, nested once for every further name. -/
def propertyElement (range : Range) (value : Option Element) : List String → Element
  | [] => Element.ofKind .record
  | name :: rest =>
    let inner := match rest with
      | [] => value
      | _ :: _ =>
        let nested := propertyElement range value rest
        some ⟨.record, [], [.element nested], some range, none⟩
    { Element.ofKind .propertyValue with
      content := inner.toList.map .element
      range := some range }.setAttribute Tree.propertyKey name none

def primitiveElement (p : Primitive) : Element :=
  let text (kind : ElementKind) (s : String) : Element :=
    ⟨kind, [], [.text ⟨s, none⟩], some p.range, none⟩
  match p.kind with
  | .string | .multiLineString => text .string (unquote p.text)
  | .number => text (if p.text.toList.contains '.' then .decimal else .int) p.text
  | .enum => text .enumMember (String.ofList (p.text.toList.drop 1))
  | .boolean => text .bool p.text
  | .path => text .path p.text
  | .null => { Element.ofKind .null with range := some p.range }

def annotationHead (term : String) (qualifier : Option Identifier) (range : Range) : Element :=
  let blank := { Element.ofKind ElementKind.annotation with range := some range }
  let e := blank.setAttribute Tree.termKey term none
  match qualifier with
  | some q =>
    e.setAttribute Tree.qualifierKey (String.ofList (q.text.toList.dropWhile (· == '#')))
      (some q.range)
  | none => e

/-- The value an annotation has: a record with `$value` stands for the value and the annotations
beside it. -/
def unwrapValue (isPromoted : Bool) (value : Element) : List Element :=
  if isPromoted then
    value.elements.filterMap fun child =>
      if child.kind == .propertyValue then
        if child.attributeValue? Tree.propertyKey == some "$value" then child.elements.head?
        else none
      else some child
  else [value]

def Value.isPromoted : Value → Bool
  | .record r => r.valueEntry?.isSome
  | _ => false

/-- The content of an annotation whose term has the names `flattened` folded in. -/
def annotationContent (flattened : List String) (range : Range) (isPromoted : Bool)
    (value : Option Element) : List Element :=
  match flattened with
  | [] => value.elim [] (unwrapValue isPromoted)
  | _ :: _ =>
    [⟨.record, [], [.element (propertyElement range value flattened)], some range, none⟩]

def annotationElement (vocabulary : Vocabulary) (term : String) (qualifier : Option Identifier)
    (range : Range) (isPromoted : Bool) (value : Option Element) : Element :=
  let (vocabularyTerm, flattened) := splitTerm vocabulary term
  { annotationHead vocabularyTerm qualifier range with
    content := (annotationContent flattened range isPromoted value).map .element }

def recordType? (entries : List Entry) : Option Primitive :=
  entries.foldl (fun found entry =>
    match entry with
    | .property ⟨_, name, _, some (.primitive p)⟩ => if name.text == "$Type" then some p else found
    | _ => found) none

mutual

def Value.element (vocabulary : Vocabulary) : Value → Element
  | .record r => r.element vocabulary
  | .collection ⟨range, items⟩ =>
    ⟨.collection, [], (elementsOf vocabulary items).map .element, some range, none⟩
  | .primitive p => primitiveElement p

def Record.element (vocabulary : Vocabulary) : Record → Element
  | ⟨range, entries⟩ =>
    let e : Element :=
      ⟨.record, [], (entryElements vocabulary entries).map .element, some range, none⟩
    match recordType? entries with
    | some p => e.setAttribute Tree.typeKey (unquote p.text) (some p.range)
    | none => e

def elementsOf (vocabulary : Vocabulary) : List Value → List Element
  | [] => []
  | v :: vs => v.element vocabulary :: elementsOf vocabulary vs

def optionElement (vocabulary : Vocabulary) : Option Value → Option Element
  | none => none
  | some v => some (v.element vocabulary)

/-- The elements of the entries; the type of the record is an attribute and not among them. -/
def entryElements (vocabulary : Vocabulary) : List Entry → List Element
  | [] => []
  | .property ⟨range, name, _, value⟩ :: entries =>
    if name.text == "$Type" then entryElements vocabulary entries
    else
      propertyElement range (optionElement vocabulary value) (name.segments.map (·.text)) ::
        entryElements vocabulary entries
  | .embedded ⟨range, _, term, qualifier, _, value, _⟩ :: entries =>
    annotationElement vocabulary term.text qualifier range (value.any Value.isPromoted)
      (optionElement vocabulary value) :: entryElements vocabulary entries

end

def Annotation.element (vocabulary : Vocabulary) (group : Option String) (a : Annotation) :
    Element :=
  let term := match group with
    | some name => name ++ "." ++ a.term.text
    | none => a.term.text
  annotationElement vocabulary term a.qualifier a.range (a.value.any Value.isPromoted)
    (optionElement vocabulary a.value)

def Assignment.elements (vocabulary : Vocabulary) : Assignment → List Element
  | .single a => [a.element vocabulary none]
  | .group g => g.items.items.map fun a => a.element vocabulary (some g.name.text)

def Target.abstraction (vocabulary : Vocabulary) (t : Target) : Tree.Target where
  name := t.name
  range := some t.range
  nameRange := some t.nameRange
  terms := t.assignments.flatMap (Assignment.elements vocabulary)

def Declaration.reference (d : Declaration) : Reference where
  name := (d.name.map (·.text)).getD ""
  nickname := d.nickname.map (·.text)
  uri := d.source.map fun p => unquote p.text
  range := some d.range

def File.abstraction (vocabulary : Vocabulary) (f : File) : Tree.File where
  uri := f.uri
  range := some f.range
  references := f.declarations.map Declaration.reference
  targets := f.targets.map (Target.abstraction vocabulary)

end AnnotationEdit.Syntax

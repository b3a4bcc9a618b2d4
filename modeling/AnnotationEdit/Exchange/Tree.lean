import AnnotationEdit.Exchange.Text
import AnnotationEdit.Tree.File

/-!
# Annotation trees as data

An element is a record with its kind under `name`; inside the content of another element it is a
variant and also says its `type`. Reading an element descends one level of the data for each level
of the tree, so the depth of the data bounds the descent.
-/

namespace AnnotationEdit.Tree

def ElementKind.all : List ElementKind :=
  [ElementKind.annotation, record, collection, propertyValue, string, bool, int, decimal, float,
    enumMember, path, propertyPath, navigationPropertyPath, annotationPath, null]

def ElementKind.ofData? (m : Data.Manner) (d : Data) : Option ElementKind := do
  let name ← d.choice? m
  ElementKind.all.find? (·.name == name)

namespace Attribute

def ofData? (d : Data) : Option Attribute := do
  match ← d.fields? ["name", "value", "range"] 2 with
  | [name, value, range] =>
    return ⟨← (← name).text?, ← (← value).text?, ← Data.maybe? Range.ofData? range⟩
  | _ => none

def allOfData? : Data → Option (List (String × Attribute))
  | .table fields => fields.mapM fun (key, d) => (ofData? d).map fun a => (key, a)
  | _ => none

def toData (a : Attribute) : Data :=
  .table ([("name", .text a.name), ("value", .text a.value)] ++
    Data.optionalField "range" Range.toData a.range)

end Attribute

namespace TextNode

def ofData? (d : Data) : Option TextNode := do
  match ← d.fields? ["text", "range"] 1 with
  | [text, range] => return ⟨← (← text).text?, ← Data.maybe? Range.ofData? range⟩
  | _ => none

def fields (t : TextNode) : List (String × Data) :=
  ("text", .text t.text) :: Data.optionalField "range" Range.toData t.range

end TextNode

/-! ## Elements -/

def Node.ofDataWith? (m : Data.Manner) (element : Data → Option Element) (d : Data) :
    Option Node := do
  match ← d.variant? m ["element", "text"] with
  | ("element", d) => return .element (← element d)
  | ("text", d) => return .text (← TextNode.ofData? d)
  | _ => none

namespace Element

def ofDataWithin? : Nat → Data.Manner → Data → Option Element
  | 0, _, _ => none
  | n + 1, m, d => do
    let node? := Node.ofDataWith? m (ofDataWithin? n .inVariant)
    match ← d.fields? ["name", "attributes", "content", "range", "nameRange"] 1 with
    | [kind, attributes, content, range, nameRange] =>
      return {
        kind := ← ElementKind.ofData? m (← kind)
        attributes := ← Data.orDefault? [] Attribute.allOfData? attributes
        content := ← Data.orDefault? [] (Data.listOf? node?) content
        range := ← Data.maybe? Range.ofData? range
        nameRange := ← Data.maybe? Range.ofData? nameRange }
    | _ => none

def ofData? (m : Data.Manner) (d : Data) : Option Element := ofDataWithin? (d.depth + 1) m d

def fieldsWith (content : List Data) (kind : ElementKind) (attributes : List (String × Attribute))
    (range nameRange : Option Range) : List (String × Data) :=
  [("name", .text kind.name),
    ("attributes", .table (attributes.map fun (key, a) => (key, a.toData))),
    ("content", .list content)] ++
    Data.optionalField "range" Range.toData range ++
    Data.optionalField "nameRange" Range.toData nameRange

mutual

def fields : Element → List (String × Data)
  | ⟨kind, attributes, content, range, nameRange⟩ =>
    fieldsWith (nodesToData content) kind attributes range nameRange

def nodesToData : List Node → List Data
  | [] => []
  | .element e :: nodes => .variant "element" e.fields :: nodesToData nodes
  | .text t :: nodes => .variant "text" t.fields :: nodesToData nodes

end

def toData (e : Element) : Data := .table e.fields

end Element

/-! ## Files -/

namespace Target

def ofData? (m : Data.Manner) (d : Data) : Option Target := do
  match ← d.fields? ["name", "range", "nameRange", "terms"] 1 with
  | [name, range, nameRange, terms] =>
    return ⟨← (← name).text?, ← Data.maybe? Range.ofData? range,
      ← Data.maybe? Range.ofData? nameRange,
      ← Data.orDefault? [] (Data.listOf? (Element.ofData? m)) terms⟩
  | _ => none

def toData (t : Target) : Data :=
  .table ([("name", .text t.name), ("terms", .listOf Element.toData t.terms)] ++
    Data.optionalField "range" Range.toData t.range ++
    Data.optionalField "nameRange" Range.toData t.nameRange)

end Target

namespace Reference

def ofData? (d : Data) : Option Reference := do
  match ← d.fields? ["name", "alias", "uri", "range"] 1 with
  | [name, nickname, uri, range] =>
    return ⟨← (← name).text?, ← Data.maybe? Data.text? nickname, ← Data.maybe? Data.text? uri,
      ← Data.maybe? Range.ofData? range⟩
  | _ => none

def toData (r : Reference) : Data :=
  .table ([("name", .text r.name)] ++ Data.optionalField "alias" Data.text r.nickname ++
    Data.optionalField "uri" Data.text r.uri ++ Data.optionalField "range" Range.toData r.range)

end Reference

namespace File

def ofData? (d : Data) : Option File := do
  match ← d.fields? ["uri", "range", "references", "targets"] 1 with
  | [uri, range, references, targets] =>
    return ⟨← (← uri).text?, ← Data.maybe? Range.ofData? range,
      ← Data.orDefault? [] (Data.listOf? Reference.ofData?) references,
      ← Data.orDefault? [] (Data.listOf? (Target.ofData? .plain)) targets⟩
  | _ => none

def toData (f : File) : Data :=
  .table ([("uri", .text f.uri), ("references", .listOf Reference.toData f.references),
    ("targets", .listOf Target.toData f.targets)] ++
    Data.optionalField "range" Range.toData f.range)

end File

end AnnotationEdit.Tree

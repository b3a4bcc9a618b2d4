import AnnotationEdit.Exchange.Text
import AnnotationEdit.Syntax.Basic

/-!
# Concrete trees as data

Parts that may be missing are null. Values are nested; reading one descends one level of the data
for each level of the tree, so the depth of the data bounds the descent. Annotations and their
values stand inside assignments, which are variants.
-/

namespace AnnotationEdit.Syntax

namespace Identifier

def ofData? (d : Data) : Option Identifier := do
  match ← d.fields? ["text", "range"] 2 with
  | [text, range] => return ⟨← (← text).text?, ← Range.ofData? (← range)⟩
  | _ => none

def toData (i : Identifier) : Data := .table [("text", .text i.text), ("range", i.range.toData)]

end Identifier

namespace Path

def ofData? (d : Data) : Option Path := do
  match ← d.fields? ["range", "segments"] 2 with
  | [range, segments] =>
    return ⟨← Range.ofData? (← range), ← (← segments).listOf? Identifier.ofData?⟩
  | _ => none

def toData (p : Path) : Data :=
  .table [("range", p.range.toData), ("segments", .listOf Identifier.toData p.segments)]

end Path

namespace PrimitiveKind

def all : List PrimitiveKind := [string, multiLineString, number, boolean, null, enum, path]

def name : PrimitiveKind → String
  | string => "String"
  | multiLineString => "MultiLineString"
  | number => "Number"
  | boolean => "Boolean"
  | null => "Null"
  | enum => "Enum"
  | path => "Path"

def ofData? (m : Data.Manner) (d : Data) : Option PrimitiveKind := do
  let name ← d.choice? m
  all.find? (·.name == name)

end PrimitiveKind

namespace Primitive

def ofData? (m : Data.Manner) (d : Data) : Option Primitive := do
  match ← d.fields? ["range", "kind", "text"] 3 with
  | [range, kind, text] =>
    return ⟨← Range.ofData? (← range), ← PrimitiveKind.ofData? m (← kind), ← (← text).text?⟩
  | _ => none

def fields (p : Primitive) : List (String × Data) :=
  [("range", p.range.toData), ("kind", .text p.kind.name), ("text", .text p.text)]

end Primitive

/-! ## Reading values

Each part is read with a reader for the values inside it. -/

def Annotation.ofDataWith? (value : Data → Option Value) (d : Data) : Option Annotation := do
  match ← d.fields? ["range", "at", "term", "qualifier", "colon", "value", "embedded"] 6 with
  | [range, sign, term, qualifier, colon, v, embedded] =>
    return ⟨← Range.ofData? (← range), ← Data.maybe? Range.ofData? sign, ← Path.ofData? (← term),
      ← Data.maybe? Identifier.ofData? qualifier, ← Data.maybe? Range.ofData? colon,
      ← Data.maybe? value v, ← Data.orDefault? false Data.bool? embedded⟩
  | _ => none

def Property.ofDataWith? (value : Data → Option Value) (d : Data) : Option Property := do
  match ← d.fields? ["range", "name", "colon", "value"] 4 with
  | [range, name, colon, v] =>
    return ⟨← Range.ofData? (← range), ← Path.ofData? (← name),
      ← Data.maybe? Range.ofData? colon, ← Data.maybe? value v⟩
  | _ => none

def Entry.ofDataWith? (value : Data → Option Value) (d : Data) : Option Entry := do
  match ← d.variant? .inVariant ["property", "annotation"] with
  | ("property", d) => return .property (← Property.ofDataWith? value d)
  | ("annotation", d) => return .embedded (← Annotation.ofDataWith? value d)
  | _ => none

def Record.ofDataWith? (value : Data → Option Value) (d : Data) : Option Record := do
  match ← d.fields? ["range", "entries"] 2 with
  | [range, entries] =>
    return ⟨← Range.ofData? (← range), ← (← entries).listOf? (Entry.ofDataWith? value)⟩
  | _ => none

def Collection.ofDataWith? (value : Data → Option Value) (d : Data) : Option Collection := do
  match ← d.fields? ["range", "items"] 2 with
  | [range, items] => return ⟨← Range.ofData? (← range), ← (← items).listOf? value⟩
  | _ => none

def Value.ofDataWithin? : Nat → Data → Option Value
  | 0, _ => none
  | n + 1, d => do
    match ← d.variant? .inVariant ["record", "collection", "primitive"] with
    | ("record", d) => return .record (← Record.ofDataWith? (ofDataWithin? n) d)
    | ("collection", d) => return .collection (← Collection.ofDataWith? (ofDataWithin? n) d)
    | ("primitive", d) => return .primitive (← Primitive.ofData? .inVariant d)
    | _ => none

def Value.ofData? (d : Data) : Option Value := ofDataWithin? (d.depth + 1) d

def Annotation.ofData? (d : Data) : Option Annotation := ofDataWith? Value.ofData? d

/-! ## Writing values -/

def annotationFields (range : Range) (atSign : Option Range) (term : Path)
    (qualifier : Option Identifier) (colon : Option Range) (value : Data) (embedded : Bool) :
    List (String × Data) :=
  [("range", range.toData), ("at", .orNull Range.toData atSign), ("term", term.toData),
    ("qualifier", .orNull Identifier.toData qualifier), ("colon", .orNull Range.toData colon),
    ("value", value), ("embedded", .bool embedded)]

mutual

def Value.toData : Value → Data
  | .record ⟨range, entries⟩ =>
    .variant "record" [("range", range.toData), ("entries", .list (entriesToData entries))]
  | .collection ⟨range, items⟩ =>
    .variant "collection" [("range", range.toData), ("items", .list (valuesToData items))]
  | .primitive p => .variant "primitive" p.fields

def valuesToData : List Value → List Data
  | [] => []
  | v :: vs => v.toData :: valuesToData vs

def optionToData : Option Value → Data
  | none => .null
  | some v => v.toData

def entriesToData : List Entry → List Data
  | [] => []
  | .property ⟨range, name, colon, value⟩ :: entries =>
    .variant "property" [("range", range.toData), ("name", name.toData),
      ("colon", .orNull Range.toData colon), ("value", optionToData value)] ::
      entriesToData entries
  | .embedded ⟨range, atSign, term, qualifier, colon, value, embedded⟩ :: entries =>
    .variant "annotation"
      (annotationFields range atSign term qualifier colon (optionToData value) embedded) ::
      entriesToData entries

end

def Annotation.fields (a : Annotation) : List (String × Data) :=
  annotationFields a.range a.atSign a.term a.qualifier a.colon (optionToData a.value) a.embedded

/-! ## Targets and files -/

namespace GroupItems

def ofData? (d : Data) : Option GroupItems := do
  match ← d.fields? ["range", "items"] 2 with
  | [range, items] => return ⟨← Range.ofData? (← range), ← (← items).listOf? Annotation.ofData?⟩
  | _ => none

def toData (i : GroupItems) : Data :=
  .table [("range", i.range.toData), ("items", .listOf (fun a => .table a.fields) i.items)]

end GroupItems

namespace Group

def ofData? (d : Data) : Option Group := do
  match ← d.fields? ["range", "at", "name", "colon", "items"] 5 with
  | [range, sign, name, colon, items] =>
    return ⟨← Range.ofData? (← range), ← Data.maybe? Range.ofData? sign,
      ← Identifier.ofData? (← name), ← Range.ofData? (← colon), ← GroupItems.ofData? (← items)⟩
  | _ => none

def fields (g : Group) : List (String × Data) :=
  [("range", g.range.toData), ("at", .orNull Range.toData g.atSign), ("name", g.name.toData),
    ("colon", g.colon.toData), ("items", g.items.toData)]

end Group

namespace Assignment

def ofData? (d : Data) : Option Assignment := do
  match ← d.variant? .plain ["annotation", "group"] with
  | ("annotation", d) => return .single (← Annotation.ofData? d)
  | ("group", d) => return .group (← Group.ofData? d)
  | _ => none

def toData : Assignment → Data
  | single a => .variant "annotation" a.fields
  | group g => .variant "group" g.fields

end Assignment

namespace TargetKind

def all : List TargetKind := [entity, element, boundAction, parameter]

def name : TargetKind → String
  | entity => "Entity"
  | element => "Element"
  | boundAction => "BoundAction"
  | parameter => "Parameter"

def ofData? (d : Data) : Option TargetKind := do
  let name ← d.choice? .plain
  all.find? (·.name == name)

end TargetKind

namespace Target

def ofData? (d : Data) : Option Target := do
  match ← d.fields? ["kind", "name", "nameRange", "range", "compound", "assignments"] 6 with
  | [kind, name, nameRange, range, compound, assignments] =>
    return ⟨← TargetKind.ofData? (← kind), ← (← name).text?, ← Range.ofData? (← nameRange),
      ← Range.ofData? (← range), ← Data.maybe? Range.ofData? compound,
      ← (← assignments).listOf? Assignment.ofData?⟩
  | _ => none

def toData (t : Target) : Data :=
  .table [("kind", .text t.kind.name), ("name", .text t.name), ("nameRange", t.nameRange.toData),
    ("range", t.range.toData), ("compound", .orNull Range.toData t.compound),
    ("assignments", .listOf Assignment.toData t.assignments)]

end Target

namespace Declaration

def ofData? (d : Data) : Option Declaration := do
  match ← d.fields? ["range", "name", "alias", "from"] 4 with
  | [range, name, nickname, source] =>
    return ⟨← Range.ofData? (← range), ← Data.maybe? Path.ofData? name,
      ← Data.maybe? Identifier.ofData? nickname, ← Data.maybe? (Primitive.ofData? .plain) source⟩
  | _ => none

def toData (d : Declaration) : Data :=
  .table [("range", d.range.toData), ("name", .orNull Path.toData d.name),
    ("alias", .orNull Identifier.toData d.nickname),
    ("from", .orNull (fun p => .table p.fields) d.source)]

end Declaration

namespace File

def ofData? (d : Data) : Option File := do
  match ← d.fields? ["uri", "range", "usings", "targets"] 2 with
  | [uri, range, declarations, targets] =>
    return ⟨← (← uri).text?, ← Range.ofData? (← range),
      ← Data.orDefault? [] (Data.listOf? Declaration.ofData?) declarations,
      ← Data.orDefault? [] (Data.listOf? Target.ofData?) targets⟩
  | _ => none

def toData (f : File) : Data :=
  .table [("uri", .text f.uri), ("range", f.range.toData),
    ("usings", .listOf Declaration.toData f.declarations),
    ("targets", .listOf Target.toData f.targets)]

end File

end AnnotationEdit.Syntax

import AnnotationEdit.Exchange.Tree
import AnnotationEdit.Operation

/-!
# Operations as data

An operation is a variant: a record with the name of its kind under `type`. What it carries stands
inside a variant.
-/

namespace AnnotationEdit

def Insertable.all : List Insertable :=
  [.record, .collection, .recordProperty, .primitiveValue, Insertable.annotation,
    Insertable.embeddedAnnotation]

def Deletable.all : List Deletable :=
  [target, Deletable.annotation, annotationGroup, annotationGroupItems, embeddedAnnotation, record,
    collection, primitiveValue, recordProperty, qualifier]

namespace Operation

def carriedElement? : Data → Option Tree.Element := Tree.Element.ofData? .inVariant

def carriedTarget? : Data → Option Tree.Target := Tree.Target.ofData? .inVariant

def atPointer? (action : Action) (d : Data) : Option Operation := do
  match ← d.fields? ["pointer"] 1 with
  | [p] => return ⟨← Pointer.ofData? (← p), action⟩
  | _ => none

def withField? {α : Type} (name : String) (read : Data → Option α) (action : α → Action)
    (d : Data) : Option Operation := do
  match ← d.fields? ["pointer", name] 2 with
  | [p, field] => return ⟨← Pointer.ofData? (← p), action (← read (← field))⟩
  | _ => none

def withPlace? {α : Type} (name : String) (read : Data → Option α)
    (action : Option Nat → α → Action) (d : Data) : Option Operation := do
  match ← d.fields? ["pointer", "index", name] 3 with
  | [p, index, field] =>
    return ⟨← Pointer.ofData? (← p),
      action (← Data.maybe? Data.natural? index) (← read (← field))⟩
  | _ => none

/-- The mark for parentheses; they are necessary unless it says otherwise. -/
def conversion? (d : Data) : Option Operation := do
  match ← d.fields? ["pointer", "unnecessary"] 1 with
  | [p, unnecessary] =>
    return ⟨← Pointer.ofData? (← p),
      .convertToCompound (← Data.orDefault? false Data.bool? unnecessary)⟩
  | _ => none

def reader? (name : String) : Option (Data → Option Operation) :=
  match name with
  | "insert-target" => some (withPlace? "target" carriedTarget? .insertTarget)
  | "insert-qualifier" => some (withField? "value" Data.text? .insertQualifier)
  | "insert-reference" => some (withField? "reference" Tree.Reference.ofData? .insertReference)
  | "replace-node" => some (withField? "element" carriedElement? .replaceNode)
  | "replace-record-property" => some (withField? "element" carriedElement? .replaceRecordProperty)
  | "replace-text-value" => some (withField? "text" Data.text? .replaceTextValue)
  | "update-primitive-value" => some (withField? "element" carriedElement? .updatePrimitiveValue)
  | "set-flags" => some (withField? "value" Data.text? .setFlags)
  | "move-collection-value" =>
    some (withPlace? "fromPointers" (Data.listOf? Pointer.ofData?) .moveCollectionValue)
  | "convert-to-compound-annotation" => some conversion?
  | name =>
    match Insertable.all.find? fun what => "insert-" ++ what.name == name with
    | some what => some (withPlace? "element" carriedElement? (.insert what))
    | none =>
      (Deletable.all.find? fun what => "delete-" ++ what.name == name).map fun what =>
        atPointer? (.delete what)

def ofData? (d : Data) : Option Operation := do
  let (name, d) ← d.namedVariant?
  (← reader? name) d

end Operation

def Action.fields : Action → List (String × Data)
  | insertTarget index t => Data.optionalField "index" Data.number index ++ [("target", t.toData)]
  | insert _ index e => Data.optionalField "index" Data.number index ++ [("element", e.toData)]
  | insertQualifier v => [("value", .text v)]
  | insertReference r => [("reference", r.toData)]
  | delete _ => []
  | replaceNode e => [("element", e.toData)]
  | replaceRecordProperty e => [("element", e.toData)]
  | replaceTextValue t => [("text", .text t)]
  | updatePrimitiveValue e => [("element", e.toData)]
  | setFlags v => [("value", .text v)]
  | moveCollectionValue index sources =>
    Data.optionalField "index" Data.number index ++
      [("fromPointers", .listOf Pointer.toData sources)]
  | convertToCompound unnecessary => [("unnecessary", .bool unnecessary)]

def Operation.toData (o : Operation) : Data :=
  .variant o.kindName (("pointer", o.pointer.toData) :: o.action.fields)

namespace Command

def ofData? : Data → Option Command
  | .text "pick" => some pick
  | .text "drop" => some drop
  | .table [("replace", d)] => (d.listOf? Operation.ofData?).map replace
  | _ => none

def toData : Command → Data
  | pick => .text "pick"
  | drop => .text "drop"
  | replace operations => .table [("replace", .listOf Operation.toData operations)]

end Command

end AnnotationEdit

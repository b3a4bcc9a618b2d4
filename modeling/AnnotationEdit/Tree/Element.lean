import AnnotationEdit.Text.Position

/-!
# Elements of the annotation tree

The annotation tree says what is annotated, independent of how it is written. An element has a kind,
attributes and content: an annotation owns its value and its embedded annotations, a record its
property values, a collection its items, a primitive its text. A node without a range does not stand
in the source.
-/

namespace AnnotationEdit.Tree

inductive ElementKind where
  | annotation
  | record
  | collection
  | propertyValue
  | string
  | bool
  | int
  | decimal
  | float
  | enumMember
  | path
  | propertyPath
  | navigationPropertyPath
  | annotationPath
  | null
deriving DecidableEq, Repr

namespace ElementKind

/-- A value that holds a text and no elements. -/
def isPrimitive : ElementKind → Bool
  | ElementKind.annotation | .record | .collection | .propertyValue => false
  | _ => true

def name : ElementKind → String
  | ElementKind.annotation => "Annotation"
  | .record => "Record"
  | .collection => "Collection"
  | .propertyValue => "PropertyValue"
  | .string => "String"
  | .bool => "Bool"
  | .int => "Int"
  | .decimal => "Decimal"
  | .float => "Float"
  | .enumMember => "EnumMember"
  | .path => "Path"
  | .propertyPath => "PropertyPath"
  | .navigationPropertyPath => "NavigationPropertyPath"
  | .annotationPath => "AnnotationPath"
  | .null => "Null"

end ElementKind

structure Attribute where
  name : String
  value : String
  range : Option Range
deriving DecidableEq, Repr

structure TextNode where
  text : String
  range : Option Range
deriving DecidableEq, Repr

mutual

/-- A node of the annotation tree. The attributes are listed under their keys, each key once. -/
structure Element where
  kind : ElementKind
  attributes : List (String × Attribute)
  content : List Node
  range : Option Range
  nameRange : Option Range

/-- What an element contains. -/
inductive Node where
  | element (element : Element)
  | text (text : TextNode)

end

namespace Node

def range : Node → Option Range
  | element e => e.range
  | text t => t.range

def element? : Node → Option Element
  | element e => some e
  | text _ => none

def text? : Node → Option String
  | element _ => none
  | text t => some t.text

end Node

/-! ## The attributes with a meaning -/

def termKey : String := "Term"

def qualifierKey : String := "Qualifier"

def typeKey : String := "Type"

def propertyKey : String := "Property"

namespace Element

/-- An element without attributes, content or place. -/
def ofKind (kind : ElementKind) : Element := ⟨kind, [], [], none, none⟩

def setAttribute (e : Element) (key value : String) (range : Option Range) : Element :=
  let entry := (key, Attribute.mk key value range)
  let attributes :=
    if e.attributes.any (·.1 == key) then
      e.attributes.map fun old => if old.1 == key then entry else old
    else e.attributes ++ [entry]
  { e with attributes := attributes }

def attribute? (e : Element) (key : String) : Option Attribute :=
  (e.attributes.find? (·.1 == key)).map (·.2)

def attributeValue? (e : Element) (key : String) : Option String :=
  (e.attribute? key).map (·.value)

def term? (e : Element) : Option String := e.attributeValue? termKey

def qualifier? (e : Element) : Option String := e.attributeValue? qualifierKey

def elements (e : Element) : List Element := e.content.filterMap Node.element?

def text? (e : Element) : Option String := e.content.findSome? Node.text?

/-- The text of a primitive, empty when it has none. -/
def textOrEmpty (e : Element) : String := e.text?.getD ""

def value? (e : Element) : Option Element := e.elements.find? (·.kind != ElementKind.annotation)

def embedded (e : Element) : List Element := e.elements.filter (·.kind == ElementKind.annotation)

def properties (e : Element) : List Element := e.elements.filter (·.kind == .propertyValue)

def isContainer (e : Element) : Bool := e.kind == .record || e.kind == .collection

end Element

end AnnotationEdit.Tree

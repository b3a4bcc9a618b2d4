import AnnotationEdit.Proofs.Printing.Spelling
import AnnotationEdit.Proofs.Syntax.Abstraction

/-!
# Printable elements

The annotations that the printer can write so that they are read back. An element is compared with
what is read by its canonical form: the attributes in the order of their keys, no ranges, and the
names of terms and types rewritten. What is printed has these names shortened.
-/

namespace AnnotationEdit

namespace Tree

/-! ## Canonical elements -/

/-- The value of the first attribute under a key. -/
def valueUnder? (attributes : List (String × Attribute)) (key : String) : Option String :=
  (attributes.find? (·.1 == key)).map (·.2.value)

/-- The keys of the attributes with a meaning. -/
def knownKeys : List String := [termKey, qualifierKey, typeKey, propertyKey]

/-- The value of an attribute, rewritten where it is the name of a term or type. -/
def renamed (f : String → String) (key value : String) : String :=
  if key == termKey || key == typeKey then f value else value

/-- The known attributes in the order of their keys and then the others, all without ranges. -/
def canonicalAttributes (f : String → String) (attributes : List (String × Attribute)) :
    List (String × Attribute) :=
  (knownKeys.filterMap fun key =>
    (valueUnder? attributes key).map fun value => (key, ⟨key, renamed f key value, none⟩)) ++
  (attributes.filter fun entry => !knownKeys.contains entry.1).map fun entry =>
    (entry.1, { entry.2 with range := none })

mutual

/-- The element without ranges, the names of terms and types in it rewritten by `f`. -/
def Element.canonical (f : String → String) : Element → Element
  | ⟨kind, attributes, content, _, _⟩ =>
    ⟨kind, canonicalAttributes f attributes, canonicalContent f content, none, none⟩

def canonicalContent (f : String → String) : List Node → List Node
  | [] => []
  | .element e :: nodes => .element (e.canonical f) :: canonicalContent f nodes
  | .text t :: nodes => .text ⟨t.text, none⟩ :: canonicalContent f nodes

end

theorem canonicalContent_elements (f : String → String) :
    ∀ es : List Element,
      canonicalContent f (es.map .element) = (es.map (·.canonical f)).map .element
  | [] => rfl
  | e :: es => by
      rw [List.map_cons, canonicalContent, canonicalContent_elements f es]
      rfl

/-- The attributes are all under some of the keys. -/
def onlyKeys (keys : List String) (attributes : List (String × Attribute)) : Bool :=
  attributes.all fun entry => keys.contains entry.1

theorem eq_nil_of_onlyKeys {attributes : List (String × Attribute)}
    (h : onlyKeys [] attributes = true) : attributes = [] := by
  cases attributes with
  | nil => rfl
  | cons entry attributes => cases h

theorem valueUnder?_eq_none {keys : List String} {attributes : List (String × Attribute)}
    {key : String} (h : onlyKeys keys attributes = true) (hkey : keys.contains key = false) :
    valueUnder? attributes key = none := by
  rw [valueUnder?, Option.map_eq_none_iff, List.find?_eq_none]
  intro entry hentry heq
  have hmem := List.all_eq_true.mp h entry hentry
  rw [beq_iff_eq.mp heq, hkey] at hmem
  cases hmem

theorem filterMap_knownKeys {α : Type} (g : String → Option α) : knownKeys.filterMap g =
    (g termKey).toList ++ ((g qualifierKey).toList ++ ((g typeKey).toList ++
      (g propertyKey).toList)) := by
  have hcons : ∀ key keys, (key :: keys).filterMap g = (g key).toList ++ keys.filterMap g := by
    intro key keys
    cases h : g key with
    | none => rw [List.filterMap_cons_none h]; rfl
    | some a => rw [List.filterMap_cons_some h]; rfl
  rw [knownKeys, hcons, hcons, hcons, hcons, List.filterMap_nil, List.append_nil]

/-- Elements with known attributes alone: the others drop out of the canonical form. -/
theorem canonicalAttributes_of_onlyKeys {f : String → String} {keys : List String}
    {attributes : List (String × Attribute)} (h : onlyKeys keys attributes = true)
    (hkeys : keys.all knownKeys.contains = true) :
    canonicalAttributes f attributes =
      knownKeys.filterMap fun key =>
        (valueUnder? attributes key).map fun value => (key, ⟨key, renamed f key value, none⟩) := by
  have hnone : (attributes.filter fun entry => !knownKeys.contains entry.1) = [] := by
    rw [List.filter_eq_nil_iff]
    intro entry hentry
    have hmem := List.contains_iff_mem.mp (List.all_eq_true.mp h entry hentry)
    rw [List.all_eq_true.mp hkeys entry.1 hmem]
    decide
  rw [canonicalAttributes, hnone, List.map_nil, List.append_nil]

end Tree

/-! ## Shortened names -/

namespace Text

theorem pieces_eq_singleton {sep : Char} :
    ∀ {cs : List Char}, sep ∉ cs → pieces sep cs = [cs]
  | [], _ => rfl
  | c :: cs, h => by
      rw [List.mem_cons, not_or] at h
      rw [pieces, if_neg (Ne.symm h.1), pieces_eq_singleton h.2]

theorem pieces_append (sep : Char) (ds : List Char) :
    ∀ cs : List Char, pieces sep (cs ++ sep :: ds) = pieces sep cs ++ pieces sep ds
  | [] => by simp [pieces]
  | c :: cs => by
      have ih := pieces_append sep ds cs
      obtain ⟨q, qs, hpieces, _⟩ := Lexer.pieces_eq_cons sep cs
      by_cases hc : c = sep
      · simp [pieces, hc, ih]
      · simp [pieces, hc, ih, hpieces]

theorem split_append (s t : String) : split '.' (s ++ "." ++ t) = split '.' s ++ split '.' t := by
  rw [split, String.toList_append, String.toList_append, List.append_assoc]
  exact (congrArg _ (pieces_append '.' t.toList s.toList)).trans List.map_append

end Text

namespace Lexer

theorem isNameChar_of_isName {s : String} {c : Char} (h : isName s = true) (hc : c ∈ s.toList) :
    isNameChar c = true := by
  simp only [isName, Bool.and_eq_true] at h
  cases hs : s.toList with
  | nil =>
      rw [hs] at hc
      exact absurd hc List.not_mem_nil
  | cons d ds =>
      rw [hs] at h hc
      simp only [isWord, Bool.and_eq_true] at h
      rcases List.mem_cons.mp hc with rfl | hc
      · exact h.1.1.1
      · exact List.all_eq_true.mp h.1.2 c hc

theorem not_mem_of_isName {s : String} {c : Char} (h : isName s = true)
    (hc : isNameChar c = false) : c ∉ s.toList := by
  intro hmem
  rw [isNameChar_of_isName h hmem] at hc
  cases hc

theorem split_of_isName {s : String} (h : isName s = true) : Text.split '.' s = [s] := by
  rw [Text.split, Text.pieces_eq_singleton (not_mem_of_isName h (by decide)), List.map_singleton,
    String.ofList_toList]

theorem isDotted_of_isName {s : String} (h : isName s = true) : isDotted s = true := by
  rw [isDotted, split_of_isName h, List.all_cons, h]
  rfl

end Lexer

namespace Vocabulary

theorem isName_of_standard : ∀ entry ∈ standard.aliases, Lexer.isName entry.2 = true := by
  decide +kernel

theorem isDotted_shorten {name : String} (h : Lexer.isDotted name = true) :
    Lexer.isDotted (standard.shorten name) = true := by
  rcases shorten_cases standard name with heq | ⟨entry, hentry, rest, rfl, heq⟩
  · rw [heq]
    exact h
  · have hname := isName_of_standard entry hentry
    rw [Lexer.isDotted, Text.split_append, List.all_append, Bool.and_eq_true] at h
    rw [heq, Lexer.isDotted, Text.split_append, List.all_append, Bool.and_eq_true,
      Lexer.split_of_isName hname, List.all_cons, hname]
    exact ⟨rfl, h.2⟩

theorem shorten_of_isName (v : Vocabulary) {name : String} (h : Lexer.isName name = true) :
    v.shorten name = name := by
  rcases shorten_cases v name with heq | ⟨entry, _, rest, hname, _⟩
  · exact heq
  · have hdot : '.' ∈ name.toList := by
      rw [hname, String.toList_append, String.toList_append]
      exact List.mem_append_left _ (List.mem_append_right _ List.mem_cons_self)
    exact absurd hdot (Lexer.not_mem_of_isName h (by decide))

end Vocabulary

/-! ## Printable elements -/

open AnnotationEdit.Tree (Element ElementKind onlyKeys)

namespace Printable

/-- A dotted term. Below a vocabulary it is a single name, so that no property is folded into it. -/
def isTerm (v : Vocabulary) (term : String) : Bool :=
  Lexer.isDotted term &&
    match Text.split '.' (v.shorten term) with
    | first :: rest => !v.isAlias first || rest.length == 1
    | [] => false

theorem isTerm_of_isName {v : Vocabulary} {name : String} (h : Lexer.isName name = true)
    (halias : v.isAlias name = false) : isTerm v name = true := by
  rw [isTerm, Lexer.isDotted_of_isName h, Vocabulary.shorten_of_isName v h,
    Lexer.split_of_isName h]
  simp only [halias, Bool.not_false, Bool.true_or, Bool.and_self]

/-- The name of a property that is not one of the two with a meaning of their own. -/
def isPropertyName (name : String) : Bool :=
  Lexer.isName name && name != "$Type" && name != "$value"

def isPath (text : String) : Bool :=
  Lexer.isDotted text && text != "true" && text != "false" && text != "null"

/-- What the text of a primitive of a kind can be. -/
def isLiteral (kind : ElementKind) (text : String) : Bool :=
  match kind with
  | .string => true
  | .bool => text == "true" || text == "false"
  | .int => Lexer.isNumber text && !text.toList.contains '.'
  | .decimal => Lexer.isNumber text && text.toList.contains '.'
  | .path => isPath text
  | .enumMember => Lexer.isName text
  | _ => false

/-- The content of a primitive: its text, or nothing for null. -/
def isLiteralContent (kind : ElementKind) : List Tree.Node → Bool
  | [] => kind == .null
  | [.text t] => isLiteral kind t.text
  | _ => false

mutual

/-- A value. -/
def isValue (v : Vocabulary) : Element → Bool
  | ⟨kind, attributes, content, _, _⟩ =>
    match kind with
    | .record => onlyKeys [Tree.typeKey] attributes && areEntries v content
    | .collection => onlyKeys [] attributes && areValues v content
    | _ => onlyKeys [] attributes && isLiteralContent kind content

/-- An entry of a record: an annotation or a property. -/
def isEntry (v : Vocabulary) : Element → Bool
  | ⟨kind, attributes, content, _, _⟩ =>
    match kind with
    | ElementKind.annotation =>
      onlyKeys [Tree.termKey, Tree.qualifierKey] attributes &&
        (Tree.valueUnder? attributes Tree.termKey).any (isTerm v) &&
        (Tree.valueUnder? attributes Tree.qualifierKey).all Lexer.isName && isContent v content
    | .propertyValue =>
      onlyKeys [Tree.propertyKey] attributes &&
        (Tree.valueUnder? attributes Tree.propertyKey).any isPropertyName && isSingle v content
    | _ => false

/-- The items of a collection. -/
def areValues (v : Vocabulary) : List Tree.Node → Bool
  | [] => true
  | .element e :: nodes => isValue v e && areValues v nodes
  | .text _ :: _ => false

/-- The entries of a record. -/
def areEntries (v : Vocabulary) : List Tree.Node → Bool
  | [] => true
  | .element e :: nodes => isEntry v e && areEntries v nodes
  | .text _ :: _ => false

def areEmbedded (v : Vocabulary) : List Tree.Node → Bool
  | [] => true
  | .element e :: nodes =>
    e.kind == ElementKind.annotation && isEntry v e && areEmbedded v nodes
  | .text _ :: _ => false

/-- The content of an annotation: nothing, or a value and its annotations. -/
def isContent (v : Vocabulary) : List Tree.Node → Bool
  | [] => true
  | .element e :: nodes => isValue v e && areEmbedded v nodes
  | .text _ :: _ => false

/-- The content of a property: nothing or a value. -/
def isSingle (v : Vocabulary) : List Tree.Node → Bool
  | [] => true
  | .element e :: nodes => isValue v e && nodes.isEmpty
  | .text _ :: _ => false

end

end Printable

/-- The annotation can be written and read back. -/
def Tree.Element.isPrintable (v : Vocabulary) (e : Element) : Bool :=
  e.kind == ElementKind.annotation && Printable.isEntry v e

end AnnotationEdit

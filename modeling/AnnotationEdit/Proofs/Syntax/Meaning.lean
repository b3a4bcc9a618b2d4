import AnnotationEdit.Proofs.Printing.Printable
import AnnotationEdit.Proofs.Syntax.Content

/-!
# What is said, wherever it is written

Files of one content stand for annotation trees that are the same but for their ranges
(`Syntax.File.bare_of_content`). The abstraction looks at names, at literals and at which entries a
record has, so the proof goes along its recursion.
-/

namespace AnnotationEdit

namespace Tree

/-! ## Trees without ranges -/

mutual

/-- The element without ranges. -/
def Element.bare : Element → Element
  | ⟨kind, attributes, content, _, _⟩ =>
    ⟨kind, attributes.map fun entry => (entry.1, { entry.2 with range := none }),
      bareContent content, none, none⟩

def bareContent : List Node → List Node
  | [] => []
  | .element e :: nodes => .element e.bare :: bareContent nodes
  | .text t :: nodes => .text ⟨t.text, none⟩ :: bareContent nodes

end

/-- The target without ranges. -/
def Target.bare (t : Target) : Target := ⟨t.name, none, none, t.terms.map (·.bare)⟩

/-- The reference without its range. -/
def Reference.bare (r : Reference) : Reference := { r with range := none }

/-- The file without ranges. -/
def File.bare (f : File) : File := ⟨f.uri, none, f.references.map (·.bare), f.targets.map (·.bare)⟩

theorem bareContent_elements : ∀ es : List Element,
    bareContent (es.map .element) = (es.map (·.bare)).map .element
  | [] => rfl
  | e :: es => by
      rw [List.map_cons, bareContent, bareContent_elements es]
      rfl

namespace Element

theorem kind_bare (e : Element) : e.bare.kind = e.kind := by
  cases e
  rw [bare]

theorem elements_bare (e : Element) : e.bare.elements = e.elements.map (·.bare) := by
  obtain ⟨kind, attributes, content, range, nameRange⟩ := e
  rw [bare]
  show (bareContent content).filterMap Node.element? =
    (content.filterMap Node.element?).map (·.bare)
  induction content with
  | nil => rfl
  | cons node nodes ih =>
      cases node with
      | element e => exact congrArg (e.bare :: ·) ih
      | text t => exact ih

theorem attributeValue?_bare (e : Element) (key : String) :
    e.bare.attributeValue? key = e.attributeValue? key := by
  cases e
  rw [bare, attributeValue?, attributeValue?, attribute?, attribute?, List.find?_map]
  simp only [Option.map_map]
  rfl

theorem bare_congr {e e' : Element} {es es' : List Element} (hkind : e.kind = e'.kind)
    (hattributes : e.attributes.map (fun entry => (entry.1, { entry.2 with range := none })) =
      e'.attributes.map fun entry => (entry.1, { entry.2 with range := none }))
    (hcontent : e.content = es.map .element) (hcontent' : e'.content = es'.map .element)
    (h : es.map (·.bare) = es'.map (·.bare)) : e.bare = e'.bare := by
  cases e
  cases e'
  dsimp only at hkind hattributes hcontent hcontent'
  rw [bare, bare, hkind, hattributes, hcontent, hcontent', bareContent_elements,
    bareContent_elements, h]

end Element

theorem canonicalAttributes_bare (f : String → String) (attributes : List (String × Attribute)) :
    canonicalAttributes f (attributes.map fun entry => (entry.1, { entry.2 with range := none })) =
      canonicalAttributes f attributes := by
  have hvalue : ∀ key, valueUnder? (attributes.map fun entry =>
      (entry.1, { entry.2 with range := none })) key = valueUnder? attributes key := by
    intro key
    rw [valueUnder?, valueUnder?, List.find?_map, Option.map_map]
    rfl
  rw [canonicalAttributes, canonicalAttributes, List.filter_map, List.map_map]
  simp only [hvalue]
  rfl

mutual

/-- The canonical form does not look at ranges. -/
theorem Element.canonical_bare (f : String → String) : ∀ e : Element,
    e.bare.canonical f = e.canonical f
  | ⟨kind, attributes, content, range, nameRange⟩ => by
      rw [Element.bare, Element.canonical, Element.canonical, canonicalAttributes_bare,
        canonicalContent_bare f content]

theorem canonicalContent_bare (f : String → String) : ∀ nodes : List Node,
    canonicalContent f (bareContent nodes) = canonicalContent f nodes
  | [] => by rw [bareContent]
  | .element e :: nodes => by
      rw [bareContent, canonicalContent, canonicalContent, e.canonical_bare f,
        canonicalContent_bare f nodes]
  | .text t :: nodes => by
      rw [bareContent, canonicalContent, canonicalContent, canonicalContent_bare f nodes]

end

end Tree

namespace Syntax

open AnnotationEdit.Tree (Element ElementKind)

/-! ## Parts of elements -/

theorem Selection.not_none (path : List String) : ¬ Selection.none path = true :=
  Bool.false_ne_true

theorem Path.text_content (p : Path) : p.content.text = p.text := by
  have hsegments : p.content.segments.map (·.text) = p.segments.map (·.text) := List.map_map
  rw [text_eq, text_eq, hsegments]

theorem property?_isSome (range : Range) (entries : List Entry) (name : String) :
    ((Record.mk range entries).property? name).isSome = entries.any (isNamed name) := by
  rw [Bool.eq_iff_iff, Record.property?, List.findSome?_isSome_iff, List.any_eq_true]
  constructor
  · rintro ⟨⟨entry, i⟩, hmem, hentry⟩
    refine ⟨entry, List.fst_mem_of_mem_zipIdx hmem, ?_⟩
    cases entry with
    | embedded a => cases hentry
    | property p =>
        dsimp only at hentry
        split at hentry
        · next hname => exact hname
        · cases hentry
  · rintro ⟨entry, hmem, hentry⟩
    obtain ⟨i, hi, rfl⟩ := List.getElem_of_mem hmem
    refine ⟨(entries[i], i), List.mk_mem_zipIdx_iff_getElem?.mpr (List.getElem?_eq_getElem hi), ?_⟩
    revert hentry
    cases entries[i] with
    | embedded a =>
        intro hentry
        cases hentry
    | property p =>
        intro hentry
        rw [isNamed] at hentry
        simp only [hentry, if_true]
        rfl

theorem isNamed_content (name : String) (entry : Entry) :
    isNamed name (entry.contentWithout .none) = isNamed name entry := by
  cases entry with
  | embedded a => rw [Entry.contentWithout, isNamed, isNamed]
  | property p =>
      obtain ⟨range, path, colon, value⟩ := p
      rw [Entry.contentWithout, isNamed, isNamed, Path.text_content]

theorem Value.isPromoted_content (v : Value) :
    (v.contentWithout .none).isPromoted = v.isPromoted := by
  cases v with
  | record r =>
      obtain ⟨range, entries⟩ := r
      have hnamed : isNamed "$value" ∘ (·.contentWithout .none) = isNamed "$value" :=
        funext fun entry => isNamed_content "$value" entry
      rw [contentWithout, isPromoted, isPromoted, Record.valueEntry?, Record.valueEntry?,
        property?_isSome, property?_isSome, entriesWithout_eq, membersWithout_none, List.any_map,
        hnamed]
  | collection c =>
      obtain ⟨range, items⟩ := c
      rw [contentWithout]
      rfl
  | primitive p =>
      rw [contentWithout]
      rfl

theorem isPromoted_valueWithout (v : Option Value) :
    (valueWithout .none v).any Value.isPromoted = v.any Value.isPromoted := by
  cases v with
  | none => rw [valueWithout]
  | some v =>
      rw [valueWithout]
      exact v.isPromoted_content

theorem unwrapValue_bare (isPromoted : Bool) (e : Element) :
    (unwrapValue isPromoted e).map (·.bare) = unwrapValue isPromoted e.bare := by
  cases isPromoted with
  | false => rfl
  | true =>
      rw [unwrapValue, unwrapValue, if_pos rfl, if_pos rfl, List.map_filterMap, e.elements_bare,
        List.filterMap_map]
      refine List.filterMap_congr fun child _ => ?_
      rw [Function.comp_apply, child.kind_bare, child.attributeValue?_bare, child.elements_bare,
        List.head?_map]
      split
      · split
        · rfl
        · rfl
      · rfl

section

variable {range range' : Range} {value value' : Option Element}

theorem foldedRecord_bare {names : List String} (h : (propertyElement range value names).bare =
      (propertyElement range' value' names).bare) :
    (foldedRecord range value names).bare = (foldedRecord range' value' names).bare := by
  have helements : [propertyElement range value names].map (·.bare) =
      [propertyElement range' value' names].map (·.bare) := congrArg (fun e => [e]) h
  exact Element.bare_congr rfl rfl rfl rfl helements

theorem heldElement_bare (hvalue : value.map (·.bare) = value'.map (·.bare))
    {names : List String} (h : (foldedRecord range value names).bare =
      (foldedRecord range' value' names).bare) :
    (heldElement range value names).map (·.bare) =
      (heldElement range' value' names).map (·.bare) := by
  cases names with
  | nil => exact hvalue
  | cons name names => exact congrArg some h

theorem propertyElement_bare (hvalue : value.map (·.bare) = value'.map (·.bare)) :
    ∀ names, (propertyElement range value names).bare = (propertyElement range' value' names).bare
  | [] => rfl
  | name :: names => by
      have hheld := heldElement_bare hvalue (foldedRecord_bare (propertyElement_bare hvalue names))
      rw [propertyElement_cons, propertyElement_cons]
      refine Element.bare_congr rfl rfl rfl rfl ?_
      rw [← Option.toList_map, ← Option.toList_map, hheld]

theorem annotationContent_bare (hvalue : value.map (·.bare) = value'.map (·.bare))
    (flattened : List String) (isPromoted : Bool) :
    (annotationContent flattened range isPromoted value).map (·.bare) =
      (annotationContent flattened range' isPromoted value').map (·.bare) := by
  cases flattened with
  | nil =>
      cases value with
      | none =>
          rw [Option.map_none, eq_comm, Option.map_eq_none_iff] at hvalue
          rw [hvalue]
          rfl
      | some e =>
          obtain ⟨e', rfl, he⟩ := Option.map_eq_some_iff.mp hvalue.symm
          show (unwrapValue isPromoted e).map _ = (unwrapValue isPromoted e').map _
          rw [unwrapValue_bare, unwrapValue_bare, he]
  | cons name names =>
      refine congrArg (fun e => [e]) (foldedRecord_bare ?_)
      exact propertyElement_bare hvalue (name :: names)

/-- An annotation does not depend on ranges. -/
theorem annotationElement_bare (v : Vocabulary) (term : String) {q q' : Option Identifier}
    (hq : q.map (·.content) = q'.map (·.content)) (isPromoted : Bool)
    (hvalue : value.map (·.bare) = value'.map (·.bare)) :
    (annotationElement v term q range isPromoted value).bare =
      (annotationElement v term q' range' isPromoted value').bare := by
  obtain ⟨hkind, _, _, hcontent⟩ := annotationElement_facts v term q range isPromoted value
  obtain ⟨hkind', _, _, hcontent'⟩ := annotationElement_facts v term q' range' isPromoted value'
  refine Element.bare_congr (hkind.trans hkind'.symm) ?_ hcontent hcontent'
    (annotationContent_bare hvalue _ isPromoted)
  cases q with
  | none =>
      rw [Option.map_none, eq_comm, Option.map_eq_none_iff] at hq
      rw [hq]
      rfl
  | some i =>
      obtain ⟨j, rfl, hj⟩ := Option.map_eq_some_iff.mp hq.symm
      have htext : j.text = i.text := (congrArg Identifier.text hj :)
      show (annotationHead _ _ _).attributes.map _ = (annotationHead _ _ _).attributes.map _
      rw [annotationHead, annotationHead, htext]
      rfl

end

theorem recordType?_content (entries : List Entry) :
    recordType? (entries.map (·.contentWithout .none)) =
      (recordType? entries).map Primitive.content := by
  rw [recordType?, recordType?, List.foldl_map]
  show List.foldl _ (Option.map Primitive.content none) entries = _
  refine List.foldl_hom (Option.map Primitive.content) fun found entry => ?_
  cases entry with
  | embedded a => rw [Entry.contentWithout]
  | property p =>
      obtain ⟨range, name, colon, value⟩ := p
      rw [Entry.contentWithout]
      rcases value with _ | v
      · rw [valueWithout]
      · rw [valueWithout]
        cases v with
        | record r =>
            obtain ⟨_, entries⟩ := r
            rw [Value.contentWithout]
        | collection c =>
            obtain ⟨_, items⟩ := c
            rw [Value.contentWithout]
        | primitive p =>
            rw [Value.contentWithout]
            dsimp only
            rw [Path.text_content, apply_ite (Option.map Primitive.content)]
            rfl

theorem primitiveElement_bare (p : Primitive) :
    (primitiveElement p.content).bare = (primitiveElement p).bare := by
  obtain ⟨range, kind, text⟩ := p
  cases kind <;> rfl

/-! ## Values and entries -/

section

variable (v : Vocabulary)

theorem Record.bare_element {range range' : Range} {entries entries' : List Entry}
    (h : (entryElements v entries).map (·.bare) = (entryElements v entries').map (·.bare))
    (htype : (recordType? entries).map Primitive.content =
      (recordType? entries').map Primitive.content) :
    ((Record.mk range entries).element v).bare = ((Record.mk range' entries').element v).bare := by
  obtain ⟨hkind, _, hcontent⟩ := Record.element_facts v ⟨range, entries⟩
  obtain ⟨hkind', _, hcontent'⟩ := Record.element_facts v ⟨range', entries'⟩
  refine Element.bare_congr (hkind.trans hkind'.symm) ?_ hcontent hcontent' h
  rw [Record.element, Record.element]
  cases hp : recordType? entries with
  | none =>
      rw [hp, Option.map_none, eq_comm, Option.map_eq_none_iff] at htype
      rw [htype]
  | some p =>
      rw [hp] at htype
      obtain ⟨q, hq, hqp⟩ := Option.map_eq_some_iff.mp htype.symm
      have htext : q.text = p.text := (congrArg Primitive.text hqp :)
      rw [hq]
      show [_] = [_]
      rw [htext]

mutual

/-- A value says what its content says. -/
theorem Value.bare_element : ∀ w : Value,
    ((w.contentWithout .none).element v).bare = (w.element v).bare
  | .record ⟨range, entries⟩ => by
      have htype : (recordType? (entriesWithout .none 0 entries)).map Primitive.content =
          (recordType? entries).map Primitive.content := by
        rw [entriesWithout_eq, membersWithout_none, recordType?_content, Option.map_map]
        rfl
      rw [Value.contentWithout, Value.element, Value.element]
      exact Record.bare_element v (entryElements_bare entries 0) htype
  | .collection ⟨range, items⟩ => by
      rw [Value.contentWithout, Value.element, Value.element]
      exact Element.bare_congr rfl rfl rfl rfl (elementsOf_bare items 0)
  | .primitive p => by
      rw [Value.contentWithout, Value.element, Value.element]
      exact primitiveElement_bare p

theorem optionElement_bare : ∀ w : Option Value,
    (optionElement v (valueWithout .none w)).map (·.bare) = (optionElement v w).map (·.bare)
  | none => by rw [valueWithout]
  | some w => by
      rw [valueWithout, optionElement, optionElement]
      exact congrArg some (Value.bare_element w)

theorem entryElements_bare : ∀ (es : List Entry) (i : Nat),
    (entryElements v (entriesWithout .none i es)).map (·.bare) =
      (entryElements v es).map (·.bare)
  | [], i => by rw [entriesWithout]
  | .property ⟨range, name, colon, value⟩ :: es, i => by
      have hvalue := optionElement_bare value
      have hsegments : name.content.segments.map (·.text) = name.segments.map (·.text) :=
        List.map_map
      rw [entriesWithout, if_neg (Selection.not_none _), Entry.contentWithout, entryElements,
        entryElements, name.text_content, hsegments]
      split
      · exact entryElements_bare es (i + 1)
      · rw [List.map_cons, List.map_cons, entryElements_bare es (i + 1)]
        exact congrArg (· :: _) (propertyElement_bare hvalue _)
  | .embedded ⟨range, atSign, term, qualifier, colon, value, embedded⟩ :: es, i => by
      have hvalue := optionElement_bare value
      have hq : (qualifier.map (·.content)).map (·.content) = qualifier.map (·.content) :=
        Option.map_map _ _ _
      rw [entriesWithout, if_neg (Selection.not_none _), Entry.contentWithout,
        Annotation.contentWithout, entryElements, entryElements, term.text_content, List.map_cons,
        List.map_cons, entryElements_bare es (i + 1)]
      refine congrArg (· :: _) ?_
      show (annotationElement v _ _ _ ((valueWithout .none value).any Value.isPromoted) _).bare = _
      rw [isPromoted_valueWithout]
      exact annotationElement_bare v term.text hq _ hvalue

theorem elementsOf_bare : ∀ (ws : List Value) (i : Nat),
    (elementsOf v (valuesWithout .none i ws)).map (·.bare) = (elementsOf v ws).map (·.bare)
  | [], i => by rw [valuesWithout]
  | w :: ws, i => by
      rw [valuesWithout, if_neg (Selection.not_none _), elementsOf, elementsOf, List.map_cons,
        List.map_cons, elementsOf_bare ws (i + 1)]
      exact congrArg (· :: _) (Value.bare_element w)

end

/-! ## Targets and declarations -/

theorem Annotation.bare_element (group : Option String) (a : Annotation) :
    ((a.contentWithout .none).element v group).bare = (a.element v group).bare := by
  obtain ⟨range, atSign, term, qualifier, colon, value, embedded⟩ := a
  have hq : (qualifier.map (·.content)).map (·.content) = qualifier.map (·.content) :=
    Option.map_map _ _ _
  rw [contentWithout]
  cases group <;>
  · show (annotationElement v _ _ _ ((valueWithout .none value).any Value.isPromoted) _).bare = _
    rw [term.text_content, isPromoted_valueWithout]
    exact annotationElement_bare v _ hq _ (optionElement_bare v value)

theorem Assignment.bare_elements (a : Assignment) :
    ((a.contentWithout .none).elements v).map (·.bare) = (a.elements v).map (·.bare) := by
  cases a with
  | single a =>
      rw [contentWithout, elements, elements, List.map_singleton, List.map_singleton,
        a.bare_element v none]
  | group g =>
      have hitems : (g.contentWithout .none).items.items =
          g.items.items.map (·.contentWithout .none) := membersWithout_none "items" _ 0 _
      rw [contentWithout, elements, elements, hitems, List.map_map, List.map_map, List.map_map]
      exact List.map_congr_left fun a _ => a.bare_element v (some g.name.text)

theorem Target.bare_abstraction (t : Target) :
    ((t.contentWithout .none).abstraction v).bare = (t.abstraction v).bare := by
  have hall : (t.contentWithout .none).assignments =
      t.assignments.map (·.contentWithout .none) := membersWithout_none "assignments" _ 0 _
  have hterms : ((t.contentWithout .none).abstraction v).terms.map (·.bare) =
      (t.abstraction v).terms.map (·.bare) := by
    show ((t.contentWithout .none).assignments.flatMap (Assignment.elements v)).map (·.bare) = _
    rw [hall, List.flatMap_map, List.map_flatMap]
    show _ = (t.assignments.flatMap (Assignment.elements v)).map (·.bare)
    rw [List.map_flatMap]
    exact List.flatMap_congr fun a _ => a.bare_elements v
  rw [Tree.Target.bare, Tree.Target.bare, hterms]
  rfl

/-- A declaration says what its content says. -/
theorem Declaration.bare_reference (d : Declaration) :
    d.content.reference.bare = d.reference.bare := by
  obtain ⟨range, name, nickname, source⟩ := d
  have hname : (name.map (·.content)).map (·.text) = name.map (·.text) := by
    rw [Option.map_map]
    exact Option.map_congr fun p _ => p.text_content
  rw [content, reference, reference, Tree.Reference.bare, Tree.Reference.bare]
  dsimp only
  rw [hname, Option.map_map, Option.map_map]
  rfl

theorem File.bare_abstraction (f : File) :
    (f.content.abstraction v).bare = (f.abstraction v).bare := by
  have htargets : f.content.targets = f.targets.map (·.contentWithout .none) :=
    membersWithout_none "targets" _ 0 _
  have hreferences : f.content.declarations = f.declarations.map (·.content) := rfl
  rw [abstraction, abstraction, Tree.File.bare, Tree.File.bare, htargets, hreferences]
  simp only [List.map_map]
  congr 1
  · exact List.map_congr_left fun d _ => d.bare_reference
  · exact List.map_congr_left fun t _ => t.bare_abstraction v

/-- Files of one content say the same. -/
theorem File.bare_of_content {f g : File} (h : f.content = g.content) :
    (f.abstraction v).bare = (g.abstraction v).bare := by
  rw [← f.bare_abstraction, h, g.bare_abstraction]

end

end Syntax

end AnnotationEdit

import AnnotationEdit.Syntax.Abstraction
import Mathlib.Data.List.Basic

/-!
# What entries and names stand for

The abstraction read member by member: each entry of a record stands for an element of its own, or
for none when it names the type of the record. Shortening a name replaces a namespace in front of
it, and what is shortened stays as it is.
-/

namespace AnnotationEdit

/-! ## Shortened names -/

namespace Text

theorem dropFront?_eq_some : ∀ {front cs rest : List Char},
    dropFront? front cs = some rest → cs = front ++ rest
  | [], cs, rest, h => by
      rw [dropFront?, Option.some.injEq] at h
      rw [h]
      rfl
  | c :: front, [], rest, h => by cases h
  | c :: front, d :: cs, rest, h => by
      rw [dropFront?] at h
      split at h
      · next heq =>
        rw [heq, dropFront?_eq_some h]
        rfl
      · cases h

theorem dropFront?_append : ∀ front rest : List Char, dropFront? front (front ++ rest) = some rest
  | [], rest => rfl
  | c :: front, rest => by
      rw [List.cons_append, dropFront?, if_pos rfl]
      exact dropFront?_append front rest

theorem stripFront?_append (front rest : String) :
    stripFront? front (front ++ rest) = some rest := by
  rw [stripFront?, String.toList_append, dropFront?_append, Option.map_some, String.ofList_toList]

/-- Nothing longer is taken off the front. -/
theorem stripFront?_self (s : String) : stripFront? (s ++ ".") s = none := by
  rw [stripFront?, Option.map_eq_none_iff, Option.eq_none_iff_forall_ne_some]
  intro rest h
  have hlength := congrArg List.length (dropFront?_eq_some h)
  simp only [String.toList_append, List.length_append] at hlength
  have hdot : ".".toList.length = 1 := rfl
  omega

/-- What follows the first of several pieces. -/
theorem pieces_eq_cons_cons {sep : Char} : ∀ {cs p q : List Char} {ps : List (List Char)},
    pieces sep cs = p :: q :: ps → ∃ ds, cs = p ++ sep :: ds ∧ pieces sep ds = q :: ps
  | [], _, _, _, h => by cases h
  | c :: cs, p, q, ps, h => by
      rw [pieces] at h
      split at h
      · next hc =>
        obtain ⟨rfl, hrest⟩ := List.cons.inj h
        exact ⟨cs, by rw [hc]; rfl, hrest⟩
      · split at h
        · cases h
        · next p' ps' hpieces =>
          obtain ⟨rfl, rfl⟩ := List.cons.inj h
          obtain ⟨ds, rfl, hds⟩ := pieces_eq_cons_cons hpieces
          exact ⟨ds, rfl, hds⟩

theorem split_eq_cons_cons {s first second : String} {rest : List String}
    (h : split '.' s = first :: second :: rest) :
    ∃ t, s = first ++ "." ++ t ∧ split '.' t = second :: rest := by
  rw [split, List.map_eq_cons_iff] at h
  obtain ⟨p, ps, hpieces, rfl, hps⟩ := h
  obtain ⟨q, qs, rfl, rfl, rfl⟩ := List.map_eq_cons_iff.mp hps
  obtain ⟨ds, hs, hds⟩ := pieces_eq_cons_cons hpieces
  refine ⟨String.ofList ds, ?_, ?_⟩
  · rw [← String.toList_inj, hs]
    simp
  · rw [split, String.toList_ofList, hds, List.map_cons]

end Text

namespace Vocabulary

theorem eq_of_below? {space name rest : String} (h : below? space name = some rest) :
    name = space ++ "." ++ rest := by
  rw [below?, Text.stripFront?, Option.map_eq_some_iff] at h
  obtain ⟨cs, hcs, rfl⟩ := h
  rw [← String.toList_inj, Text.dropFront?_eq_some hcs]
  simp

theorem mem_of_longest? {name : String} :
    ∀ {entries : List (String × String)} {best : String × String},
      longest? name entries = some best → best ∈ entries
  | [], _, h => by cases h
  | entry :: entries, best, h => by
      rw [longest?] at h
      split at h
      · exact List.mem_cons_of_mem _ (mem_of_longest? h)
      · obtain rfl := Option.some.inj h
        exact List.mem_cons_self
      · next hbest =>
        split at h
        · obtain rfl := Option.some.inj h
          exact List.mem_cons_self
        · obtain rfl := Option.some.inj h
          exact List.mem_cons_of_mem _ (mem_of_longest? hbest)

theorem longest?_eq_none {name : String} :
    ∀ {entries : List (String × String)}, (∀ entry ∈ entries, below? entry.1 name = none) →
      longest? name entries = none
  | [], _ => rfl
  | entry :: entries, h => by
      rw [longest?, h entry List.mem_cons_self]
      exact longest?_eq_none fun entry hentry => h entry (List.mem_cons_of_mem _ hentry)

/-- A name is left alone, or a namespace in front of it is replaced by its alias. -/
theorem shorten_cases (v : Vocabulary) (name : String) :
    v.shorten name = name ∨ ∃ entry ∈ v.aliases, ∃ rest,
      name = entry.1 ++ "." ++ rest ∧ v.shorten name = entry.2 ++ "." ++ rest := by
  unfold shorten
  split
  · next entry hentry =>
    split
    · next rest hrest =>
      exact Or.inr ⟨entry, mem_of_longest? hentry, rest, eq_of_below? hrest, rfl⟩
    · exact Or.inl rfl
  · exact Or.inl rfl

/-- The namespaces and the aliases of the standard vocabularies start with different letters. -/
theorem standard_heads : ∀ entry ∈ standard.aliases, ∀ other ∈ standard.aliases,
    entry.1.toList.head? ≠ other.2.toList.head? ∧ entry.1.toList ≠ [] ∧ other.2.toList ≠ [] := by
  decide +kernel

/-- A name under an alias is short. -/
theorem shorten_of_alias {entry : String × String} (hentry : entry ∈ standard.aliases)
    (rest : String) : standard.shorten (entry.2 ++ "." ++ rest) = entry.2 ++ "." ++ rest := by
  have hnone : longest? (entry.2 ++ "." ++ rest) standard.aliases = none := by
    refine longest?_eq_none fun other hother => ?_
    obtain ⟨hhead, hne, hne'⟩ := standard_heads other hother entry hentry
    cases hbelow : below? other.1 (entry.2 ++ "." ++ rest) with
    | none => rfl
    | some r =>
        have heq := congrArg (fun s : String => s.toList.head?) (eq_of_below? hbelow)
        simp only [String.toList_append, List.append_assoc, List.head?_append_of_ne_nil _ hne,
          List.head?_append_of_ne_nil _ hne'] at heq
        exact absurd heq.symm hhead
  rw [shorten, hnone]

theorem shorten_shorten (name : String) :
    standard.shorten (standard.shorten name) = standard.shorten name := by
  rcases shorten_cases standard name with h | ⟨entry, hentry, rest, _, h⟩
  · rw [h, h]
  · rw [h, shorten_of_alias hentry]

end Vocabulary

namespace Syntax

open AnnotationEdit.Tree (Element ElementKind)

/-! ## Dotted names -/

theorem joined_eq_foldl : ∀ (segments : List Identifier) (first : String),
    Text.joined "." (first :: segments.map (·.text)) =
      segments.foldl (fun s segment => s ++ "." ++ segment.text) first
  | [], _ => rfl
  | segment :: segments, first => by
      rw [List.foldl_cons, ← joined_eq_foldl segments, List.map_cons, Text.joined.eq_def]
      cases segments with
      | nil => rfl
      | cons next segments =>
          simp only [List.map_cons, Text.joined, String.append_assoc]

theorem Path.text_eq (p : Path) : p.text = Text.joined "." (p.segments.map (·.text)) := by
  rw [text]
  cases p.segments with
  | nil => rfl
  | cons first rest => rw [List.map_cons, joined_eq_foldl]

theorem joined_cons {name : String} {segments : List Identifier} (h : segments ≠ []) :
    Text.joined "." (name :: segments.map (·.text)) =
      name ++ "." ++ Text.joined "." (segments.map (·.text)) := by
  cases segments with
  | nil => exact absurd rfl h
  | cons first rest => rw [List.map_cons, Text.joined, ← List.map_cons]; exact nofun

/-- A name without dots has one segment. -/
theorem Path.segments_of_text {p : Path} (hsegments : p.segments ≠ [])
    (hdot : '.' ∉ p.text.toList) : p.segments.map (·.text) = [p.text] := by
  rw [text_eq] at hdot ⊢
  cases hp : p.segments with
  | nil => exact absurd hp hsegments
  | cons first rest =>
      cases rest with
      | nil => rfl
      | cons next rest =>
          rw [hp, List.map_cons, joined_cons (List.cons_ne_nil next rest)] at hdot
          exact absurd (by simp) hdot

/-- The names of a written term beyond its vocabulary term. -/
theorem splitTerm_cases (term : String) :
    splitTerm .standard term = (term, []) ∨ ∃ entry ∈ Vocabulary.standard.aliases,
      ∃ second rest,
        splitTerm .standard term = (entry.2 ++ "." ++ second, Text.split '.' rest) ∧
        Vocabulary.standard.shorten term = entry.2 ++ "." ++ second ++ "." ++ rest := by
  rw [splitTerm]
  split
  · next first second third names hsplit =>
    split
    · next halias =>
      obtain ⟨entry, hentry, heq⟩ := List.any_eq_true.mp halias
      obtain rfl := beq_iff_eq.mp heq
      obtain ⟨t, ht, htsplit⟩ := Text.split_eq_cons_cons hsplit
      obtain ⟨rest, hrest, hsplitRest⟩ := Text.split_eq_cons_cons htsplit
      refine Or.inr ⟨entry, hentry, second, rest, ?_, ?_⟩
      · rw [hsplitRest]
      · rw [ht, hrest]
        simp only [String.append_assoc]
    · exact Or.inl rfl
  · exact Or.inl rfl

/-! ## Entries and items -/

/-- The element of an entry; the entry that names the type of the record has none. -/
def entryElement? (v : Vocabulary) : Entry → Option Element
  | .property ⟨range, name, _, value⟩ =>
    if name.text == "$Type" then none
    else some (propertyElement range (optionElement v value) (name.segments.map (·.text)))
  | .embedded ⟨range, _, term, qualifier, _, value, _⟩ =>
    some (annotationElement v term.text qualifier range (value.any Value.isPromoted)
      (optionElement v value))

theorem entryElements_eq (v : Vocabulary) : ∀ es : List Entry,
    entryElements v es = es.filterMap (entryElement? v)
  | [] => rfl
  | .property ⟨range, name, colon, value⟩ :: es => by
      rw [entryElements, entryElements_eq v es]
      by_cases hname : (name.text == "$Type") = true
      · rw [if_pos hname, List.filterMap_cons_none]
        exact if_pos hname
      · rw [if_neg hname, List.filterMap_cons_some]
        exact if_neg hname
  | .embedded ⟨range, sign, term, qualifier, colon, value, embedded⟩ :: es => by
      rw [entryElements, entryElements_eq v es]
      rfl

theorem elementsOf_eq (v : Vocabulary) : ∀ ts : List Value,
    elementsOf v ts = ts.map (·.element v)
  | [] => rfl
  | t :: ts => by rw [elementsOf, elementsOf_eq v ts, List.map_cons]

/-- The entry is the property of a name. -/
def isNamed (name : String) : Entry → Bool
  | .property p => p.name.text == name
  | .embedded _ => false

theorem property?_eq_none {entries : List Entry} {name : String} {range : Range}
    (h : ∀ entry ∈ entries, isNamed name entry = false) :
    (Record.mk range entries).property? name = none := by
  rw [Record.property?, List.findSome?_eq_none_iff]
  rintro ⟨entry, i⟩ hentry
  have hmem : entry ∈ entries := List.fst_mem_of_mem_zipIdx hentry
  cases entry with
  | property p =>
      have hname : (p.name.text == name) = false := h _ hmem
      simp only [hname, Bool.false_eq_true, if_false]
  | embedded a => rfl

/-! ## Elements -/

/-- A level that is folded into a dotted name: a record with the property of the further names. -/
def foldedRecord (range : Range) (value : Option Element) (names : List String) : Element :=
  ⟨.record, [], [.element (propertyElement range value names)], some range, none⟩

/-- What a property holds: the value, or the record its further names are folded into. -/
def heldElement (range : Range) (value : Option Element) : List String → Option Element
  | [] => value
  | name :: names => some (foldedRecord range value (name :: names))

theorem propertyElement_cons (range : Range) (value : Option Element) (name : String)
    (names : List String) : propertyElement range value (name :: names) =
      ⟨.propertyValue, [(Tree.propertyKey, ⟨Tree.propertyKey, name, none⟩)],
        (heldElement range value names).toList.map .element, some range, none⟩ := by
  cases names <;> rfl

theorem annotationElement_facts (v : Vocabulary) (term : String) (qualifier : Option Identifier)
    (range : Range) (isPromoted : Bool) (value : Option Element) :
    let e := annotationElement v term qualifier range isPromoted value
    e.kind = ElementKind.annotation ∧ e.range = some range ∧
      e.term? = some (splitTerm v term).1 ∧
      e.content = (annotationContent (splitTerm v term).2 range isPromoted value).map .element := by
  cases qualifier with
  | none => exact ⟨rfl, rfl, rfl, rfl⟩
  | some q => exact ⟨rfl, rfl, rfl, rfl⟩

theorem Record.element_facts (v : Vocabulary) (r : Record) :
    (r.element v).kind = .record ∧ (r.element v).range = some r.range ∧
      (r.element v).content = (entryElements v r.entries).map .element := by
  obtain ⟨range, entries⟩ := r
  rw [Record.element]
  cases recordType? entries with
  | none => exact ⟨rfl, rfl, rfl⟩
  | some p => exact ⟨rfl, rfl, rfl⟩

theorem primitiveElement_facts (p : Primitive) : (primitiveElement p).range = some p.range ∧
    (primitiveElement p).kind.isPrimitive = true ∧ (primitiveElement p).elements = [] := by
  obtain ⟨range, kind, text⟩ := p
  cases kind with
  | number =>
      rw [primitiveElement]
      dsimp only
      split
      · exact ⟨rfl, rfl, rfl⟩
      · exact ⟨rfl, rfl, rfl⟩
  | _ => exact ⟨rfl, rfl, rfl⟩

theorem Value.range_element (v : Vocabulary) (w : Value) :
    (w.element v).range = some w.range := by
  cases w with
  | record r =>
      rw [Value.element]
      exact (r.element_facts v).2.1
  | collection c =>
      obtain ⟨range, items⟩ := c
      rw [Value.element]
      rfl
  | primitive p =>
      rw [Value.element]
      exact (primitiveElement_facts p).1

/-- A value is neither an annotation nor a property. -/
theorem Value.kind_element (v : Vocabulary) (w : Value) :
    (w.element v).kind ≠ ElementKind.annotation ∧ (w.element v).kind ≠ .propertyValue := by
  cases w with
  | record r =>
      rw [Value.element, (r.element_facts v).1]
      decide
  | collection c =>
      obtain ⟨range, items⟩ := c
      rw [Value.element]
      exact ⟨nofun, nofun⟩
  | primitive p =>
      rw [Value.element]
      have hkind := (primitiveElement_facts p).2.1
      constructor <;> intro heq <;> rw [heq] at hkind <;> cases hkind

end Syntax

end AnnotationEdit

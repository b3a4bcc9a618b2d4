import AnnotationEdit.Proofs.Printing.Printable

/-!
# Printed elements

What the printer writes for a printable element is read as tokens that write a tree, and the tree
says what the element says. The proof follows the element constructor by constructor: literals,
records, collections, properties, annotations with their heads, and values with annotations of their
own.
-/

namespace AnnotationEdit

open AnnotationEdit.Tree (Element ElementKind)
open Lexer (Spells Break)
open Syntax (entryElement? entryElements_eq elementsOf_eq isNamed property?_eq_none)

namespace Printing

/-! ## Literals -/

theorem unquote_single_doubled : ∀ cs : List Char,
    Syntax.unquote.single (Printer.quote.doubled cs) = cs
  | [] => rfl
  | c :: cs => by
      have ih := unquote_single_doubled cs
      by_cases hc : c = Lexer.quote
      · have hquote : c = '\x27' := hc
        simp [Printer.quote.doubled, hquote, Syntax.unquote.single, Lexer.quote, ih]
      · have hquote : ¬ c = '\x27' := hc
        simp only [Printer.quote.doubled, hquote, if_false]
        cases hds : Printer.quote.doubled cs with
        | nil =>
            rw [hds] at ih
            rw [← ih]
            rfl
        | cons d ds =>
            rw [hds] at ih
            rw [Syntax.unquote.single]
            simp [hc, ih]

theorem unquote_quote (s : String) : Syntax.unquote (Printer.quote s) = s := by
  simp [Syntax.unquote, Printer.quote, String.toList_ofList, Lexer.quote,
    unquote_single_doubled]

/-- The text is read as a literal that stands for `e`. -/
def SpellsLiteral (text : String) (e : Element) : Prop :=
  Spells Break text.toList (fun ts => ∃ q : Syntax.Primitive, q.WrittenAs ts ∧
    (Syntax.primitiveElement q).canonical id = e)

theorem spellsLiteral_string (s : String) :
    SpellsLiteral (Printer.quote s) ⟨.string, [], [.text ⟨s, none⟩], none, none⟩ := by
  refine (Lexer.spells_quote s).mono (fun rest hrest c hc => (hrest c hc).2.2) ?_
  rintro ts ⟨t, rfl, ht, htext⟩
  refine ⟨_, Or.inl ⟨t, rfl, ht, rfl⟩, ?_⟩
  have hhead : (t.text.toList.head? == some Lexer.backquote) = false := by
    rw [htext, Printer.quote, String.toList_ofList]
    rfl
  rw [hhead, htext]
  show Element.canonical id
    ⟨.string, [], [.text ⟨Syntax.unquote (Printer.quote s), none⟩], _, _⟩ = _
  rw [unquote_quote]
  rfl

theorem spellsLiteral_number {s : String} {kind : ElementKind} (h : Lexer.isNumber s = true)
    (hkind : (if s.toList.contains '.' then ElementKind.decimal else .int) = kind) :
    SpellsLiteral s ⟨kind, [], [.text ⟨s, none⟩], none, none⟩ := by
  refine (Lexer.spells_number h).mono (fun rest hrest c hc => (hrest c hc).2.1) ?_
  rintro ts ⟨t, rfl, ht, rfl⟩
  refine ⟨_, Or.inr (Or.inl ⟨t, rfl, ht, rfl⟩), ?_⟩
  show Element.canonical id ⟨_, [], [.text ⟨t.text, none⟩], _, _⟩ = _
  rw [hkind]
  rfl

/-- A dotted name; `e` depends on whether it is one of the words with a meaning. -/
theorem spellsLiteral_path {s : String} {e : Element} (h : Lexer.isDotted s = true)
    (he : ∀ range,
      (Syntax.primitiveElement ⟨range, Syntax.Parser.nameKind s, s⟩).canonical id = e) :
    SpellsLiteral s e := by
  refine (Lexer.spells_path .other h).mono (fun rest hrest => hrest.endsWord) ?_
  rintro ts ⟨path, hpath, rfl, _⟩
  exact ⟨_, Or.inr (Or.inr (Or.inr ⟨path, hpath, rfl⟩)), he path.range⟩

theorem wordsOf_eq_singleton {s : String} (h : Lexer.isName s = true) :
    (Text.wordsOf s).length ≤ 1 := by
  have hblank : ∀ c ∈ s.toList, Text.isBlank c = false := fun c hc =>
    Lexer.isBlank_eq_false_of_isNameChar (Lexer.isNameChar_of_isName h hc)
  rw [Text.wordsOf, List.length_map]
  generalize s.toList = cs at hblank
  induction cs with
  | nil => exact Nat.zero_le 1
  | cons c cs ih =>
      have hrest := ih fun d hd => hblank d (List.mem_cons_of_mem _ hd)
      cases cs with
      | nil => simp [Text.words.eq_def, hblank c List.mem_cons_self]
      | cons d cs =>
          rw [Text.words.eq_def]
          simp only [hblank c List.mem_cons_self,
            hblank d (List.mem_cons_of_mem _ List.mem_cons_self), Bool.false_eq_true, if_false]
          split
          · exact Nat.le_refl 1
          · next w ws hwords =>
            rw [hwords] at hrest
            exact hrest

theorem cutFirst?_eq_none {sep : Char} :
    ∀ {cs : List Char}, sep ∉ cs → Text.cutFirst? sep cs = none
  | [], _ => rfl
  | c :: cs, h => by
      rw [List.mem_cons, not_or] at h
      rw [Text.cutFirst?, if_neg (Ne.symm h.1), cutFirst?_eq_none h.2]
      rfl

theorem afterLast_of_isName {s : String} (h : Lexer.isName s = true) :
    Text.afterLast '/' s.toList = s.toList := by
  have hslash : '/' ∉ s.toList.reverse := by
    rw [List.mem_reverse]
    exact Lexer.not_mem_of_isName h (by decide)
  rw [Text.afterLast, Text.cutLast?, cutFirst?_eq_none hslash]
  rfl

theorem spellsLiteral_enum {s : String} (h : Lexer.isName s = true) :
    SpellsLiteral (Printer.enumMember s) ⟨.enumMember, [], [.text ⟨s, none⟩], none, none⟩ := by
  have hs : (Printer.enumMember s).toList = '#' :: s.toList := by
    rw [Printer.enumMember, afterLast_of_isName h, String.ofList_toList, String.toList_append]
    rfl
  rw [SpellsLiteral, hs]
  refine (((Lexer.spells_name .other h).mono (fun rest hrest => hrest.endsWord)
    (fun _ => id)).mark '#' (by decide)).imp ?_
  rintro ts ⟨hash, us, rfl, hhash, t, rfl, ht, rfl⟩
  refine ⟨_, Or.inr (Or.inr (Or.inl ⟨hash, t, rfl, hhash, ht, rfl⟩)), ?_⟩
  show Element.canonical id ⟨.enumMember, [],
    [.text ⟨String.ofList (("#" ++ t.text).toList.drop 1), none⟩], _, _⟩ = _
  rw [String.toList_append, show ("#" : String).toList = ['#'] from rfl]
  simp [Element.canonical, Tree.canonicalContent, Tree.canonicalAttributes, Tree.valueUnder?]

theorem isDotted_literals : Lexer.isDotted "true" = true ∧ Lexer.isDotted "false" = true ∧
    Lexer.isDotted "null" = true := by
  decide +kernel

theorem spellsLiteral_primitive (p : Printer) (f : String → String) {kind : ElementKind}
    {content : List Tree.Node} (range nameRange : Option Range)
    (h : Printable.isLiteralContent kind content = true) :
    SpellsLiteral (p.primitive kind (Element.mk kind [] content range nameRange).textOrEmpty)
      (Element.canonical f ⟨kind, [], content, range, nameRange⟩) := by
  unfold Printable.isLiteralContent at h
  split at h
  · obtain rfl := beq_iff_eq.mp h
    exact spellsLiteral_path isDotted_literals.2.2 fun range => rfl
  · next t =>
    show SpellsLiteral (p.primitive kind t.text) ⟨kind, [], [.text ⟨t.text, none⟩], none, none⟩
    generalize t.text = s at h ⊢
    cases kind with
    | string => exact spellsLiteral_string s
    | bool =>
        simp only [Printable.isLiteral, Bool.or_eq_true, beq_iff_eq] at h
        rcases h with rfl | rfl
        · exact spellsLiteral_path isDotted_literals.1 fun range => rfl
        · exact spellsLiteral_path isDotted_literals.2.1 fun range => rfl
    | int =>
        simp only [Printable.isLiteral, Bool.and_eq_true, Bool.not_eq_true'] at h
        exact @spellsLiteral_number s _ h.1 (by rw [h.2]; rfl)
    | decimal =>
        simp only [Printable.isLiteral, Bool.and_eq_true] at h
        exact @spellsLiteral_number s _ h.1 (by rw [h.2]; rfl)
    | path =>
        simp only [Printable.isLiteral, Printable.isPath, Bool.and_eq_true, bne_iff_ne] at h
        refine @spellsLiteral_path s _ h.1.1.1 fun range => ?_
        have hkind : Syntax.Parser.nameKind s = .path := by
          simp [Syntax.Parser.nameKind, h.1.1.2, h.1.2, h.2]
        rw [hkind]
        rfl
    | enumMember =>
        have hwords : ¬ 1 < (Text.wordsOf s).length := by
          have := wordsOf_eq_singleton h
          omega
        rw [Printer.primitive, if_neg hwords]
        exact spellsLiteral_enum h
    | _ => cases h
  · cases h

/-! ## Entries -/

/-- The entry stands for the element, which is neither the type nor the value of something. -/
def StandsFor (v : Vocabulary) (e : Element) (entry : Syntax.Entry) : Prop :=
  (∃ x, entryElement? v entry = some x ∧ x.canonical id = e.canonical v.shorten) ∧
    isNamed "$Type" entry = false ∧ isNamed "$value" entry = false

theorem elements_of_standsFor {v : Vocabulary} :
    ∀ {es : List Element} {entries : List Syntax.Entry},
      List.Forall₂ (StandsFor v) es entries →
        (Syntax.entryElements v entries).map (·.canonical id) = es.map (·.canonical v.shorten)
  | _, _, .nil => rfl
  | e :: es, entry :: entries, .cons h hs => by
      obtain ⟨⟨x, hx, hcanonical⟩, _⟩ := h
      have ih := elements_of_standsFor hs
      rw [entryElements_eq] at ih ⊢
      rw [List.filterMap_cons_some hx, List.map_cons, List.map_cons, hcanonical, ih]

/-! What a record names as its type and what it holds as a value. -/

theorem recordType?_foldl {entries : List Syntax.Entry} (found : Option Syntax.Primitive)
    (h : ∀ entry ∈ entries, isNamed "$Type" entry = false) :
    entries.foldl (fun found entry =>
      match entry with
      | .property ⟨_, name, _, some (.primitive p)⟩ =>
        if name.text == "$Type" then some p else found
      | _ => found) found = found := by
  induction entries with
  | nil => rfl
  | cons entry entries ih =>
      have hentry := h entry List.mem_cons_self
      rw [List.foldl_cons]
      split
      · next range name colon q =>
        rw [if_neg (by rw [show (name.text == "$Type") = false from hentry]; decide)]
        exact ih fun e he => h e (List.mem_cons_of_mem _ he)
      · exact ih fun e he => h e (List.mem_cons_of_mem _ he)

theorem not_named_of_standsFor {v : Vocabulary} {es : List Element} {entries : List Syntax.Entry}
    (h : List.Forall₂ (StandsFor v) es entries) :
    ∀ entry ∈ entries, isNamed "$Type" entry = false ∧ isNamed "$value" entry = false := by
  induction h with
  | nil => exact fun entry hentry => absurd hentry List.not_mem_nil
  | cons h _ ih =>
      intro entry hentry
      rcases List.mem_cons.mp hentry with rfl | hentry
      · exact h.2
      · exact ih entry hentry

theorem record_canonical {v : Vocabulary} {es : List Element} {entries : List Syntax.Entry}
    (h : List.Forall₂ (StandsFor v) es entries) (range : Range) :
    (Syntax.Record.element v ⟨range, entries⟩).canonical id =
      ⟨.record, [], (es.map (·.canonical v.shorten)).map .element, none, none⟩ := by
  have htype : Syntax.recordType? entries = none :=
    recordType?_foldl none fun entry hentry => (not_named_of_standsFor h entry hentry).1
  rw [Syntax.Record.element, htype]
  show Element.canonical id ⟨.record, [], _, _, _⟩ = _
  rw [Element.canonical, Tree.canonicalContent_elements, elements_of_standsFor h]
  rfl

theorem typedRecord_canonical {v : Vocabulary} {es : List Element} {entries : List Syntax.Entry}
    (h : List.Forall₂ (StandsFor v) es entries) (range : Range) {r : Range} {name : Syntax.Path}
    {colon : Option Range} {q : Syntax.Primitive} (hname : name.text = "$Type") :
    (Syntax.Record.element v
        ⟨range, .property ⟨r, name, colon, some (.primitive q)⟩ :: entries⟩).canonical id =
      ⟨.record, [(Tree.typeKey, ⟨Tree.typeKey, Syntax.unquote q.text, none⟩)],
        (es.map (·.canonical v.shorten)).map .element, none, none⟩ := by
  have htype : Syntax.recordType?
      (.property ⟨r, name, colon, some (.primitive q)⟩ :: entries) = some q := by
    rw [Syntax.recordType?, List.foldl_cons]
    simp only [hname, beq_self_eq_true, if_true]
    exact recordType?_foldl (some q) fun entry hentry => (not_named_of_standsFor h entry hentry).1
  have helements : Syntax.entryElements v
      (.property ⟨r, name, colon, some (.primitive q)⟩ :: entries) =
        Syntax.entryElements v entries := by
    rw [Syntax.entryElements]
    simp only [hname, beq_self_eq_true, if_true]
  rw [Syntax.Record.element, htype, helements]
  show Element.canonical id ⟨.record, [(Tree.typeKey, _)], _, _, _⟩ = _
  rw [Element.canonical, Tree.canonicalContent_elements, elements_of_standsFor h]
  rfl

/-! ## Heads and values -/

def SpellsValue (text : String) (P : Syntax.Value → Prop) : Prop :=
  Spells Break text.toList (fun ts => ∃ t : Syntax.Value, t.WrittenAs ts ∧ P t)

theorem spells_afterColon {text : String} {P : Syntax.Value → Prop} (h : SpellsValue text P) :
    Spells Break (' ' :: ':' :: ' ' :: text.toList)
      (fun ts => ∃ colon t, Syntax.valueAfterColon (some colon) (some t) ts ∧ P t) := by
  refine (((h.blank ' ' (by decide)).mark ':' (by decide)).blank ' ' (by decide)).imp ?_
  rintro ts ⟨c, us, rfl, hc, t, ht, hP⟩
  refine ⟨c.range, t, ?_, hP⟩
  rw [Syntax.valueAfterColon]
  exact ⟨c, us, rfl, hc, rfl, ht⟩

def SpellsEntry (text : String) (P : Syntax.Entry → Prop) : Prop :=
  Spells Break text.toList (fun ts => ∃ entry : Syntax.Entry, entry.WrittenAs ts ∧ P entry)

theorem toList_headed (head text : String) :
    (Printer.headed head (some text)).toList = head.toList ++ ' ' :: ':' :: ' ' :: text.toList := by
  rw [Printer.headed, String.toList_append, String.toList_append, List.append_assoc]
  rfl

theorem spells_property {name text : String} {P : Syntax.Value → Prop}
    (hname : Lexer.isName name = true) (h : SpellsValue text P) :
    SpellsEntry (Printer.headed name (some text)) (fun entry => ∃ range path colon t,
      entry = .property ⟨range, path, colon, some t⟩ ∧ path.text = name ∧
        path.segments.map (·.text) = [name] ∧ P t) := by
  rw [SpellsEntry, toList_headed]
  have hpath := (Lexer.spells_path .property (Lexer.isDotted_of_isName hname)).mono
    (fun rest (hrest : Break rest) => hrest.endsWord) (fun _ => id)
  refine (hpath.thenBreak (spells_afterColon h) (by decide)).imp ?_
  rintro ts ⟨us, vs, rfl, ⟨path, hus, htext, hsegments⟩, colon, t, hvs, hP⟩
  rw [Lexer.split_of_isName hname] at hsegments
  refine ⟨.property ⟨⟨path.range.start, t.range.stop⟩, path, some colon, some t⟩, ?_, _, path,
    some colon, t, rfl, htext, hsegments, hP⟩
  rw [Syntax.Entry.WrittenAs]
  exact ⟨us, vs, rfl, hus, hvs, rfl⟩

theorem spells_bareProperty {name : String} (hname : Lexer.isName name = true) :
    SpellsEntry name (fun entry => ∃ range path, entry = .property ⟨range, path, none, none⟩ ∧
      path.text = name ∧ path.segments.map (·.text) = [name]) := by
  refine (Lexer.spells_path .property (Lexer.isDotted_of_isName hname)).mono
    (fun rest (hrest : Break rest) => hrest.endsWord) ?_
  rintro ts ⟨path, hts, htext, hsegments⟩
  rw [Lexer.split_of_isName hname] at hsegments
  refine ⟨.property ⟨⟨path.range.start, path.range.stop⟩, path, none, none⟩, ?_, _, path, rfl,
    htext, hsegments⟩
  rw [Syntax.Entry.WrittenAs]
  refine ⟨ts, [], (List.append_nil ts).symm, hts, ?_, rfl⟩
  rw [Syntax.valueAfterColon]
  exact ⟨rfl, rfl⟩

/-! ## Annotations -/

theorem attributeValue?_eq (e : Element) (key : String) :
    e.attributeValue? key = Tree.valueUnder? e.attributes key := by
  rw [Element.attributeValue?, Element.attribute?, Option.map_map]
  rfl

def qualifierText? (qualifier : Option Syntax.Identifier) : Option String :=
  qualifier.map fun q => String.ofList (q.text.toList.dropWhile (· == '#'))

theorem qualifierText?_eq {q : Syntax.Identifier} {s : String} (h : Lexer.isName s = true)
    (hq : q.text = "#" ++ s) : qualifierText? (some q) = some s := by
  have hhash : s.toList.dropWhile (· == '#') = s.toList := by
    cases hs : s.toList with
    | nil => rfl
    | cons c cs =>
        have hc : c ≠ '#' := by
          rintro rfl
          exact Lexer.not_mem_of_isName h (by decide : Lexer.isNameChar '#' = false)
            (by rw [hs]; exact List.mem_cons_self)
        simp [hc]
  rw [qualifierText?, Option.map_some, hq, String.toList_append]
  show some (String.ofList (s.toList.dropWhile (· == '#'))) = some s
  rw [hhash, String.ofList_toList]

def qualified (name : String) : Option String → String
  | some qualifier => name ++ "#" ++ qualifier
  | none => name

theorem spells_qualified {name : String} {qualifier? : Option String}
    (hdotted : Lexer.isDotted name = true) (hqualifier : qualifier?.all Lexer.isName = true) :
    Spells Break (qualified name qualifier?).toList (fun ts => ∃ us qs path qualifier,
      ts = us ++ qs ∧ Syntax.Path.WrittenAs .term path us ∧
      Syntax.qualifierWrittenAs qualifier qs ∧ path.text = name ∧
      path.segments.map (·.text) = Text.split '.' name ∧
      qualifierText? qualifier = qualifier?) := by
  have hpath := Lexer.spells_path .term hdotted
  cases qualifier? with
  | none =>
      refine hpath.mono (fun rest hrest => hrest.endsWord) ?_
      rintro ts ⟨path, hts, htext, hsegments⟩
      exact ⟨ts, [], path, none, (List.append_nil ts).symm, hts, rfl, htext, hsegments, rfl⟩
  | some q =>
      have hname : Lexer.isName q = true := hqualifier
      have hafter := ((Lexer.spells_name .other hname).mark '#' (by decide))
      simp only [qualified, String.toList_append, List.append_assoc]
      refine ((hpath.append hafter ?_).mono (fun rest hrest => hrest.endsWord) ?_)
      · intro rest _ c hc
        obtain rfl : '#' = c := by simpa using hc
        decide
      · rintro ts ⟨us, vs, rfl, ⟨path, hus, htext, hsegments⟩, hash, ws, rfl, hhash, t, rfl, ht,
          rfl⟩
        refine ⟨us, [hash, t], path,
          some ⟨"#" ++ t.text, ⟨hash.range.start, t.range.stop⟩⟩, rfl, hus,
          ⟨hash, t, rfl, hhash, ht, rfl⟩, htext, hsegments, ?_⟩
        exact qualifierText?_eq hname rfl

theorem term_eq_qualified {p : Printer} {e : Element} {term : String} (h : e.term? = some term) :
    p.term e = qualified (p.vocabulary.shorten term) e.qualifier? := by
  rw [Printer.term, h, Option.getD_some]
  cases e.qualifier? <;> rfl

theorem spells_term {p : Printer} {e : Element} {term : String} (hterm : e.term? = some term)
    (hdotted : Lexer.isDotted (p.vocabulary.shorten term) = true)
    (hqualifier : e.qualifier?.all Lexer.isName = true) :
    Spells Break (p.term e).toList (fun ts => ∃ us qs path qualifier, ts = us ++ qs ∧
      Syntax.Path.WrittenAs .term path us ∧ Syntax.qualifierWrittenAs qualifier qs ∧
      path.text = p.vocabulary.shorten term ∧
      path.segments.map (·.text) = Text.split '.' (p.vocabulary.shorten term) ∧
      qualifierText? qualifier = e.qualifier?) := by
  rw [term_eq_qualified hterm]
  exact spells_qualified hdotted hqualifier

def saidBy (v : Vocabulary) (value : Option Syntax.Value) : List Element :=
  (Syntax.optionElement v value).elim []
    (Syntax.unwrapValue (value.any Syntax.Value.isPromoted))

def headAttributes (term : String) (qualifier : Option String) : List (String × Tree.Attribute) :=
  (Tree.termKey, ⟨Tree.termKey, term, none⟩) ::
    (qualifier.map fun q => (Tree.qualifierKey, ⟨Tree.qualifierKey, q, none⟩)).toList

/-- An annotation whose term has nothing folded in. -/
theorem annotationElement_canonical {v : Vocabulary} {term : String}
    (h : Syntax.splitTerm v term = (term, [])) (qualifier : Option Syntax.Identifier)
    (range : Range)
    (value : Option Syntax.Value) :
    (Syntax.annotationElement v term qualifier range (value.any Syntax.Value.isPromoted)
        (Syntax.optionElement v value)).canonical id =
      ⟨ElementKind.annotation, headAttributes term (qualifierText? qualifier),
        ((saidBy v value).map (·.canonical id)).map .element, none, none⟩ := by
  unfold Syntax.annotationElement
  rw [h]
  cases qualifier with
  | none =>
      show Element.canonical id ⟨_, [_], _, _, _⟩ = _
      rw [Element.canonical, Tree.canonicalContent_elements]
      rfl
  | some q =>
      show Element.canonical id ⟨_, [_, _], _, _, _⟩ = _
      rw [Element.canonical, Tree.canonicalContent_elements]
      rfl

theorem splitTerm_shorten {term : String} (h : Printable.isTerm .standard term = true) :
    Syntax.splitTerm .standard (Vocabulary.standard.shorten term) =
      (Vocabulary.standard.shorten term, []) := by
  rw [Printable.isTerm, Bool.and_eq_true] at h
  rw [Syntax.splitTerm, Vocabulary.shorten_shorten]
  split
  · next first second third rest hsplit =>
    rw [hsplit] at h
    have halias : Vocabulary.standard.isAlias first = false := by simpa using h.2
    rw [if_neg (by rw [halias]; decide)]
  · rfl

theorem canonical_of_head {f : String → String} {e : Element} {term : String} {es : List Element}
    (hkind : e.kind = ElementKind.annotation)
    (hkeys : Tree.onlyKeys [Tree.termKey, Tree.qualifierKey] e.attributes = true)
    (hterm : e.term? = some term) (hcontent : e.content = es.map .element) :
    e.canonical f = ⟨ElementKind.annotation, headAttributes (f term) e.qualifier?,
      (es.map (·.canonical f)).map .element, none, none⟩ := by
  have htype : Tree.valueUnder? e.attributes Tree.typeKey = none :=
    Tree.valueUnder?_eq_none hkeys (by decide)
  have hproperty : Tree.valueUnder? e.attributes Tree.propertyKey = none :=
    Tree.valueUnder?_eq_none hkeys (by decide)
  have hattributes := Tree.canonicalAttributes_of_onlyKeys (f := f) hkeys (by decide)
  rw [Element.term?, attributeValue?_eq] at hterm
  rw [Element.qualifier?, attributeValue?_eq]
  obtain ⟨kind, attributes, content, range, nameRange⟩ := e
  simp only at hkind hterm hcontent hattributes htype hproperty ⊢
  rw [Element.canonical, hattributes, hcontent, Tree.canonicalContent_elements, hkind]
  rw [Tree.filterMap_knownKeys, hterm, htype, hproperty]
  cases Tree.valueUnder? attributes Tree.qualifierKey with
  | none => rfl
  | some q => rfl

theorem kind_canonical (f : String → String) (e : Element) : (e.canonical f).kind = e.kind := by
  cases e
  rw [Element.canonical]

/-- A record whose first entry holds a value and whose other entries are annotations says that value
and these annotations. -/
theorem saidBy_promoted {v : Vocabulary} {es : List Element} {entries : List Syntax.Entry}
    (h : List.Forall₂ (StandsFor v) es entries)
    (hkind : ∀ e ∈ es, e.kind = ElementKind.annotation) (range : Range) {r : Range}
    {name : Syntax.Path} {colon : Option Range} {t : Syntax.Value} (hname : name.text = "$value")
    (hsegments : name.segments.map (·.text) = ["$value"]) :
    (saidBy v (some (.record ⟨range, .property ⟨r, name, colon, some t⟩ :: entries⟩))).map
      (·.canonical id) = (t.element v).canonical id :: es.map (·.canonical v.shorten) := by
  have hpromoted : (Syntax.Value.record
      ⟨range, .property ⟨r, name, colon, some t⟩ :: entries⟩).isPromoted = true := by
    rw [Syntax.Value.isPromoted, Syntax.Record.valueEntry?, Syntax.Record.property?,
      List.zipIdx_cons, List.findSome?_cons]
    simp [hname]
  have htype : Syntax.recordType?
      (.property ⟨r, name, colon, some t⟩ :: entries) = none := by
    refine recordType?_foldl none ?_
    intro entry hentry
    rcases List.mem_cons.mp hentry with rfl | hentry
    · rw [isNamed, hname]
      decide
    · exact (not_named_of_standsFor h entry hentry).1
  have helements : Syntax.entryElements v (.property ⟨r, name, colon, some t⟩ :: entries) =
      Syntax.propertyElement r (some (t.element v)) ["$value"] ::
        Syntax.entryElements v entries := by
    rw [Syntax.entryElements, if_neg (by rw [hname]; decide), hsegments, Syntax.optionElement]
  have hkinds : ∀ x ∈ Syntax.entryElements v entries, x.kind = ElementKind.annotation := by
    intro x hx
    have hmem : x.canonical id ∈ es.map (·.canonical v.shorten) := by
      rw [← elements_of_standsFor h]
      exact List.mem_map_of_mem hx
    obtain ⟨e, he, heq⟩ := List.mem_map.mp hmem
    rw [← kind_canonical id x, ← heq, kind_canonical, hkind e he]
  have hchildren : ∀ xs : List Element,
      (xs.map Tree.Node.element).filterMap Tree.Node.element? = xs := by
    intro xs
    rw [List.filterMap_map]
    exact List.filterMap_some
  have hrest : (Syntax.entryElements v entries).filterMap (fun child =>
      if child.kind == .propertyValue then
        if child.attributeValue? Tree.propertyKey == some "$value" then child.elements.head?
        else none
      else some child) = Syntax.entryElements v entries := by
    refine Eq.trans (List.filterMap_congr ?_) List.filterMap_some
    intro x hx
    rw [hkinds x hx]
    rfl
  rw [saidBy, Syntax.optionElement, Option.elim_some, Option.any_some, hpromoted,
    Syntax.unwrapValue, if_pos rfl, Syntax.Value.element, Syntax.Record.element, htype, helements]
  show List.map _ (List.filterMap _ (List.filterMap _ _)) = _
  rw [List.map_cons, List.filterMap_cons_some (rfl : Tree.Node.element? (.element _) = some _),
    hchildren, List.filterMap_cons_some, hrest, List.map_cons, elements_of_standsFor h]
  rfl

def SpellsOptional (Q : Option Syntax.Value → Prop) : Option String → Prop
  | none => Q none
  | some text => SpellsValue text (fun t => Q (some t))

/-- A head that something else may follow, and the value after it. -/
theorem spells_headed {head : String} {text? : Option String} {Q : Option Syntax.Value → Prop}
    {read : List Token → Prop} (hhead : Spells Break head.toList read)
    (h : SpellsOptional Q text?) :
    Spells Break (Printer.headed head text?).toList (fun ts => ∃ us vs colon value, ts = us ++ vs ∧
      read us ∧ Syntax.valueAfterColon colon value vs ∧ Q value) := by
  cases text? with
  | none =>
      refine hhead.imp fun ts hts => ⟨ts, [], none, none, (List.append_nil ts).symm, hts, ?_, h⟩
      rw [Syntax.valueAfterColon]
      exact ⟨rfl, rfl⟩
  | some text =>
      rw [toList_headed]
      refine (hhead.thenBreak (spells_afterColon h) (by decide)).imp ?_
      rintro ts ⟨us, vs, rfl, hus, colon, t, hvs, hQ⟩
      exact ⟨us, vs, some colon, some t, rfl, hus, hvs, hQ⟩

/-- What is known of a written annotation: its term, its qualifier and its value. -/
def Heads (p : Printer) (e : Element) (term : String) (Q : Option Syntax.Value → Prop)
    (a : Syntax.Annotation) : Prop :=
  a.term.text = p.vocabulary.shorten term ∧
    a.term.segments.map (·.text) = Text.split '.' (p.vocabulary.shorten term) ∧
    qualifierText? a.qualifier = e.qualifier? ∧ Q a.value

/-- A name, its qualifier and a value are read as an annotation without its `@`. -/
theorem spells_named {name : String} {qualifier? text? : Option String}
    {Q : Option Syntax.Value → Prop} (hdotted : Lexer.isDotted name = true)
    (hqualifier : qualifier?.all Lexer.isName = true) (h : SpellsOptional Q text?) :
    Spells Break (Printer.headed (qualified name qualifier?) text?).toList (fun ts =>
      ∀ sign, ∃ a : Syntax.Annotation, a.WrittenAs ts ∧ a.atSign = sign ∧ a.term.text = name ∧
        a.term.segments.map (·.text) = Text.split '.' name ∧
        qualifierText? a.qualifier = qualifier? ∧ Q a.value) := by
  refine (spells_headed (spells_qualified hdotted hqualifier) h).imp ?_
  rintro ts ⟨ws, vs, colon, value, rfl, ⟨us, qs, path, qualifier, rfl, hus, hqs, htext, hsegments,
    hq⟩, hvs, hQ⟩ sign
  let blank : Syntax.Annotation :=
    ⟨Range.empty Position.origin, sign, path, qualifier, colon, value, false⟩
  refine ⟨⟨⟨path.range.start, Syntax.Parser.endOf value blank.headEnd⟩, sign, path, qualifier,
    colon,
    value, false⟩, ⟨us, qs, vs, ?_, hus, hqs, hvs, rfl, rfl⟩, rfl, htext, hsegments, hq, hQ⟩
  rw [List.append_assoc]

theorem spells_compound {p : Printer} {e : Element} {term : String} {text? : Option String}
    {Q : Option Syntax.Value → Prop} (hterm : e.term? = some term)
    (hdotted : Lexer.isDotted (p.vocabulary.shorten term) = true)
    (hqualifier : e.qualifier?.all Lexer.isName = true) (h : SpellsOptional Q text?) :
    Spells Break (Printer.headed (p.term e) text?).toList (fun ts =>
      ∀ sign, ∃ a : Syntax.Annotation,
      a.WrittenAs ts ∧ a.atSign = sign ∧ Heads p e term Q a) := by
  rw [term_eq_qualified hterm]
  exact spells_named hdotted hqualifier h

theorem spells_embedded {p : Printer} {e : Element} {term : String} {text? : Option String}
    {Q : Option Syntax.Value → Prop} (hterm : e.term? = some term)
    (hdotted : Lexer.isDotted (p.vocabulary.shorten term) = true)
    (hqualifier : e.qualifier?.all Lexer.isName = true) (h : SpellsOptional Q text?) :
    SpellsEntry (Printer.headed (p.annotationHead .embedded e) text?) (fun entry => ∃ a,
      entry = .embedded a ∧ Heads p e term Q a) := by
  have hclosing : Spells Break [']'] _ := Lexer.spells_mark (by decide)
  have hhead := ((((spells_term hterm hdotted hqualifier).thenBreak hclosing (by decide)).mark '@'
    (by decide)).mark '[' (by decide)).mark '!' (by decide)
  have htext : (p.annotationHead .embedded e).toList =
      '!' :: '[' :: '@' :: ((p.term e).toList ++ [']']) := by
    rw [Printer.annotationHead, String.toList_append, String.toList_append, List.append_assoc]
    rfl
  rw [← htext] at hhead
  refine (spells_headed hhead h).imp ?_
  rintro ts ⟨ws, vs, colon, value, rfl, ⟨mark, ts₁, rfl, hmark, opening, ts₂, rfl, hopening, sign,
    ts₃, rfl, hsign, ts₄, ts₅, rfl, ⟨us, qs, path, qualifier, rfl, hus, hqs, hterm', hsegments, hq⟩,
    closing, rfl, hclose⟩, hvs, hQ⟩
  refine ⟨.embedded ⟨⟨mark.range.start, Syntax.Parser.endOf value closing.range.stop⟩, none, path,
    qualifier, colon, value, true⟩, ?_, _, rfl, hterm', hsegments, hq, hQ⟩
  rw [Syntax.Entry.WrittenAs]
  refine ⟨mark, opening, sign, us, qs, closing, vs, ?_, hmark, hopening, hsign, hus, hqs, hclose,
    hvs, rfl, rfl, rfl⟩
  simp

/-! ## Elements -/

/-- The value says what the element says, and it is not one that holds a value and annotations. -/
def ValueOf (e : Element) (t : Syntax.Value) : Prop :=
  (t.element .standard).canonical id = e.canonical Vocabulary.standard.shorten ∧
    t.isPromoted = false

/-- The value says what the content of an annotation says. -/
def ContentOf (es : List Element) (value : Option Syntax.Value) : Prop :=
  (saidBy .standard value).map (·.canonical id) = es.map (·.canonical Vocabulary.standard.shorten)

theorem contentOf_value {e : Element} {t : Syntax.Value} (h : ValueOf e t) :
    ContentOf [e] (some t) := by
  rw [ContentOf, saidBy, Option.any_some, h.2]
  simp [Syntax.optionElement, Syntax.unwrapValue, h.1]

theorem spellsValue_primitive {text : String} {e : Element}
    (h : SpellsLiteral text (e.canonical Vocabulary.standard.shorten)) :
    SpellsValue text (ValueOf e) := by
  refine h.imp ?_
  rintro ts ⟨q, hq, heq⟩
  refine ⟨.primitive q, ?_, ?_, rfl⟩
  · rw [Syntax.Value.WrittenAs]
    exact hq
  · rw [Syntax.Value.element]
    exact heq

theorem spellsValue_type (type : String) :
    SpellsValue (Printer.quote type)
      (fun t => ∃ q, t = .primitive q ∧ Syntax.unquote q.text = type) := by
  refine (Lexer.spells_quote type).mono (fun rest hrest c hc => (hrest c hc).2.2) ?_
  rintro ts ⟨t, rfl, ht, htext⟩
  let q : Syntax.Primitive := ⟨t.range,
    if t.text.toList.head? == some Lexer.backquote then .multiLineString else .string, t.text⟩
  refine ⟨.primitive q, ?_, q, rfl, (congrArg Syntax.unquote htext).trans (unquote_quote type)⟩
  rw [Syntax.Value.WrittenAs]
  exact Or.inl ⟨t, rfl, ht, rfl⟩

theorem elements_of_valueOf {es : List Element} {ts : List Syntax.Value}
    (h : List.Forall₂ ValueOf es ts) :
    (Syntax.elementsOf .standard ts).map (·.canonical id) =
      es.map (·.canonical Vocabulary.standard.shorten) := by
  rw [elementsOf_eq]
  induction h with
  | nil => rfl
  | cons h _ ih => rw [List.map_cons, List.map_cons, List.map_cons, h.1, ih]

theorem canonical_of_property {f : String → String} {e : Element} {name : String}
    {es : List Element} (hkind : e.kind = .propertyValue)
    (hkeys : Tree.onlyKeys [Tree.propertyKey] e.attributes = true)
    (hname : Tree.valueUnder? e.attributes Tree.propertyKey = some name)
    (hcontent : e.content = es.map .element) :
    e.canonical f = ⟨.propertyValue, [(Tree.propertyKey, ⟨Tree.propertyKey, name, none⟩)],
      (es.map (·.canonical f)).map .element, none, none⟩ := by
  have hattributes := Tree.canonicalAttributes_of_onlyKeys (f := f) hkeys (by decide)
  have hterm : Tree.valueUnder? e.attributes Tree.termKey = none :=
    Tree.valueUnder?_eq_none hkeys (by decide)
  have hqualifier : Tree.valueUnder? e.attributes Tree.qualifierKey = none :=
    Tree.valueUnder?_eq_none hkeys (by decide)
  have htype : Tree.valueUnder? e.attributes Tree.typeKey = none :=
    Tree.valueUnder?_eq_none hkeys (by decide)
  rw [Tree.filterMap_knownKeys, hterm, hqualifier, htype, hname] at hattributes
  obtain ⟨kind, attributes, content, range, nameRange⟩ := e
  simp only at hkind hcontent hattributes ⊢
  rw [Element.canonical, hattributes, hcontent, Tree.canonicalContent_elements, hkind]
  rfl

/-- What is required of the attributes of an annotation. -/
def HasHead (e : Element) : Prop :=
  ∃ term, e.term? = some term ∧ Printable.isTerm .standard term = true ∧
    Tree.onlyKeys [Tree.termKey, Tree.qualifierKey] e.attributes = true ∧
    e.qualifier?.all Lexer.isName = true

theorem hasHead_of {e : Element}
    (hkeys : Tree.onlyKeys [Tree.termKey, Tree.qualifierKey] e.attributes = true)
    (hterm : (Tree.valueUnder? e.attributes Tree.termKey).any (Printable.isTerm .standard) = true)
    (hqualifier : (Tree.valueUnder? e.attributes Tree.qualifierKey).all Lexer.isName = true) :
    HasHead e := by
  obtain ⟨term, hvalue, hisTerm⟩ := (Option.any_eq_true _ _).mp hterm
  refine ⟨term, ?_, hisTerm, hkeys, ?_⟩
  · rw [Element.term?, attributeValue?_eq, hvalue]
  · rw [Element.qualifier?, attributeValue?_eq, hqualifier]

theorem not_isLiteralContent {kind : ElementKind} {content : List Tree.Node}
    (h : kind.isPrimitive = false) : Printable.isLiteralContent kind content = false := by
  unfold Printable.isLiteralContent
  split
  · cases kind <;> first | rfl | cases h
  · cases kind <;> first | rfl | cases h
  · rfl

theorem kind_of_isValue {v : Vocabulary} {e : Element} (h : Printable.isValue v e = true) :
    e.kind ≠ ElementKind.annotation ∧ e.kind ≠ .propertyValue := by
  obtain ⟨kind, attributes, content, range, nameRange⟩ := e
  constructor
  · rintro rfl
    simp only [Printable.isValue, @not_isLiteralContent ElementKind.annotation content rfl,
      Bool.and_false, Bool.false_eq_true] at h
  · rintro rfl
    simp only [Printable.isValue, @not_isLiteralContent .propertyValue content rfl,
      Bool.and_false, Bool.false_eq_true] at h

theorem spells_propertyEntry {e : Element} {name : String} {es : List Element}
    {text? : Option String} (hkind : e.kind = .propertyValue)
    (hkeys : Tree.onlyKeys [Tree.propertyKey] e.attributes = true)
    (hvalue : Tree.valueUnder? e.attributes Tree.propertyKey = some name)
    (hname : Printable.isPropertyName name = true) (hcontent : e.content = es.map .element)
    (h : (text? = none ∧ es = []) ∨
      ∃ x text, text? = some text ∧ es = [x] ∧ SpellsValue text (ValueOf x)) :
    SpellsEntry (Printer.headed (Printer.propertyName e) text?) (StandsFor .standard e) := by
  simp only [Printable.isPropertyName, Bool.and_eq_true, bne_iff_ne] at hname
  obtain ⟨⟨hname, htype⟩, hdollar⟩ := hname
  have hcanonical := canonical_of_property (f := Vocabulary.standard.shorten) hkind hkeys hvalue
    hcontent
  rw [Printer.propertyName, attributeValue?_eq, hvalue, Option.getD_some]
  rcases h with ⟨rfl, rfl⟩ | ⟨x, text, rfl, rfl, hx⟩
  · refine (spells_bareProperty hname).imp ?_
    rintro ts ⟨entry, hts, range, path, rfl, htext, hsegments⟩
    refine ⟨_, hts, ⟨Syntax.propertyElement range none [name], ?_, ?_⟩, ?_, ?_⟩
    · rw [entryElement?, if_neg (by rw [htext]; simpa using htype), hsegments]
      rfl
    · rw [hcanonical]
      rfl
    · simpa [isNamed, htext] using htype
    · simpa [isNamed, htext] using hdollar
  · refine (spells_property hname hx).imp ?_
    rintro ts ⟨entry, hts, range, path, colon, t, rfl, htext, hsegments, ht⟩
    refine ⟨_, hts, ⟨Syntax.propertyElement range (some (t.element .standard)) [name], ?_, ?_⟩,
      ?_, ?_⟩
    · rw [entryElement?, if_neg (by rw [htext]; simpa using htype), hsegments,
        Syntax.optionElement]
    · rw [hcanonical, List.map_singleton, ← ht.1]
      rfl
    · simpa [isNamed, htext] using htype
    · simpa [isNamed, htext] using hdollar

def IsStandard (p : Printer) : Prop :=
  Text.allBlank p.indentUnit.toList = true ∧ p.vocabulary = .standard

section

variable {p : Printer} (hp : IsStandard p)

include hp

theorem spells_record {e : Element} {es : List Element} {texts : List String} (level : Nat)
    (hkind : e.kind = .record) (hkeys : Tree.onlyKeys [Tree.typeKey] e.attributes = true)
    (hcontent : e.content = es.map .element)
    (h : Lexer.Items Syntax.Entry.WrittenAs texts (es.map (StandsFor .standard))) :
    SpellsValue (p.braces (p.typeEntry e ++ texts) level) (ValueOf e) := by
  have hattributes := Tree.canonicalAttributes_of_onlyKeys
    (f := Vocabulary.standard.shorten) hkeys (by decide)
  have hterm : Tree.valueUnder? e.attributes Tree.termKey = none :=
    Tree.valueUnder?_eq_none hkeys (by decide)
  have hqualifier : Tree.valueUnder? e.attributes Tree.qualifierKey = none :=
    Tree.valueUnder?_eq_none hkeys (by decide)
  have hproperty : Tree.valueUnder? e.attributes Tree.propertyKey = none :=
    Tree.valueUnder?_eq_none hkeys (by decide)
  rw [Tree.filterMap_knownKeys, hterm, hqualifier, hproperty] at hattributes
  have hcanonical : e.canonical Vocabulary.standard.shorten =
      ⟨.record, ((Tree.valueUnder? e.attributes Tree.typeKey).map fun type =>
        (Tree.typeKey, ⟨Tree.typeKey, Vocabulary.standard.shorten type, none⟩)).toList,
        (es.map (·.canonical Vocabulary.standard.shorten)).map .element, none, none⟩ := by
    obtain ⟨kind, attributes, content, range, nameRange⟩ := e
    simp only at hkind hcontent hattributes ⊢
    rw [Element.canonical, hattributes, hcontent, Tree.canonicalContent_elements, hkind]
    simp [Tree.renamed]
  unfold Printer.typeEntry
  rw [attributeValue?_eq]
  cases htype : Tree.valueUnder? e.attributes Tree.typeKey with
  | none =>
      rw [htype] at hcanonical
      refine (Lexer.spells_block hp.1 h '\x7b' '\x7d' (by decide) (by decide) level).mono
        (fun _ _ => trivial) ?_
      rintro ts ⟨opening, closing, us, entries, rfl, hopening, hclosing, hus, hentries⟩
      have hstands := Lexer.forall₂_of_map hentries
      refine ⟨.record ⟨⟨opening.range.start, closing.range.stop⟩, entries⟩, ?_, ?_, ?_⟩
      · rw [Syntax.Value.WrittenAs]
        exact ⟨opening, closing, us, rfl, hopening, hclosing, rfl,
          (Syntax.entriesWrittenAs_iff entries us).mpr hus⟩
      · rw [hcanonical, Syntax.Value.element, record_canonical hstands]
        rfl
      · rw [Syntax.Value.isPromoted, Syntax.Record.valueEntry?, property?_eq_none
          fun entry hentry => (not_named_of_standsFor hstands entry hentry).2]
        rfl
  | some type =>
      rw [htype] at hcanonical
      have hentry := spells_property (by decide : Lexer.isName "$Type" = true)
        (spellsValue_type (p.vocabulary.shorten type))
      have hitems := List.Forall₂.cons hentry h
      refine (Lexer.spells_block hp.1 hitems '\x7b' '\x7d' (by decide) (by decide) level).mono
        (fun _ _ => trivial) ?_
      rintro ts ⟨opening, closing, us, entries, rfl, hopening, hclosing, hus, hentries⟩
      obtain ⟨entry, rest, ⟨range, path, colon, t, rfl, hname, _, q, rfl, hq⟩, hrest, rfl⟩ :=
        List.forall₂_cons_left_iff.mp hentries
      have hstands := Lexer.forall₂_of_map hrest
      refine ⟨.record ⟨⟨opening.range.start, closing.range.stop⟩,
        .property ⟨range, path, colon, some (.primitive q)⟩ :: rest⟩, ?_, ?_, ?_⟩
      · rw [Syntax.Value.WrittenAs]
        exact ⟨opening, closing, us, rfl, hopening, hclosing, rfl,
          (Syntax.entriesWrittenAs_iff _ us).mpr hus⟩
      · rw [hcanonical, Syntax.Value.element, typedRecord_canonical hstands _ hname, hq, hp.2]
        rfl
      · rw [Syntax.Value.isPromoted, Syntax.Record.valueEntry?, property?_eq_none]
        · rfl
        · intro entry hentry
          rcases List.mem_cons.mp hentry with rfl | hentry
          · rw [isNamed, hname]
            decide
          · exact (not_named_of_standsFor hstands entry hentry).2

theorem spells_collection {e : Element} {es : List Element} {texts : List String} (level : Nat)
    (hkind : e.kind = .collection) (hkeys : Tree.onlyKeys [] e.attributes = true)
    (hcontent : e.content = es.map .element)
    (h : Lexer.Items Syntax.Value.WrittenAs texts (es.map ValueOf)) :
    SpellsValue (p.block "[" "]" texts level) (ValueOf e) := by
  refine (Lexer.spells_block hp.1 h '[' ']' (by decide) (by decide) level).mono
    (fun _ _ => trivial) ?_
  rintro ts ⟨opening, closing, us, items, rfl, hopening, hclosing, hus, hitems⟩
  have hitems' : List.Forall₂ ValueOf es items := Lexer.forall₂_of_map hitems
  refine ⟨.collection ⟨⟨opening.range.start, closing.range.stop⟩, items⟩, ?_, ?_, rfl⟩
  · rw [Syntax.Value.WrittenAs]
    exact ⟨opening, closing, us, rfl, hopening, hclosing, rfl,
      (Syntax.valuesWrittenAs_iff items us).mpr hus⟩
  · obtain ⟨kind, attributes, content, range, nameRange⟩ := e
    obtain rfl : attributes = [] := Tree.eq_nil_of_onlyKeys hkeys
    simp only at hkind hcontent
    rw [Syntax.Value.element, Element.canonical, Element.canonical, hcontent,
      Tree.canonicalContent_elements, Tree.canonicalContent_elements, elements_of_valueOf hitems',
      hkind]
    rfl

theorem spells_promoted {x : Element} {es : List Element} {text : String} {texts : List String}
    (level : Nat) (hx : SpellsValue text (ValueOf x))
    (hkind : ∀ e ∈ es, e.kind = ElementKind.annotation)
    (h : Lexer.Items Syntax.Entry.WrittenAs texts (es.map (StandsFor .standard))) :
    SpellsValue (p.braces (("$value : " ++ text) :: texts) level)
      (fun t => ContentOf (x :: es) (some t)) := by
  have hentry := spells_property (by decide : Lexer.isName "$value" = true) hx
  have hitems := List.Forall₂.cons hentry h
  refine (Lexer.spells_block hp.1 hitems '\x7b' '\x7d' (by decide) (by decide) level).mono
    (fun _ _ => trivial) ?_
  rintro ts ⟨opening, closing, us, entries, rfl, hopening, hclosing, hus, hentries⟩
  obtain ⟨entry, rest, ⟨range, path, colon, t, rfl, hname, hsegments, ht⟩, hrest, rfl⟩ :=
    List.forall₂_cons_left_iff.mp hentries
  refine ⟨.record ⟨⟨opening.range.start, closing.range.stop⟩,
    .property ⟨range, path, colon, some t⟩ :: rest⟩, ?_, ?_⟩
  · rw [Syntax.Value.WrittenAs]
    exact ⟨opening, closing, us, rfl, hopening, hclosing, rfl,
      (Syntax.entriesWrittenAs_iff _ us).mpr hus⟩
  · refine (saidBy_promoted (Lexer.forall₂_of_map hrest) hkind _ hname hsegments).trans ?_
    rw [List.map_cons, ht.1]

theorem spells_annotationEntry {e : Element} {es : List Element} {text? : Option String}
    (hkind : e.kind = ElementKind.annotation) (he : HasHead e)
    (hcontent : e.content = es.map .element)
    (h : SpellsOptional (ContentOf es) text?) :
    SpellsEntry (Printer.headed (p.annotationHead .embedded e) text?) (StandsFor .standard e) := by
  obtain ⟨term, hterm, hisTerm, hkeys, hqualifier⟩ := he
  have hdotted : Lexer.isDotted (p.vocabulary.shorten term) = true := by
    rw [hp.2]
    exact Vocabulary.isDotted_shorten (Bool.and_eq_true _ _ ▸ hisTerm).1
  refine (spells_embedded hterm hdotted hqualifier h).imp ?_
  rintro ts ⟨entry, hts, ⟨range, sign, path, qualifier, colon, value, embedded⟩, rfl, htext, _, hq,
    hvalue⟩
  simp only at htext hq hvalue
  refine ⟨_, hts, ⟨_, rfl, ?_⟩, rfl, rfl⟩
  rw [htext, hp.2, annotationElement_canonical (splitTerm_shorten hisTerm), hq, hvalue,
    canonical_of_head hkind hkeys hterm hcontent]

end

mutual

theorem spells_value {p : Printer} (hp : IsStandard p) :
    ∀ (e : Element) (level : Nat), Printable.isValue .standard e = true →
      SpellsValue (p.value e level) (ValueOf e)
  | ⟨kind, attributes, content, range, nameRange⟩, level, h => by
      cases kind with
      | record =>
          rw [Printable.isValue, Bool.and_eq_true] at h
          obtain ⟨es, hes, hitems⟩ := spells_entries hp content (level + 1) h.2
          rw [Printer.value]
          exact spells_record hp level rfl h.1 hes hitems
      | collection =>
          rw [Printable.isValue, Bool.and_eq_true] at h
          obtain ⟨es, hes, hitems⟩ := spells_items hp content (level + 1) h.2
          rw [Printer.value]
          exact spells_collection hp level rfl h.1 hes hitems
      | annotation => exact absurd rfl (kind_of_isValue h).1
      | propertyValue => exact absurd rfl (kind_of_isValue h).2
      | _ =>
          simp only [Printable.isValue, Bool.and_eq_true] at h
          obtain rfl := Tree.eq_nil_of_onlyKeys h.1
          simp only [Printer.value]
          exact spellsValue_primitive (spellsLiteral_primitive p _ range nameRange h.2)

theorem spells_items {p : Printer} (hp : IsStandard p) :
    ∀ (nodes : List Tree.Node) (level : Nat),
      Printable.areValues .standard nodes = true → ∃ es : List Element, nodes = es.map .element ∧
      Lexer.Items Syntax.Value.WrittenAs (p.items nodes level) (es.map ValueOf)
  | [], _, _ => ⟨[], rfl, .nil⟩
  | .element e :: nodes, level, h => by
      rw [Printable.areValues, Bool.and_eq_true] at h
      obtain ⟨es, rfl, hitems⟩ := spells_items hp nodes level h.2
      refine ⟨e :: es, rfl, ?_⟩
      rw [Printer.items]
      exact .cons (spells_value hp e level h.1) hitems
  | .text _ :: _, _, h => by cases h

/-- An entry of a record, as `Printer.entries` writes it. -/
theorem spells_entry {p : Printer} (hp : IsStandard p) :
    ∀ (e : Element) (level : Nat), Printable.isEntry .standard e = true →
      SpellsEntry (if e.kind = ElementKind.annotation then p.value e level
      else Printer.headed (Printer.propertyName e) (p.firstValue e.content level))
      (StandsFor .standard e)
  | ⟨kind, attributes, content, range, nameRange⟩, level, h => by
      cases kind with
      | annotation =>
          simp only [Printable.isEntry, Bool.and_eq_true] at h
          obtain ⟨⟨⟨hkeys, hterm⟩, hqualifier⟩, hcontent⟩ := h
          obtain ⟨es, hes, hvalue⟩ := spells_content hp content level hcontent
          rw [if_pos rfl, Printer.value]
          exact spells_annotationEntry hp rfl (hasHead_of hkeys hterm hqualifier) hes hvalue
      | propertyValue =>
          simp only [Printable.isEntry, Bool.and_eq_true] at h
          obtain ⟨⟨hkeys, hname⟩, hcontent⟩ := h
          obtain ⟨es, hes, hvalue⟩ := spells_single hp content level hcontent
          obtain ⟨name, hname, hisName⟩ := (Option.any_eq_true _ _).mp hname
          rw [if_neg (by exact ElementKind.noConfusion)]
          exact spells_propertyEntry rfl hkeys hname hisName hes hvalue
      | _ => cases h

theorem spells_entries {p : Printer} (hp : IsStandard p) :
    ∀ (nodes : List Tree.Node) (level : Nat),
      Printable.areEntries .standard nodes = true → ∃ es : List Element, nodes = es.map .element ∧
      Lexer.Items Syntax.Entry.WrittenAs (p.entries nodes level) (es.map (StandsFor .standard))
  | [], _, _ => ⟨[], rfl, .nil⟩
  | .element ⟨kind, attributes, content, range, nameRange⟩ :: nodes, level, h => by
      rw [Printable.areEntries, Bool.and_eq_true] at h
      obtain ⟨es, rfl, hitems⟩ := spells_entries hp nodes level h.2
      refine ⟨⟨kind, attributes, content, range, nameRange⟩ :: es, rfl, ?_⟩
      rw [Printer.entries]
      exact .cons (spells_entry hp ⟨kind, attributes, content, range, nameRange⟩ level h.1) hitems
  | .text _ :: _, _, h => by cases h

theorem spells_annotations {p : Printer} (hp : IsStandard p) :
    ∀ (nodes : List Tree.Node) (level : Nat),
      Printable.areEmbedded .standard nodes = true → ∃ es : List Element, nodes = es.map .element ∧
      (∀ e ∈ es, e.kind = ElementKind.annotation) ∧
      Lexer.Items Syntax.Entry.WrittenAs (p.embedded nodes level) (es.map (StandsFor .standard))
  | [], _, _ => ⟨[], rfl, fun e he => absurd he List.not_mem_nil, .nil⟩
  | .element e :: nodes, level, h => by
      rw [Printable.areEmbedded, Bool.and_eq_true, Bool.and_eq_true, beq_iff_eq] at h
      obtain ⟨es, rfl, hkinds, hitems⟩ := spells_annotations hp nodes level h.2
      have hentry := spells_entry hp e level h.1.2
      rw [if_pos h.1.1] at hentry
      refine ⟨e :: es, rfl, ?_, ?_⟩
      · intro x hx
        rcases List.mem_cons.mp hx with rfl | hx
        · exact h.1.1
        · exact hkinds x hx
      · rw [Printer.embedded, if_pos h.1.1]
        exact .cons hentry hitems
  | .text _ :: _, _, h => by cases h

theorem spells_content {p : Printer} (hp : IsStandard p) :
    ∀ (nodes : List Tree.Node) (level : Nat),
      Printable.isContent .standard nodes = true → ∃ es : List Element, nodes = es.map .element ∧
      SpellsOptional (ContentOf es)
        (p.promoted (p.embedded nodes (level + 1)) (fun l => p.firstValue nodes l) level)
  | [], _, _ => ⟨[], rfl, rfl⟩
  | .element x :: nodes, level, h => by
      rw [Printable.isContent, Bool.and_eq_true] at h
      obtain ⟨es, rfl, hkinds, hitems⟩ := spells_annotations hp nodes (level + 1) h.2
      have hkind := (kind_of_isValue h.1).1
      have hfirst : ∀ l, p.firstValue (.element x :: es.map .element) l = some (p.value x l) := by
        intro l
        rw [Printer.firstValue, if_neg hkind]
      refine ⟨x :: es, rfl, ?_⟩
      rw [Printer.embedded, if_neg hkind]
      simp only [hfirst]
      cases es with
      | nil =>
          exact (spells_value hp x level h.1).imp fun ts ⟨t, ht, hx⟩ => ⟨t, ht, contentOf_value hx⟩
      | cons e es =>
          have hpromoted :=
            spells_promoted hp level (spells_value hp x (level + 1) h.1) hkinds hitems
          rw [List.map_cons] at hitems ⊢
          obtain ⟨text, texts, _, _, heq⟩ := List.forall₂_cons_right_iff.mp hitems
          rw [List.map_cons] at hpromoted
          rw [heq] at hpromoted ⊢
          exact hpromoted
  | .text _ :: _, _, h => by cases h

theorem spells_single {p : Printer} (hp : IsStandard p) :
    ∀ (nodes : List Tree.Node) (level : Nat),
      Printable.isSingle .standard nodes = true → ∃ es : List Element, nodes = es.map .element ∧
      ((p.firstValue nodes level = none ∧ es = []) ∨
        ∃ x text, p.firstValue nodes level = some text ∧ es = [x] ∧ SpellsValue text (ValueOf x))
  | [], _, _ => ⟨[], rfl, Or.inl ⟨rfl, rfl⟩⟩
  | .element x :: nodes, level, h => by
      rw [Printable.isSingle, Bool.and_eq_true, List.isEmpty_iff] at h
      obtain ⟨hx, rfl⟩ := h
      refine ⟨[x], rfl, Or.inr ⟨x, p.value x level, ?_, rfl, spells_value hp x level hx⟩⟩
      rw [Printer.firstValue, if_neg (kind_of_isValue hx).1]
  | .text _ :: _, _, h => by cases h

end

end Printing

end AnnotationEdit

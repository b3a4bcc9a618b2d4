import AnnotationEdit.Proofs.Deletion.Wrapping
import AnnotationEdit.Proofs.Syntax.Brackets
import AnnotationEdit.Proofs.Syntax.Spread

/-!
# Ranges of both trees

The ranges that parsing gives to the nodes of both trees follow conventions that the writer reads
edits off (`Document.rangeConventions_of_parse`). In the concrete tree they come from the tokens: a
node is written by some of the tokens of the node around it. The annotation tree has no ranges of its
own: an element stands where the node stands that it is read from, and a level that is folded into a
dotted name where the whole name stands (`Syntax.ranged_value`).
-/

namespace AnnotationEdit

namespace Tree

/-- The element and all elements below it have ranges, of which `P` holds. -/
inductive Ranged (P : Range → Prop) : Element → Prop
  | intro {e : Element} {r : Range} (range : e.range = some r) (holds : P r)
      (children : ∀ c, .element c ∈ e.content → Ranged P c) : Ranged P e

namespace Ranged

variable {P : Range → Prop} {e c : Element} {r : Range}

theorem child (h : Ranged P e) (hc : c ∈ e.elements) : Ranged P c := by
  obtain ⟨_, _, hchildren⟩ := h
  exact hchildren c (mem_elements_iff.mp hc)

theorem of_elements {cs : List Element} (hrange : e.range = some r) (hholds : P r)
    (hcontent : e.content = cs.map .element) (hcs : ∀ c ∈ cs, Ranged P c) : Ranged P e := by
  refine .intro hrange hholds fun c hc => ?_
  rw [hcontent] at hc
  obtain ⟨c', hc', heq⟩ := List.mem_map.mp hc
  obtain rfl := Node.element.inj heq
  exact hcs c' hc'

end Ranged

end Tree

/-! ## Elements -/

namespace Syntax

open AnnotationEdit.Tree (Element ElementKind Ranged)

/-- Of the range of the node, and of that of every node below it, `P` holds. -/
def Node.Throughout (P : Range → Prop) (n : Node) : Prop :=
  ∀ path m, n.resolve? path = some m → P m.range

namespace Node.Throughout

variable {P : Range → Prop} {n c : Node} {path : List String}

theorem here (h : n.Throughout P) : P n.range := h [] n rfl

theorem child (h : n.Throughout P) (hc : (path, c) ∈ n.children) : c.Throughout P := by
  intro rest m hm
  refine h (path ++ rest) m ?_
  rw [resolve?_of_mem_children hc]
  exact hm

theorem numbered {α : Type} {node : α → Node} {es : List α} {name : String} {e : α}
    (h : n.Throughout P)
    (hn : ∀ m, m ∈ Node.numbered name (es.map node) → m ∈ n.children) (he : e ∈ es) :
    (node e).Throughout P := by
  obtain ⟨i, hi⟩ := List.mem_iff_getElem?.mp he
  exact h.child (hn _ (mem_numbered_map hi))

end Node.Throughout

section Elements

variable {P : Range → Prop} {v : Vocabulary} {k : Nat} {r : Range} {value : Option Element}

/-- The levels of a dotted name have the range of the whole. -/
theorem ranged_propertyElement (hr : P r) (hvalue : ∀ c, value = some c → Ranged P c) :
    ∀ (names : List String) (name : String), Ranged P (propertyElement r value (name :: names)) ∧
      Ranged P (foldedRecord r value (name :: names))
  | names, name => by
      have hproperty : Ranged P (propertyElement r value (name :: names)) := by
        rw [propertyElement_cons]
        refine .of_elements rfl hr rfl fun c hc => ?_
        rw [Option.mem_toList] at hc
        cases names with
        | nil => exact hvalue c hc
        | cons next names =>
            obtain rfl := Option.some.inj hc
            exact (ranged_propertyElement hr hvalue names next).2
      exact ⟨hproperty, .of_elements rfl hr rfl (List.forall_mem_singleton.mpr hproperty)⟩

theorem ranged_unwrapValue {e : Element} (isPromoted : Bool) (h : Ranged P e) :
    ∀ c ∈ unwrapValue isPromoted e, Ranged P c := by
  intro c hc
  rw [unwrapValue] at hc
  split at hc
  · obtain ⟨d, hd, heq⟩ := List.mem_filterMap.mp hc
    have hd := h.child hd
    split at heq
    · split at heq
      · exact hd.child (List.mem_of_head? heq)
      · cases heq
    · obtain rfl := Option.some.inj heq
      exact hd
  · obtain rfl := List.mem_singleton.mp hc
    exact h

theorem ranged_annotationElement {term : String} {qualifier : Option Identifier}
    {isPromoted : Bool} (hr : P r) (hvalue : ∀ c, value = some c → Ranged P c) :
    Ranged P (annotationElement v term qualifier r isPromoted value) := by
  obtain ⟨_, hrange, _, hcontent⟩ := annotationElement_facts v term qualifier r isPromoted value
  refine .of_elements hrange hr hcontent fun c hc => ?_
  cases hnames : (splitTerm v term).2 with
  | cons name names =>
      rw [hnames] at hc
      obtain rfl := List.mem_singleton.mp hc
      exact (ranged_propertyElement hr hvalue names name).2
  | nil =>
      rw [hnames, annotationContent] at hc
      cases value with
      | none => cases hc
      | some w => exact ranged_unwrapValue isPromoted (hvalue w rfl) c hc

theorem ranged_primitive {p : Primitive} (hp : P p.range) : Ranged P (primitiveElement p) := by
  obtain ⟨hrange, _⟩ := primitiveElement_facts p
  exact .intro hrange hp fun c hc => absurd hc (element_not_mem_primitive p c)

theorem ranged_optionElement {w : Option Value}
    (hw : ∀ x, w = some x → Ranged P (x.element v)) :
    ∀ c, optionElement v w = some c → Ranged P c := by
  intro c hc
  cases w with
  | none => cases hc
  | some x =>
      obtain rfl := Option.some.inj hc
      exact hw x rfl

theorem ranged_entry {e : Entry} {c : Element} (h : e.Tidy k) (he : P e.range)
    (hvalue : ∀ p, e = .property p → ∀ w, p.value = some w → Ranged P (w.element v))
    (hembedded : ∀ a, e = .embedded a → ∀ w, a.value = some w → Ranged P (w.element v))
    (hc : entryElement? v e = some c) : Ranged P c := by
  cases e with
  | property p =>
      obtain ⟨_, hsegments⟩ := holds_property h
      obtain ⟨range, name, colon, value⟩ := p
      rw [entryElement?] at hc
      split at hc
      · cases hc
      · obtain rfl := Option.some.inj hc
        obtain ⟨first, names, hnames⟩ : ∃ first names,
            name.segments.map (·.text) = first :: names :=
          List.exists_cons_of_ne_nil (by rwa [Ne, List.map_eq_nil_iff])
        rw [hnames]
        exact (ranged_propertyElement he (ranged_optionElement (hvalue _ rfl)) names first).1
  | embedded a =>
      obtain ⟨range, atSign, term, qualifier, colon, value, embedded⟩ := a
      obtain rfl := Option.some.inj hc
      exact ranged_annotationElement he (ranged_optionElement (hembedded _ rfl))

theorem ranged_record {range : Range} {entries : List Entry} (hr : P range)
    (hentries : ∀ e ∈ entries, ∀ c, entryElement? v e = some c → Ranged P c) :
    Ranged P ((Value.record ⟨range, entries⟩).element v) := by
  rw [Value.element]
  obtain ⟨_, hrange, hcontent⟩ := Record.element_facts v ⟨range, entries⟩
  rw [entryElements_eq] at hcontent
  refine .of_elements hrange hr hcontent fun c hc => ?_
  obtain ⟨e, he, heq⟩ := List.mem_filterMap.mp hc
  exact hentries e he c heq

theorem ranged_collection {range : Range} {items : List Value} (hr : P range)
    (hitems : ∀ w ∈ items, Ranged P (w.element v)) :
    Ranged P ((Value.collection ⟨range, items⟩).element v) := by
  rw [Value.element, elementsOf_eq]
  refine .of_elements rfl hr rfl fun c hc => ?_
  obtain ⟨w, hw, rfl⟩ := List.mem_map.mp hc
  exact hitems w hw

end Elements

mutual

/-- The elements of a written value have the ranges of nodes of the value. -/
theorem ranged_value {P : Range → Prop} {v : Vocabulary} {k : Nat} : ∀ w : Value, w.Tidy k →
    (Node.ofValue w).Throughout P → Ranged P (w.element v)
  | .record ⟨range, entries⟩, h, hP =>
      ranged_record hP.here (ranged_entries entries (tidy_record h).2
        fun _ he => hP.numbered (fun _ hm => hm) he)
  | .collection ⟨range, items⟩, h, hP =>
      ranged_collection hP.here (ranged_items items (tidy_collection h).2
        fun _ hw => hP.numbered (fun _ hm => hm) hw)
  | .primitive p, _, hP => by
      rw [Value.element]
      exact ranged_primitive hP.here

theorem ranged_items {P : Range → Prop} {v : Vocabulary} {k : Nat} : ∀ ws : List Value,
    (∀ w ∈ ws, w.Tidy k) → (∀ w ∈ ws, (Node.ofValue w).Throughout P) →
      ∀ w ∈ ws, Ranged P (w.element v)
  | [], _, _ => fun _ hw => nomatch hw
  | w :: ws, h, hP => by
      rw [List.forall_mem_cons] at h hP ⊢
      exact ⟨ranged_value w h.1 hP.1, ranged_items ws h.2 hP.2⟩

theorem ranged_entries {P : Range → Prop} {v : Vocabulary} {k : Nat} : ∀ es : List Entry,
    (∀ e ∈ es, e.Tidy k) → (∀ e ∈ es, (Node.ofEntry e).Throughout P) →
      ∀ e ∈ es, ∀ c, entryElement? v e = some c → Ranged P c
  | [], _, _ => fun _ he => nomatch he
  | .property ⟨range, name, colon, none⟩ :: es, h, hP => by
      rw [List.forall_mem_cons] at h hP ⊢
      refine ⟨fun c => ranged_entry h.1 hP.1.here ?_ nofun, ranged_entries es h.2 hP.2⟩
      rintro p heq w hw
      obtain rfl := Entry.property.inj heq
      cases hw
  | .property ⟨range, name, colon, some x⟩ :: es, h, hP => by
      rw [List.forall_mem_cons] at h hP ⊢
      refine ⟨fun c => ranged_entry h.1 hP.1.here ?_ nofun, ranged_entries es h.2 hP.2⟩
      rintro p heq w hw
      obtain rfl := Entry.property.inj heq
      obtain rfl := Option.some.inj hw
      exact ranged_value x ((holds_property h.1).1.tidy x rfl) (hP.1.child List.mem_cons_self)
  | .embedded ⟨range, atSign, term, qualifier, colon, none, embedded⟩ :: es, h, hP => by
      rw [List.forall_mem_cons] at h hP ⊢
      refine ⟨fun c => ranged_entry h.1 hP.1.here nofun ?_, ranged_entries es h.2 hP.2⟩
      rintro a heq w hw
      obtain rfl := Entry.embedded.inj heq
      cases hw
  | .embedded ⟨range, atSign, term, qualifier, colon, some x, embedded⟩ :: es, h, hP => by
      rw [List.forall_mem_cons] at h hP ⊢
      refine ⟨fun c => ranged_entry h.1 hP.1.here nofun ?_, ranged_entries es h.2 hP.2⟩
      rintro a heq w hw
      obtain rfl := Entry.embedded.inj heq
      obtain rfl := Option.some.inj hw
      exact ranged_value x ((holds_embedded h.1).1.tidy x rfl)
        (hP.1.child (List.mem_append_right _ List.mem_cons_self))

end

theorem ranged_annotation {P : Range → Prop} {v : Vocabulary} {k : Nat} {a : Annotation}
    (group : Option String) (h : Holds k a.range a.value) (hP : (Node.annotation a).Throughout P) :
    Ranged P (a.element v group) := by
  refine ranged_annotationElement hP.here (ranged_optionElement fun w hw => ?_)
  refine ranged_value w (h.tidy w hw) (@Node.Throughout.child _ _ _ ["value"] hP
    (List.mem_append_right _ ?_))
  rw [hw]
  exact List.mem_cons_self

theorem ranged_assignment {P : Range → Prop} {v : Vocabulary} {k : Nat} {a : Assignment}
    (h : a.Tidy k) (hP : (Node.ofAssignment a).Throughout P) :
    ∀ e ∈ a.elements v, Ranged P e := by
  intro e he
  cases a with
  | single a =>
      obtain rfl := List.mem_singleton.mp he
      exact ranged_annotation none h hP
  | group g =>
      obtain ⟨a, ha, rfl⟩ := List.mem_map.mp he
      have hitems : (Node.groupItems g.items).Throughout P := hP.child List.mem_cons_self
      exact ranged_annotation _ (h.2.2 a ha).1 (hitems.numbered (fun _ hm => hm) ha)

end Syntax

namespace Document

open AnnotationEdit.Tree (Ranged)
open Syntax (Node)

/-- The range of a node of the concrete tree. -/
def HasNodeAt (d : Document) (r : Range) : Prop :=
  ∃ p n, d.syntaxTree.resolve? p = some n ∧ n.range = r

/-- The tokens that are not comments. -/
def code (d : Document) : List Token := d.tokens.tokens.toList.filter Token.isCode

/-- The conventions for the ranges of both trees. -/
structure RangeConventions (d : Document) : Prop where
  /-- A node stands inside the node around it. -/
  inside : ∀ p n path m, d.syntaxTree.resolve? p = some n → (path, m) ∈ n.children →
    n.range.contains m.range = true
  /-- The children of a node stand one before the other, in a file those of one sort. -/
  declarationsApart : d.syntaxTree.declarations.Pairwise fun a b => a.range.Before b.range
  targetsApart : d.syntaxTree.targets.Pairwise fun a b => a.range.Before b.range
  childrenApart : ∀ p n, d.syntaxTree.resolve? p = some n → (∀ f, n ≠ .file f) →
    n.children.Pairwise fun a b => a.2.range.Before b.2.range
  /-- A node other than the file starts at a token and ends at one. -/
  onTokens : ∀ p n, d.syntaxTree.resolve? p = some n → (∀ f, n ≠ .file f) → n.range.Proper ∧
    ∃ t ∈ d.code, ∃ u ∈ d.code, n.range = ⟨t.range.start, u.range.stop⟩
  /-- A list with brackets starts and ends at them. -/
  brackets : ∀ p n left right, d.syntaxTree.resolve? p = some n →
    n.marks? = some (left, right) → ∃ opening closing, opening.is left = true ∧
      closing.is right = true ∧ Matched d.code opening closing ∧
      n.range = ⟨opening.range.start, closing.range.stop⟩
  parentheses : ∀ t ∈ d.syntaxTree.targets, ∀ r, t.compound = some r →
    Syntax.Parenthesizes d.code r
  /-- What the annotation tree is made of stands where nodes of the concrete tree stand. -/
  references : ∀ r ∈ d.tree.references, ∃ s, r.range = some s ∧ d.HasNodeAt s
  targets : ∀ t ∈ d.tree.targets, ∃ s, t.range = some s ∧ d.HasNodeAt s
  elements : ∀ t ∈ d.tree.targets, ∀ e ∈ t.terms, Ranged d.HasNodeAt e

variable {uri text : String} {c : Configuration} {d : Document}

theorem throughout_hasNodeAt (d : Document) : (Node.file d.syntaxTree).Throughout d.HasNodeAt :=
  fun path m hm => ⟨⟨path⟩, m, hm, rfl⟩

/-- The place behind a token is a place in the text. -/
theorem stop_le_of_mem_code (h : parse uri text c = .ok d) {t : Token} (ht : t ∈ d.code) :
    t.range.stop ≤ d.lines.stop := by
  obtain ⟨hmem, hcode⟩ := List.mem_filter.mp ht
  obtain ⟨i, ht⟩ := TokenStream.exists_get? hmem
  have hkind : t.kind ≠ .lineComment := by
    intro hkind
    rw [Token.isCode, Token.isComment, hkind] at hcode
    cases hcode
  obtain ⟨x, n, _, hstop, hx⟩ := (onLines_of_parse h).stop_nonblank ht hkind
  have hn : n < (d.lines.lineText t.range.stop.line).length :=
    (List.getElem?_eq_some_iff.mp hx).choose
  have hline : t.range.stop.line < d.lines.count := by
    refine Nat.lt_of_not_le fun hle => ?_
    rw [Lines.lineText, List.getElem?_eq_none hle] at hn
    exact absurd hn (Nat.not_lt_zero n)
  rw [Position.le_def]
  by_cases hlast : t.range.stop.line = d.lines.count - 1
  · refine Or.inr ⟨hlast, ?_⟩
    show t.range.stop.character ≤ (d.lines.lineText (d.lines.count - 1)).length
    rw [hlast] at hn
    omega
  · refine Or.inl ?_
    show t.range.stop.line < d.lines.count - 1
    omega

/-- A node other than the file stands on tokens. -/
theorem within_code (h : parse uri text c = .ok d) {p : Pointer} {n : Node}
    (hn : d.syntaxTree.resolve? p = some n) (hfile : ∀ f, n ≠ .file f) : Within d.code n.range := by
  obtain ⟨ts, hts, hwritten⟩ := exists_written h hn
  exact (hwritten.within hfile).weaken hts

theorem exists_code (h : parse uri text c = .ok d) {p : Pointer} {n : Node}
    (hn : d.syntaxTree.resolve? p = some n) (hfile : ∀ f, n ≠ .file f) : n.range.Proper ∧
      ∃ t ∈ d.code, ∃ u ∈ d.code, n.range = ⟨t.range.start, u.range.stop⟩ := by
  obtain ⟨ts, hts, t, u, ht, hu, hrange⟩ := within_code h hn hfile
  refine ⟨Spans.proper ⟨t, u, ht, hu, hrange⟩ ((ordered_code h).sublist hts), ?_⟩
  exact ⟨t, hts.subset (List.mem_of_head? ht), u, hts.subset (List.mem_of_getLast? hu), hrange⟩

/-- A node stands inside the node around it; the file reaches over the whole text. -/
theorem contains_child (h : parse uri text c = .ok d) {p : Pointer} {n m : Node}
    {path : List String} (hn : d.syntaxTree.resolve? p = some n) (hm : (path, m) ∈ n.children) :
    n.range.contains m.range = true := by
  by_cases hfile : ∃ f, n = .file f
  · obtain ⟨f, rfl⟩ := hfile
    rcases Node.resolve?_eq_some_cases hn with ⟨_, heq⟩ | ⟨_, _, _, _, _, hlast⟩
    · obtain rfl := Node.file.inj heq
      have hmember : d.syntaxTree.resolve? ⟨path⟩ = some m := by
        have hroot := Node.resolve?_of_mem_children hm []
        rwa [List.append_nil] at hroot
      obtain ⟨_, t, _, u, hu, hrange⟩ :=
        exists_code h hmember (Syntax.ne_file_of_mem_children hm)
      obtain ⟨_, _, _, _, _, _, hlines, hunder, _⟩ := tokens_of_parse h
      rw [Node.range, hunder, Range.contains_iff, hrange]
      refine ⟨Position.origin_le _, ?_⟩
      show u.range.stop ≤ (Lines.ofString text).stop
      rw [← hlines]
      exact stop_le_of_mem_code h hu
    · exact absurd rfl (Syntax.ne_file_of_mem_children hlast f)
  · obtain ⟨ts, hts, hwritten⟩ := exists_written h hn
    exact Node.contains_child hwritten ((ordered_code h).sublist hts)
      (fun f heq => hfile ⟨f, heq⟩) hm

/-- Parsing gives the nodes of both trees ranges after the conventions, whatever the
configuration. -/
theorem rangeConventions_of_parse (h : parse uri text c = .ok d) : d.RangeConventions := by
  have hnodes := throughout_hasNodeAt d
  have htidy := tidy_of_parse h
  have htree : d.tree = d.syntaxTree.abstraction c.aliases := by
    obtain ⟨_, _, _, _, _, _, _, hunder, htree⟩ := tokens_of_parse h
    rw [hunder, htree]
  have htarget : ∀ t ∈ d.syntaxTree.targets, (Node.target t).Throughout d.HasNodeAt :=
    fun t ht => hnodes.numbered (fun m hm => List.mem_append_right _ hm) ht
  refine ⟨fun p n path m hn hm => contains_child h hn hm, ?_, htidy.targetsApart, ?_,
    fun p n hn hfile => exists_code h hn hfile,
    fun p n left right hn hbrackets => exists_matched h hn hbrackets,
    fun t ht r hr => exists_parentheses h ht hr, ?_, ?_, ?_⟩
  · obtain ⟨items, hitems, hdeclarations, _⟩ := written_file h
    rw [hdeclarations]
    refine (Node.laid_declarations hitems).pairwise (fun d us hd => ?_) (ordered_code h)
    exact @Node.WrittenAs.within c.aliases _ (.declaration d) hd nofun
  · intro p n hn hfile
    obtain ⟨ts, hts, hwritten⟩ := exists_written h hn
    exact Node.pairwise_children hwritten ((ordered_code h).sublist hts) hfile
  · rw [htree]
    intro r hr
    obtain ⟨e, he, rfl⟩ := List.mem_map.mp hr
    exact ⟨e.range, rfl, (hnodes.numbered (fun m hm => List.mem_append_left _ hm) he).here⟩
  · rw [htree]
    intro t ht
    obtain ⟨s, hs, rfl⟩ := List.mem_map.mp ht
    exact ⟨s.range, rfl, (htarget s hs).here⟩
  · rw [htree]
    intro t ht e he
    obtain ⟨s, hs, rfl⟩ := List.mem_map.mp ht
    obtain ⟨a, ha, he⟩ := List.mem_flatMap.mp he
    exact Syntax.ranged_assignment ((htidy.targets s hs).assignments a ha)
      ((htarget s hs).numbered (fun m hm => hm) ha) e he

/-- A text with a declaration, a dotted term in parentheses, a record and a collection. -/
theorem rangeConventions_of_parse_lists :
    ∃ d, parse "a.cds"
        "using A from \x27a\x27; annotate E with @(UI.A.B : \x7bc.d : [1]\x7d);" .default = .ok d ∧
      d.syntaxTree.declarations.length = 1 ∧ d.syntaxTree.targets.any (·.compound.isSome) = true ∧
      (d.syntaxTree.resolve? ⟨["targets", "0", "assignments", "0", "value", "properties", "0",
        "value"]⟩).any (·.marks? == some ("[", "]")) = true ∧
      d.tree.targets.any (fun t => !t.terms.isEmpty) = true ∧ d.RangeConventions := by
  have hfound : ((parse "a.cds"
      "using A from \x27a\x27; annotate E with @(UI.A.B : \x7bc.d : [1]\x7d);"
        .default).toOption.any fun d => d.syntaxTree.declarations.length == 1 &&
      d.syntaxTree.targets.any (·.compound.isSome) &&
      (d.syntaxTree.resolve? ⟨["targets", "0", "assignments", "0", "value", "properties", "0",
        "value"]⟩).any (·.marks? == some ("[", "]")) &&
      d.tree.targets.any (fun t => !t.terms.isEmpty)) = true := by decide +kernel
  obtain ⟨d, hd, hfound⟩ := Locate.exists_ok_of_any hfound
  simp only [Bool.and_eq_true, beq_iff_eq] at hfound
  obtain ⟨⟨⟨hdeclarations, hcompound⟩, hlist⟩, hterms⟩ := hfound
  exact ⟨d, hd, hdeclarations, hcompound, by simpa using hlist, hterms,
    rangeConventions_of_parse hd⟩

end Document

end AnnotationEdit

import AnnotationEdit.Proofs.Printing.RoundTrip
import AnnotationEdit.Proofs.Syntax.Growing
import AnnotationEdit.Proofs.Writer.Arranging
import AnnotationEdit.Proofs.Writer.Commuting

/-!
# Values behind names without one

A value for an annotation or property that has none is written behind its term, qualifier or name.
For every form but an annotation in brackets this is where the node ends, so the new text is read as
the file with the value there and everything else as it was (`Writer.parse_fillSlot`). A record
behind an assignment that is named by an alias alone would be read as a group.
-/

namespace AnnotationEdit

open Syntax (Node Value)
open AnnotationEdit.Tree (Element)

/-! ## Nodes with a value -/

namespace Syntax

/-- The annotation or property with a value behind a colon. -/
def Node.withValue (colon : Range) (v : Value) : Node → Node
  | annotation a => annotation
      { a with range := ⟨a.term.range.start, v.range.stop⟩, colon := some colon, value := some v }
  | property p => property ⟨⟨p.name.range.start, v.range.stop⟩, p.name, some colon, some v⟩
  | n => n

/-- An annotation in brackets, as it stands in a record. -/
def Node.isEmbedded : Node → Bool
  | annotation a => a.embedded
  | _ => false

/-- The node at the pointer is an assignment of a target that is named by an alias alone. -/
def File.IsAliasAt (f : File) (vocabulary : Vocabulary) (p : Pointer) : Prop :=
  ∃ q last t a, p = q.append last ∧ f.resolve? q = some (.target t) ∧
    f.resolve? p = some (Node.annotation a) ∧ a.IsAlias vocabulary

section

variable {vocabulary : Vocabulary} {parent n : Node} {us vs : List Token} {colon : Range}
  {v : Value}

theorem Annotation.WrittenAs.withValue {a : Annotation} (h : a.WrittenAs us) (hnone : a.value = none)
    (hv : valueAfterColon (some colon) (some v) vs) : Annotation.WrittenAs
      { a with range := ⟨a.term.range.start, v.range.stop⟩, colon := some colon, value := some v }
      (us ++ vs) := by
  obtain ⟨ts, qs, ws, rfl, hterm, hqualifier, hvalue, _, hembedded⟩ := h
  rw [hnone, valueAfterColon] at hvalue
  obtain ⟨_, rfl⟩ := hvalue
  refine ⟨ts, qs, vs, ?_, hterm, hqualifier, hv, rfl, hembedded⟩
  simp only [List.append_assoc, List.nil_append]

theorem Node.isValueless_cases (h : n.isValueless = true) :
    (∃ a, n = Node.annotation a ∧ a.value = none) ∨ ∃ p, n = .property p ∧ p.value = none := by
  cases n with
  | annotation a => exact Or.inl ⟨a, rfl, Option.isNone_iff_eq_none.mp h⟩
  | property p => exact Or.inr ⟨p, rfl, Option.isNone_iff_eq_none.mp h⟩
  | _ => cases h

/-- An annotation that stands below a node can be replaced by one with the same `@`, if it stays a
single one below a target. -/
theorem Node.Admits.bare {a : Annotation} (h : parent.Admits vocabulary (Node.annotation a) us)
    (hplain : a.embedded = false) : a.WrittenAs us ∧ ∀ (b : Annotation) ws, b.WrittenAs ws →
      b.atSign = a.atSign →
      (∀ t, parent = .target t → a.IsSingle vocabulary → b.IsSingle vocabulary) →
      parent.Admits vocabulary (Node.annotation b) ws := by
  cases parent with
  | target t =>
      obtain ⟨c, s, heq, hc⟩ := h
      cases c with
      | group g => cases heq
      | single c =>
          obtain rfl := Node.annotation.inj heq
          obtain ⟨ha, hsign, hsingle⟩ := hc
          exact ⟨ha, fun b ws hb hsame hstays =>
            ⟨.single b, s, rfl, hb, hsame.trans hsign, hstays t rfl hsingle⟩⟩
  | groupItems i =>
      obtain ⟨c, heq, hc⟩ := h
      obtain rfl := Node.annotation.inj heq
      exact ⟨hc, fun b ws hb _ _ => ⟨b, rfl, hb⟩⟩
  | record r =>
      obtain ⟨e, heq, he⟩ := h
      cases e with
      | property q => cases heq
      | embedded c =>
          obtain rfl := Node.annotation.inj heq
          obtain ⟨range, sign, term, qualifier, colon, value, embedded⟩ := a
          rw [Entry.WrittenAs] at he
          obtain ⟨_, _, _, _, _, _, _, _, _, _, _, _, _, _, _, _, _, hembedded⟩ := he
          obtain rfl : embedded = false := hplain
          cases hembedded
  | _ => cases h.mayHold

/-- A property can be replaced by another one. -/
theorem Node.Admits.property {p : Property} (h : parent.Admits vocabulary (.property p) us) :
    (Entry.property p).WrittenAs us ∧ ∀ (q : Property) ws, (Entry.property q).WrittenAs ws →
      parent.Admits vocabulary (.property q) ws := by
  cases parent with
  | record r =>
      obtain ⟨e, heq, he⟩ := h
      cases e with
      | embedded b => cases heq
      | property q =>
          obtain rfl := Node.property.inj heq
          exact ⟨he, fun q ws hq => ⟨.property q, rfl, hq⟩⟩
  | _ => cases h.mayHold

/-- A node without a value may go on with one, if that does not make a group of it. -/
theorem Node.Admits.withValue (h : parent.Admits vocabulary n us) (hvalueless : n.isValueless = true)
    (hplain : n.isEmbedded = false) (hv : valueAfterColon (some colon) (some v) vs)
    (htakes : ∀ t a, parent = .target t → n = Node.annotation a → a.Takes vocabulary v) :
    parent.Admits vocabulary (n.withValue colon v) (us ++ vs) := by
  rcases isValueless_cases hvalueless with ⟨a, rfl, hnone⟩ | ⟨p, rfl, hnone⟩
  · obtain ⟨ha, hreplace⟩ := h.bare hplain
    refine hreplace _ _ (ha.withValue hnone hv) rfl fun t ht hsingle => ?_
    exact (htakes t a ht rfl).isSingle hsingle ⟨a.term.range.start, v.range.stop⟩
  · obtain ⟨hp, hreplace⟩ := h.property
    obtain ⟨range, name, c, value⟩ := p
    obtain rfl : value = none := hnone
    rw [Entry.WrittenAs] at hp
    obtain ⟨ts, ws, rfl, hname, hnothing, _⟩ := hp
    rw [valueAfterColon] at hnothing
    obtain ⟨_, rfl⟩ := hnothing
    refine hreplace _ _ ?_
    rw [Entry.WrittenAs]
    exact ⟨ts, vs, by rw [List.append_nil], hname, hv, rfl⟩

end

end Syntax

/-! ## Operations that put a value behind a name -/

/-- The value that an operation puts behind a name that has none. -/
def Operation.newValue? (o : Operation) : Option Element :=
  match o.action with
  | .insert .record _ e | .insert .collection _ e | .insert .primitiveValue _ e
  | .updatePrimitiveValue e => some e
  | _ => none

namespace Conversion

open Locate (Yields)

variable {c : Context} {kind : String} {p : Pointer} {e : Element}

theorem Context.insertValue_newValue {what : Insertable} {index : Option Nat}
    (hwhat : ∀ q i, Operation.newValue? ⟨q, .insert what i e⟩ = some e) :
    Yields (·.newValue? = some e) (c.insertValue kind what p index e) := by
  refine Yields.bind expectKind_yields fun _ _ => Yields.bind resolveEditable_yields ?_
  rintro ⟨located, n⟩ _
  cases n with
  | collection v => exact .ok (hwhat _ _)
  | annotation a => exact yields_unless fun _ => .ok (hwhat _ _)
  | property q => exact yields_unless fun _ => .ok (hwhat _ _)
  | _ => exact .error

theorem convert_newValue {o : Operation} (ho : o.newValue? = some e) :
    Yields (·.newValue? = some e) (convert c o) := by
  obtain ⟨p, action⟩ := o
  cases action with
  | insert what index x =>
      cases what with
      | record | collection | primitiveValue =>
          obtain rfl := Option.some.inj ho
          exact Context.insertValue_newValue fun _ _ => rfl
      | _ => cases ho
  | updatePrimitiveValue x =>
      obtain rfl := Option.some.inj ho
      refine Yields.bind Context.expectKind_yields fun _ _ =>
        Yields.bind Context.resolveEditable_yields ?_
      rintro ⟨located, n⟩ _
      exact Context.yields_unless fun _ => .ok rfl
  | _ => cases ho

end Conversion

namespace Batch

/-- An operation with a value for a name that has none is carried out as it is. -/
theorem reduce_of_newValue {file : Syntax.File} {o : Operation} {e : Element} {n : Node}
    (ho : o.newValue? = some e) (hn : file.resolve? o.pointer = some n)
    (hvalueless : n.isValueless = true) : reduce file [o] = [o] := by
  have hanchored : anchorInEmpty file o = o := by
    have hlength : n.listLength? = none := by
      rcases Node.isValueless_cases hvalueless with ⟨a, rfl, _⟩ | ⟨q, rfl, _⟩ <;> rfl
    rw [anchorInEmpty, hn, Option.bind_some, hlength]
    exact if_neg (by simp)
  obtain ⟨p, action⟩ := o
  cases action with
  | insert what index x =>
      cases what with
      | record | collection | primitiveValue => exact reduce_singleton rfl hanchored rfl
      | _ => cases ho
  | updatePrimitiveValue x => exact reduce_singleton rfl hanchored rfl
  | _ => cases ho

end Batch

/-! ## The edit -/

namespace RankedEdit

theorem dropRepeated_of_not_isDeletion {es : List TextEdit} (h : ∀ e ∈ es, e.isDeletion = false) :
    dropRepeated es = es := by
  have hfrom : ∀ {es : List TextEdit} (previous : TextEdit), (∀ e ∈ es, e.isDeletion = false) →
      dropRepeatedFrom previous es = es := by
    intro es
    induction es with
    | nil => exact fun _ _ => rfl
    | cons e es ih =>
        intro previous h
        obtain ⟨he, hes⟩ := List.forall_mem_cons.mp h
        rw [dropRepeatedFrom, he, Bool.false_and, if_neg Bool.false_ne_true, ih e hes]
  cases es with
  | nil => rfl
  | cons e es => rw [dropRepeated, hfrom e (List.forall_mem_cons.mp h).2]

end RankedEdit

namespace Scene

variable {s : Scene} {d : Draft} {n : Node}

/-- A node without a value that is not in brackets gets one where it ends. -/
theorem fillSlot_of_admits {vocabulary : Vocabulary} {parent : Node} {us : List Token}
    (h : parent.Admits vocabulary n us) (hvalueless : n.isValueless = true)
    (hplain : n.isEmbedded = false) : ∃ level, ∀ d fragment,
      s.fillSlot d n fragment = .ok (d.insert n.range.stop (" : " ++ fragment level)) := by
  rcases Node.isValueless_cases hvalueless with ⟨a, rfl, hnone⟩ | ⟨p, rfl, hnone⟩
  · obtain ⟨_, _, _, _, _, _, _, hrange, _⟩ := (h.bare hplain).1
    refine ⟨s.level a.range.start.line, fun d fragment => ?_⟩
    have hstop : (Node.annotation a).range.stop = a.headEnd := by
      rw [Node.range, hrange, hnone]
      rfl
    simp only [fillSlot, hnone, Option.isNone_none, if_true, hstop]
  · have hp := h.property.1
    obtain ⟨range, name, colon, value⟩ := p
    obtain rfl : value = none := hnone
    rw [Syntax.Entry.WrittenAs] at hp
    obtain ⟨_, _, _, _, _, rfl⟩ := hp
    exact ⟨_, fun d fragment => rfl⟩

/-- An operation with a value is written behind the name that has none. -/
theorem write_of_newValue {o : Operation} {e : Element} (ho : o.newValue? = some e)
    (hn : s.document.syntaxTree.resolve? o.pointer = some n) (hvalueless : n.isValueless = true)
    (d : Draft) : s.write d o = s.fillSlot d n (s.printer.value e) := by
  obtain ⟨p, action⟩ := o
  have hinsert : ∀ index, s.insertValue d p index e = s.fillSlot d n (s.printer.value e) := by
    intro index
    rw [insertValue, node_eq hn]
    rcases Node.isValueless_cases hvalueless with ⟨a, rfl, _⟩ | ⟨q, rfl, _⟩ <;> rfl
  cases action with
  | insert what index x =>
      cases what with
      | record | collection | primitiveValue =>
          obtain rfl := Option.some.inj ho
          exact hinsert index
      | _ => cases ho
  | updatePrimitiveValue x =>
      obtain rfl := Option.some.inj ho
      show s.updatePrimitive d p x = _
      rw [updatePrimitive, node_eq hn]
      rcases Node.isValueless_cases hvalueless with ⟨a, rfl, _⟩ | ⟨q, rfl, _⟩ <;> rfl
  | _ => cases ho

/-- A draft of edits that delete nothing and stand apart is finished with them, in the order of the
text. -/
theorem finish_of_pushes (s : Scene) {es : List TextEdit} (hkeeps : ∀ e ∈ es, e.isDeletion = false)
    (hapart : (es.mergeSort TextEdit.comesFirst).Pairwise fun e f => e.range.Before f.range) :
    s.finish ⟨es.map (·, .normal), [], [], [], [], [], [], []⟩ =
      .ok (es.mergeSort TextEdit.comesFirst) := by
  have hsort : (es.map (·, EditPriority.normal)).mergeSort RankedEdit.comesFirst =
      (es.mergeSort TextEdit.comesFirst).map (·, .normal) := by
    refine (List.map_mergeSort fun e _ f _ => ?_).symm
    show (e.range.compare f.range != .gt) = ((e.range.compare f.range).then .eq != .gt)
    rw [Ordering.then_eq]
  have hkept : ∀ e ∈ es.mergeSort TextEdit.comesFirst, e.isDeletion = false := fun e he =>
    hkeeps e (List.mem_mergeSort.mp he)
  have harrange : RankedEdit.arrange s.document.lines (es.map (·, .normal)) =
      es.mergeSort TextEdit.comesFirst := by
    rw [RankedEdit.arrange_of_insertions, hsort, List.map_map, List.map_id'',
      RankedEdit.dropRepeated_of_not_isDeletion hkept]
    · exact fun _ => rfl
    · refine List.filter_eq_nil_iff.mpr (List.forall_mem_map.mpr fun e he => ?_)
      rw [hkeeps e he]
      exact Bool.false_ne_true
  rw [finish, complete_of_edits, harrange,
    RankedEdit.overlap?_of_before hapart fun e _ => Position.origin_le _]

theorem finish_of_push (s : Scene) {e : TextEdit} (he : e.isDeletion = false) :
    s.finish (Draft.empty.push e .normal) = .ok [e] := by
  have hkeeps : ∀ f ∈ [e], f.isDeletion = false := List.forall_mem_singleton.mpr he
  have hfinish := s.finish_of_pushes hkeeps (by
    rw [List.mergeSort_singleton]
    exact List.pairwise_singleton _ _)
  rwa [List.mergeSort_singleton] at hfinish

end Scene

namespace Writer

open Printing (ValueOf)

variable {uri text : String} {c : Configuration} {document : Document}

theorem textEdits_of_push {o : Operation} {e : TextEdit}
    (hreduce : Batch.reduce document.syntaxTree [o] = [o])
    (hwrite : (Scene.ofOperations document c [o]).write .empty o =
      .ok (Draft.empty.push e .normal)) (he : e.isDeletion = false) :
    textEdits ⟨document, c, [o]⟩ = .ok [e] := by
  rw [textEdits, synthesize]
  simp only [hreduce]
  show ((Scene.ofOperations document c [o]).writeAll .empty [o]).bind _ = _
  rw [Scene.writeAll_of_write hwrite]
  exact Scene.finish_of_push _ he

/-- The edit for an operation with a value is a colon and the value where the node ends. -/
theorem textEdits_of_newValue (h : Document.parse uri text c = .ok document) {o : Operation}
    {e : Element} (ho : o.newValue? = some e) {parent n : Node} {last : List String} {q : Pointer}
    (hq : document.syntaxTree.resolve? q = some parent) (hn : (last, n) ∈ parent.children)
    (hpointer : o.pointer = q.append last) (hfile : ∀ g, parent ≠ .file g)
    (hvalueless : n.isValueless = true) (hplain : n.isEmbedded = false) : ∃ level,
      textEdits ⟨document, c, [o]⟩ = .ok [.insert n.range.stop
        (" : " ++ (Printer.ofConfiguration c).value e level)] := by
  have hqualifier : ∀ i, n ≠ .qualifier i := by
    rintro i rfl
    cases hvalueless
  obtain ⟨_, _, _, _, hadmits, _⟩ :=
    Syntax.grafts_file (Document.written_file h) hq hn hqualifier hfile
  have hresolve : document.syntaxTree.resolve? o.pointer = some n := by
    rw [hpointer]
    exact Locate.resolves_child hq hn
  let scene := Scene.ofOperations document c [o]
  obtain ⟨level, hfill⟩ := scene.fillSlot_of_admits hadmits hvalueless hplain
  have hwrite : scene.write .empty o = .ok (Draft.empty.insert n.range.stop
      (" : " ++ (Printer.ofConfiguration c).value e level)) := by
    rw [Scene.write_of_newValue ho hresolve hvalueless, hfill]
    rfl
  exact ⟨level, textEdits_of_push (Batch.reduce_of_newValue ho hresolve hvalueless) hwrite
    (TextEdit.isDeletion_insert _ _)⟩

/-- An operation with a printable value, for an annotation or property that has none and stands in
no brackets, puts the value there and leaves everything else as it was, unless it is a record
behind an assignment that is named by an alias alone. -/
theorem parse_fillSlot (h : Document.parse uri text c = .ok document) (hc : c.aliases = .standard)
    {o : Operation} {e : Element} (ho : o.newValue? = some e)
    (he : Printable.isValue .standard e = true) {w : Writer}
    (hadd : (ofDocument document c).add o = .ok w) {p : Pointer}
    (hp : w.changes.map (·.pointer) = [p]) {n : Node}
    (hn : document.syntaxTree.resolve? p = some n) (hvalueless : n.isValueless = true)
    (hplain : n.isEmbedded = false)
    (halias : e.kind = .record → ¬ document.syntaxTree.IsAliasAt c.aliases p) :
    ∃ edits newText document' colon v, w.textEdits = .ok edits ∧
      TextEdit.applyAll text edits = .ok newText ∧
      Document.parse uri newText c = .ok document' ∧ ValueOf e v ∧
      document'.syntaxTree.content =
        (document.syntaxTree.graft p (n.withValue colon v)).content := by
  obtain ⟨_, o', hconvert, rfl⟩ := add_eq_ok_iff.mp hadd
  obtain rfl : o'.pointer = p := List.head_eq_of_cons_eq hp
  have ho' := Conversion.convert_newValue ho _ hconvert
  rcases Document.exists_step h hn with ⟨_, rfl⟩ | ⟨q, last, parent, hpointer, hq, hmem, _⟩
  · cases hvalueless
  have hfile : ∀ g, parent ≠ .file g := by
    rintro g rfl
    cases Node.holds_of_mem_children hmem <;> cases hvalueless
  have hqualifier : ∀ i, n ≠ .qualifier i := by
    rintro i rfl
    cases hvalueless
  obtain ⟨level, hedits⟩ :=
    textEdits_of_newValue h ho' hq hmem hpointer hfile hvalueless hplain
  have hspells := Printing.spells_afterColon
    (Printing.spells_value (Printing.isStandard_ofConfiguration hc) e level he)
  have htakes : ∀ {v : Value}, ValueOf e v → ∀ t a, parent = .target t → n = Node.annotation a →
      a.Takes c.aliases v := by
    rintro v hv t a rfl rfl r rfl
    refine Or.inr fun hisAlias => halias ?_ ⟨q, last, t, a, hpointer, hq, hn, hisAlias⟩
    have hkind := congrArg Element.kind hv.1
    rw [Printing.kind_canonical, Printing.kind_canonical, Value.element] at hkind
    exact hkind.symm.trans (r.element_facts _).1
  obtain ⟨document', m, hparse, ⟨colon, v, rfl, hv⟩, hcontent⟩ :=
    Document.parse_behind h hq hmem hqualifier hfile hspells ⟨' ', rfl, rfl⟩
      (P := fun m => ∃ colon v, m = n.withValue colon v ∧ ValueOf e v)
      fun us ts hus ⟨colon, v, hts, hv⟩ => ⟨_, _, hus.withValue hvalueless hplain hts (htakes hv),
        rfl, colon, v, rfl, hv⟩
  rw [← hpointer] at hcontent
  refine ⟨_, _, document', colon, v, hedits, Lexer.applyAll_insert _ _ _, ?_, hv, hcontent⟩
  simpa using hparse

/-- A record with one property. -/
def sampleChart : Element :=
  ⟨.record, [], [.element ⟨.propertyValue, [("Property", ⟨"Property", "ChartType", none⟩)],
    [.element ⟨.enumMember, [], [.text ⟨"Bar", none⟩], none, none⟩], none, none⟩], none, none⟩

/-- The record for the first term of the first target. -/
def chartInsertion : Operation :=
  ⟨⟨["targets", "0", "terms", "0"]⟩, .insert .record none sampleChart⟩

def fillsQualified (document : Document) (w : Writer) : Bool :=
  match w.changes.map (·.pointer) with
  | [p] => match document.syntaxTree.resolve? p with
    | some (Node.annotation a) => a.value.isNone && !a.embedded && a.qualifier.isSome
    | _ => false
  | _ => false

theorem parse_fillSlot_qualified :
    ∃ document w p a edits newText document' colon v,
      Document.parse "a.cds" "annotate E with @(UI.Chart #main, B : 1);" .default = .ok document ∧
      (ofDocument document .default).add chartInsertion = .ok w ∧
      w.changes.map (·.pointer) = [p] ∧
      document.syntaxTree.resolve? p = some (Node.annotation a) ∧ a.value = none ∧
      w.textEdits = .ok edits ∧
      TextEdit.applyAll "annotate E with @(UI.Chart #main, B : 1);" edits = .ok newText ∧
      Document.parse "a.cds" newText .default = .ok document' ∧ ValueOf sampleChart v ∧
      document'.syntaxTree.content =
        (document.syntaxTree.graft p ((Node.annotation a).withValue colon v)).content := by
  have hchecked : ((Document.parse "a.cds" "annotate E with @(UI.Chart #main, B : 1);"
      .default).toOption.any fun document =>
        ((ofDocument document .default).add chartInsertion).toOption.any fun w =>
          fillsQualified document w) = true := by
    decide +kernel
  obtain ⟨document, hparse, hchecked⟩ := Locate.exists_ok_of_any hchecked
  obtain ⟨w, hadd, hchecked⟩ := Locate.exists_ok_of_any hchecked
  rw [fillsQualified] at hchecked
  split at hchecked
  · next p hp =>
    split at hchecked
    · next a hn =>
      simp only [Bool.and_eq_true, Bool.not_eq_true', Option.isNone_iff_eq_none] at hchecked
      obtain ⟨⟨hvalue, hplain⟩, hqualifier⟩ := hchecked
      have halias : ¬ document.syntaxTree.IsAliasAt .standard p := by
        rintro ⟨_, _, _, b, _, _, hb, _, _, hnone⟩
        obtain rfl := Node.annotation.inj (Option.some.inj (hn.symm.trans hb))
        rw [hnone] at hqualifier
        cases hqualifier
      obtain ⟨edits, newText, document', colon, v, hedits, happly, hparse', hof, hcontent⟩ :=
        parse_fillSlot hparse rfl (o := chartInsertion) rfl (by decide +kernel) hadd hp hn
          (Option.isNone_iff_eq_none.mpr hvalue) hplain fun _ => halias
      exact ⟨document, w, p, a, edits, newText, document', colon, v, hparse, hadd, hp, hn, hvalue,
        hedits, happly, hparse', hof, hcontent⟩
    · cases hchecked
  · cases hchecked

end Writer

end AnnotationEdit

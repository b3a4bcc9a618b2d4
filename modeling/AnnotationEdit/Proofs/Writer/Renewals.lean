import AnnotationEdit.Proofs.Batch.Replacements
import AnnotationEdit.Proofs.Locate.Exactness
import AnnotationEdit.Proofs.Syntax.Replacing
import AnnotationEdit.Proofs.Writer.Slots

/-!
# Values and properties in the place of others

A batch of operations that put printable values in the place of values and printable properties in
the place of properties, where none of the nodes is below another one, is written as one edit for
each node. The new text is read as the file with all of this in the place of the nodes, and
everything else is as it was (`Writer.parse_renewals`).
-/

namespace AnnotationEdit

open Syntax (Node Value Entry Renewal)
open AnnotationEdit.Tree (Element ElementKind)
open Printing (ValueOf StandsFor)

/-! ## Values behind aliases -/

namespace Syntax.File

/-- The node at the pointer stands behind an annotation that is named by an alias alone. -/
def isBehindAlias (f : File) (vocabulary : Vocabulary) (p : Pointer) : Bool :=
  match (p.ancestor? 1).bind f.resolve? with
  | some (Node.annotation a) =>
    a.term.segments.length == 1 && vocabulary.isAlias a.term.text && a.qualifier.isNone
  | _ => false

theorem isBehindAlias_of_isAlias {f : File} {vocabulary : Vocabulary} {q : Pointer}
    {a : Annotation} (hq : f.resolve? q = some (Node.annotation a)) (ha : a.IsAlias vocabulary) :
    f.isBehindAlias vocabulary (q.append ["value"]) = true := by
  obtain ⟨hlength, halias, hqualifier⟩ := ha
  have hancestor : (q.append ["value"]).ancestor? 1 = some q := q.ancestor?_append ["value"]
  rw [isBehindAlias, hancestor, Option.bind_some, hq]
  simp only [hlength, halias, hqualifier, beq_self_eq_true, Option.isNone_none, Bool.and_self]

end Syntax.File

/-! ## The operations -/

namespace Operation

/-- Puts a printable value in the place of a value, or a printable property in the place of a
property. -/
def renews (o : Operation) : Bool :=
  match o.action with
  | .replaceNode e => Printable.isValue .standard e
  | .replaceRecordProperty e => e.kind == .propertyValue && Printable.isEntry .standard e
  | _ => false

def takes (o : Operation) (n : Node) : Bool :=
  match o.action, n with
  | .replaceNode _, n => n.isValue
  | .replaceRecordProperty _, .property _ => true
  | _, _ => false

/-- The operation renews a node of the file. -/
structure RenewsIn (file : Syntax.File) (o : Operation) : Prop where
  renews : o.renews = true
  node : ∃ n, file.resolve? o.pointer = some n ∧ o.takes n = true

/-- What is written, for a line of the level. -/
def printed (o : Operation) (p : Printer) (level : Nat) : String :=
  match o.action with
  | .replaceNode e => p.value e level
  | .replaceRecordProperty e => p.property e level
  | _ => ""

/-- The node says what the element of the operation says. -/
def SaidBy (o : Operation) (m : Node) : Prop :=
  match o.action with
  | .replaceNode e => ∃ v, m = .ofValue v ∧ ValueOf e v
  | .replaceRecordProperty e => ∃ q, m = .property q ∧ StandsFor .standard e (.property q)
  | _ => False

theorem renews_cases {o : Operation} (h : o.renews = true) :
    (∃ p e, o = ⟨p, .replaceNode e⟩ ∧ Printable.isValue .standard e = true) ∨
      ∃ p e, o = ⟨p, .replaceRecordProperty e⟩ ∧ e.kind = .propertyValue ∧
        Printable.isEntry .standard e = true := by
  obtain ⟨p, action⟩ := o
  cases action with
  | replaceNode e => exact Or.inl ⟨p, e, rfl, h⟩
  | replaceRecordProperty e =>
      obtain ⟨hkind, he⟩ := Bool.and_eq_true_iff.mp h
      exact Or.inr ⟨p, e, rfl, beq_iff_eq.mp hkind, he⟩
  | _ => cases h

theorem overwrites_of_renews {o : Operation} (h : o.renews = true) : o.overwrites = true := by
  rcases renews_cases h with ⟨p, e, rfl, _⟩ | ⟨p, e, rfl, _⟩ <;> rfl

theorem isInner_of_takes {o : Operation} {n : Node} (h : o.takes n = true) : n.isInner = true := by
  obtain ⟨p, action⟩ := o
  cases action with
  | replaceNode e => cases n <;> first | rfl | cases h
  | replaceRecordProperty e => cases n <;> first | rfl | cases h
  | _ => cases h

end Operation

namespace Conversion

open Locate (Yields)

variable {c : Context} {o : Operation}

/-- What is no annotation takes the place of a value. -/
theorem isValue_of_canReplace {e : Element} {n : Node} (h : Context.canReplace e n = true)
    (he : e.kind ≠ ElementKind.annotation) : n.isValue = true := by
  unfold Context.canReplace at h
  split at h
  · exact absurd (beq_iff_eq.mp h) he
  · exact absurd (beq_iff_eq.mp h) he
  · exact (Bool.and_eq_true_iff.mp h).1

/-- An operation that renews a node is turned into the same one for the node that is found, which is
no level of a folded name. -/
theorem convert_renews (ho : o.renews = true) :
    Yields (fun o' => o'.action = o.action ∧ ∃ l n,
      locate o.pointer c.document.tree c.document.syntaxTree c.vocabulary = .ok l ∧
        l.collapsed = false ∧ l.pointer = o'.pointer ∧
        c.document.syntaxTree.resolve? o'.pointer = some n ∧ o'.takes n = true) (convert c o) := by
  rcases Operation.renews_cases ho with ⟨p, e, rfl, he⟩ | ⟨p, e, rfl, _⟩
  · refine Yields.bind Context.editable_yields ?_
    rintro ⟨located, n⟩ ⟨hlocated, hopen, hn⟩
    refine Context.yields_unless fun hreplace => .ok ?_
    refine ⟨rfl, located, n, hlocated, hopen, rfl, hn, ?_⟩
    exact isValue_of_canReplace hreplace (Printing.kind_of_isValue he).1
  · refine Yields.bind Context.expectKind_yields fun _ _ => Yields.bind Context.editable_yields ?_
    rintro ⟨located, n⟩ ⟨hlocated, hopen, hn⟩
    cases n with
    | property q => exact .ok ⟨rfl, located, _, hlocated, hopen, rfl, hn, rfl⟩
    | _ => exact .error

end Conversion

/-! ## What is written and how it is read -/

namespace Lexer

/-- Where something is read, something is written. -/
theorem Spells.ne_nil {cs : List Char} {read : List Token → Prop} (h : Spells Break cs read)
    (hread : ∀ ts, read ts → ts ≠ []) : cs ≠ [] := by
  rintro rfl
  obtain ⟨ts, hts, _, hrun⟩ := h Position.origin [] break_nil
  have hend : tokenizeFrom Position.origin [] = .ok [] := by rw [tokenizeFrom.eq_def]
  have hnone : [] = ts.map Token.plain ++ [] := Except.ok.inj (by
    rwa [show Position.origin.after [] = Position.origin from rfl, List.append_nil, hend] at hrun)
  rw [List.append_nil] at hnone
  exact hread ts hts (List.map_eq_nil_iff.mp hnone.symm)

end Lexer

namespace Printing

theorem exists_property_of_standsFor {v : Vocabulary} {e : Element} {entry : Entry}
    (h : StandsFor v e entry) (hkind : e.kind = .propertyValue) : ∃ q, entry = .property q := by
  cases entry with
  | property q => exact ⟨q, rfl⟩
  | embedded a =>
      obtain ⟨⟨x, hx, hcanonical⟩, _⟩ := h
      have hkinds := congrArg Element.kind hcanonical
      obtain ⟨range, sign, term, qualifier, colon, value, embedded⟩ := a
      rw [kind_canonical, kind_canonical, hkind, ← Option.some.inj hx,
        (Syntax.annotationElement_facts ..).1] at hkinds
      cases hkinds

/-- What is written for an operation is read as what it puts in the place of a node. -/
theorem spells_printed {p : Printer} (hp : IsStandard p) {o : Operation} (ho : o.renews = true)
    (vocabulary : Vocabulary) (level : Nat) : Lexer.Spells Lexer.Break (o.printed p level).toList
      fun ts => ∃ m, o.SaidBy m ∧ m.WrittenAs vocabulary ts := by
  rcases Operation.renews_cases ho with ⟨_, e, rfl, he⟩ | ⟨_, e, rfl, hkind, he⟩
  · refine (spells_value hp e level he).imp ?_
    rintro ts ⟨v, hts, hv⟩
    exact ⟨_, ⟨v, rfl, hv⟩, Node.writtenAs_ofValue hts⟩
  · have h := spells_entry hp e level he
    rw [if_neg (by rw [hkind]; exact ElementKind.noConfusion)] at h
    refine h.imp ?_
    rintro ts ⟨entry, hts, hentry⟩
    obtain ⟨q, rfl⟩ := exists_property_of_standsFor hentry hkind
    exact ⟨_, ⟨q, rfl, hentry⟩, hts⟩

end Printing

namespace Operation

variable {o : Operation} {vocabulary : Vocabulary} {parent n m : Node} {us ts : List Token}

theorem writtenAs_of_ofValue {v : Value} (h : (Node.ofValue v).WrittenAs vocabulary ts) :
    v.WrittenAs ts := by
  cases v with
  | primitive q =>
      rw [Value.WrittenAs]
      exact h
  | _ => exact h

theorem ne_nil_of_saidBy (h : o.SaidBy m) (hts : m.WrittenAs vocabulary ts) : ts ≠ [] := by
  obtain ⟨p, action⟩ := o
  cases action with
  | replaceNode e =>
      obtain ⟨v, rfl, _⟩ := h
      exact (Syntax.spans_value (writtenAs_of_ofValue hts)).ne_nil
  | replaceRecordProperty e =>
      obtain ⟨q, rfl, _⟩ := h
      exact (Syntax.spans_entry (e := .property q) hts).ne_nil
  | _ => cases h

/-- What an operation puts in the place of a node may stand there, unless it stands behind an
annotation that is named by an alias alone. -/
theorem admits_of_saidBy (htakes : o.takes n = true) (h : parent.Admits vocabulary n us)
    (hm : o.SaidBy m) (hts : m.WrittenAs vocabulary ts)
    (halias : ∀ a, parent = Node.annotation a → ¬ a.IsAlias vocabulary) :
    parent.Admits vocabulary m ts := by
  obtain ⟨p, action⟩ := o
  cases action with
  | replaceNode e =>
      obtain ⟨w, rfl, _⟩ := hm
      have hw := writtenAs_of_ofValue hts
      have hreplace : ∀ v : Value, parent.Admits vocabulary (.ofValue v) us →
          parent.Admits vocabulary (.ofValue w) ts := fun v hv =>
        hv.value.2 w ts hw fun a ha _ _ _ => Or.inr (halias a ha)
      cases n with
      | record r => exact hreplace (.record r) h
      | collection c => exact hreplace (.collection c) h
      | primitive q => exact hreplace (.primitive q) h
      | _ => cases htakes
  | replaceRecordProperty e =>
      obtain ⟨q, rfl, _⟩ := hm
      cases n with
      | property q' => exact h.property.2 q ts hts
      | _ => cases htakes
  | _ => cases hm

end Operation

/-! ## Accepted batches -/

namespace Writer

/-- The operations of a batch that is accepted, each beside what it is turned into. -/
theorem forall₂_of_addAll : ∀ {l : List Operation} {w w' : Writer}, w.addAll l = .ok w' →
    ∃ added, w' = ⟨w.document, w.config, w.changes ++ added⟩ ∧ List.Forall₂ (fun o o' =>
      Conversion.convert ⟨w.document, w.config.aliases⟩ o = .ok o') l added
  | [], w, w', h => ⟨[], by rw [← Except.ok.inj h, List.append_nil], .nil⟩
  | o :: l, w, w', h => by
      obtain ⟨w₁, hadd, hrest⟩ := addAll_cons_iff.mp h
      obtain ⟨_, o', hconvert, rfl⟩ := add_eq_ok_iff.mp hadd
      obtain ⟨added, rfl, hall⟩ := forall₂_of_addAll hrest
      exact ⟨o' :: added, by rw [List.append_assoc]; rfl, .cons hconvert hall⟩

end Writer

/-! ## The edits -/

namespace Scene

variable {s : Scene}

theorem writeAll_of_pushes {edit : Operation → TextEdit} : ∀ {l : List Operation} {d : Draft},
    (∀ o ∈ l, ∀ d, s.write d o = .ok (d.push (edit o) .normal)) →
      s.writeAll d l = .ok { d with edits := d.edits ++ l.map fun o => (edit o, .normal) }
  | [], d, _ => by rw [List.map_nil, List.append_nil]; rfl
  | o :: l, d, h => by
      obtain ⟨ho, hl⟩ := List.forall_mem_cons.mp h
      rw [writeAll_of_write (ho d), writeAll_of_pushes hl, Draft.push, List.append_assoc]
      rfl

/-- The node at the pointer of an operation, and what is written in its place. -/
def renewal (s : Scene) (o : Operation) : Renewal :=
  let n := (s.document.syntaxTree.resolve? o.pointer).getD (.file s.document.syntaxTree)
  ⟨o.pointer, n, o.printed s.printer (s.level n.range.start.line), o.SaidBy⟩

variable {o : Operation} {n : Node} {l : List Operation}

theorem renewal_eq (hn : s.document.syntaxTree.resolve? o.pointer = some n) : s.renewal o =
    ⟨o.pointer, n, o.printed s.printer (s.level n.range.start.line), o.SaidBy⟩ := by
  rw [renewal, hn]
  rfl

theorem write_renewal (ho : o.RenewsIn s.document.syntaxTree) (d : Draft) :
    s.write d o = .ok (d.push (s.renewal o).edit .normal) := by
  obtain ⟨hrenews, n, hn, htakes⟩ := ho
  rw [renewal_eq hn]
  rcases Operation.renews_cases hrenews with ⟨p, e, rfl, _⟩ | ⟨p, e, rfl, _⟩
  · show s.replaceNode d p e = _
    rw [replaceNode, node_eq hn]
    cases n <;> first | rfl | cases htakes
  · show s.replaceProperty d p e = _
    rw [replaceProperty, node_eq hn]
    cases n <;> first | rfl | cases htakes

variable {vocabulary : Vocabulary}

/-- What an operation puts in the place of a node is read there. -/
theorem fits_renewal (hs : Printing.IsStandard s.printer)
    (ho : o.RenewsIn s.document.syntaxTree)
    (halias : s.document.syntaxTree.isBehindAlias vocabulary o.pointer = false)
    {others : List Pointer}
    (hothers : ∀ q ∈ others, q.Diverges o.pointer ∧
      ∃ m, s.document.syntaxTree.resolve? q = some m ∧ m.isInner = true) :
    (s.renewal o).Fits vocabulary s.document.syntaxTree others := by
  obtain ⟨hrenews, n, hn, htakes⟩ := ho
  have hinner := Operation.isInner_of_takes htakes
  rw [renewal_eq hn]
  refine ⟨hn, hinner, _, Printing.spells_printed hs hrenews vocabulary _, ?_⟩
  rintro g q last parent hagrees hpointer hq hlast us ts hus ⟨m, hm, hts⟩
  refine ⟨m, m, Operation.admits_of_saidBy htakes hus hm hts fun a ha hisAlias => ?_, rfl, hm⟩
  subst ha
  obtain rfl : last = ["value"] := by
    rcases Node.cases_of_mem_annotation hlast with ⟨_, _, _, rfl⟩ | ⟨_, _, hname, _⟩
    · cases hinner
    · exact hname
  have hpointer' : o.pointer = q.append ["value"] := hpointer
  rw [hpointer'] at hn hothers
  rw [hagrees.parent hn hinner hothers] at hq
  rw [hpointer', Syntax.File.isBehindAlias_of_isAlias hq hisAlias] at halias
  cases halias

theorem fitting_renewals (hs : Printing.IsStandard s.printer) : ∀ {l : List Operation},
    (∀ o ∈ l, o.RenewsIn s.document.syntaxTree) →
    (∀ o ∈ l, s.document.syntaxTree.isBehindAlias vocabulary o.pointer = false) →
    (l.Pairwise fun a b => a.pointer.Diverges b.pointer) →
    (l.Pairwise fun a b => (s.renewal a).node.range.Before (s.renewal b).node.range) →
    Renewal.Fitting vocabulary s.document.syntaxTree (l.map s.renewal)
  | [], _, _, _, _ => trivial
  | o :: l, h, halias, hdiverges, hbefore => by
      obtain ⟨ho, hl⟩ := List.forall_mem_cons.mp h
      obtain ⟨hplain, halias⟩ := List.forall_mem_cons.mp halias
      obtain ⟨hfirst, hdiverges⟩ := List.pairwise_cons.mp hdiverges
      obtain ⟨hstart, hbefore⟩ := List.pairwise_cons.mp hbefore
      refine ⟨fits_renewal hs ho hplain fun q hq => ?_, fun r hr => ?_,
        fitting_renewals hs hl halias hdiverges hbefore⟩
      · obtain ⟨r, hr, rfl⟩ := List.mem_map.mp hq
        obtain ⟨a, ha, rfl⟩ := List.mem_map.mp hr
        obtain ⟨_, n, hn, htakes⟩ := hl a ha
        exact ⟨(hfirst a ha).symm, n, hn, Operation.isInner_of_takes htakes⟩
      · obtain ⟨a, ha, rfl⟩ := List.mem_map.mp hr
        exact ⟨(hfirst a ha).symm, hstart a ha⟩

/-- Whether the edit for an operation comes first. -/
def comesFirst (s : Scene) (a b : Operation) : Bool :=
  (s.renewal a).edit.comesFirst (s.renewal b).edit

variable {uri text : String} {c : Configuration}

/-- Nodes at pointers that diverge are renewed one after the other. -/
theorem pairwise_before (h : Document.parse uri text c = .ok s.document)
    (hl : ∀ o ∈ l, o.RenewsIn s.document.syntaxTree)
    (hdiverges : l.Pairwise fun a b => a.pointer.Diverges b.pointer) :
    (l.mergeSort s.comesFirst).Pairwise fun a b =>
      (s.renewal a).node.range.Before (s.renewal b).node.range := by
  have hsorted : (l.mergeSort s.comesFirst).Pairwise fun a b => s.comesFirst a b = true := by
    refine List.pairwise_mergeSort (fun a b c => ?_) (fun a b => ?_) l
    · exact TextEdit.comesFirst_trans _ _ _
    · exact TextEdit.comesFirst_total _ _
  have hperm := (List.mergeSort_perm l s.comesFirst).symm
  have hpaired := hperm.pairwise hdiverges fun hab => hab.symm
  refine (hpaired.and hsorted).imp_of_mem fun {a b} ha hb hab => ?_
  obtain ⟨_, n, hn, htakes⟩ := hl a (List.mem_mergeSort.mp ha)
  obtain ⟨_, m, hm, htakes'⟩ := hl b (List.mem_mergeSort.mp hb)
  have hinner := Operation.isInner_of_takes htakes
  have hinner' := Operation.isInner_of_takes htakes'
  have hfirst := TextEdit.comesFirst_iff.mp hab.2
  rw [renewal_eq hn, renewal_eq hm] at hfirst ⊢
  rcases Document.apart_of_diverges h hn hm hinner hinner' hab.1 with hbefore | hbehind
  · exact hbefore
  · -- a node that stands behind does not come first
    have hproper : m.range.Proper := (Document.exists_code h hm (by
      rintro f rfl
      cases hinner')).1
    have hlt : m.range.start < n.range.start := lt_of_lt_of_le hproper hbehind
    rcases Prod.Lex.le_iff.mp hfirst with hstart | ⟨hstart, _⟩
    · exact absurd hlt (not_lt_of_gt hstart)
    · exact absurd hlt (not_lt_of_ge (le_of_eq hstart))

end Scene

namespace Writer

/-- What does not change while the batch is written. -/
def scene (w : Writer) : Scene := .ofOperations w.document w.config w.changes

/-- A batch that is carried out as it stands and written as one edit for each operation. -/
theorem textEdits_of_pushes {w : Writer} {edit : Operation → TextEdit}
    (hreduce : Batch.reduce w.document.syntaxTree w.changes = w.changes)
    (hwrite : ∀ o ∈ w.changes, ∀ d, w.scene.write d o = .ok (d.push (edit o) .normal))
    (hkeeps : ∀ o ∈ w.changes, (edit o).isDeletion = false)
    (hapart : ((w.changes.map edit).mergeSort TextEdit.comesFirst).Pairwise
      fun e f => e.range.Before f.range) :
    w.textEdits = .ok ((w.changes.map edit).mergeSort TextEdit.comesFirst) := by
  have hfinish := w.scene.finish_of_pushes (List.forall_mem_map.mpr hkeeps) hapart
  rw [List.map_map] at hfinish
  rw [textEdits, synthesize]
  simp only [hreduce]
  show (w.scene.writeAll .empty w.changes).bind w.scene.finish = _
  rw [Scene.writeAll_of_pushes hwrite]
  exact hfinish

theorem textEdits_of_renews {uri text : String} {w : Writer}
    (h : Document.parse uri text w.config = .ok w.document) (hc : w.config.aliases = .standard)
    (hw : ∀ o ∈ w.changes, o.RenewsIn w.document.syntaxTree)
    (hdiverges : w.changes.Pairwise fun a b => a.pointer.Diverges b.pointer) :
    w.textEdits =
      .ok ((w.changes.mergeSort w.scene.comesFirst).map fun o => (w.scene.renewal o).edit) := by
  have hreduce : Batch.reduce w.document.syntaxTree w.changes = w.changes :=
    Batch.reduce_of_overwrites (fun o ho => Operation.overwrites_of_renews (hw o ho).renews)
      hdiverges
  have hkeeps : ∀ o ∈ w.changes, (w.scene.renewal o).edit.isDeletion = false := by
    intro o ho
    have hspells := Printing.spells_printed (Printing.isStandard_ofConfiguration hc)
      (hw o ho).renews .standard (w.scene.level (w.scene.renewal o).node.range.start.line)
    exact TextEdit.isDeletion_of_toList
      (hspells.ne_nil fun ts ⟨m, hm, hts⟩ => Operation.ne_nil_of_saidBy hm hts)
  have hsort : (w.changes.map fun o => (w.scene.renewal o).edit).mergeSort TextEdit.comesFirst =
      (w.changes.mergeSort w.scene.comesFirst).map fun o => (w.scene.renewal o).edit := by
    refine (List.map_mergeSort fun a _ b _ => ?_).symm
    rfl
  rw [← hsort]
  refine textEdits_of_pushes hreduce (fun o ho => Scene.write_renewal (hw o ho)) hkeeps ?_
  rw [hsort]
  exact List.pairwise_map.mpr (Scene.pairwise_before (s := w.scene) h hw hdiverges)

variable {uri text : String} {c : Configuration} {document : Document}

/-- A batch is accepted that puts printable values in the place of values and printable properties
in the place of properties. None of the nodes is below another one, none stands behind an annotation
that is named by an alias alone, and no record names two values. Then the operations are for the
nodes that the elements are written as, one edit puts what is printed in the place of each node, and
the new text is read as the file with that in their places and everything else as it was. -/
theorem parse_renewals (h : Document.parse uri text c = .ok document) (hc : c.aliases = .standard)
    (honce : document.syntaxTree.namesValueOnce = true)
    {ops : List Operation} (hops : ∀ o ∈ ops, o.renews = true) {w : Writer}
    (hadd : (ofDocument document c).addAll ops = .ok w)
    (halias : ∀ o ∈ w.changes, document.syntaxTree.isBehindAlias c.aliases o.pointer = false)
    (hdiverges : w.changes.Pairwise fun a b => a.pointer.Diverges b.pointer) :
    List.Forall₂ (fun o o' => o'.action = o.action ∧
      ∃ n, document.syntaxTree.resolve? o'.pointer = some n ∧
        ∀ e, document.tree.resolve? o.pointer = some (.element e) → n.Represents e)
      ops w.changes ∧
    ∃ changes edits newText document' ms, changes.Perm w.changes ∧
      edits = changes.map (fun o => (w.scene.renewal o).edit) ∧ w.textEdits = .ok edits ∧
      TextEdit.applyAll text edits = .ok newText ∧
      Document.parse uri newText c = .ok document' ∧ List.Forall₂ Operation.SaidBy changes ms ∧
      document'.syntaxTree.content =
        (document.syntaxTree.graftAll ((changes.map (·.pointer)).zip ms)).content := by
  obtain ⟨changes, rfl, hall⟩ := forall₂_of_addAll hadd
  have hfound : List.Forall₂ (fun o' o => o'.RenewsIn document.syntaxTree ∧ o'.action = o.action ∧
      ∃ n, document.syntaxTree.resolve? o'.pointer = some n ∧
        ∀ e, document.tree.resolve? o.pointer = some (.element e) → n.Represents e)
      changes ops := by
    refine .flip (((List.forall₂_and_left _ _).mpr ⟨hops, hall⟩).imp ?_)
    rintro o o' ⟨ho, hconvert⟩
    obtain ⟨haction, l, n, hl, hopen, hpointer, hn, htakes⟩ :=
      Conversion.convert_renews ho o' hconvert
    refine ⟨⟨?_, n, hn, htakes⟩, haction, n, hn, fun e he => ?_⟩
    · rwa [Operation.renews, haction]
    · obtain ⟨m, hm, hrepresents⟩ := (located_exactly hc h honce).1 o.pointer e l he hl hopen
      rw [hpointer] at hm
      obtain rfl := Option.some.inj (hn.symm.trans hm)
      exact hrepresents
  obtain ⟨hrenews, hfound⟩ := (List.forall₂_and_left _ _).mp hfound
  refine ⟨.flip hfound, ?_⟩
  let w : Writer := ⟨document, c, changes⟩
  have hsorted : ∀ o ∈ changes.mergeSort w.scene.comesFirst, o.RenewsIn document.syntaxTree :=
    fun o ho => hrenews o (List.mem_mergeSort.mp ho)
  have hperm := List.mergeSort_perm changes w.scene.comesFirst
  have hfitting : Renewal.Fitting c.aliases document.syntaxTree _ :=
    Scene.fitting_renewals (s := w.scene) (Printing.isStandard_ofConfiguration hc) hsorted
      (fun o ho => halias o (List.mem_mergeSort.mp ho))
      (hperm.symm.pairwise hdiverges fun hab => hab.symm)
      (Scene.pairwise_before (s := w.scene) h hrenews hdiverges)
  obtain ⟨newText, document', ms, happly, hparse, hresults, hcontent⟩ :=
    Document.parse_rewritten h hfitting
  rw [List.map_map] at happly hcontent
  have hsaid : List.Forall₂ (fun o m => (w.scene.renewal o).result m) _ ms :=
    List.forall₂_map_left_iff.mp hresults
  exact ⟨_, _, newText, document', ms, hperm, rfl,
    textEdits_of_renews (w := w) h hc hrenews hdiverges, happly, hparse, hsaid, hcontent⟩

/-- A property for the record and a record for the text in front of it. -/
def sampleRenewals : List Operation :=
  [⟨⟨["targets", "0", "terms", "1", "content", "0", "content", "0"]⟩,
      .replaceRecordProperty ⟨.propertyValue, [("Property", ⟨"Property", "q", none⟩)],
        [.element ⟨.path, [], [.text ⟨"a.b", none⟩], none, none⟩], none, none⟩⟩,
    ⟨⟨["targets", "0", "terms", "0", "content", "0", "content", "0", "content", "0"]⟩,
      .replaceNode sampleChart⟩]

theorem parse_renewals_pair :
    ∃ document w changes edits newText document' ms,
      Document.parse "a.cds" "annotate E with @(UI.HeaderInfo.Title : 'x', C : \x7b p : [1] \x7d);"
        .default = .ok document ∧
      document.syntaxTree.namesValueOnce = true ∧
      (∀ o ∈ sampleRenewals, o.renews = true) ∧
      (ofDocument document .default).addAll sampleRenewals = .ok w ∧
      (∀ o ∈ w.changes, document.syntaxTree.isBehindAlias .standard o.pointer = false) ∧
      (w.changes.Pairwise fun a b => a.pointer.Diverges b.pointer) ∧
      List.Forall₂ (fun o o' => o'.action = o.action ∧
        ∃ n, document.syntaxTree.resolve? o'.pointer = some n ∧
          ∀ e, document.tree.resolve? o.pointer = some (.element e) → n.Represents e)
        sampleRenewals w.changes ∧
      changes.Perm w.changes ∧ edits = changes.map (fun o => (w.scene.renewal o).edit) ∧
      w.textEdits = .ok edits ∧ TextEdit.applyAll
        "annotate E with @(UI.HeaderInfo.Title : 'x', C : \x7b p : [1] \x7d);" edits = .ok newText ∧
      Document.parse "a.cds" newText .default = .ok document' ∧
      List.Forall₂ Operation.SaidBy changes ms ∧
      document'.syntaxTree.content =
        (document.syntaxTree.graftAll ((changes.map (·.pointer)).zip ms)).content := by
  have hchecked : ((Document.parse "a.cds"
      "annotate E with @(UI.HeaderInfo.Title : 'x', C : \x7b p : [1] \x7d);" .default).toOption.any
        fun document =>
          document.syntaxTree.namesValueOnce &&
            ((ofDocument document .default).addAll sampleRenewals).toOption.any fun w =>
              (w.changes.all fun o => !document.syntaxTree.isBehindAlias .standard o.pointer) &&
                decide (w.changes.Pairwise fun a b => a.pointer.Diverges b.pointer)) = true := by
    decide +kernel
  obtain ⟨document, hparse, hchecked⟩ := Locate.exists_ok_of_any hchecked
  obtain ⟨honce, hchecked⟩ := Bool.and_eq_true_iff.mp hchecked
  obtain ⟨w, hadd, hchecked⟩ := Locate.exists_ok_of_any hchecked
  obtain ⟨halias, hdiverges⟩ := Bool.and_eq_true_iff.mp hchecked
  have halias : ∀ o ∈ w.changes, document.syntaxTree.isBehindAlias .standard o.pointer = false :=
    fun o ho => Bool.not_eq_true' _ ▸ List.all_eq_true.mp halias o ho
  have hrenews : ∀ o ∈ sampleRenewals, o.renews = true := by decide +kernel
  obtain ⟨hfound, changes, edits, newText, document', ms, hperm, hedits, htext, happly, hparse',
    hsaid, hcontent⟩ :=
    parse_renewals hparse rfl honce hrenews hadd halias (of_decide_eq_true hdiverges)
  exact ⟨document, w, changes, edits, newText, document', ms, hparse, honce, hrenews, hadd, halias,
    of_decide_eq_true hdiverges, hfound, hperm, hedits, htext, happly, hparse', hsaid, hcontent⟩

end Writer

end AnnotationEdit

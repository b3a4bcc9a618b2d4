import AnnotationEdit.Proofs.Syntax.Replacing
import AnnotationEdit.Proofs.Writer.Slots

/-!
# Annotations in the place of annotations

An annotation that is replaced keeps what stands around it: the `@` of an assignment, the name of
the group of an item. An item is therefore written without the name of its group, and it is read
back as the new annotation exactly where the new term belongs to the vocabulary of the group. With
this the new file has the new annotation in the place of the old one and everything else as it was
(`Writer.parse_replaceNode`).
-/

namespace AnnotationEdit

open Syntax (Node Annotation Group)
open AnnotationEdit.Tree (Element ElementKind)

/-! ## Groups around annotations -/

namespace Syntax

/-- The group that the node at a pointer is an item of. -/
def File.groupAt? (f : File) (p : Pointer) : Option Group :=
  match (p.ancestor? 3).bind f.resolve? with
  | some (.group g) => some g
  | _ => none

variable {f : File} {p q : Pointer}

theorem File.groupAt?_item {g : Group} (h : f.resolve? q = some (.group g)) (key : String) :
    f.groupAt? (q.append ["items", "items", key]) = some g := by
  have hancestor : (q.append ["items", "items", key]).ancestor? 3 = some q :=
    q.ancestor?_append ["items", "items", key]
  rw [groupAt?, hancestor, Option.bind_some, h]

/-- No child is found under one segment where all are numbered. -/
theorem Node.child?_eq_none {n : Node} (h : ∀ e ∈ n.children, e.1.length = 2) (s : String)
    : n.child? [s] = none := by
  rw [child?, Option.map_eq_none_iff, List.find?_eq_none]
  rintro ⟨path, c⟩ hc heq
  have hpath : path = [s] := beq_iff_eq.mp heq
  have hlength := h _ hc
  rw [hpath] at hlength
  cases hlength

theorem File.groupAt?_assignment (key key' : String) :
    f.groupAt? ⟨["targets", key, "assignments", key']⟩ = none := by
  have hnone : (Node.file f).child? ["targets"] = none :=
    Node.child?_eq_none (n := .file f) (List.forall_mem_append.mpr
      ⟨Node.length_of_mem_numbered, Node.length_of_mem_numbered⟩) _
  have hresolve : f.resolve? ⟨["targets"]⟩ = none := by
    rw [File.resolve?, Node.resolve?.eq_def]
    simp only [hnone]
  have hancestor : (Pointer.mk ["targets", key, "assignments", key']).ancestor? 3 =
      some ⟨["targets"]⟩ := rfl
  rw [groupAt?, hancestor, Option.bind_some, hresolve]

theorem File.groupAt?_entry {parent : Node} {r : Record} {path : List String}
    (hq : f.resolve? q = some parent) (hr : (path, Node.record r) ∈ parent.children)
    (key : String) : f.groupAt? ((q.append path).append ["properties", key]) = none := by
  have hvalue : path = ["value"] → (∀ g, parent ≠ .group g) →
      f.groupAt? ((q.append path).append ["properties", key]) = none := by
    rintro rfl hgroup
    have happend : (q.append ["value"]).append ["properties", key] =
        q.append ["value", "properties", key] :=
      congrArg Pointer.mk (List.append_assoc _ _ _)
    have hancestor : (q.append ["value", "properties", key]).ancestor? 3 = some q :=
      q.ancestor?_append ["value", "properties", key]
    rw [groupAt?, happend, hancestor, Option.bind_some, hq]
    cases parent with
    | group g => exact absurd rfl (hgroup g)
    | _ => rfl
  cases Node.holds_of_mem_children hr with
  | annotationValue a v _ => exact hvalue rfl nofun
  | propertyValue p v _ => exact hvalue rfl nofun
  | member l i v _ =>
      have happend : (q.append ["items", toString i]).append ["properties", key] =
          (q.append ["items"]).append [toString i, "properties", key] := by
        refine congrArg Pointer.mk ?_
        simp only [Pointer.append, List.append_assoc, List.cons_append, List.nil_append]
      have hancestor : ((q.append ["items"]).append [toString i, "properties", key]).ancestor? 3 =
          some (q.append ["items"]) :=
        (q.append ["items"]).ancestor?_append [toString i, "properties", key]
      have hnone : f.resolve? (q.append ["items"]) = none := by
        have hresolve := @Node.resolve?_append (Node.file f) _ q.segments ["items"] hq
        refine hresolve.trans ?_
        have hitems := Node.child?_eq_none (n := .collection l) Node.length_of_mem_numbered "items"
        rw [Node.resolve?.eq_def]
        simp only [hitems]
      rw [groupAt?, happend, hancestor, Option.bind_some, hnone]
  | assignment t i a hc => cases a <;> cases hc
  | entry r' i e hc => cases e <;> cases hc

end Syntax

namespace Scene

theorem groupSegments?_items {key : String} (hkey : key ≠ "items") :
    ∀ front : List String, groupSegments? (front ++ ["items", "items", key]) = some front
  | [] => by simp [groupSegments?, hkey]
  | s :: front => by
      rw [List.cons_append, groupSegments?, groupSegments?_items hkey front]

theorem enclosingGroup?_item {s : Scene} {q : Pointer} {g : Group}
    (h : s.document.syntaxTree.resolve? q = some (.group g)) (k : Nat) :
    s.enclosingGroup? (q.append ["items", "items", toString k]) = some g.name.text := by
  have hkey : toString k ≠ "items" := by
    have hi : 'i' ∈ "items".toList := List.mem_cons_self
    exact Text.toString_ne hi (by decide)
  have hsegments := groupSegments?_items hkey q.segments
  simp only [enclosingGroup?, Pointer.append, hsegments, Option.bind_eq_bind, Option.bind_some, h]

theorem enclosingGroup?_assignment {s : Scene} (key key' : String) :
    s.enclosingGroup? ⟨["targets", key, "assignments", key']⟩ = none := by
  have hsegments : groupSegments? ["targets", key, "assignments", key'] = none := by
    simp [groupSegments?]
  simp only [enclosingGroup?, hsegments, Option.bind_eq_bind, Option.bind_none]

end Scene

/-! ## What is written -/

theorem withoutGroup_append (group rest : String) :
    withoutGroup group (group ++ "." ++ rest) = rest := by
  have hdrop : ∀ cs ds : List Char, Text.dropFront? cs (cs ++ ds) = some ds := by
    intro cs ds
    induction cs with
    | nil => rfl
    | cons c cs ih => rw [List.cons_append, Text.dropFront?, if_pos rfl, ih]
  rw [withoutGroup, Text.stripFront?, String.toList_append (s := group ++ "."), hdrop,
    Option.map_some, Option.getD_some, String.ofList_toList]

namespace Printing

open Lexer (Spells Break)

def termIn (group : Option String) (name : String) : String :=
  match group with
  | some group => group ++ "." ++ name
  | none => name

theorem headed_termIn (group name : String) (qualifier? text? : Option String) :
    Printer.headed (qualified (termIn (some group) name) qualifier?) text? =
      group ++ "." ++ Printer.headed (qualified name qualifier?) text? := by
  cases qualifier? <;> cases text? <;>
    simp only [Printer.headed, qualified, termIn, String.append_assoc]

theorem spells_item {e : Element} {es : List Element} {term name : String}
    {group text? : Option String} (hkind : e.kind = ElementKind.annotation)
    (hterm : e.term? = some term) (hisTerm : Printable.isTerm .standard term = true)
    (hkeys : Tree.onlyKeys [Tree.termKey, Tree.qualifierKey] e.attributes = true)
    (hqualifier : e.qualifier?.all Lexer.isName = true) (hcontent : e.content = es.map .element)
    (h : SpellsOptional (ContentOf es) text?) (hdotted : Lexer.isDotted name = true)
    (hname : Vocabulary.standard.shorten term = termIn group name) :
    Spells Break (Printer.headed (qualified name e.qualifier?) text?).toList fun ts => ∀ sign,
      ∃ b : Annotation, b.WrittenAs ts ∧ b.atSign = sign ∧
        (b.element .standard group).canonical id = e.canonical Vocabulary.standard.shorten ∧
        (group = none → b.IsSingle .standard) := by
  refine (spells_named hdotted hqualifier h).imp fun ts hts sign => ?_
  obtain ⟨b, hb, hsign, htext, hsegments, hq, hvalue⟩ := hts sign
  refine ⟨b, hb, hsign, ?_, ?_⟩
  · have hfull : b.element .standard group =
        Syntax.annotationElement .standard (termIn group b.term.text) b.qualifier b.range
          (b.value.any Syntax.Value.isPromoted) (Syntax.optionElement .standard b.value) := by
      cases group <;> rfl
    rw [hfull, htext, ← hname, annotationElement_canonical (splitTerm_shorten hisTerm), hq, hvalue,
      canonical_of_head hkind hkeys hterm hcontent]
  · rintro rfl hlength halias
    rw [not_alias_of_isTerm hisTerm (htext.trans hname.symm)
      (hsegments.trans (congrArg _ hname.symm)) hlength] at halias
    cases halias

theorem spells_embeddedEntry {p : Printer} (hp : IsStandard p) {e : Element}
    (he : e.isPrintable .standard = true) (level : Nat) :
    SpellsEntry (p.annotation .embedded e level) (StandsFor .standard e) := by
  rw [Element.isPrintable, Bool.and_eq_true, beq_iff_eq] at he
  obtain ⟨hkind, hentry⟩ := he
  have h := spells_entry hp e level hentry
  rw [if_pos hkind] at h
  have htext : p.value e level = p.annotation .embedded e level := by
    obtain ⟨kind, attributes, content, range, nameRange⟩ := e
    obtain rfl : kind = ElementKind.annotation := hkind
    rw [Printer.value]
    rfl
  rwa [htext] at h

theorem spells_entryTerm {p : Printer} (hp : IsStandard p) {e : Element}
    (he : e.isPrintable .standard = true) (level : Nat) :
    Spells Break (p.annotation .embedded e level).toList fun ts => ∃ b : Annotation,
      (Syntax.Entry.embedded b).WrittenAs ts ∧
        (b.element .standard none).canonical id = e.canonical Vocabulary.standard.shorten := by
  refine (spells_embeddedEntry hp he level).imp ?_
  rintro ts ⟨entry, hts, ⟨x, hx, hcanonical⟩, _⟩
  rw [Element.isPrintable, Bool.and_eq_true, beq_iff_eq] at he
  have hkind := he.1
  cases entry with
  | embedded b =>
      obtain ⟨range, sign, path, qualifier, colon, value, embedded⟩ := b
      obtain rfl := Option.some.inj hx
      exact ⟨_, hts, hcanonical⟩
  | property q =>
      obtain ⟨range, path, colon, value⟩ := q
      have hkinds := congrArg Element.kind hcanonical
      rw [kind_canonical, kind_canonical, hkind] at hkinds
      rw [Syntax.entryElement?] at hx
      split at hx
      · cases hx
      · rw [← Option.some.inj hx] at hkinds
        cases hnames : path.segments.map (·.text) with
        | nil => rw [hnames] at hkinds; cases hkinds
        | cons name names => rw [hnames, Syntax.propertyElement_cons] at hkinds; cases hkinds

end Printing

/-! ## Words -/

namespace Lexer

def StartsWord (cs : List Char) : Prop :=
  ∃ c tail, cs = c :: tail ∧ isNameChar c = true ∧ Text.isDigit c = false

theorem StartsWord.append {cs : List Char} (h : StartsWord cs) (ds : List Char) :
    StartsWord (cs ++ ds) := by
  obtain ⟨c, tail, rfl, hname, hdigit⟩ := h
  exact ⟨c, tail ++ ds, rfl, hname, hdigit⟩

theorem startsWord_of_isDotted {s : String} (h : isDotted s = true) : StartsWord s.toList := by
  obtain ⟨first, rest, hsplit, hs⟩ := split_eq_cons s
  rw [isDotted, hsplit, List.all_cons, Bool.and_eq_true, isName, Bool.and_eq_true] at h
  rw [hs]
  refine StartsWord.append ?_ _
  cases hfirst : first.toList with
  | nil =>
      rw [hfirst] at h
      cases h.1.1
  | cons c tail =>
      have hword := h.1.1
      rw [hfirst] at hword
      simp only [isWord, Bool.and_eq_true, Bool.not_eq_true'] at hword
      exact ⟨c, tail, rfl, hword.1.1, hword.1.2⟩

end Lexer

namespace Syntax

variable {vocabulary : Vocabulary} {parent : Node} {a : Annotation} {us : List Token}

/-- An entry for an annotation is in brackets. -/
theorem Entry.WrittenAs.embedded (h : (Entry.embedded a).WrittenAs us) : a.embedded = true := by
  obtain ⟨range, sign, term, qualifier, colon, value, embedded⟩ := a
  rw [Entry.WrittenAs] at h
  obtain ⟨_, _, _, _, _, _, _, _, _, _, _, _, _, _, _, _, _, hembedded⟩ := h
  exact hembedded

/-- What an annotation stands below. -/
theorem Node.Admits.parent_cases (h : parent.Admits vocabulary (Node.annotation a) us) :
    ((∃ t, parent = .target t) ∧ a.embedded = false) ∨
      ((∃ i, parent = .groupItems i) ∧ a.embedded = false) ∨
      ∃ r, parent = .record r ∧ a.embedded = true := by
  cases parent with
  | target t =>
      obtain ⟨e, _, heq, he⟩ := h
      cases e with
      | group g => cases heq
      | single b =>
          obtain rfl := Node.annotation.inj heq
          obtain ⟨⟨_, _, _, _, _, _, _, _, hplain⟩, _⟩ := he
          exact Or.inl ⟨⟨t, rfl⟩, hplain⟩
  | groupItems i =>
      obtain ⟨b, heq, hb⟩ := h
      obtain rfl := Node.annotation.inj heq
      obtain ⟨_, _, _, _, _, _, _, _, hplain⟩ := hb
      exact Or.inr (Or.inl ⟨⟨i, rfl⟩, hplain⟩)
  | record r =>
      obtain ⟨e, heq, he⟩ := h
      cases e with
      | property q => cases heq
      | embedded b =>
          obtain rfl := Node.annotation.inj heq
          exact Or.inr (Or.inr ⟨r, rfl, he.embedded⟩)
  | _ => cases h.mayHold

end Syntax

/-! ## The edit -/

theorem Conversion.convert_replaceNode {c : Context} {o : Operation} {e : Element}
    (ho : o.action = .replaceNode e) :
    Locate.Yields (·.action = .replaceNode e) (convert c o) := by
  obtain ⟨p, action⟩ := o
  obtain rfl : action = _ := ho
  refine Locate.Yields.bind Context.resolveEditable_yields ?_
  rintro ⟨located, n⟩ _
  exact Context.yields_unless fun _ => .ok rfl

def Scene.replacementText (s : Scene) (p : Pointer) (a : Annotation) (e : Element) : String :=
  if a.embedded then s.printer.annotation .embedded e (s.level a.range.start.line)
  else s.assignmentText p a.range e

theorem Scene.write_of_replaceNode {s : Scene} {o : Operation} {e : Element} {a : Annotation}
    (ho : o.action = .replaceNode e)
    (ha : s.document.syntaxTree.resolve? o.pointer = some (Node.annotation a)) (d : Draft) :
    s.write d o = .ok (d.replace a.range (s.replacementText o.pointer a e)) := by
  obtain ⟨p, action⟩ := o
  obtain rfl : action = _ := ho
  show s.replaceNode d p e = _
  rw [replaceNode, node_eq ha, replacementText]
  show (if a.embedded then _ else _) = _
  split <;> rfl

namespace Document

variable {uri text : String} {c : Configuration} {d : Document} {q : Pointer} {last : List String}
  {a : Annotation}

theorem groupAt?_of_target (h : parse uri text c = .ok d) {t : Syntax.Target}
    (hq : d.syntaxTree.resolve? q = some (.target t))
    (ha : (last, Node.annotation a) ∈ (Node.target t).children) :
    d.syntaxTree.groupAt? (q.append last) = none ∧
      ∀ s : Scene, s.enclosingGroup? (q.append last) = none := by
  obtain ⟨j, _, rfl⟩ := Node.mem_numbered.mp ha
  obtain ⟨k, rfl, _⟩ := exists_targetIndex h hq
  exact ⟨Syntax.File.groupAt?_assignment _ _, fun s => Scene.enclosingGroup?_assignment _ _⟩

theorem groupAt?_of_groupItems (h : parse uri text c = .ok d) {i : Syntax.GroupItems}
    (hq : d.syntaxTree.resolve? q = some (.groupItems i))
    (ha : (last, Node.annotation a) ∈ (Node.groupItems i).children) :
    ∃ g, d.syntaxTree.groupAt? (q.append last) = some g ∧
      ∀ s : Scene, s.document = d → s.enclosingGroup? (q.append last) = some g.name.text := by
  obtain ⟨j, _, rfl⟩ := Node.mem_numbered.mp ha
  rcases exists_step h hq with ⟨_, heq⟩ | ⟨r, path, parent, rfl, hr, hmem, _⟩
  · cases heq
  cases Node.holds_of_mem_children hmem with
  | groupItems g =>
      have happend : (r.append ["items"]).append ["items", toString j] =
          r.append ["items", "items", toString j] :=
        congrArg Pointer.mk (List.append_assoc _ _ _)
      rw [happend]
      refine ⟨g, Syntax.File.groupAt?_item hr _, ?_⟩
      rintro s rfl
      exact Scene.enclosingGroup?_item hr j
  | assignment _ _ a hc => cases a <;> cases hc
  | annotationValue _ v hc => cases v <;> cases hc
  | propertyValue _ v hc => cases v <;> cases hc
  | entry _ _ e hc => cases e <;> cases hc
  | member _ _ v hc => cases v <;> cases hc

end Document

namespace Scene

open Printing (termIn qualified)

theorem assignmentText_eq {s : Scene} {p : Pointer} {e : Element} {term name : String}
    {group : Option String} (hs : s.printer.vocabulary = .standard) (hterm : e.term? = some term)
    (hgroup : s.enclosingGroup? p = group)
    (hname : Vocabulary.standard.shorten term = termIn group name) (range : Range) :
    ∃ level, s.assignmentText p range e =
      Printer.headed (qualified name e.qualifier?) (s.printer.annotationValue e level) := by
  refine ⟨s.assignmentLevel p range, ?_⟩
  have htext : s.printer.annotation .compound e (s.assignmentLevel p range) =
      Printer.headed (qualified (termIn group name) e.qualifier?)
        (s.printer.annotationValue e (s.assignmentLevel p range)) := by
    rw [Printer.annotation, Printer.annotationHead, Printing.term_eq_qualified hterm, hs, hname]
  rw [assignmentText, hgroup]
  cases group with
  | none => exact htext
  | some group =>
      dsimp only
      rw [htext, Printing.headed_termIn, withoutGroup_append]

end Scene

namespace Printing

theorem parts_of_isPrintable {e : Element} (h : e.isPrintable .standard = true) :
    e.kind = ElementKind.annotation ∧ HasHead e ∧
      Printable.isContent .standard e.content = true := by
  obtain ⟨kind, attributes, content, range, nameRange⟩ := e
  rw [Element.isPrintable, Bool.and_eq_true, beq_iff_eq] at h
  obtain ⟨rfl, h⟩ := h
  simp only [Printable.isEntry, Bool.and_eq_true] at h
  exact ⟨rfl, hasHead_of h.1.1.1 h.1.1.2 h.1.2, h.2⟩

/-- An entry for an annotation starts with its mark. -/
theorem head_embedded (p : Printer) (e : Element) (level : Nat) :
    ∃ rest, (p.annotation .embedded e level).toList = '!' :: rest := by
  rw [Printer.annotation, Printer.annotationHead]
  cases p.annotationValue e level with
  | none =>
      rw [Printer.headed, String.toList_append, String.toList_append]
      exact ⟨_, rfl⟩
  | some text =>
      rw [Printer.headed, String.toList_append, String.toList_append, String.toList_append,
        String.toList_append]
      exact ⟨_, rfl⟩

/-- What is written for an annotation starts with the name. -/
theorem startsWord_headed {name : String} (h : Lexer.isDotted name = true)
    (qualifier? text? : Option String) :
    Lexer.StartsWord (Printer.headed (qualified name qualifier?) text?).toList := by
  have hqualified : Lexer.StartsWord (qualified name qualifier?).toList := by
    cases qualifier? with
    | none => exact Lexer.startsWord_of_isDotted h
    | some q =>
        rw [qualified, String.toList_append, String.toList_append]
        exact ((Lexer.startsWord_of_isDotted h).append _).append _
  cases text? with
  | none => exact hqualified
  | some text =>
      rw [Printer.headed, String.toList_append, String.toList_append]
      exact (hqualified.append _).append _

theorem isDotted_of_termIn {term name : String} {group : Option String}
    (h : Printable.isTerm .standard term = true)
    (hname : Vocabulary.standard.shorten term = termIn group name) :
    Lexer.isDotted name = true := by
  rw [Printable.isTerm, Bool.and_eq_true] at h
  have hdotted := Vocabulary.isDotted_shorten h.1
  rw [hname] at hdotted
  cases group with
  | none => exact hdotted
  | some group =>
      rw [termIn, Lexer.isDotted, Text.split_append, List.all_append, Bool.and_eq_true] at hdotted
      exact hdotted.2

end Printing

namespace Writer

open Printing (termIn)

variable {uri text : String} {c : Configuration} {document : Document} {q : Pointer}
  {last : List String} {parent : Node} {a : Annotation} {o : Operation} {e : Element}

theorem parse_renewed (h : Document.parse uri text c = .ok document) (ho : o.action = .replaceNode e)
    (hq : document.syntaxTree.resolve? q = some parent)
    (hmem : (last, Node.annotation a) ∈ parent.children) (hpointer : o.pointer = q.append last)
    {fragment : String}
    (hfragment : (Scene.ofOperations document c [o]).replacementText o.pointer a e = fragment)
    {read : List Token → Prop} (hspells : Lexer.Spells Lexer.Break fragment.toList read)
    (hne : fragment.toList ≠ []) {P : Annotation → Prop}
    (hput : ∀ us ts, parent.Admits c.aliases (Node.annotation a) us → read ts →
      ∃ b, parent.Admits c.aliases (Node.annotation b) ts ∧ P b) :
    ∃ edits newText document' b, textEdits ⟨document, c, [o]⟩ = .ok edits ∧
      TextEdit.applyAll text edits = .ok newText ∧
      Document.parse uri newText c = .ok document' ∧ P b ∧
      document'.syntaxTree.content =
        (document.syntaxTree.graft o.pointer (Node.annotation b)).content := by
  have hresolve : document.syntaxTree.resolve? o.pointer = some (Node.annotation a) := by
    rw [hpointer]
    exact Locate.resolves_child hq hmem
  have hreduce : Batch.reduce document.syntaxTree [o] = [o] := by
    obtain ⟨p, action⟩ := o
    obtain rfl : action = _ := ho
    exact Batch.reduce_singleton rfl rfl rfl
  have hwrite := Scene.write_of_replaceNode (s := Scene.ofOperations document c [o]) ho hresolve
    .empty
  rw [hfragment] at hwrite
  have hedits := textEdits_of_push hreduce hwrite (TextEdit.isDeletion_of_toList hne)
  obtain ⟨newText, document', m, happly, hparse, ⟨b, rfl, hb⟩, hcontent⟩ :=
    Document.parse_in_place h hq hmem rfl hspells
      (P := fun m => ∃ b, m = Node.annotation b ∧ P b) fun us ts hus hts => by
        obtain ⟨b, hadmits, hb⟩ := hput us ts hus hts
        exact ⟨_, _, hadmits, rfl, b, rfl, hb⟩
  rw [← hpointer] at hcontent
  exact ⟨_, newText, document', b, hedits, happly, hparse, hb, hcontent⟩

theorem parse_item (h : Document.parse uri text c = .ok document) (hc : c.aliases = .standard)
    (ho : o.action = .replaceNode e) (he : e.isPrintable .standard = true)
    (hq : document.syntaxTree.resolve? q = some parent)
    (hmem : (last, Node.annotation a) ∈ parent.children) (hpointer : o.pointer = q.append last)
    (hplain : a.embedded = false) {group : Option String}
    (hgroup : ∀ s : Scene, s.document = document → s.enclosingGroup? o.pointer = group)
    (htarget : ∀ t, parent = .target t → group = none)
    (hname : ∃ name, e.term?.map Vocabulary.standard.shorten = some (termIn group name)) :
    ∃ edits newText document' b, textEdits ⟨document, c, [o]⟩ = .ok edits ∧
      TextEdit.applyAll text edits = .ok newText ∧
      Document.parse uri newText c = .ok document' ∧
      (b.embedded = false ∧
        (b.element .standard group).canonical id = e.canonical Vocabulary.standard.shorten) ∧
      document'.syntaxTree.content =
        (document.syntaxTree.graft o.pointer (Node.annotation b)).content := by
  obtain ⟨hkind, ⟨term, hterm, hisTerm, hkeys, hqualifier⟩, hcontent⟩ :=
    Printing.parts_of_isPrintable he
  obtain ⟨name, hname⟩ := hname
  rw [hterm, Option.map_some, Option.some_inj] at hname
  let scene := Scene.ofOperations document c [o]
  obtain ⟨level, htext⟩ :=
    Scene.assignmentText_eq (s := scene) hc hterm (hgroup scene rfl) hname a.range
  obtain ⟨es, hes, hvalue⟩ := Printing.spells_content (Printing.isStandard_ofConfiguration hc)
    e.content level hcontent
  have hdotted := Printing.isDotted_of_termIn hisTerm hname
  have hspells := Printing.spells_item hkind hterm hisTerm hkeys hqualifier hes hvalue hdotted hname
  have hword := Printing.startsWord_headed hdotted e.qualifier?
    (scene.printer.annotationValue e level)
  have hfragment : scene.replacementText o.pointer a e = _ :=
    (if_neg (by rw [hplain]; exact Bool.false_ne_true)).trans htext
  refine parse_renewed h ho hq hmem hpointer hfragment hspells ?_ ?_
  · obtain ⟨b, tail, htail, _⟩ := hword
    rw [htail]
    exact List.cons_ne_nil _ _
  · intro us ts hus hts
    obtain ⟨b, hb, hsign, helement, hsingle⟩ := hts a.atSign
    have hbare : b.embedded = false := by
      obtain ⟨_, _, _, _, _, _, _, _, hbare⟩ := hb
      exact hbare
    refine ⟨b, (hus.bare hplain).2 b ts hb hsign fun t ht _ => ?_, hbare, helement⟩
    rw [hc]
    exact hsingle (htarget t ht)

/-- A printable annotation in the place of another one is read there, in the form the old one had,
and everything else is as it was. For an item of a group its term has to belong to the vocabulary of
the group. -/
theorem parse_replaceNode (h : Document.parse uri text c = .ok document)
    (hc : c.aliases = .standard) (ho : o.action = .replaceNode e)
    (he : e.isPrintable .standard = true) {w : Writer}
    (hadd : (ofDocument document c).add o = .ok w) {p : Pointer}
    (hp : w.changes.map (·.pointer) = [p])
    (ha : document.syntaxTree.resolve? p = some (Node.annotation a))
    (hgroup : ∀ g ∈ document.syntaxTree.groupAt? p, ∃ name,
      e.term?.map Vocabulary.standard.shorten = some (g.name.text ++ "." ++ name)) :
    ∃ edits newText document' b, w.textEdits = .ok edits ∧
      TextEdit.applyAll text edits = .ok newText ∧
      Document.parse uri newText c = .ok document' ∧
      (b.embedded = a.embedded ∧
        (b.element .standard ((document.syntaxTree.groupAt? p).map (·.name.text))).canonical id =
          e.canonical Vocabulary.standard.shorten) ∧
      document'.syntaxTree.content =
        (document.syntaxTree.graft p (Node.annotation b)).content := by
  obtain ⟨_, o', hconvert, rfl⟩ := add_eq_ok_iff.mp hadd
  obtain rfl : o'.pointer = p := List.head_eq_of_cons_eq hp
  have ho' := Conversion.convert_replaceNode ho _ hconvert
  have hstandard := Printing.isStandard_ofConfiguration hc
  rcases Document.exists_step h ha with ⟨_, hroot⟩ | ⟨q, last, parent, hpointer, hq, hmem, _⟩
  · cases hroot
  have hfile : ∀ g, parent ≠ .file g := by
    rintro g rfl
    cases Node.holds_of_mem_children hmem
  obtain ⟨_, _, _, _, hadmits, _⟩ :=
    Syntax.grafts_file (Document.written_file h) hq hmem nofun hfile
  rcases hadmits.parent_cases with ⟨⟨t, rfl⟩, hplain⟩ | ⟨⟨i, rfl⟩, hplain⟩ | ⟨r, rfl, hembedded⟩
  · obtain ⟨hnone, hscene⟩ := Document.groupAt?_of_target h hq hmem
    rw [← hpointer] at hnone hscene
    rw [hnone, hplain]
    obtain ⟨_, ⟨term, hterm, _⟩, _⟩ := Printing.parts_of_isPrintable he
    exact parse_item h hc ho' he hq hmem hpointer hplain (fun s _ => hscene s) (fun _ _ => rfl)
      ⟨Vocabulary.standard.shorten term, by rw [hterm]; rfl⟩
  · obtain ⟨g, hsome, hscene⟩ := Document.groupAt?_of_groupItems h hq hmem
    rw [← hpointer] at hsome hscene
    rw [hsome, hplain]
    exact parse_item h hc ho' he hq hmem hpointer hplain hscene nofun (hgroup g hsome)
  · have hstandard := Printing.isStandard_ofConfiguration hc
    let scene := Scene.ofOperations document c [o']
    have hnone : document.syntaxTree.groupAt? o'.pointer = none := by
      rcases Document.exists_step h hq with ⟨_, heq⟩ | ⟨r', path, parent, rfl, hr, hrecord, _⟩
      · cases heq
      obtain ⟨k, _, rfl⟩ := Node.mem_numbered.mp hmem
      rw [hpointer]
      exact Syntax.File.groupAt?_entry hr hrecord _
    have htext : scene.replacementText o'.pointer a e = Printer.annotation
        (Printer.ofConfiguration c) .embedded e (scene.level a.range.start.line) :=
      if_pos hembedded
    obtain ⟨rest, hhead⟩ := Printing.head_embedded (Printer.ofConfiguration c) e
      (scene.level a.range.start.line)
    rw [hnone, hembedded]
    refine parse_renewed h ho' hq hmem hpointer htext
      (Printing.spells_entryTerm hstandard he _) ?_ ?_
    · rw [hhead]
      exact List.cons_ne_nil _ _
    · rintro _ ts _ ⟨b, hb, helement⟩
      exact ⟨b, ⟨.embedded b, rfl, hb⟩, hb.embedded, helement⟩

/-- An annotation with a qualifier for the first item of the group. -/
def itemReplacement : Operation :=
  ⟨⟨["targets", "0", "terms", "0"]⟩, .replaceNode ⟨ElementKind.annotation,
    [("Term", ⟨"Term", "com.sap.vocabularies.UI.v1.Title", none⟩),
      ("Qualifier", ⟨"Qualifier", "Main", none⟩)],
    [.element ⟨.string, [], [.text ⟨"it's", none⟩], none, none⟩], none, none⟩⟩

def replacesItem (document : Document) (w : Writer) : Bool :=
  match w.changes.map (·.pointer) with
  | [p] => match document.syntaxTree.resolve? p, document.syntaxTree.groupAt? p with
    | some (Node.annotation _), some g => g.name.text == "UI"
    | _, _ => false
  | _ => false

theorem parse_replaceNode_item :
    ∃ document w p a g e edits newText document' b,
      Document.parse "a.cds" "annotate E with @UI : { A : 1, B : 2 };" .default = .ok document ∧
      itemReplacement.action = .replaceNode e ∧
      (ofDocument document .default).add itemReplacement = .ok w ∧
      w.changes.map (·.pointer) = [p] ∧
      document.syntaxTree.resolve? p = some (Node.annotation a) ∧
      document.syntaxTree.groupAt? p = some g ∧ g.name.text = "UI" ∧
      w.textEdits = .ok edits ∧
      TextEdit.applyAll "annotate E with @UI : { A : 1, B : 2 };" edits = .ok newText ∧
      Document.parse "a.cds" newText .default = .ok document' ∧
      (b.embedded = a.embedded ∧ (b.element .standard (some g.name.text)).canonical id =
        e.canonical Vocabulary.standard.shorten) ∧
      document'.syntaxTree.content =
        (document.syntaxTree.graft p (Node.annotation b)).content := by
  have hchecked : ((Document.parse "a.cds" "annotate E with @UI : { A : 1, B : 2 };"
      .default).toOption.any fun document =>
        ((ofDocument document .default).add itemReplacement).toOption.any fun w =>
          replacesItem document w) = true := by
    decide +kernel
  obtain ⟨document, hparse, hchecked⟩ := Locate.exists_ok_of_any hchecked
  obtain ⟨w, hadd, hchecked⟩ := Locate.exists_ok_of_any hchecked
  rw [replacesItem] at hchecked
  split at hchecked
  · next p hp =>
    split at hchecked
    · next a g ha hg =>
      have hname : g.name.text = "UI" := beq_iff_eq.mp hchecked
      obtain ⟨edits, newText, document', b, hedits, happly, hparse', hb, hcontent⟩ :=
        parse_replaceNode hparse rfl (o := itemReplacement) rfl (by decide +kernel) hadd hp ha
          (by
            intro g' hg'
            rw [hg] at hg'
            obtain rfl := Option.some.inj hg'
            exact ⟨"Title", by rw [hname]; decide +kernel⟩)
      rw [hg] at hb
      exact ⟨document, w, p, a, g, _, edits, newText, document', b, hparse, rfl, hadd, hp, ha, hg,
        hname, hedits, happly, hparse', hb, hcontent⟩
    · cases hchecked
  · cases hchecked

end Writer

end AnnotationEdit

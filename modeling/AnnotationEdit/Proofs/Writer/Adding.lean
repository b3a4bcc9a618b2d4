import AnnotationEdit.Proofs.Batch.Refilling
import AnnotationEdit.Proofs.Writer.Joining
import AnnotationEdit.Proofs.Writer.Replacements

/-!
# Members for lists

What an operation adds to a list: an entry to a record, a value to a collection, an annotation to the
items of a group or to a target. Where it can be printed, what is written is read as a member that
tells what the element tells (`Operation.joins_of_adds`); in a group the term goes without the name of
the group, which is the vocabulary it belongs to (`Conversion.convert_grouped`).
-/

namespace AnnotationEdit

open Syntax (Node)
open AnnotationEdit.Tree (Element ElementKind)
open Printing (IsStandard StandsFor ValueOf termIn)

/-- The name of the group whose items stand at the pointer. -/
def Syntax.File.groupName? (f : Syntax.File) (p : Pointer) : Option String :=
  match p.parent?.bind f.resolve? with
  | some (.group g) => some g.name.text
  | _ => none

theorem Syntax.File.groupName?_of_target {f : Syntax.File} {p : Pointer} {t : Syntax.Target}
    (h : f.resolve? p = some (.target t)) : f.groupName? p = none := by
  rw [groupName?]
  split
  · next g hg =>
    obtain ⟨q, hq, hparent⟩ := Option.bind_eq_some_iff.mp hg
    obtain ⟨path, hlength, rfl⟩ := Pointer.eq_append_of_ancestor? hq
    have hpath : (Node.group g).resolve? path = some (.target t) :=
      (Node.resolve?_append hparent).symm.trans h
    rcases Syntax.resolve?_eq_some_first hpath with ⟨rfl, _⟩ | ⟨first, rest, m, rfl, hm, hrest⟩
    · cases hlength
    · obtain ⟨rfl, rfl⟩ := Prod.mk.inj (List.mem_singleton.mp hm)
      obtain rfl : rest = [] := List.eq_nil_of_length_eq_zero (Nat.succ.inj hlength)
      cases hrest
  · rfl

namespace Operation

/-- Adds a printable member to the list. -/
def adds (o : Operation) (n : Node) : Bool :=
  match n, o.action with
  | .target _, .insert Insertable.annotation _ e => e.isPrintable .standard
  | .record _, .insert Insertable.embeddedAnnotation _ e => e.isPrintable .standard
  | .record _, .insert .recordProperty _ e =>
    e.kind == .propertyValue && Printable.isEntry .standard e
  | .collection _, .insert .record _ e | .collection _, .insert .collection _ e
  | .collection _, .insert .primitiveValue _ e => Printable.isValue .standard e
  | .groupItems _, .insert Insertable.annotation _ e => e.isPrintable .standard
  | _, _ => false

def memberText (o : Operation) (p : Printer) (group : Option String) (level : Nat) : String :=
  match o.action with
  | .insert Insertable.annotation _ e =>
    match group with
    | some name => withoutGroup name (p.annotation .compound e level)
    | none => p.annotation .compound e level
  | .insert Insertable.embeddedAnnotation _ e => p.annotation .embedded e level
  | .insert .recordProperty _ e => p.property e level
  | .insert _ _ e => p.value e level
  | _ => ""

/-- The member tells what the element of the operation tells. -/
def AddedAs (group : Option String) (o : Operation) (m : Node) : Prop :=
  match o.action with
  | .insert Insertable.annotation _ e => ∃ a, m = Node.annotation a ∧
      (a.element .standard group).canonical id = e.canonical Vocabulary.standard.shorten
  | .insert Insertable.embeddedAnnotation _ e | .insert .recordProperty _ e =>
    ∃ entry, m = .ofEntry entry ∧ StandsFor .standard e entry
  | .insert _ _ e => ∃ v, m = .ofValue v ∧ ValueOf e v
  | _ => False

/-- An annotation for the items of a group has a term of the vocabulary that the group is named
after. -/
def InGroup (file : Syntax.File) (o : Operation) : Prop :=
  ∀ items index e, file.resolve? o.pointer = some (.groupItems items) →
    o.action = .insert Insertable.annotation index e → ∃ group name,
      file.groupName? o.pointer = some group ∧
        e.term?.map Vocabulary.standard.shorten = some (group ++ "." ++ name)

/-- The member that the operation adds to the part of a list from a number on. -/
def newMember (o : Operation) (p : Printer) (group : Option String) (k : Nat) : NewMember :=
  ⟨o.index?.map (· - k), o.memberText p group, o.AddedAs group⟩

variable {o : Operation} {n : Node} {p : Printer} {group : Option String}

theorem adds_cases (h : o.adds n = true) :
    (∃ q r index e, o = ⟨q, .insert Insertable.embeddedAnnotation index e⟩ ∧ n = .record r ∧
        e.isPrintable .standard = true) ∨
      (∃ q r index e, o = ⟨q, .insert .recordProperty index e⟩ ∧ n = .record r ∧
        e.kind = .propertyValue ∧ Printable.isEntry .standard e = true) ∨
      (∃ q c what index e, o = ⟨q, .insert what index e⟩ ∧ n = .collection c ∧
        (what = .record ∨ what = .collection ∨ what = .primitiveValue) ∧
        Printable.isValue .standard e = true) ∨
      (∃ q items index e, o = ⟨q, .insert Insertable.annotation index e⟩ ∧ n = .groupItems items ∧
        e.isPrintable .standard = true) ∨
      ∃ q t index e, o = ⟨q, .insert Insertable.annotation index e⟩ ∧ n = .target t ∧
        e.isPrintable .standard = true := by
  obtain ⟨q, action⟩ := o
  rw [adds.eq_def] at h
  split at h
  · next t index e haction =>
    exact .inr (.inr (.inr (.inr ⟨q, t, index, e, congrArg _ haction, rfl, h⟩)))
  · next r index e haction => exact .inl ⟨q, r, index, e, congrArg _ haction, rfl, h⟩
  · next r index e haction =>
    obtain ⟨hkind, he⟩ := Bool.and_eq_true_iff.mp h
    exact .inr (.inl ⟨q, r, index, e, congrArg _ haction, rfl, beq_iff_eq.mp hkind, he⟩)
  · next c index e haction =>
    exact .inr (.inr (.inl ⟨q, c, _, index, e, congrArg _ haction, rfl, .inl rfl, h⟩))
  · next c index e haction =>
    exact .inr (.inr (.inl ⟨q, c, _, index, e, congrArg _ haction, rfl, .inr (.inl rfl), h⟩))
  · next c index e haction =>
    exact .inr (.inr (.inl ⟨q, c, _, index, e, congrArg _ haction, rfl, .inr (.inr rfl), h⟩))
  · next items index e haction =>
    exact .inr (.inr (.inr (.inl ⟨q, items, index, e, congrArg _ haction, rfl, h⟩)))
  · cases h

theorem insertsAt_of_adds (h : o.adds n = true) : Batch.InsertsAt o.pointer o := by
  rcases adds_cases h with ⟨q, _, index, e, rfl, _⟩ | ⟨q, _, index, e, rfl, _⟩ |
    ⟨q, _, what, index, e, rfl, _⟩ | ⟨q, _, index, e, rfl, _⟩ | ⟨q, _, index, e, rfl, _⟩ <;>
  exact ⟨_, index, e, rfl⟩

theorem spells_memberOfGroup (hp : IsStandard p) {e : Element} {group name : String}
    (he : e.isPrintable .standard = true)
    (hname : e.term?.map Vocabulary.standard.shorten = some (group ++ "." ++ name)) (level : Nat) :
    Lexer.Spells Lexer.Break (withoutGroup group (p.annotation .compound e level)).toList
      fun ts => ∃ a : Syntax.Annotation, a.WrittenAs ts ∧ a.atSign = none ∧
        (a.element .standard (some group)).canonical id =
          e.canonical Vocabulary.standard.shorten := by
  obtain ⟨hkind, ⟨term, hterm, hisTerm, hkeys, hqualifier⟩, hcontent⟩ :=
    Printing.parts_of_isPrintable he
  rw [hterm, Option.map_some, Option.some_inj] at hname
  have hname : Vocabulary.standard.shorten term = termIn (some group) name := hname
  obtain ⟨es, hes, hvalue⟩ := Printing.spells_content hp e.content level hcontent
  have hdotted := Printing.isDotted_of_termIn hisTerm hname
  have htext : withoutGroup group (p.annotation .compound e level) =
      Printer.headed (Printing.qualified name e.qualifier?) (p.annotationValue e level) := by
    rw [Printer.annotation, Printer.annotationHead, Printing.term_eq_qualified hterm, hp.2, hname,
      Printing.headed_termIn, withoutGroup_append]
  rw [htext]
  refine (Printing.spells_item hkind hterm hisTerm hkeys hqualifier hes hvalue hdotted hname).imp ?_
  intro ts hts
  obtain ⟨a, ha, hsign, htells, _⟩ := hts none
  exact ⟨a, ha, hsign, htells⟩

/-- What is written is read as a member of the list. -/
theorem joins_of_adds (hp : IsStandard p) {file : Syntax.File} (h : o.adds n = true)
    (hn : file.resolve? o.pointer = some n) (hgroup : o.InGroup file) (k : Nat) :
    (o.newMember p (file.groupName? o.pointer) k).Joins n := by
  intro level
  rcases adds_cases h with ⟨q, r, index, e, rfl, rfl, he⟩ | ⟨q, r, index, e, rfl, rfl, hkind, he⟩ |
    ⟨q, c, what, index, e, rfl, rfl, hwhat, he⟩ | ⟨q, items, index, e, rfl, rfl, he⟩ |
    ⟨q, t, index, e, rfl, rfl, he⟩
  · refine (Printing.spells_embeddedEntry hp he level).imp ?_
    rintro ts ⟨entry, hts, hentry⟩
    exact ⟨_, ⟨entry, rfl, hts⟩, entry, rfl, hentry⟩
  · have hspells := Printing.spells_entry hp e level he
    rw [if_neg (by rw [hkind]; exact ElementKind.noConfusion)] at hspells
    refine hspells.imp ?_
    rintro ts ⟨entry, hts, hentry⟩
    exact ⟨_, ⟨entry, rfl, hts⟩, entry, rfl, hentry⟩
  · have hspells := Printing.spells_value hp e level he
    rcases hwhat with rfl | rfl | rfl
    all_goals
      refine hspells.imp ?_
      rintro ts ⟨v, hts, hv⟩
      exact ⟨_, ⟨v, rfl, hts⟩, v, rfl, hv⟩
  · obtain ⟨group, name, hsome, hname⟩ := hgroup items index e hn rfl
    rw [hsome]
    refine (spells_memberOfGroup hp he hname level).imp ?_
    rintro ts ⟨a, ha, hsign, htells⟩
    exact ⟨_, ⟨a, rfl, ha, hsign⟩, a, rfl, htells⟩
  · rw [Syntax.File.groupName?_of_target hn]
    refine (Printing.spells_bareTerm hp he level).imp ?_
    intro ts hts
    obtain ⟨a, ha, hsign, htells, hsingle⟩ := hts none
    exact ⟨_, ⟨.single a, rfl, ha, hsign, hsingle⟩, a, rfl, htells⟩

end Operation

namespace Scene

theorem write_of_adds {s : Scene} {o : Operation} {n : Node} {list : BracketedList}
    (h : o.adds n = true) (hbracketed : n.isBracketed = true)
    (hn : s.document.syntaxTree.resolve? o.pointer = some n)
    (hlist : s.bracketed o.pointer n.range n.memberRanges = .ok list)
    (hgroup : o.InGroup s.document.syntaxTree) (d : Draft) :
    s.write d o = s.insertMember d list o.index?
      (o.memberText s.printer (s.document.syntaxTree.groupName? o.pointer)) := by
  rcases Operation.adds_cases h with ⟨q, r, index, e, rfl, rfl, _⟩ | ⟨q, r, index, e, rfl, rfl, _⟩ |
    ⟨q, c, what, index, e, rfl, rfl, hwhat, _⟩ | ⟨q, items, index, e, rfl, rfl, _⟩ |
    ⟨q, t, index, e, rfl, rfl, _⟩
  · show s.insertEmbedded d q index e = _
    rw [insertEmbedded, node_eq hn]
    have hlist : s.bracketed q r.range (r.entries.map (·.range)) = .ok list := hlist
    show (s.bracketed q r.range (r.entries.map (·.range))).bind _ = _
    rw [hlist]
    rfl
  · show s.insertProperty d q index e = _
    rw [insertProperty, node_eq hn]
    have hlist : s.bracketed q r.range (r.entries.map (·.range)) = .ok list := hlist
    show (s.bracketed q r.range (r.entries.map (·.range))).bind _ = _
    rw [hlist]
    rfl
  · have hvalue : s.insertValue d q index e = s.insertMember d list index (s.printer.value e) := by
      rw [insertValue, node_eq hn]
      have hlist : s.bracketed q c.range (c.items.map (·.range)) = .ok list := hlist
      show (s.bracketed q c.range (c.items.map (·.range))).bind _ = _
      rw [hlist]
      rfl
    rcases hwhat with rfl | rfl | rfl
    all_goals exact hvalue
  · obtain ⟨group, name, hsome, _⟩ := hgroup items index e hn rfl
    have hparent : ∃ g, q.parent?.bind s.document.syntaxTree.resolve? = some (.group g) ∧
        g.name.text = group := by
      rw [Syntax.File.groupName?] at hsome
      split at hsome
      · next g hg => exact ⟨g, hg, Option.some.inj hsome⟩
      · cases hsome
    obtain ⟨g, hg, rfl⟩ := hparent
    show s.insertAnnotation d q index e = _
    rw [ insertAnnotation, node_eq hn]
    show (s.groupOf q).bind _ = _
    rw [groupOf, hg, hsome]
    have hlist : s.bracketed q items.range (items.items.map (·.range)) = .ok list := hlist
    show (s.bracketed q items.range (items.items.map (·.range))).bind _ = _
    rw [hlist]
    rfl
  · cases hbracketed

theorem write_of_adds_target {s : Scene} {o : Operation} {t : Syntax.Target} {r : Range}
    {list : BracketedList} (h : o.adds (.target t) = true)
    (ht : s.document.syntaxTree.resolve? o.pointer = some (.target t)) (hr : t.compound = some r)
    (hconverting : s.isConverting o.pointer = false)
    (hlist : s.compoundList o.pointer t r = .ok list) (d : Draft) :
    s.write d o = s.insertMember d list o.index?
      (o.memberText s.printer (s.document.syntaxTree.groupName? o.pointer)) := by
  rw [Syntax.File.groupName?_of_target ht]
  rcases Operation.adds_cases h with ⟨_, _, _, _, _, heq, _⟩ | ⟨_, _, _, _, _, heq, _⟩ |
    ⟨_, _, _, _, _, _, heq, _⟩ | ⟨_, _, _, _, _, heq, _⟩ | ⟨q, _, index, e, rfl, _, _⟩
  · cases heq
  · cases heq
  · cases heq
  · cases heq
  · show s.insertAnnotation d q index e = _
    rw [ insertAnnotation, node_eq ht]
    simp only [bind, Except.bind, hconverting, Bool.false_eq_true, if_false, hr, hlist]
    rfl

end Scene

namespace Conversion

open Locate (Yields)

variable {c : Context}

theorem exists_of_groupFor? {t : Syntax.Target} {e : Element} {i : Nat}
    (h : c.groupFor? t e = some i) : ∃ g name, t.assignments[i]? = some (.group g) ∧
      e.term?.map c.vocabulary.shorten = some (g.name.text ++ "." ++ name) := by
  simp only [Context.groupFor?, Option.bind_eq_bind, Option.bind_eq_some_iff] at h
  obtain ⟨term, hterm, ⟨vocabulary, rest⟩, hsplit, hfind⟩ := h
  obtain ⟨hi, hgroup, _⟩ := List.findIdx?_eq_some_iff_getElem.mp hfind
  have hname : c.vocabulary.shorten term = vocabulary ++ "." ++ rest := by
    rw [Text.splitOnce?, Option.map_eq_some_iff] at hsplit
    obtain ⟨⟨front, back⟩, hcut, hparts⟩ := hsplit
    obtain ⟨rfl, rfl⟩ := Prod.mk.inj hparts
    refine String.toList_inj.mp ?_
    rw [Text.eq_of_cutFirst? hcut, String.toList_append, String.toList_append, List.append_assoc]
    simp only [String.toList_ofList]
    exact congrArg (front ++ ·) (List.singleton_append).symm
  rw [List.getElem?_eq_getElem hi]
  cases ha : t.assignments[i] with
  | single a =>
      rw [ha] at hgroup
      cases hgroup
  | group g =>
      rw [ha] at hgroup
      refine ⟨g, rest, rfl, ?_⟩
      rw [hterm, Option.map_some, hname, beq_iff_eq.mp hgroup]

/-- What is no insertion of an annotation among the items of a group. -/
theorem inGroup_of_action {file : Syntax.File} {o : Operation}
    (h : ∀ index e, o.action ≠ .insert Insertable.annotation index e) : o.InGroup file :=
  fun _ index e _ haction => absurd haction (h index e)

/-- An annotation goes into a group only if its term belongs to the vocabulary of the group. -/
theorem insertAnnotation_grouped (hc : c.vocabulary = .standard) {kind : String} {p : Pointer}
    {index : Option Nat} {e : Element} :
    Yields (·.InGroup c.document.syntaxTree) <| c.insertAnnotation kind p index e := by
  refine Yields.bind Context.expectKind_yields fun _ _ => Yields.bind Context.resolve_yields ?_
  rintro ⟨located, n⟩ hn
  cases n with
  | target t =>
      dsimp only
      split
      · next i hfound =>
        obtain ⟨g, name, hg, hterm⟩ := exists_of_groupFor? hfound
        have hchild : (["assignments", toString i], Node.group g) ∈ (Node.target t).children :=
          Node.assignment_mem_children hg
        have hgroup := Locate.resolves_child hn hchild
        refine .ok fun items index' e' _ haction => ⟨g.name.text, name, ?_, ?_⟩
        · have hparent : (located.pointer.append ["assignments", toString i, "items"]).parent? =
              some (located.pointer.append ["assignments", toString i]) := by
            rw [show ["assignments", toString i, "items"] = ["assignments", toString i] ++ ["items"]
              from rfl, ← Pointer.append_append]
            exact Pointer.ancestor?_append _ ["items"]
          rw [Syntax.File.groupName?, hparent, Option.bind_some, hgroup]
        · obtain ⟨_, _, rfl⟩ := Action.insert.inj haction
          rwa [hc] at hterm
      · refine .ok fun items _ _ hitems _ => ?_
        have hsame := hn.symm.trans hitems
        cases hsame
  | _ => exact .error

theorem convert_other {o : Operation}
    (h : ∀ index e, o.action ≠ .insert Insertable.annotation index e) :
    Yields (fun o' => ∀ index e, o'.action ≠ .insert Insertable.annotation index e)
      (convert c o) := by
  intro o' ho' index e haction
  obtain ⟨p, action⟩ := o'
  obtain rfl : action = _ := haction
  obtain ⟨q, action⟩ := o
  -- every branch of a conversion that succeeds gives an action of another kind
  cases action with
  | insert what index e =>
      cases what with
      | annotation => exact h index e rfl
      | embeddedAnnotation | recordProperty | record | collection | primitiveValue =>
          simp only [convert, Context.insertEmbedded, Context.insertProperty, Context.insertValue,
            refuse, bind, Except.bind, pure, Except.pure] at ho'
          repeat' split at ho'
          all_goals cases ho'
  | delete what =>
      cases what with
      | _ =>
          simp only [convert, Context.deleteTarget, Context.deleteAnnotation,
            Context.deleteEmbedded, Context.deleteValue, Context.deleteQualifier, refuse, bind,
            Except.bind, pure, Except.pure] at ho'
          repeat' split at ho'
          all_goals cases ho'
  | _ =>
      simp only [convert, Context.insertQualifier, Context.replaceNode, Context.replaceProperty,
        Context.replaceText, Context.updatePrimitive, Context.setFlags, Context.move, refuse, bind,
        Except.bind, pure, Except.pure] at ho'
      repeat' split at ho'
      all_goals cases ho'

theorem convert_grouped (hc : c.vocabulary = .standard) {o : Operation} :
    Yields (·.InGroup c.document.syntaxTree) (convert c o) := by
  by_cases h : ∃ index e, o.action = .insert Insertable.annotation index e
  · obtain ⟨p, action⟩ := o
    obtain ⟨index, e, rfl⟩ := h
    exact insertAnnotation_grouped hc
  · exact (convert_other fun index e haction => h ⟨index, e, haction⟩).imp
      fun _ => inGroup_of_action

end Conversion

end AnnotationEdit

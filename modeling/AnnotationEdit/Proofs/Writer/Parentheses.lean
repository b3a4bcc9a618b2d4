import AnnotationEdit.Proofs.Syntax.Assignments
import AnnotationEdit.Proofs.Writer.Filling
import AnnotationEdit.Proofs.Writer.Members
import AnnotationEdit.Proofs.Writer.Replacements

/-!
# Annotations in parentheses

An assignment of a target stands in parentheses when it has no `@` of its own, whatever the others
of the target look like. It can be deleted beside another one, a printable annotation can be put in
front of it, and one can be put behind the last list in parentheses: the new text is read as the file
with that target changed accordingly and everything else as it was (`Writer.parse_inParentheses`). With
an `@` of its own none of these holds beside a list in parentheses.
-/

namespace AnnotationEdit

open Syntax (Node Annotation Assignment Target)
open AnnotationEdit.Tree (Element)

/-! ## Deletions -/

namespace Batch

variable {file : Syntax.File} {q : Pointer} {t : Target} {i : Nat} {a : Assignment}

/-- Beside another assignment one can go. -/
theorem leavesMembers_of_assignment (ht : file.resolve? q = some (.target t)) {o : Operation}
    (ho : o.pointer = q.append ["assignments", toString i]) (hlength : 1 < t.assignments.length) :
    LeavesMembers file [o] := by
  refine leavesMembers_of_forall (List.forall_mem_singleton.mpr ?_)
  obtain ⟨k, hk, hne⟩ : ∃ k, k < t.assignments.length ∧ k ≠ i := by
    by_cases hi : i = 0
    · exact ⟨1, hlength, by omega⟩
    · exact ⟨0, Nat.lt_trans Nat.zero_lt_one hlength, by omega⟩
  have hancestor : o.pointer.ancestor? 2 = some q := by
    rw [ho]
    exact q.ancestor?_append _
  have hother := Node.assignment_mem_children (List.getElem?_eq_getElem hk)
  have hstays : (o.pointer == q.append ["assignments", toString k]) = false := by
    rw [ho, beq_eq_false_iff_ne]
    intro heq
    have hpath := List.append_cancel_left (congrArg Pointer.segments heq)
    exact hne (Text.eq_of_toString (List.cons.inj (List.cons.inj hpath).2).1).symm
  rw [leavesSibling, hancestor, Option.all_some, ht, Option.all_some, Bool.or_eq_true]
  refine Or.inr (List.any_eq_true.mpr ⟨_, hother, ?_⟩)
  rw [List.any_cons, hstays]
  rfl

end Batch

/-! ## Insertions -/

namespace Batch

variable {file : Syntax.File} {q : Pointer} {t : Target} {index : Nat} {e : Element}

theorem reduce_of_parentheses (ht : file.resolve? q = some (.target t))
    (hcompound : t.compound.isSome = true) (hne : t.assignments ≠ []) :
    reduce file [⟨q, .insert Insertable.annotation (some index) e⟩] =
      [⟨q, .insert Insertable.annotation (some index) e⟩] := by
  refine reduce_singleton rfl (anchorInEmpty_of_target ht hne) ?_
  rw [isBareSingle, ht]
  show (_ && (t.compound.isNone && _)) = false
  rw [Option.isNone_eq_false_iff.mpr hcompound, Bool.false_and, Bool.and_false]

end Batch

namespace Scene

variable {s : Scene} {q : Pointer} {t : Target} {i : Nat} {a : Assignment}

/-- An annotation in front of one in parentheses is followed by a comma and blanks. -/
theorem write_in_front (hs : s.Parsed) (hblank : Text.allBlank s.printer.indentUnit.toList = true)
    (hconverting : s.isConverting q = false)
    (ht : s.document.syntaxTree.resolve? q = some (.target t)) (ha : t.assignments[i]? = some a)
    (hsign : a.atSign = none) (e : Element) :
    ∃ level behind, Text.allBlank behind = true ∧ ∀ d,
      s.write d ⟨q, .insert Insertable.annotation (some i) e⟩ = .ok (d.insert a.range.start
        (s.printer.annotation .compound e level ++ String.ofList (',' :: behind))) := by
  obtain ⟨compound, hcompound⟩ := exists_compound hs ht (List.mem_of_getElem? ha) hsign
  obtain ⟨list, _, hlist, _, hmembers, _⟩ := exists_compoundList (p := q) hs ht hcompound
  have hneighbour : list.members[i]? = some a.range := by
    rw [hmembers, List.getElem?_map, ha]
    rfl
  obtain ⟨last, hlast⟩ : ∃ last, list.members.getLast? = some last := by
    cases hlast : list.members.getLast? with
    | some last => exact ⟨last, rfl⟩
    | none =>
        rw [List.getLast?_eq_none_iff.mp hlast] at hneighbour
        cases hneighbour
  have hwrite : ∀ d, s.write d ⟨q, .insert Insertable.annotation (some i) e⟩ =
      .ok (s.insertBefore d list a.range (s.printer.annotation .compound e)) := by
    intro d
    show s.insertAnnotation d q (some i) e = _
    rw [ insertAnnotation, node_eq ht]
    simp only [bind, Except.bind, hconverting, Bool.false_eq_true, if_false, hcompound, hlist,
      insertMember, hlast, Option.bind_some, hneighbour]
  cases hline : s.tokens.startsLine a.range.start with
  | true =>
      refine ⟨s.level a.range.start.line, '\n' :: (s.indent (s.level a.range.start.line)).toList,
        ?_, fun d => ?_⟩
      · rw [Text.allBlank, List.all_cons, Bool.and_eq_true]
        exact ⟨by decide, Lexer.allBlank_times hblank _⟩
      · rw [hwrite, insertBefore, if_pos hline]
        refine congrArg (fun text => Except.ok (d.insert a.range.start text)) ?_
        rw [← String.toList_inj]
        simp only [String.toList_append, String.toList_ofList, List.append_assoc,
          List.append_cancel_left_eq]
        rfl
  | false =>
      refine ⟨list.level, [' '], by decide, fun d => ?_⟩
      rw [hwrite, insertBefore, if_neg (Bool.eq_false_iff.mp hline)]

end Scene

namespace Lexer

/-- A word may stand where another word stands. -/
theorem relieves_of_word {c : Char} {tail ds : List Char} (hc : isNameChar c = true)
    (hds : StartsWord ds) : Relieves (c :: tail) ds := by
  obtain ⟨d, rest, rfl, hd, hdigit⟩ := hds
  have hne : ∀ b, isNameChar b = false → d ≠ b := by
    rintro b hb rfl
    rw [hd] at hb
    cases hb
  intro _ _ _ _ hlexeme hfollow
  cases hlexeme with
  | lineComment =>
      obtain rfl := hfollow c rfl
      exact absurd hc (by decide)
  | blockComment => trivial
  | quoted =>
      intro b hb
      obtain rfl := Option.some.inj hb
      exact hne quote (by decide)
  | backquoted => trivial
  | number =>
      intro b hb
      obtain rfl := Option.some.inj hb
      rw [isNumberChar, hdigit, Bool.false_or]
      exact beq_false_of_ne (hne '.' (by decide))
  | word =>
      have hnot := hfollow c rfl
      rw [hc] at hnot
      cases hnot
  | mark => trivial

end Lexer

namespace Document

variable {uri text : String} {c : Configuration} {d : Document}

/-- A word may stand where a name of the document stands. -/
theorem relieves_identifier (h : parse uri text c = .ok d) {t : Token}
    (ht : t ∈ d.tokens.tokens.toList) (hkind : t.kind = .identifier) {cs : List Char}
    (hcs : Lexer.StartsWord cs) : Lexer.Relieves t.text.toList cs := by
  obtain ⟨b, tail, follow, htext, hlexeme⟩ := exists_lexeme h ht
  rw [htext]
  rw [hkind] at hlexeme
  generalize hk : TokenKind.identifier = kind at hlexeme
  cases hlexeme with
  | word hword =>
      rw [Lexer.isWord, Bool.and_eq_true, Bool.and_eq_true] at hword
      exact Lexer.relieves_of_word hword.1.1 hcs
  | lineComment => cases hk
  | blockComment => cases hk
  | quoted => cases hk
  | backquoted => cases hk
  | number => cases hk
  | mark => cases hk

end Document

/-- What is written for an annotation in parentheses is read as it. -/
theorem Printing.spells_in_front {p : Printer} (hp : IsStandard p) {e : Element}
    (he : e.isPrintable .standard = true) (level : Nat) {behind : List Char}
    (hbehind : Text.allBlank behind = true) :
    Lexer.Spells Lexer.Anything
        (p.annotation .compound e level ++ String.ofList (',' :: behind)).toList
      fun ts => ∃ b us comma, ts = us ++ [comma] ∧ Assignment.WrittenAs .standard none b us ∧
        comma.IsMark "," ∧ ∃ a, b = .single a ∧ AnnotationOf e a := by
  have hnothing : Lexer.Spells Lexer.Anything [] (· = []) := .nil
  have hcomma := (hnothing.blanks behind hbehind).mark ',' (by decide)
  rw [List.append_nil] at hcomma
  rw [String.toList_append, String.toList_ofList]
  refine ((spells_bareTerm hp he level).thenBreak hcomma (by decide)).imp ?_
  rintro ts ⟨us, _, rfl, hus, comma, _, rfl, hmark, rfl⟩
  obtain ⟨a, ha, hsign, helement, hsingle⟩ := hus none
  exact ⟨.single a, us, comma, rfl, ⟨ha, hsign, hsingle⟩, hmark, a, rfl, helement, hsingle⟩

theorem Printing.startsWord_compound {p : Printer} (hp : IsStandard p) {e : Element}
    (he : e.isPrintable .standard = true) (level : Nat) :
    Lexer.StartsWord (p.annotation .compound e level).toList := by
  obtain ⟨_, ⟨term, hterm, hisTerm, _⟩, _⟩ := parts_of_isPrintable he
  have hdotted : Lexer.isDotted (Vocabulary.standard.shorten term) = true :=
    Vocabulary.isDotted_shorten (Bool.and_eq_true _ _ ▸ hisTerm).1
  rw [Printer.annotation, Printer.annotationHead, term_eq_qualified hterm, hp.2]
  exact startsWord_headed hdotted _ _

namespace Writer

variable {uri text : String} {c : Configuration} {document : Document} {o : Operation} {w : Writer}
  {q : Pointer} {t : Target} {i : Nat} {a : Assignment}

/-- An assignment in parentheses beside another assignment can be deleted. -/
theorem parse_deleteAssignment (h : Document.parse uri text c = .ok document)
    (hlength : text.length < Text.wordBound) (hadd : (ofDocument document c).add o = .ok w)
    (ht : document.syntaxTree.resolve? q = some (.target t)) (ha : t.assignments[i]? = some a)
    (hsign : a.atSign = none) {what : Deletable}
    (hw : w.changes = [⟨q.append ["assignments", toString i], .delete what⟩])
    (hother : 1 < t.assignments.length) : ∃ edits newText document', w.textEdits = .ok edits ∧
      TextEdit.applyAll text edits = .ok newText ∧
      Document.parse uri newText c = .ok document' ∧
      document'.syntaxTree.content = (document.syntaxTree.graft q
        (.target { t with assignments := t.assignments.eraseIdx i })).content := by
  have hall : (ofDocument document c).addAll [o] = .ok w := by
    rw [addAll_cons_iff]
    exact ⟨w, hadd, rfl⟩
  have hmember := Node.assignment_mem_children ha
  obtain ⟨edits, newText, document', hedits, happly, hparse, hcontent, _⟩ :=
    parse_deleteParted h hlength hall (by
      rw [hw]
      refine List.forall_mem_singleton.mpr ⟨rfl, q, _, .target t, _, rfl, ht, hmember, ?_⟩
      rw [Node.partsByCommas, Node.isBare_ofAssignment, hsign]
      rfl) (by
      rw [hw]
      exact Batch.leavesMembers_of_assignment ht rfl hother)
  refine ⟨edits, newText, document', hedits, happly, hparse, hcontent.trans ?_⟩
  obtain ⟨k, rfl, hk⟩ := Document.exists_targetIndex h ht
  rw [hw, ← Syntax.File.contentWithout_assignment hk]
  refine congrArg document.syntaxTree.contentWithout (funext fun p => ?_)
  rw [List.any_cons, List.any_nil, Bool.or_false, Bool.eq_iff_iff, beq_iff_eq, beq_iff_eq]
  exact eq_comm

theorem parse_insertAssignment (h : Document.parse uri text c = .ok document)
    (hlength : text.length < Text.wordBound) (hc : c.aliases = .standard)
    (ht : document.syntaxTree.resolve? q = some (.target t)) (ha : t.assignments[i]? = some a)
    (hsign : a.atSign = none) {e : Element} (he : e.isPrintable .standard = true) :
    ∃ edits newText document' b,
      textEdits ⟨document, c, [⟨q, .insert Insertable.annotation (some i) e⟩]⟩ = .ok edits ∧
      TextEdit.applyAll text edits = .ok newText ∧
      Document.parse uri newText c = .ok document' ∧
      (b.element .standard none).canonical id = e.canonical Vocabulary.standard.shorten ∧
      document'.syntaxTree.content = (document.syntaxTree.graft q
        (.target { t with assignments := t.assignments.insertIdx i (.single b) })).content := by
  let operation : Operation := ⟨q, .insert Insertable.annotation (some i) e⟩
  let scene := Scene.ofOperations document c [operation]
  have hs : scene.Parsed := ⟨uri, text, c, h, hlength⟩
  have hstandard : Printing.IsStandard scene.printer := Printing.isStandard_ofConfiguration hc
  obtain ⟨compound, hcompound⟩ :=
    Scene.exists_compound hs ht (List.mem_of_getElem? ha) hsign
  obtain ⟨level, behind, hbehind, hwrite⟩ :=
    Scene.write_in_front hs hstandard.1 rfl ht ha hsign e
  have hword := Printing.startsWord_compound hstandard he level
  have hreduce : Batch.reduce document.syntaxTree [operation] = [operation] :=
    Batch.reduce_of_parentheses ht (by rw [hcompound]; rfl)
      (List.ne_nil_of_mem (List.mem_of_getElem? ha))
  have hedits := textEdits_of_push hreduce (hwrite .empty) (TextEdit.isDeletion_insert _ _)
  obtain ⟨k, rfl, hk⟩ := Document.exists_targetIndex h ht
  have hspells := Printing.spells_in_front hstandard he level hbehind
  rw [← hc] at hspells
  obtain ⟨document', b, hparse, ⟨b, rfl, helement, _⟩, hcontent⟩ :=
    Document.parse_in_front h hk ha hsign hspells (by
      obtain ⟨b, tail, htail, _⟩ := hword
      rw [String.toList_append, htail]
      exact List.cons_ne_nil _ _) fun u hu hkind =>
        Document.relieves_identifier h hu hkind (by
          rw [String.toList_append]
          exact hword.append _)
  exact ⟨_, _, document', b, hedits, Lexer.applyAll_insert text _ _, hparse, helement, hcontent⟩

/-- A printable annotation without a place can be put behind the last assignment of a target if that
stands in the last list in parentheses. -/
theorem parse_appendAssignment (h : Document.parse uri text c = .ok document)
    (hlength : text.length < Text.wordBound) (hc : c.aliases = .standard)
    (hadd : (ofDocument document c).add o = .ok w)
    (ht : document.syntaxTree.resolve? q = some (.target t)) {k : Nat}
    (hk : t.lastList? document.tokens.tokens.toList = some k) {index : Option Nat} {e : Element}
    (hw : w.changes = [⟨q, .insert Insertable.annotation index e⟩])
    (hindex : ∀ j, index = some j → t.assignments.length ≤ j)
    (he : e.isPrintable .standard = true) :
    ∃ edits newText document' b, w.textEdits = .ok edits ∧
      TextEdit.applyAll text edits = .ok newText ∧
      Document.parse uri newText c = .ok document' ∧
      (b.element .standard none).canonical id = e.canonical Vocabulary.standard.shorten ∧
      document'.syntaxTree.content = (document.syntaxTree.graft q
        (.target { t with assignments := t.assignments ++ [.single b] })).content := by
  have hall : (ofDocument document c).addAll [o] = .ok w := by
    rw [addAll_cons_iff]
    exact ⟨w, hadd, rfl⟩
  have hlt := (Target.of_lastList? hk).1
  have hmembers : (Node.target t).members = t.assignments.map Node.ofAssignment :=
    Node.members_eq_of_numbered rfl
  obtain ⟨edits, newText, document', added, fs, hedits, happly, hparse, hbefore, hafter, hcontent⟩ :=
    parse_additions h hc hlength hall ht hk (by
      rw [hw]
      exact List.forall_mem_singleton.mpr ⟨rfl, he⟩) (by
      rw [hw]
      exact List.forall_mem_singleton.mpr fun j hj => (Nat.le_of_lt hlt).trans (hindex j hj)) (by
      rw [hw]
      exact List.cons_ne_nil _ _)
  rw [hw, Syntax.File.groupName?_of_target ht] at hbefore hafter
  let insertion : Operation := ⟨q, .insert Insertable.annotation index e⟩
  have hlast : ∀ i < (Node.target t).members.length, ¬ (insertion.index? == some i) = true := by
    intro i hi hplace
    rw [hmembers, List.length_map] at hi
    exact absurd (hindex i (beq_iff_eq.mp hplace)) (Nat.not_le_of_lt hi)
  have hnone : ∀ i < (Node.target t).members.length, added i = [] := by
    intro i hi
    have hempty : [insertion].filter (·.index? == some i) = [] :=
      List.filter_cons_of_neg (hlast i hi)
    have hadded := hbefore i hi
    rw [hempty] at hadded
    exact List.forall₂_nil_left_iff.mp hadded
  have hbehind : insertion.index?.any (· < (Node.target t).members.length) = false := by
    cases hplace : insertion.index? with
    | none => rfl
    | some i => exact decide_eq_false fun hi => hlast i hi (beq_iff_eq.mpr hplace)
  have hsingle : [insertion].filter (fun o =>
      !(o.index?.any (· < (Node.target t).members.length))) = [insertion] :=
    List.filter_cons_of_pos (congrArg not hbehind)
  rw [hsingle] at hafter
  obtain ⟨m, ms, ⟨b, rfl, hb⟩, hms, rfl⟩ := List.forall₂_cons_left_iff.mp hafter
  obtain rfl := List.forall₂_nil_left_iff.mp hms
  refine ⟨edits, newText, document', b, hedits, happly, hparse, hb, hcontent.trans ?_⟩
  have hrefilled : Node.refilled (Node.target t).members (fun _ => false) added [Node.annotation b] =
      (t.assignments ++ [Assignment.single b]).map Node.ofAssignment := by
    have hstaying : (Node.target t).staying (fun _ => false) = (Node.target t).members.zipIdx :=
      List.filter_eq_self.mpr fun _ _ => rfl
    rw [refilled_of_nil _ hnone, hstaying, List.zipIdx_map_fst, hmembers, List.map_append]
    rfl
  rw [hrefilled, Node.withMembers, Node.filterMap_part? Node.wraps_assignment]

/-- An assignment in parentheses, whatever the others of its target look like: beside another one it
can be deleted, and a printable annotation can be put in front of it. Where the last assignment stands
in the last list in parentheses, one can be put behind all of them. The new text is read as the file with
the target changed so, and everything else is as it was. -/
theorem parse_inParentheses (h : Document.parse uri text c = .ok document)
    (hlength : text.length < Text.wordBound) (hc : c.aliases = .standard)
    (hadd : (ofDocument document c).add o = .ok w)
    (ht : document.syntaxTree.resolve? q = some (.target t)) (ha : t.assignments[i]? = some a)
    (hsign : a.atSign = none) :
    (∀ what, w.changes = [⟨q.append ["assignments", toString i], .delete what⟩] →
      1 < t.assignments.length → ∃ edits newText document', w.textEdits = .ok edits ∧
        TextEdit.applyAll text edits = .ok newText ∧
        Document.parse uri newText c = .ok document' ∧
        document'.syntaxTree.content = (document.syntaxTree.graft q
          (.target { t with assignments := t.assignments.eraseIdx i })).content) ∧
    (∀ e, w.changes = [⟨q, .insert Insertable.annotation (some i) e⟩] →
      e.isPrintable .standard = true → ∃ edits newText document' b, w.textEdits = .ok edits ∧
        TextEdit.applyAll text edits = .ok newText ∧
        Document.parse uri newText c = .ok document' ∧
        (b.element .standard none).canonical id = e.canonical Vocabulary.standard.shorten ∧
        document'.syntaxTree.content = (document.syntaxTree.graft q
          (.target { t with assignments := t.assignments.insertIdx i (.single b) })).content) ∧
    ∀ index e, w.changes = [⟨q, .insert Insertable.annotation index e⟩] →
      e.isPrintable .standard = true → (∀ j, index = some j → t.assignments.length ≤ j) →
      (t.lastList? document.tokens.tokens.toList).isSome = true →
      ∃ edits newText document' b, w.textEdits = .ok edits ∧
        TextEdit.applyAll text edits = .ok newText ∧
        Document.parse uri newText c = .ok document' ∧
        (b.element .standard none).canonical id = e.canonical Vocabulary.standard.shorten ∧
        document'.syntaxTree.content = (document.syntaxTree.graft q
          (.target { t with assignments := t.assignments ++ [.single b] })).content := by
  refine ⟨fun what hw hother => parse_deleteAssignment h hlength hadd ht ha hsign hw hother, ?_, ?_⟩
  · intro e hw he
    obtain ⟨_, o', _, rfl⟩ := add_eq_ok_iff.mp hadd
    obtain rfl : o' = _ := List.head_eq_of_cons_eq hw
    exact parse_insertAssignment h hlength hc ht ha hsign he
  · intro index e hw he hindex hlast
    obtain ⟨k, hk⟩ := Option.isSome_iff_exists.mp hlast
    exact parse_appendAssignment h hlength hc hadd ht hk hw hindex he

/-- A target with a list in parentheses between two assignments with an `@` of their own, and another
list behind them. -/
def fencedText : String := "annotate E with @A @(B : 1, /* c */ C) @D @(F);"

/-- The deletion of the first assignment in the parentheses of `fencedText`. -/
def deletionInParentheses : Operation :=
  ⟨⟨["targets", "0", "terms", "1"]⟩, .delete Deletable.annotation⟩

/-- The insertion of an annotation into the target of `fencedText`. -/
def insertionInParentheses (index : Option Nat) : Operation :=
  ⟨⟨["targets", "0"]⟩, .insert Insertable.annotation index
    ⟨Tree.ElementKind.annotation, [("Term", ⟨"Term", "N", none⟩)], [], none, none⟩⟩

def deletesSecond (w : Writer) : Bool :=
  match w.changes with
  | [⟨p, .delete _⟩] => decide (p = ⟨["targets", "0", "assignments", "1"]⟩)
  | _ => false

def insertsN (index : Option Nat) (w : Writer) : Bool :=
  match w.changes with
  | [⟨p, .insert Insertable.annotation i e⟩] => decide (p = ⟨["targets", "0"]⟩) && decide (i = index) &&
      decide (e.term? = some "N") && e.isPrintable .standard
  | _ => false

theorem changes_of_deletesSecond {w : Writer} (h : w.deletesSecond = true) :
    ∃ what, w.changes = [⟨⟨["targets", "0", "assignments", "1"]⟩, .delete what⟩] := by
  rw [deletesSecond] at h
  split at h
  · next p what hw => exact ⟨what, hw.trans (by rw [of_decide_eq_true h])⟩
  · cases h

theorem changes_of_insertsN {index : Option Nat} {w : Writer} (h : w.insertsN index = true) :
    ∃ e, w.changes = [⟨⟨["targets", "0"]⟩, .insert Insertable.annotation index e⟩] ∧
      e.term? = some "N" ∧ e.isPrintable .standard = true := by
  rw [insertsN] at h
  split at h
  · next p i e hw =>
    simp only [Bool.and_eq_true, decide_eq_true_eq] at h
    obtain ⟨⟨⟨rfl, rfl⟩, hterm⟩, he⟩ := h
    exact ⟨e, hw, hterm, he⟩
  · cases h

theorem parse_inParentheses_mixed :
    ∃ (document : Document) (w₁ w₂ w₃ : Writer) (t : Target) (e e' : Element)
      (edits₁ edits₂ edits₃ : List TextEdit) (newText₁ newText₂ newText₃ : String)
      (document₁ document₂ document₃ : Document) (b b' : Annotation),
      Document.parse "a.cds" fencedText .default = .ok document ∧
      document.syntaxTree.resolve? ⟨["targets", "0"]⟩ = some (.target t) ∧
      t.assignments.map (·.atSign.isSome) = [true, false, false, true, false] ∧
      (ofDocument document .default).add deletionInParentheses = .ok w₁ ∧
      w₁.textEdits = .ok edits₁ ∧ TextEdit.applyAll fencedText edits₁ = .ok newText₁ ∧
      Document.parse "a.cds" newText₁ .default = .ok document₁ ∧
      document₁.syntaxTree.content = (document.syntaxTree.graft ⟨["targets", "0"]⟩
        (.target { t with assignments := t.assignments.eraseIdx 1 })).content ∧
      (ofDocument document .default).add (insertionInParentheses (some 2)) = .ok w₂ ∧
      e.term? = some "N" ∧ w₂.textEdits = .ok edits₂ ∧
      TextEdit.applyAll fencedText edits₂ = .ok newText₂ ∧
      Document.parse "a.cds" newText₂ .default = .ok document₂ ∧
      (b.element .standard none).canonical id = e.canonical Vocabulary.standard.shorten ∧
      document₂.syntaxTree.content = (document.syntaxTree.graft ⟨["targets", "0"]⟩
        (.target { t with assignments := t.assignments.insertIdx 2 (.single b) })).content ∧
      (ofDocument document .default).add (insertionInParentheses none) = .ok w₃ ∧
      e'.term? = some "N" ∧ w₃.textEdits = .ok edits₃ ∧
      TextEdit.applyAll fencedText edits₃ = .ok newText₃ ∧
      Document.parse "a.cds" newText₃ .default = .ok document₃ ∧
      (b'.element .standard none).canonical id = e'.canonical Vocabulary.standard.shorten ∧
      document₃.syntaxTree.content = (document.syntaxTree.graft ⟨["targets", "0"]⟩
        (.target { t with assignments := t.assignments ++ [.single b'] })).content := by
  have hchecked : ((Document.parse "a.cds" fencedText .default).toOption.any fun document =>
      ((ofDocument document .default).add deletionInParentheses).toOption.any fun w₁ =>
        ((ofDocument document .default).add (insertionInParentheses (some 2))).toOption.any fun w₂ =>
          ((ofDocument document .default).add (insertionInParentheses none)).toOption.any fun w₃ =>
            (document.syntaxTree.targets[0]?).any fun t =>
              (Lexer.tokenize fencedText).toOption.any fun tokens =>
                decide (t.assignments.map (·.atSign.isSome) = [true, false, false, true, false]) &&
                  (t.lastList? tokens).isSome && w₁.deletesSecond && w₂.insertsN (some 2) &&
                    w₃.insertsN none) = true := by
    decide +kernel
  obtain ⟨document, hparse, hchecked⟩ := Locate.exists_ok_of_any hchecked
  obtain ⟨w₁, hadd₁, hchecked⟩ := Locate.exists_ok_of_any hchecked
  obtain ⟨w₂, hadd₂, hchecked⟩ := Locate.exists_ok_of_any hchecked
  obtain ⟨w₃, hadd₃, hchecked⟩ := Locate.exists_ok_of_any hchecked
  obtain ⟨t, htarget, hchecked⟩ := (Option.any_eq_true _ _).mp hchecked
  obtain ⟨tokens, htokens, hchecked⟩ := Locate.exists_ok_of_any hchecked
  simp only [Bool.and_eq_true, decide_eq_true_eq] at hchecked
  obtain ⟨⟨⟨⟨hsigns, hlast⟩, hdeletes⟩, hinserts⟩, happends⟩ := hchecked
  have hroot : document.syntaxTree.resolve? .root = some (.file document.syntaxTree) := rfl
  have ht : document.syntaxTree.resolve? ⟨["targets", "0"]⟩ = some (.target t) :=
    Locate.resolves_child hroot (Node.target_mem_children htarget)
  have hlast : (t.lastList? document.tokens.tokens.toList).isSome = true := by
    obtain ⟨tokens', _, htokens', hplain, _⟩ := Document.tokens_of_parse hparse
    obtain rfl := Except.ok.inj (htokens.symm.trans htokens')
    rwa [← hplain, Syntax.Target.lastList?_plain] at hlast
  have hlength := congrArg List.length hsigns
  rw [List.length_map] at hlength
  have hunsigned : ∀ i : Nat, [true, false, false, true, false][i]? = some false →
      ∃ a : Assignment, t.assignments[i]? = some a ∧ a.atSign = none := by
    intro i hi
    rw [← hsigns, List.getElem?_map, Option.map_eq_some_iff] at hi
    obtain ⟨a, ha, hnone⟩ := hi
    exact ⟨a, ha, Option.isNone_iff_eq_none.mp (Option.isSome_eq_false_iff.mp hnone)⟩
  obtain ⟨a, ha, hsign⟩ := hunsigned 1 rfl
  obtain ⟨a', ha', hsign'⟩ := hunsigned 2 rfl
  obtain ⟨what, hw₁⟩ := changes_of_deletesSecond hdeletes
  obtain ⟨e, hw₂, hterm, he⟩ := changes_of_insertsN hinserts
  obtain ⟨e', hw₃, hterm', he'⟩ := changes_of_insertsN happends
  obtain ⟨edits₁, newText₁, document₁, hedits₁, happly₁, hparse₁, hcontent₁⟩ :=
    (parse_inParentheses hparse (by decide +kernel) rfl hadd₁ ht ha hsign).1 what hw₁
      (by rw [hlength]; decide)
  obtain ⟨edits₂, newText₂, document₂, b, hedits₂, happly₂, hparse₂, hb, hcontent₂⟩ :=
    (parse_inParentheses hparse (by decide +kernel) rfl hadd₂ ht ha' hsign').2.1 e hw₂ he
  obtain ⟨edits₃, newText₃, document₃, b', hedits₃, happly₃, hparse₃, hb', hcontent₃⟩ :=
    (parse_inParentheses hparse (by decide +kernel) rfl hadd₃ ht ha hsign).2.2 none e' hw₃ he'
      (fun _ hj => absurd hj.symm (Option.some_ne_none _)) hlast
  exact ⟨document, w₁, w₂, w₃, t, e, e', edits₁, edits₂, edits₃, newText₁, newText₂, newText₃,
    document₁, document₂, document₃, b, b', hparse, ht, hsigns, hadd₁, hedits₁, happly₁, hparse₁,
    hcontent₁, hadd₂, hterm, hedits₂, happly₂, hparse₂, hb, hcontent₂, hadd₃, hterm', hedits₃,
    happly₃, hparse₃, hb', hcontent₃⟩

end Writer

end AnnotationEdit

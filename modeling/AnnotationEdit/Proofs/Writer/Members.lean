import AnnotationEdit.Proofs.Batch.Members
import AnnotationEdit.Proofs.Writer.Arranging
import AnnotationEdit.Proofs.Writer.Totality

/-!
# Deleting members of lists

A batch that deletes members of lists with commas, and never all members of a list that is not a
collection, is written as deletions that do not overlap. The new text is read as the file without
these members, everything else as it was, and with no comma left over (`Writer.parse_deleteMembers`).
-/

namespace AnnotationEdit

open Syntax (Node)
open Batch (DeletesMember DeletesMembers touches)
open DeletionRange (Removable)

/-! ## Arranging deletions -/

namespace DeletionRange.Removable

variable {context : DeletionContext} {flagged : Token → Bool} {ranges : List DeletionRange}

theorem before (h : Removable context flagged ranges) :
    (allEdits context ranges).Pairwise fun e f => e.range.Before f.range :=
  pairwise_allEdits h.onLines h.runs h.lastWithSeparator_succ_lt

theorem deletes (h : Removable context flagged ranges) :
    ∀ e ∈ allEdits context ranges, e.newText = "" ∧ e.range.Proper := by
  intro e he
  obtain ⟨d, hd, he⟩ := List.mem_flatMap.mp he
  obtain ⟨hempty, first, last, t, ht, hle, hwraps, _⟩ :=
    exists_wraps (h.runs.run d hd) h.onLines (h.lastWithSeparator_succ_lt d hd) he
  obtain ⟨hstart, hstop⟩ := Range.contains_iff.mp (hwraps.takes (Nat.le_refl first) hle ht)
  exact ⟨hempty, lt_of_le_of_lt hstart (lt_of_lt_of_le (h.onLines.sorted.proper ht) hstop)⟩

theorem starts (h : Removable context flagged ranges) :
    (allEdits context ranges).Pairwise fun e f => e.range.start < f.range.start := by
  refine h.before.imp_of_mem fun he _ hbefore => ?_
  exact lt_of_lt_of_le (h.deletes _ he).2 hbefore

theorem standApart (h : Removable context flagged ranges) :
    TextEdit.StandApart (allEdits context ranges) :=
  ⟨fun e he => le_of_lt (h.deletes e he).2, h.before.imp Or.inl⟩

theorem mergeSort_eq (h : Removable context flagged ranges) :
    (allEdits context ranges).mergeSort TextEdit.comesFirst = allEdits context ranges :=
  List.mergeSort_of_pairwise (TextEdit.comesFirst_of_starts h.starts)

theorem exists_applyAll (h : Removable context flagged ranges) (text : String) :
    ∃ newText, TextEdit.applyAll text (allEdits context ranges) = .ok newText := by
  obtain ⟨cs, _, happly⟩ := h.standApart.exists_splice text
  rw [h.mergeSort_eq] at happly
  exact ⟨_, happly⟩

end DeletionRange.Removable

/-! ## Requests -/

namespace Scene

variable {s : Scene} {d : Draft}

def Asks (s : Scene) (o : Operation) (r : DeletionRequest) : Prop :=
  ∃ n, s.document.syntaxTree.resolve? o.pointer = some n ∧ n.canBeMember = true ∧
    r.range = n.range ∧ r.pattern = .commaList ∧ r.includeTarget = false

theorem exists_compound (hs : s.Parsed) {q : Pointer} {t : Syntax.Target}
    (ht : s.document.syntaxTree.resolve? q = some (.target t)) {a : Syntax.Assignment}
    (ha : a ∈ t.assignments) (hsign : a.atSign = none) :
    ∃ compound, t.compound = some compound := by
  obtain ⟨_, _, _, _, _, _, _, has, _⟩ := hs.exists_written ht
  cases hcompound : t.compound with
  | some compound => exact ⟨compound, rfl⟩
  | none =>
      have hsome := has.atSign_isSome hcompound a ha
      rw [hsign] at hsome
      cases hsome

/-- The members in parentheses go with commas. -/
theorem targetPattern_eq (hs : s.Parsed) {q : Pointer} {t : Syntax.Target}
    (ht : s.document.syntaxTree.resolve? q = some (.target t)) {a : Syntax.Assignment}
    (ha : a ∈ t.assignments) (hsign : a.atSign = none) : targetPattern t = .commaList := by
  obtain ⟨compound, hcompound⟩ := exists_compound hs ht ha hsign
  rw [targetPattern, hcompound]
  rfl

section

variable {o : Operation} {q : Pointer} {name : String} {i : Nat} {parent n : Node}

theorem deleteListChild_eq (hs : s.Parsed)
    (h : DeletesMember s.document.syntaxTree o q name i parent n) (hkind : isListChild n = true) :
    ∃ term, s.deleteListChild d o.pointer =
      .ok (d.request ⟨n.range, some term, .commaList, i, false⟩) := by
  have htarget : ∀ t, parent = .target t → targetPattern t = .commaList := by
    rintro t rfl
    obtain ⟨_, a, ha, _, rfl⟩ := Node.exists_of_mem_numbered h.member
    refine targetPattern_eq hs h.list (List.mem_of_getElem? ha) ?_
    have hparts := h.commas
    rwa [Node.partsByCommas, Node.isBare_ofAssignment, Bool.not_eq_true',
      Option.isSome_eq_false_iff, Option.isNone_iff_eq_none] at hparts
  have hchild : ∃ term, listChild n = .ok (n.range, term) := by
    cases n with
    | annotation a => exact ⟨_, rfl⟩
    | group g => exact ⟨_, rfl⟩
    | property r => exact ⟨_, rfl⟩
    | _ => cases hkind
  obtain ⟨term, hterm⟩ := hchild
  refine ⟨term, ?_⟩
  rw [deleteListChild, node_eq h.resolve?, h.lastIndex?, h.ancestor?]
  simp only [bind, Except.bind, node_eq h.list, hterm]
  cases parent with
  | target t =>
      simp only [htarget t rfl]
      rfl
  | _ => rfl

theorem deleteValue_eq (h : DeletesMember s.document.syntaxTree o q name i parent n) :
    s.deleteValue d o.pointer = .ok (d.request ⟨n.range, none, .commaList, i, false⟩) := by
  have hne : (some (toString i) == some "value") = false :=
    beq_eq_false_iff_ne.mpr fun heq => toString_ne_value h.bound (Option.some.inj heq)
  rw [deleteValue, node_eq h.resolve?]
  simp only [bind, Except.bind, h.last?, hne, h.lastIndex?]
  rfl

theorem exists_write (hs : s.Parsed)
    (h : DeletesMember s.document.syntaxTree o q name i parent n) (d : Draft) :
    ∃ r, s.write d o = .ok (d.request r) ∧ s.Asks o r := by
  obtain ⟨what, haction, hsuits⟩ := h.action
  have hmember := h.canBeMember
  have hwritten : ∃ term, s.deleteElement d o.pointer what =
      .ok (d.request ⟨n.range, term, .commaList, i, false⟩) := by
    have hchild : isListChild n = true → ∃ term, s.deleteListChild d o.pointer =
        .ok (d.request ⟨n.range, term, .commaList, i, false⟩) := fun hkind =>
      ⟨_, (deleteListChild_eq hs h hkind).choose_spec⟩
    have hassignment : Deletable.annotation.suits n = true → isListChild n = true := by
      intro hsuits
      cases n <;> first | rfl | cases hsuits
    cases what with
    | annotation => exact hchild (hassignment hsuits)
    | annotationGroup => exact hchild (hassignment hsuits)
    | embeddedAnnotation =>
        refine hchild ?_
        cases n with
        | annotation a => rfl
        | _ => cases hsuits
    | recordProperty =>
        refine hchild ?_
        cases n with
        | property r => rfl
        | _ => cases hsuits
    | record => exact ⟨_, deleteValue_eq h⟩
    | collection => exact ⟨_, deleteValue_eq h⟩
    | primitiveValue => exact ⟨_, deleteValue_eq h⟩
    | target =>
        cases n with
        | target t => cases hmember
        | _ => cases hsuits
    | annotationGroupItems =>
        cases n with
        | groupItems j => cases hmember
        | _ => cases hsuits
    | qualifier =>
        cases n with
        | qualifier r => cases hmember
        | _ => cases hsuits
  obtain ⟨term, hterm⟩ := hwritten
  refine ⟨⟨n.range, term, .commaList, i, false⟩, ?_, n, h.resolve?, hmember, rfl, rfl, rfl⟩
  rw [write, haction]
  exact hterm

end

theorem exists_requests (hs : s.Parsed) : ∀ {l : List Operation} {d : Draft},
    DeletesMembers s.document.syntaxTree l → ∃ requests : List DeletionRequest,
      s.writeAll d l = .ok { d with deletions := d.deletions ++ requests } ∧
      (∀ r ∈ requests, ∃ o ∈ l, s.Asks o r) ∧ ∀ o ∈ l, ∃ r ∈ requests, s.Asks o r
  | [], d, _ => ⟨[], by rw [writeAll, List.append_nil], nofun, nofun⟩
  | o :: l, d, h => by
      obtain ⟨⟨q, name, i, parent, n, ho⟩, hl⟩ := List.forall_mem_cons.mp h
      obtain ⟨r, hr, hasks⟩ := exists_write hs ho d
      obtain ⟨requests, hwrite, hsound, hcomplete⟩ := exists_requests (d := d.request r) hs hl
      refine ⟨r :: requests, ?_, ?_, ?_⟩
      · rw [writeAll, hr]
        show s.writeAll (d.request r) l = _
        rw [hwrite, Draft.request]
        simp only [List.append_assoc, List.cons_append, List.nil_append]
      · refine List.forall_mem_cons.mpr ⟨⟨o, List.mem_cons_self, hasks⟩, fun r' hr' => ?_⟩
        obtain ⟨o', ho', hasks'⟩ := hsound r' hr'
        exact ⟨o', List.mem_cons_of_mem o ho', hasks'⟩
      · refine List.forall_mem_cons.mpr ⟨⟨r, List.mem_cons_self, hasks⟩, fun o' ho' => ?_⟩
        obtain ⟨r', hr', hasks'⟩ := hcomplete o' ho'
        exact ⟨r', List.mem_cons_of_mem r hr', hasks'⟩

/-! ## Ranges -/

theorem Asks.exists_run (hs : s.Parsed) {o : Operation} {r : DeletionRequest}
    {flagged : Token → Bool} (h : s.Asks o r)
    (hflagged : ∀ i t, s.tokens.get? i = some t → r.range.contains t.range = true →
      flagged t = true) :
    ∃ range, s.deletionRange? r = some range ∧ range.Run s.tokens flagged ∧
      ∀ i t, s.tokens.get? i = some t → r.range.contains t.range = true →
        range.tokens.first ≤ i ∧ i ≤ range.tokens.last := by
  obtain ⟨n, hn, hmember, hrange, hpattern, htarget⟩ := h
  have hwithin : Within s.code r.range := by
    rw [hrange]
    refine hs.within hn ?_
    rintro f rfl
    cases hmember
  obtain ⟨range, hsome, hrun, hcovers⟩ := DeletionRange.exists_run_ofNode? hs.sorted hwithin hflagged
    r.term s.printer.vocabulary r.sibling
  refine ⟨range, ?_, hrun, hcovers⟩
  rw [deletionRange?, hpattern, hsome, htarget, Option.map_some, ← hrun.keepsTarget]

def deletedRanges (s : Scene) (requests : List DeletionRequest) : List DeletionRange :=
  DeletionRange.settle (s.deletionContext .empty) (requests.filterMap s.deletionRange?)

/-- The ranges for members of lists are runs of the tokens of these members and of all below
them. -/
theorem runs_of_requests (hs : s.Parsed) {l m : List Operation} {requests : List DeletionRequest}
    (hsub : ∀ o ∈ m, o ∈ l)
    (habove : ∀ o ∈ l, ∃ o' ∈ m, o'.pointer.isPrefixOf o.pointer = true)
    (hsound : ∀ r ∈ requests, ∃ o ∈ m, s.Asks o r)
    (hcomplete : ∀ o ∈ m, ∃ r ∈ requests, s.Asks o r) :
    DeletionRange.Runs s.tokens (touches s.document.syntaxTree l) (s.deletedRanges requests) := by
  obtain ⟨uri, text, config, hparse, _⟩ := id hs
  obtain ⟨_, items, _, _, _, hitems, _⟩ := Document.tokens_of_parse hparse
  have hrun : ∀ r ∈ requests, ∃ range, s.deletionRange? r = some range ∧
      range.Run s.tokens (touches s.document.syntaxTree l) ∧
      ∀ i t, s.tokens.get? i = some t → r.range.contains t.range = true →
        range.tokens.first ≤ i ∧ i ≤ range.tokens.last := by
    intro r hr
    obtain ⟨o, ho, hasks⟩ := hsound r hr
    refine hasks.exists_run hs fun i t _ hcontains => ?_
    obtain ⟨n, hn, _, hrange, _⟩ := hasks
    exact Batch.touches_eq_true.mpr ⟨o, hsub o ho, n, hn, hrange ▸ hcontains⟩
  have hchain : (s.tokens.tokens.toList.filter Token.isCode).IsChain Apart :=
    (Syntax.tame_of_consecutive hitems).chain
  refine @DeletionRange.settle_runs (s.deletionContext .empty) _ hchain _ ?_ ?_
  · intro range hrange
    obtain ⟨r, hr, hsome⟩ := List.mem_filterMap.mp hrange
    obtain ⟨range', hsome', hrun', _⟩ := hrun r hr
    rw [Option.some.inj (hsome.symm.trans hsome')]
    exact hrun'
  · intro i t ht _ htouched
    obtain ⟨o, ho, n, hn, hcontains⟩ := Batch.touches_eq_true.mp htouched
    obtain ⟨o', ho', hprefix⟩ := habove o ho
    obtain ⟨r, hr, hasks⟩ := hcomplete o' ho'
    obtain ⟨range, hsome, _, hcovers⟩ := hrun r hr
    refine ⟨range, List.mem_filterMap.mpr ⟨r, hr, hsome⟩, hcovers i t ht ?_⟩
    obtain ⟨n', hn', hmember, hrange, _⟩ := hasks
    obtain ⟨path, hpath⟩ := List.isPrefixOf_iff_prefix.mp hprefix
    have hbelow : s.document.syntaxTree.resolve? (o'.pointer.append path) = some n := by
      rw [← hn, Pointer.append, hpath]
    rw [hrange]
    exact Range.contains_trans (Document.contains_below hparse hn' hmember hbelow) hcontains

/-! ## Edits -/

theorem foldl_push (edits : List TextEdit) (d : Draft) :
    edits.foldl (fun d e => d.push e .normal) d =
      { d with edits := d.edits ++ edits.map (·, .normal) } := by
  induction edits generalizing d with
  | nil => rw [List.foldl_nil, List.map_nil, List.append_nil]
  | cons e edits ih =>
      rw [List.foldl_cons, ih, List.map_cons]
      simp only [Draft.push, List.append_assoc, List.singleton_append]

def deletionEdits (s : Scene) (requests : List DeletionRequest) : List TextEdit :=
  DeletionRange.allEdits (s.deletionContext .empty) (s.deletedRanges requests)

theorem complete_of_requests (s : Scene) (requests : List DeletionRequest) :
    s.complete { Draft.empty with deletions := requests } =
      { Draft.empty with
        edits := (s.deletionEdits requests).map (·, .normal)
        deletions := requests } := by
  have hdeletions : s.writeDeletions { Draft.empty with deletions := requests } =
      { Draft.empty with
        edits := (s.deletionEdits requests).map (·, .normal)
        deletions := requests } := by
    rw [writeDeletions]
    exact foldl_push _ _
  rw [complete, writePromotions, writeEmptyLists]
  show s.writeShifts (s.writeDeletions { Draft.empty with deletions := requests }) = _
  rw [hdeletions, writeShifts]
  simp only [Draft.empty, List.mergeSort_nil]
  rfl

theorem finish_of_requests {requests : List DeletionRequest} {flagged : Token → Bool}
    (h : Removable (s.deletionContext .empty) flagged (s.deletedRanges requests)) :
    s.finish { Draft.empty with deletions := requests } = .ok (s.deletionEdits requests) := by
  have hmoved : RankedEdit.moved s.document.lines (s.deletionEdits requests) =
      s.deletionEdits requests := RankedEdit.moved_eq_self fun e he => by
    rw [TextEdit.isInsertion, (h.deletes e he).1]
    exact Bool.and_false _
  have hcomplete : (s.complete { Draft.empty with deletions := requests }).edits =
      (s.deletionEdits requests).map (·, .normal) := by rw [complete_of_requests]
  have hsorted : (s.deletionEdits requests).mergeSort TextEdit.comesFirst =
      s.deletionEdits requests := h.mergeSort_eq
  rw [finish_of_standApart hcomplete, hmoved, hsorted]
  rw [hmoved]
  exact h.standApart

end Scene

theorem Scene.exists_removable {s : Scene} {uri text : String} {c : Configuration}
    (hparse : Document.parse uri text c = .ok s.document) (hlength : text.length < Text.wordBound)
    {l m : List Operation} (hdeletes : DeletesMembers s.document.syntaxTree l)
    (hkeeps : s.document.syntaxTree.KeepsMembers fun p => l.any (·.pointer == p))
    (hsub : ∀ o ∈ m, o ∈ l) (habove : ∀ o ∈ l, ∃ o' ∈ m, o'.pointer.isPrefixOf o.pointer = true)
    (d : Draft) : ∃ requests : List DeletionRequest,
      s.writeAll d m = .ok { d with deletions := d.deletions ++ requests } ∧
      Removable (s.deletionContext .empty) (touches s.document.syntaxTree l)
        (s.deletedRanges requests) := by
  have hs : s.Parsed := ⟨uri, text, c, hparse, hlength⟩
  obtain ⟨requests, hwrite, hsound, hcomplete⟩ :=
    exists_requests (d := d) hs (hdeletes.subset hsub)
  exact ⟨requests, hwrite, Document.removable hparse hdeletes.members hkeeps (hdeletes.flags _) rfl
    rfl (runs_of_requests hs hsub habove hsound hcomplete)⟩

/-! ## Reading the new text -/

namespace Writer

variable {uri text : String} {c config : Configuration} {document : Document}
variable {operations : List Operation} {w : Writer}

/-- A batch of accepted deletions of members with commas beside them is read as the file without
these members. -/
theorem parse_deleteParted (hparse : Document.parse uri text c = .ok document)
    (hlength : text.length < Text.wordBound)
    (hadd : (ofDocument document config).addAll operations = .ok w)
    (hmembers : ∀ o ∈ w.changes, o.isDeletion = true ∧ document.syntaxTree.IsParted o.pointer)
    (hkeeps : document.syntaxTree.KeepsMembers fun p => w.changes.any (·.pointer == p)) :
    ∃ edits newText document', w.textEdits = .ok edits ∧
      TextEdit.applyAll text edits = .ok newText ∧
      Document.parse uri newText c = .ok document' ∧
      document'.syntaxTree.content =
        document.syntaxTree.contentWithout (fun p => w.changes.any (·.pointer == p)) ∧
      document'.Trims document := by
  obtain ⟨hdocument, hconfig, hfits⟩ := fits_of_addAll hadd fun _ h => absurd h List.not_mem_nil
  have hdeletes : DeletesMembers document.syntaxTree w.changes := by
    intro o ho
    obtain ⟨hdelete, hmember⟩ := hmembers o ho
    exact Batch.exists_deletesMember hparse hlength (hfits o ho) hdelete hmember
  obtain ⟨hsub, habove⟩ := Batch.reduce_of_deletesMembers hdeletes hkeeps
  let reduced := Batch.reduce document.syntaxTree w.changes
  let scene := Scene.ofOperations document config reduced
  obtain ⟨requests, hwrite, hremovable⟩ := Scene.exists_removable (s := scene) hparse hlength
    hdeletes hkeeps hsub habove .empty
  have hedits : w.textEdits = .ok (scene.deletionEdits requests) := by
    rw [textEdits, hdocument, hconfig]
    show (scene.writeAll .empty reduced).bind scene.finish = _
    rw [hwrite]
    exact Scene.finish_of_requests hremovable
  obtain ⟨newText, happly⟩ := hremovable.exists_applyAll text
  obtain ⟨document', hparse', hcontent, htrims⟩ := Document.exists_remainder hparse hdeletes.members
    hkeeps (hdeletes.flags _) rfl hremovable (fun e he => (hremovable.deletes e he).1)
    hremovable.mergeSort_eq happly
  exact ⟨_, newText, document', hedits, happly, hparse', hcontent, htrims⟩

/-- A batch of accepted deletions of members of lists with commas, in any number of lists and at any
depth, that leaves a member in every list but collections: the edits are returned and can be applied,
the new text is read, and the file that is read says what the old one says without these members. No
list ends in a comma that did not end in one before. -/
theorem parse_deleteMembers (hparse : Document.parse uri text c = .ok document)
    (hlength : text.length < Text.wordBound)
    (hadd : (ofDocument document config).addAll operations = .ok w)
    (hmembers : ∀ o ∈ w.changes, o.isDeletion = true ∧ document.syntaxTree.IsMember o.pointer)
    (hkeeps : document.syntaxTree.KeepsMembers fun p => w.changes.any (·.pointer == p)) :
    ∃ edits newText document', w.textEdits = .ok edits ∧
      TextEdit.applyAll text edits = .ok newText ∧
      Document.parse uri newText c = .ok document' ∧
      document'.syntaxTree.content =
        document.syntaxTree.contentWithout (fun p => w.changes.any (·.pointer == p)) ∧
      document'.Trims document :=
  parse_deleteParted hparse hlength hadd
    (fun o ho => (hmembers o ho).imp_right Syntax.File.IsMember.isParted) hkeeps

/-- A text with nested lists, comments before and after commas, and commas at the ends of lists. -/
def nestedText : String :=
  "annotate E with @(A : [1, 2 /* b */, 3,], B : \x7bp : 1, q : \x7br : 1, s : 2\x7d, // c\n\x7d, C);"

/-- Deletions of the first and the last item of a collection, of an entry and of an entry below it,
and of the last annotation in parentheses. -/
def nestedBatch : List Operation :=
  let first : List String := ["targets", "0", "terms", "0", "content", "0"]
  let second : List String := ["targets", "0", "terms", "1", "content", "0"]
  [⟨⟨first ++ ["content", "0"]⟩, .delete .primitiveValue⟩,
    ⟨⟨first ++ ["content", "2"]⟩, .delete .primitiveValue⟩,
    ⟨⟨second ++ ["content", "1", "content", "0", "content", "1"]⟩, .delete .recordProperty⟩,
    ⟨⟨second ++ ["content", "1"]⟩, .delete .recordProperty⟩,
    ⟨⟨["targets", "0", "terms", "2"]⟩, .delete Deletable.annotation⟩]

theorem parse_deleteMembers_nested :
    ∃ document w edits newText document',
      Document.parse "a.cds" nestedText .default = .ok document ∧
      (ofDocument document .default).addAll nestedBatch = .ok w ∧ w.changes.length = 5 ∧
      w.textEdits = .ok edits ∧ TextEdit.applyAll nestedText edits = .ok newText ∧
      Document.parse "a.cds" newText .default = .ok document' ∧
      document'.syntaxTree.content =
        document.syntaxTree.contentWithout (fun p => w.changes.any (·.pointer == p)) := by
  have hchecked : ((Document.parse "a.cds" nestedText .default).toOption.any fun document =>
      ((ofDocument document .default).addAll nestedBatch).toOption.any fun w =>
        decide (w.changes.length = 5 ∧ ∀ o ∈ w.changes,
          (o.isDeletion = true ∧ document.syntaxTree.IsMember o.pointer) ∧
            Batch.leavesSibling document.syntaxTree w.changes o.pointer = true)) = true := by
    decide +kernel
  cases hparse : Document.parse "a.cds" nestedText .default with
  | error e =>
      rw [hparse] at hchecked
      cases hchecked
  | ok document =>
      rw [hparse] at hchecked
      change (((ofDocument document .default).addAll nestedBatch).toOption.any _) = true at hchecked
      cases hadd : (ofDocument document .default).addAll nestedBatch with
      | error e =>
          rw [hadd] at hchecked
          cases hchecked
      | ok w =>
          rw [hadd] at hchecked
          obtain ⟨hcount, hall⟩ := of_decide_eq_true hchecked
          have hkeeps := Batch.leavesMembers_of_forall fun o ho => (hall o ho).2
          obtain ⟨edits, newText, document', hedits, happly, hparse', hcontent, _⟩ :=
            parse_deleteMembers hparse (by decide +kernel) hadd (fun o ho => (hall o ho).1) hkeeps
          exact ⟨document, w, edits, newText, document', rfl, hadd, hcount, hedits, happly,
            hparse', hcontent⟩

end Writer

end AnnotationEdit

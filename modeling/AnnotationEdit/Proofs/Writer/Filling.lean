import AnnotationEdit.Proofs.Syntax.Replacing
import AnnotationEdit.Proofs.Writer.Lists

/-!
# Adding members to a list

A batch only adds printable members to one list in brackets. Where the list has members, each new one
goes in front of the member with its number or behind all. Where it has none, what stands between the
brackets is written once, with all new members on lines of their own. To write something there is to
write the list anew, brackets and all (`Document.applyAll_between`). Either way the new text is read
as the file with the new members in the list (`Writer.parse_additions`).
-/

namespace AnnotationEdit

open Syntax (Node Bracketed)

/-- What stands between the brackets of a list does not depend on them. -/
theorem Printer.block_eq (p : Printer) {opening closing : String} {entries : List String}
    (h : entries ≠ []) (level : Nat) : p.block opening closing entries level =
      opening ++ p.block "" "" entries level ++ closing := by
  have hne : entries.isEmpty = false := List.isEmpty_eq_false_iff.mpr h
  simp only [Printer.block, hne, Bool.false_eq_true, if_false, String.append_assoc,
    String.empty_append, String.append_empty]

/-- One edit puts its text between the characters in front of it and those behind it. -/
theorem TextEdit.applyAll_singleton (text : String) {p q : Position} (h : p ≤ q) (new : String) :
    applyAll text [⟨⟨p, q⟩, new⟩] = .ok (String.ofList
      (text.toList.take ((Lines.ofString text).index p) ++ (new.toList ++
        text.toList.drop ((Lines.ofString text).index q)))) := by
  have hindex := (Lines.ofString text).index_mono h
  rw [applyAll, List.mergeSort_singleton, splice, if_neg (Nat.not_lt_zero _), splice]
  show Except.map String.ofList (.ok ((Lines.ofString text).between 0 _ ++ (new.toList ++
    text.toList.drop (Nat.max _ _)))) = _
  rw [show Nat.max _ _ = (Lines.ofString text).index q from Nat.max_eq_left hindex]
  rfl

/-! ## Between the brackets -/

namespace Document

variable {uri text : String} {c : Configuration} {d : Document} {t u : Token}

/-- A token that is no comment up to the end of its line divides the text where it starts and where
it stops. -/
theorem divides_token (h : parse uri text c = .ok d) (ht : t ∈ d.tokens.tokens.toList)
    (hkind : t.kind ≠ .lineComment) :
    text.toList.take ((Lines.ofString text).index t.range.stop) =
        text.toList.take ((Lines.ofString text).index t.range.start) ++ t.text.toList ∧
      text.toList.drop ((Lines.ofString text).index t.range.start) =
        t.text.toList ++ text.toList.drop ((Lines.ofString text).index t.range.stop) := by
  obtain ⟨front, b, tail, rest, hsplit, hplaced⟩ := exists_placed h ht
  have hstart : (Lines.ofString text).index t.range.start = front.length := by
    rw [Lines.ofString, hsplit]
    exact hplaced.index_start
  have hstop : (Lines.ofString text).index t.range.stop = (front ++ (b :: tail)).length := by
    rw [Lines.ofString, hsplit, List.length_append]
    exact hplaced.index_stop hkind
  have htext : t.text.toList = b :: tail := by
    rw [show t.text = String.ofList (b :: tail) from hplaced.text, String.toList_ofList]
  rw [hstart, hstop, htext, hsplit, List.take_left, List.drop_left, ← List.append_assoc,
    List.take_left, List.drop_left]
  exact ⟨rfl, rfl⟩

/-- To write something between two tokens is to write the tokens anew with it between them. -/
theorem applyAll_between (h : parse uri text c = .ok d) (ht : t ∈ d.tokens.tokens.toList)
    (hu : u ∈ d.tokens.tokens.toList) (hkind : t.kind ≠ .lineComment)
    (hkind' : u.kind ≠ .lineComment) (hle : t.range.stop ≤ u.range.start)
    (hwhole : t.range.start ≤ u.range.stop) (new : String) :
    TextEdit.applyAll text [⟨⟨t.range.stop, u.range.start⟩, new⟩] =
      TextEdit.applyAll text [⟨⟨t.range.start, u.range.stop⟩, t.text ++ new ++ u.text⟩] := by
  rw [TextEdit.applyAll_singleton text hle, TextEdit.applyAll_singleton text hwhole,
    (divides_token h ht hkind).1, (divides_token h hu hkind').2]
  simp only [String.toList_append, List.append_assoc]

/-- New members, printed between the brackets of a list, are read as its members. -/
theorem spells_members {n : Node} (hlist : n.isBracketed = true) {p : Printer}
    (hp : Text.allBlank p.indentUnit.toList = true) {fragments : List String}
    {tells : List (Node → Prop)} (hitems : Lexer.Items n.Lists fragments tells) (level : Nat) :
    Lexer.Spells Lexer.Anything (p.block n.brackets.1 n.brackets.2 fragments level).toList
      fun ts => ∃ first final vs ms, ts = first :: (vs ++ [final]) ∧
        first.IsMark n.brackets.1 ∧ final.IsMark n.brackets.2 ∧
        Syntax.commaSeparated n.Lists ms vs ∧ List.Forall₂ (fun tell m => tell m) tells ms := by
  cases n with
  | record r => exact Lexer.spells_block hp hitems '\x7b' '\x7d' (by decide) (by decide) level
  | collection c => exact Lexer.spells_block hp hitems '[' ']' (by decide) (by decide) level
  | groupItems i => exact Lexer.spells_block hp hitems '\x7b' '\x7d' (by decide) (by decide) level
  | _ => cases hlist

/-- A text in which new members are printed between the brackets of a list is read as the file with
these members in the list. -/
theorem parse_filled (h : parse uri text c = .ok d) {q : Pointer} {n : Node}
    (hn : d.syntaxTree.resolve? q = some n) (hlist : n.isBracketed = true)
    {front us back : List Token} {opening closing : Token}
    (hcode : d.tokens.tokens.toList.filter Token.isCode =
      front ++ opening :: (us ++ closing :: back))
    (hbracketed : Bracketed n opening closing us) {p : Printer}
    (hp : Text.allBlank p.indentUnit.toList = true) {fragments : List String}
    {tells : List (Node → Prop)} (hitems : Lexer.Items n.Lists fragments tells)
    (hne : fragments ≠ []) (level : Nat) :
    ∃ newText d' ms, TextEdit.applyAll text
        [⟨⟨opening.range.stop, closing.range.start⟩, p.block "" "" fragments level⟩] =
          .ok newText ∧
      parse uri newText c = .ok d' ∧ List.Forall₂ (fun tell m => tell m) tells ms ∧
      d'.syntaxTree.content = (d.syntaxTree.graft q (n.withMembers ms)).content := by
  have hinner : n.isInner = true := by
    cases n with
    | record r => rfl
    | collection c => rfl
    | groupItems i => rfl
    | _ => cases hlist
  have hordered := ordered_code h
  rw [hcode] at hordered
  have hopening : opening ∈ d.tokens.tokens.toList.filter Token.isCode := by
    rw [hcode]
    exact List.mem_append_right _ List.mem_cons_self
  have hclosing : closing ∈ d.tokens.tokens.toList.filter Token.isCode := by
    rw [hcode]
    exact List.mem_append_right _ (List.mem_cons_of_mem _
      (List.mem_append_right _ List.mem_cons_self))
  have hle : opening.range.stop ≤ closing.range.start :=
    (List.pairwise_cons.mp (List.pairwise_append.mp hordered.apart).2.1).1 closing
      (List.mem_append_right _ List.mem_cons_self)
  have hwhole : opening.range.start ≤ closing.range.stop :=
    (le_of_lt (hordered.proper opening (hcode ▸ hopening))).trans
      (hle.trans (le_of_lt (hordered.proper closing (hcode ▸ hclosing))))
  rcases exists_step h hn with ⟨_, rfl⟩ | ⟨above, last, parent, rfl, hparent, hchild, _⟩
  · cases hlist
  obtain ⟨newText, d', m, happly, hparse, ⟨ms, rfl, hms⟩, hcontent⟩ :=
    parse_in_place h hparent hchild hinner
      ((spells_members hlist hp hitems level).mono (fun _ _ => trivial) fun _ hts => hts)
      (P := fun m => ∃ ms, m = n.withMembers ms ∧ List.Forall₂ (fun tell m => tell m) tells ms)
      fun us ts hus hts => by
        obtain ⟨_, _, _, _, _, hrefills⟩ := hus.exists_bracketed hlist
        obtain ⟨first, final, vs, ms, rfl, hfirst, hfinal, hms, htells⟩ := hts
        obtain ⟨k, hk, hkcontent⟩ := hrefills first final ms vs hfirst hfinal hms
        exact ⟨k, n.withMembers ms, hk, hkcontent.symm, ms, rfl, htells⟩
  refine ⟨newText, d', ms, ?_, hparse, hms, hcontent⟩
  rw [applyAll_between h (List.mem_of_mem_filter hopening) (List.mem_of_mem_filter hclosing)
    (by rw [hbracketed.opens.1]; exact TokenKind.noConfusion)
    (by rw [Token.kind_of_is hbracketed.final.1]; exact TokenKind.noConfusion) hle hwhole,
    Token.text_of_is hbracketed.first.1, Token.text_of_is hbracketed.final.1,
    ← Printer.block_eq _ hne, ← hbracketed.range hlist]
  exact happly

end Document

/-! ## A list without members -/

namespace Operation

variable {o : Operation} {n : Node} {file : Syntax.File} {group : Option String}

theorem adds_withIndex (h : o.adds n = true) (i : Option Nat) : (o.withIndex i).adds n = true := by
  rcases adds_cases h with ⟨q, r, index, e, rfl, rfl, _⟩ | ⟨q, r, index, e, rfl, rfl, _⟩ |
    ⟨q, c, what, index, e, rfl, rfl, hwhat, _⟩ | ⟨q, items, index, e, rfl, rfl, _⟩ |
    ⟨q, t, index, e, rfl, rfl, _⟩
  · exact h
  · exact h
  · rcases hwhat with rfl | rfl | rfl <;> exact h
  · exact h
  · exact h

theorem inGroup_withIndex (h : o.InGroup file) (i : Option Nat) : (o.withIndex i).InGroup file := by
  obtain ⟨q, action⟩ := o
  intro items index e hitems haction
  cases action with
  | insert what index' e' =>
      obtain ⟨rfl, _, rfl⟩ := Action.insert.inj haction
      exact h items index' e' hitems rfl
  | _ => cases haction

theorem addedAs_withIndex (i : Option Nat) (m : Node) :
    (o.withIndex i).AddedAs group m ↔ o.AddedAs group m := by
  obtain ⟨q, action⟩ := o
  cases action with
  | insert what index e => cases what <;> rfl
  | _ => rfl

end Operation

def Draft.noted (list : BracketedList) (fragments : List String) : Draft :=
  { Draft.empty with
    emptyLists := [(list.pointer, ⟨list.opening, list.closing, list.level, fragments⟩)] }

namespace Scene

variable {s : Scene} {list : BracketedList} {n : Node}

/-- The member that an operation adds to a list without members is noted behind the others. -/
theorem addToEmptyList_noted (fragments : List String) (text : String) :
    addToEmptyList (.noted list fragments) list text = .noted list (fragments ++ [text]) := by
  rw [addToEmptyList, Draft.noted, upsert, if_pos rfl]
  rfl

/-- Members for a list without members are noted in the order of the batch. -/
theorem writeAll_of_adds (hn : s.document.syntaxTree.resolve? list.pointer = some n)
    (hbracketed : n.isBracketed = true)
    (hlist : s.bracketed list.pointer n.range n.memberRanges = .ok list)
    (hnone : list.members = []) : ∀ {l : List Operation} {d : Draft} {fragments : List String},
      (∀ text, addToEmptyList d list text = .noted list (fragments ++ [text])) → l ≠ [] →
      (∀ o ∈ l, o.pointer = list.pointer ∧ o.adds n = true ∧ o.InGroup s.document.syntaxTree) →
      s.writeAll d l = .ok (.noted list (fragments ++ l.map fun o =>
        o.memberText s.printer (s.document.syntaxTree.groupName? list.pointer) (list.level + 1)))
  | [], _, _, _, hne, _ => absurd rfl hne
  | o :: l, d, fragments, hd, _, h => by
      obtain ⟨⟨hpointer, hadds, hgroup⟩, hl⟩ := List.forall_mem_cons.mp h
      have hwrite := write_of_adds hadds hbracketed (hpointer ▸ hn) (hpointer ▸ hlist) hgroup d
      rw [insertMember, hnone, hpointer] at hwrite
      have hwrite : s.write d o = .ok (.noted list (fragments ++ [o.memberText s.printer
          (s.document.syntaxTree.groupName? list.pointer) (list.level + 1)])) :=
        hwrite.trans (congrArg Except.ok (hd _))
      rw [writeAll, hwrite]
      rcases l with _ | ⟨o', l⟩
      · rfl
      · refine (writeAll_of_adds hn hbracketed hlist hnone (addToEmptyList_noted _) (List.cons_ne_nil _ _)
          hl).trans ?_
        rw [List.append_assoc]
        rfl

/-- The members are written between the brackets. -/
theorem finish_of_noted {fragments : List String} (hne : fragments ≠ []) :
    s.finish (.noted list fragments) = .ok [⟨⟨list.opening.stop, list.closing.start⟩,
      s.printer.block "" "" fragments list.level⟩] := by
  let e : TextEdit := ⟨⟨list.opening.stop, list.closing.start⟩,
    s.printer.block "" "" fragments list.level⟩
  have hcomplete : (s.complete (.noted list fragments)).edits =
      (s.complete (Draft.empty.push e .normal)).edits := by
    rw [show Draft.empty.push e .normal = ⟨[(e, .normal)], [], [], [], [], [], [], []⟩ from rfl,
      complete_of_edits, complete, writePromotions, writeEmptyLists]
    show (s.writeShifts (s.writeDeletions { Draft.noted list fragments with
      edits := [(e, .normal)] })).edits = _
    rw [writeDeletions_of_nil rfl, writeShifts_of_nil rfl]
  rw [finish, hcomplete, ← finish]
  exact s.finish_of_push (TextEdit.isDeletion_of_toList (toList_block_ne_nil hne))

end Scene

/-! ## Reading the new text -/

namespace Batch

variable {l : List Operation} {q : Pointer} {n : Node}

theorem deletesAt_of_inserts (h : ∀ o ∈ l, o.isDeletion = false) :
    deletesAt l q n = fun _ => false := by
  funext i
  rw [deletesAt]
  cases n.children[i]? with
  | none => rfl
  | some child =>
      rw [Option.any_some, List.any_eq_false]
      intro o ho
      rw [h o ho]
      exact Bool.false_ne_true

end Batch

namespace Writer

variable {uri text : String} {c : Configuration} {document : Document}
  {operations : List Operation} {w : Writer} {q : Pointer} {n : Node}

theorem parse_fills (hparse : Document.parse uri text c = .ok document)
    (hc : c.aliases = .standard) (hlength : text.length < Text.wordBound)
    (hadd : (ofDocument document c).addAll operations = .ok w)
    (hq : document.syntaxTree.resolve? q = some n) (hlist : n.isBracketed = true)
    (hempty : n.members = []) (hadds : ∀ o ∈ w.changes, o.pointer = q ∧ o.adds n = true)
    (hsome : w.changes ≠ []) :
    ∃ edits newText document' ms, w.textEdits = .ok edits ∧
      TextEdit.applyAll text edits = .ok newText ∧
      Document.parse uri newText c = .ok document' ∧
      List.Forall₂ (Operation.AddedAs (document.syntaxTree.groupName? q)) w.changes ms ∧
      document'.syntaxTree.content =
        (document.syntaxTree.graft q (n.withMembers ms)).content := by
  obtain ⟨hdocument, hconfig, _⟩ := fits_of_addAll hadd fun _ h => absurd h List.not_mem_nil
  have hgroup := inGroup_of_addAll hc hadd
  have hinserts : ∀ o ∈ w.changes, Batch.InsertsAt q o := by
    intro o ho
    obtain ⟨rfl, h⟩ := hadds o ho
    exact Operation.insertsAt_of_adds h
  have hreduce := Batch.reduce_of_fills hq (Node.isList_of_isBracketed hlist)
    (Batch.isBareSingle_of_isBracketed hq hlist) hempty hinserts
  let s := Scene.ofOperations document c (Batch.reduce document.syntaxTree w.changes)
  have hs : s.Parsed := ⟨uri, text, c, hparse, hlength⟩
  have hstandard : Printing.IsStandard s.printer := Printing.isStandard_ofConfiguration hc
  obtain ⟨front, opening, us, closing, back, hcode, hbracketed, _⟩ :=
    Document.exists_list hparse hq hlist
  let list : BracketedList :=
    ⟨q, opening.range, closing.range, n.memberRanges, s.level opening.range.start.line⟩
  have hbrackets : s.bracketed q n.range n.memberRanges = .ok list :=
    Scene.bracketed_of_list hs hlist hcode hbracketed q
  have hnone : list.members = [] := by
    obtain ⟨_, _, hranges⟩ := Node.exists_numbered_members (Node.isList_of_isBracketed hlist)
    exact hranges.trans (congrArg (List.map Node.range) hempty)
  have hfilled : ∀ o ∈ w.changes.map (·.withIndex (some 0)), o.pointer = q ∧ o.adds n = true ∧
      o.InGroup s.document.syntaxTree := by
    refine List.forall_mem_map.mpr fun o ho => ?_
    obtain ⟨hpointer, h⟩ := hadds o ho
    exact ⟨hpointer, Operation.adds_withIndex h _, Operation.inGroup_withIndex (hgroup o ho) _⟩
  have hne : w.changes.map (·.withIndex (some 0)) ≠ [] := fun h => hsome (List.map_eq_nil_iff.mp h)
  let fragments := (w.changes.map (·.withIndex (some 0))).map fun o =>
    o.memberText s.printer (s.document.syntaxTree.groupName? q) (list.level + 1)
  have hwrite : s.writeAll .empty (w.changes.map (·.withIndex (some 0))) =
      .ok (.noted list fragments) :=
    Scene.writeAll_of_adds hq hlist hbrackets hnone
      (show ∀ text, Scene.addToEmptyList .empty list text = .noted list ([] ++ [text]) from
        fun _ => rfl) hne hfilled
  have hfragments : fragments ≠ [] := fun h => hne (List.map_eq_nil_iff.mp h)
  have htextEdits : w.textEdits = .ok [⟨⟨opening.range.stop, closing.range.start⟩,
      s.printer.block "" "" fragments list.level⟩] := by
    rw [textEdits, hdocument, hconfig]
    show (s.writeAll .empty (Batch.reduce document.syntaxTree w.changes)).bind s.finish = _
    rw [hreduce, hwrite]
    exact Scene.finish_of_noted hfragments
  have hitems : Lexer.Items n.Lists fragments ((w.changes.map (·.withIndex (some 0))).map
      (Operation.AddedAs (s.document.syntaxTree.groupName? q))) := by
    refine List.forall₂_map_left_iff.mpr (List.forall₂_map_right_iff.mpr
      (List.forall₂_same.mpr fun o ho => ?_))
    obtain ⟨rfl, h, hgroup⟩ := hfilled o ho
    exact Operation.joins_of_adds hstandard h hq hgroup 0 (list.level + 1)
  obtain ⟨newText, document', ms, happly, hparse', hms, hcontent⟩ :=
    Document.parse_filled hparse hq hlist hcode hbracketed hstandard.1 hitems hfragments list.level
  refine ⟨_, newText, document', ms, htextEdits, happly, hparse', ?_, hcontent⟩
  rw [List.forall₂_map_left_iff, List.forall₂_map_left_iff] at hms
  exact hms.imp fun o m h => (Operation.addedAs_withIndex _ m).mp h

/-- A batch only adds printable members to a list: one in brackets, or the last one in parentheses of a
target if nothing follows it. The new text is read as the file with the new members in the list: in
front of the member with their number, or behind all where there is none, and those for one place in the
order of the batch. -/
theorem parse_additions (hparse : Document.parse uri text c = .ok document)
    (hc : c.aliases = .standard) (hlength : text.length < Text.wordBound)
    (hadd : (ofDocument document c).addAll operations = .ok w)
    (hq : document.syntaxTree.resolve? q = some n) {k : Nat}
    (hlist : document.firstListed? n = some k)
    (hadds : ∀ o ∈ w.changes, o.pointer = q ∧ o.adds n = true)
    (hplaces : ∀ o ∈ w.changes, ∀ i, o.index? = some i → k ≤ i) (hsome : w.changes ≠ []) :
    ∃ edits newText document' added fs, w.textEdits = .ok edits ∧
      TextEdit.applyAll text edits = .ok newText ∧
      Document.parse uri newText c = .ok document' ∧
      (∀ i < n.members.length, List.Forall₂
        (Operation.AddedAs (document.syntaxTree.groupName? q))
        (w.changes.filter (·.index? == some i)) (added i)) ∧
      List.Forall₂ (Operation.AddedAs (document.syntaxTree.groupName? q))
        (w.changes.filter fun o => !(o.index?.any (· < n.members.length))) fs ∧
      document'.syntaxTree.content = (document.syntaxTree.graft q (n.withMembers
        (Node.refilled n.members (fun _ => false) added fs))).content := by
  have hinserts : ∀ o ∈ w.changes, o.isDeletion = false := by
    intro o ho
    obtain ⟨what, index, e, h⟩ := Operation.insertsAt_of_adds (hadds o ho).2
    rw [h]
    rfl
  by_cases hempty : n.members = []
  · have hbracketed : n.isBracketed = true := by
      rcases Document.firstListed?_cases hlist with ⟨hbracketed, _⟩ | ⟨t, _, rfl, hlast, _⟩
      · exact hbracketed
      · have hmembers : (Node.target t).members = t.assignments.map Node.ofAssignment :=
          Node.members_eq_of_numbered rfl
        have hlt := (Syntax.Target.of_lastList? hlast).1
        rw [hmembers, List.map_eq_nil_iff] at hempty
        rw [hempty] at hlt
        cases hlt
    obtain ⟨edits, newText, document', ms, htext, happly, hparse', hms, hcontent⟩ :=
      parse_fills hparse hc hlength hadd hq hbracketed hempty hadds hsome
    have hall : (w.changes.filter fun o => !(o.index?.any (· < n.members.length))) = w.changes :=
      List.filter_eq_self.mpr fun o _ => by
        rw [hempty]
        cases o.index? <;> rfl
    refine ⟨edits, newText, document', fun _ => [], ms, htext, happly, hparse', fun i hi => ?_,
      ?_, ?_⟩
    · rw [hempty] at hi
      exact absurd hi (Nat.not_lt_zero i)
    · rwa [hall]
    · rw [hcontent, hempty]
      rfl
  · have hgone := Batch.deletesAt_of_inserts (q := q) (n := n) hinserts
    obtain ⟨o, ho⟩ := List.exists_mem_of_ne_nil _ hsome
    have hlt := Document.lt_length_of_firstListed? hlist hempty
    have hstays : ∃ p ∈ n.staying (Batch.deletesAt w.changes q n), k ≤ p.2 := by
      rw [hgone]
      exact ⟨(n.members[k], k), Node.mem_staying.mpr ⟨List.getElem?_eq_getElem hlt, rfl⟩,
        Nat.le_refl k⟩
    have hedits : ∀ o ∈ w.changes, o.edits q n = true := by
      intro o ho
      obtain ⟨rfl, h⟩ := hadds o ho
      rw [Operation.edits, beq_self_eq_true, h]
      rfl
    have hkept : ∀ test : Operation → Bool,
        (w.changes.filter fun o => test o && !o.isDeletion) = w.changes.filter test :=
      fun test => List.filter_congr fun o ho => by
        rw [hinserts o ho]
        exact Bool.and_true _
    obtain ⟨edits, newText, document', added, fs, htext, happly, hparse', hbefore, hafter,
      hcontent⟩ := parse_refills hparse hc hlength hadd hq hlist hedits ⟨o, ho, hinserts o ho⟩
        (fun _ _ => by rw [hgone]) hstays fun o ho i hi => ⟨hplaces o ho i hi, by rw [hgone]⟩
    refine ⟨edits, newText, document', added, fs, htext, happly, hparse', fun i hi => ?_, ?_, ?_⟩
    · have hbefore := hbefore i hi
      rwa [Batch.addedAt, hkept] at hbefore
    · rwa [Batch.addedLast, hkept] at hafter
    · rwa [hgone] at hcontent

end Writer

end AnnotationEdit

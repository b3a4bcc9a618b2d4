import AnnotationEdit.Proofs.Syntax.Parentheses
import AnnotationEdit.Proofs.Writer.Adding
import AnnotationEdit.Proofs.Writer.Commuting
import AnnotationEdit.Proofs.Writer.Cutting
import AnnotationEdit.Proofs.Writer.Renewals
import AnnotationEdit.Proofs.Writer.Targets

/-!
# Editing one list

A batch adds printable members to a list and deletes others, but not all of them. The list is one in
brackets, or the last one in parentheses of a target if no other assignment follows it. The new text is
read as the file with the members that stay and the new ones in the list, each in front of the member it
was added in front of or behind all of them, and with everything else as it was (`Writer.parse_refills`).
Where all new members are appended, they follow those that stay (`Writer.parse_appendAndDelete`).
-/

namespace AnnotationEdit

open Syntax (Node Bracketed)
open Batch (Refills DeletesMembers touches)
open Printing (IsStandard)
open TextEdit (StandApart)

/-! ## Members that go -/

namespace Batch

variable {file : Syntax.File} {q : Pointer} {n : Node} {l : List Operation}

/-- The batch deletes the member with a number. -/
def deletesAt (l : List Operation) (q : Pointer) (n : Node) (i : Nat) : Bool :=
  (n.children[i]?).any fun child => l.any fun o => o.isDeletion && o.pointer == q.append child.1

theorem mem_children_of_getElem? {i : Nat} {m : Node} (h : n.members[i]? = some m) :
    ∃ path, n.children[i]? = some (path, m) := by
  rw [Node.members, List.getElem?_map, Option.map_eq_some_iff] at h
  obtain ⟨⟨path, m⟩, hchild, rfl⟩ := h
  exact ⟨path, hchild⟩

theorem deletesMembers_of_refills (h : ∀ o ∈ l, Refills file q n o) :
    DeletesMembers file (l.filter (·.isDeletion)) := by
  intro o ho
  obtain ⟨ho, hdelete⟩ := List.mem_filter.mp ho
  obtain ⟨name, i, m, hmember⟩ := (h o ho).exists_deletesMember hdelete
  exact ⟨q, name, i, n, m, hmember⟩

/-- The tokens of members that are deleted, of which none stands in front of the list. -/
theorem marks_of_refills (hq : file.resolve? q = some n)
    (h : ∀ o ∈ l, Refills file q n o) {k : Nat} (hfront : ∀ i < k, deletesAt l q n i = false)
    (ts : List Token) :
    Syntax.Marks (touches file (l.filter (·.isDeletion))) (fun p => deletesAt l q n (k + p.2))
      (fun p => p.1.range) (n.members.drop k).zipIdx ts := by
  intro t _
  rw [Batch.touches_eq_true]
  constructor
  · rintro ⟨o, ho, m, hm, hcontains⟩
    obtain ⟨ho, hdelete⟩ := List.mem_filter.mp ho
    obtain ⟨name, i, m', hmember⟩ := (h o ho).exists_deletesMember hdelete
    obtain rfl : m' = m := Option.some.inj (hmember.resolve?.symm.trans hm)
    obtain ⟨j, hj⟩ := List.mem_iff_getElem?.mp hmember.member
    have hgone : deletesAt l q n j = true := by
      rw [deletesAt, hj, Option.any_some, List.any_eq_true]
      refine ⟨o, ho, ?_⟩
      rw [hdelete, hmember.pointer, beq_self_eq_true]
      rfl
    have hle : k ≤ j := Nat.le_of_not_lt fun hlt => by
      rw [hfront j hlt] at hgone
      cases hgone
    refine ⟨(m', j - k), List.mem_zipIdx_iff_getElem?.mpr ?_, ?_, hcontains⟩
    · rw [List.getElem?_drop, Nat.add_sub_cancel' hle, Node.members, List.getElem?_map, hj]
      rfl
    · show deletesAt l q n (k + (j - k)) = true
      rwa [Nat.add_sub_cancel' hle]
  · rintro ⟨⟨m, j⟩, hmem, hgone, hcontains⟩
    have hmem := List.mem_zipIdx_iff_getElem?.mp hmem
    rw [List.getElem?_drop] at hmem
    obtain ⟨path, hchild⟩ := mem_children_of_getElem? hmem
    change deletesAt l q n (k + j) = true at hgone
    rw [deletesAt, hchild, Option.any_some, List.any_eq_true] at hgone
    obtain ⟨o, ho, htest⟩ := hgone
    obtain ⟨hdelete, hpointer⟩ := Bool.and_eq_true_iff.mp htest
    refine ⟨o, List.mem_filter.mpr ⟨ho, hdelete⟩, m, ?_, hcontains⟩
    rw [beq_iff_eq.mp hpointer]
    exact Locate.resolves_child hq (List.mem_of_getElem? hchild)

theorem leavesMembers_of_refills (h : ∀ o ∈ l, Refills file q n o)
    (hsome : n.staying (deletesAt l q n) ≠ []) :
    LeavesMembers file (l.filter (·.isDeletion)) := by
  refine leavesMembers_of_forall fun o ho => ?_
  obtain ⟨ho, hdelete⟩ := List.mem_filter.mp ho
  obtain ⟨name, i, m, hmember⟩ := (h o ho).exists_deletesMember hdelete
  obtain ⟨⟨m', k⟩, hstays⟩ := List.exists_mem_of_ne_nil _ hsome
  obtain ⟨hm', hkept⟩ := Node.mem_staying.mp hstays
  obtain ⟨path, hchild⟩ := mem_children_of_getElem? hm'
  have hany : n.children.any (fun child =>
      !(l.filter (·.isDeletion)).any (·.pointer == q.append child.1)) = true := by
    refine List.any_eq_true.mpr ⟨(path, m'), List.mem_of_getElem? hchild, ?_⟩
    rw [Bool.not_eq_true', List.any_eq_false]
    intro o' ho' hpointer
    obtain ⟨ho', hdelete'⟩ := List.mem_filter.mp ho'
    rw [deletesAt, hchild, Option.any_some, List.any_eq_false] at hkept
    exact hkept o' ho' (Bool.and_eq_true_iff.mpr ⟨hdelete', hpointer⟩)
  rw [leavesSibling, hmember.ancestor?, Option.all_some, hmember.list, Option.all_some]
  split
  · rfl
  · rw [hany, Bool.or_true]

end Batch

/-! ## What is written -/

namespace Syntax.Node

/-- New members for the part of a list from a number on, counted in the whole list. -/
def shifted (k : Nat) (added : Nat → List Node) (i : Nat) : List Node :=
  if i < k then [] else added (i - k)

theorem refilled_shifted {ms fs : List Node} {gone : Nat → Bool} {added : Nat → List Node} {k : Nat}
    (hk : k ≤ ms.length) (h : ∀ i < k, gone i = false) :
    ms.take k ++ refilled (ms.drop k) (fun i => gone (k + i)) added fs =
      refilled ms gone (shifted k added) fs := by
  have hlength : (ms.take k).length = k := List.length_take_of_le hk
  have hadded : (fun i => shifted k added (k + i)) = added := funext fun i => by
    rw [shifted, if_neg (by omega), Nat.add_sub_cancel_left]
  have hsplit := @refilled_append (ms.take k) (ms.drop k) fs gone (shifted k added) (by
    rw [hlength]
    exact fun i hi => ⟨h i hi, if_pos hi⟩)
  rw [List.take_append_drop, hlength, hadded] at hsplit
  exact hsplit.symm

theorem refilled_ne_nil {n : Node} {gone : Nat → Bool} {added : Nat → List Node} {fs : List Node}
    (h : n.staying gone ≠ []) : refilled n.members gone added fs ≠ [] := by
  obtain ⟨p, hp⟩ := List.exists_mem_of_ne_nil _ h
  exact List.ne_nil_of_mem (List.mem_append_left _
    (List.mem_flatMap.mpr ⟨p, hp, List.mem_append_right _ (List.mem_singleton_self _)⟩))

theorem staying_dropMembers_ne_nil {n : Node} {gone : Nat → Bool} {k : Nat} (hlist : n.isList = true)
    (h : ∃ p ∈ n.staying gone, k ≤ p.2) :
    (n.dropMembers k).staying (fun i => gone (k + i)) ≠ [] := by
  obtain ⟨p, hp, hle⟩ := h
  obtain ⟨hmember, hkept⟩ := mem_staying.mp hp
  refine List.ne_nil_of_mem (a := (p.1, p.2 - k)) (mem_staying.mpr ⟨?_, ?_⟩)
  · rw [members_dropMembers hlist, List.getElem?_drop, Nat.add_sub_cancel' hle]
    exact hmember
  · rwa [Nat.add_sub_cancel' hle]

theorem add_length_dropMembers {n : Node} {k : Nat} (hlist : n.isList = true)
    (hne : (n.dropMembers k).members ≠ []) :
    k + (n.dropMembers k).members.length = n.members.length := by
  have hpos := List.length_pos_iff.mpr hne
  rw [members_dropMembers hlist, List.length_drop] at hpos ⊢
  omega

end Syntax.Node

namespace Scene

variable {s : Scene} {q : Pointer} {n : Node} {list : BracketedList} {gone : Nat → Bool}
  {last : Range} {tail : Tail} {x y : Position} {inserts : List Operation}

theorem bracketed_of_list (hs : s.Parsed) (hlist : n.isBracketed = true)
    {front us back : List Token} {opening closing : Token}
    (hcode : s.code = front ++ opening :: (us ++ closing :: back))
    (h : Bracketed n opening closing us) (q : Pointer) :
    s.bracketed q n.range n.memberRanges = .ok
      ⟨q, opening.range, closing.range, n.memberRanges, s.level opening.range.start.line⟩ := by
  rw [h.range hlist]
  refine bracketed_eq hs ?_ ?_ _
  · rw [hcode]
    exact List.mem_append_right _ List.mem_cons_self
  · rw [hcode]
    exact List.mem_append_right _ (List.mem_cons_of_mem _
      (List.mem_append_right _ List.mem_cons_self))

theorem members_apart {front us back : List Token} {opening closing : Token}
    (hs : s.tokens.Sorted) (hcode : s.code = front ++ opening :: (us ++ closing :: back))
    (h : Bracketed n opening closing us) :
    (n.members.map Node.range).Pairwise Range.Before ∧
      ∀ r ∈ n.members.map Node.range, r.Proper := by
  have hordered : Token.Ordered s.tokens.size s.code := hs.sublist List.filter_sublist
  have hinner : Token.Ordered s.tokens.size us := by
    refine hordered.sublist ?_
    rw [hcode]
    exact (List.sublist_append_left us _).trans
      ((List.sublist_cons_self opening _).trans (List.sublist_append_right front _))
  have hspans := (Node.written_lists n).spans
  have hlaid := Syntax.laid_of_commaSeparated h.listed
  constructor
  · refine List.pairwise_map.mpr (hlaid.pairwise (fun m us hm => ?_) hinner)
    exact ⟨us, List.Sublist.refl us, hspans m us hm⟩
  · refine List.forall_mem_map.mpr fun m hm => ?_
    obtain ⟨us', hus', hwritten⟩ := hlaid.exists_written m hm
    exact (hspans m us' hwritten).proper (hinner.sublist hus')

/-- In a list without its first members, a new one goes to the same place. -/
theorem insertMember_drop {k : Nat} {index : Option Nat} (hk : k < list.members.length)
    (hindex : ∀ i, index = some i → k ≤ i) (d : Draft) (fragment : Nat → String) :
    s.insertMember d list index fragment = s.insertMember d
      { list with members := list.members.drop k } (index.map (· - k)) fragment := by
  have hlast : (list.members.drop k).getLast? = list.members.getLast? := by
    rw [List.getLast?_drop, if_neg (Nat.not_le_of_lt hk)]
  have hplace : (index.map (· - k)).bind ((list.members.drop k)[·]?) =
      index.bind (list.members[·]?) := by
    cases index with
    | none => rfl
    | some i =>
        rw [Option.map_some, Option.bind_some, Option.bind_some, List.getElem?_drop,
          Nat.add_sub_cancel' (hindex i rfl)]
  rw [insertMember, insertMember, hlast, hplace]
  rfl

/-- New members for the part of a list from a number on are written in its brackets. -/
def TakesMembers (s : Scene) (q : Pointer) (n : Node) (k : Nat) (closing : Token) (list : BracketedList) :
    Prop :=
  list.closing = closing.range ∧ list.members = (n.dropMembers k).members.map Node.range ∧
    ∀ o : Operation, o.pointer = q → o.adds n = true → o.InGroup s.document.syntaxTree →
      (∀ i, o.index? = some i → k ≤ i) → ∀ d, s.write d o = s.insertMember d list
        (o.index?.map (· - k)) (o.memberText s.printer (s.document.syntaxTree.groupName? q))

theorem takesMembers_of_isBracketed (hs : s.Parsed)
    (hn : s.document.syntaxTree.resolve? q = some n) (hlist : n.isBracketed = true)
    {front us back : List Token} {opening closing : Token}
    (hcode : s.code = front ++ opening :: (us ++ closing :: back))
    (h : Bracketed n opening closing us) : ∃ list, s.TakesMembers q n 0 closing list := by
  have hbrackets := bracketed_of_list hs hlist hcode h q
  obtain ⟨_, _, hranges⟩ := Node.exists_numbered_members (Node.isList_of_isBracketed hlist)
  refine ⟨⟨q, opening.range, closing.range, n.memberRanges, s.level opening.range.start.line⟩, rfl, ?_,
    fun o hpointer hadds hgroup _ d => ?_⟩
  · rw [Node.dropMembers_zero hlist]
    exact hranges
  · subst hpointer
    have hindex : o.index?.map (· - 0) = o.index? := Option.map_id'
    rw [hindex]
    exact write_of_adds hadds hlist hn hbrackets hgroup d

theorem takesMembers_of_target (hs : s.Parsed) {k : Nat} {t : Syntax.Target} {r : Range}
    (ht : s.document.syntaxTree.resolve? q = some (.target t)) (hr : t.compound = some r)
    (hk : k < t.assignments.length) {closing : Token} (hclosing : closing ∈ s.code)
    (hstop : r.stop = closing.range.stop) (hconverting : s.isConverting q = false) :
    ∃ list, s.TakesMembers q (.target t) k closing list := by
  obtain ⟨list, final, hlist, _, hmembers, hfinal, hclose, hfinalStop⟩ :=
    exists_compoundList (p := q) hs ht hr
  have hsame : final = closing := by
    obtain ⟨i, hi⟩ := TokenStream.exists_get? (List.mem_of_mem_filter hfinal)
    obtain ⟨j, hj⟩ := TokenStream.exists_get? (List.mem_of_mem_filter hclosing)
    have hij := TokenStream.endingAt?_eq_some hs.sorted hi
    rw [← hfinalStop, hstop, TokenStream.endingAt?_eq_some hs.sorted hj] at hij
    rw [← Option.some.inj hij] at hi
    exact Option.some.inj (hi.symm.trans hj)
  refine ⟨{ list with members := list.members.drop k }, hsame ▸ hclose, ?_,
    fun o hpointer hadds _ hindex d => ?_⟩
  · obtain ⟨_, _, hranges⟩ := Node.exists_numbered_members (n := .target t) rfl
    rw [Node.members_dropMembers rfl, List.map_drop, ← hranges, hmembers]
    rfl
  · subst hpointer
    rw [write_of_adds_target hadds ht hr hconverting hlist d]
    exact insertMember_drop (by rwa [hmembers, List.length_map]) hindex d _

/-- Only insertions and deletions put no parentheses anywhere. -/
theorem isConverting_eq_false {document : Document} {c : Configuration} {l : List Operation}
    (h : ∀ o ∈ l, o.isInsert = true ∨ o.isDeletion = true) (q : Pointer) :
    (ofOperations document c l).isConverting q = false := by
  have hnone : (ofOperations document c l).converting = [] := by
    refine List.filterMap_eq_nil_iff.mpr fun o ho => ?_
    obtain ⟨p, action⟩ := o
    cases action with
    | convertToCompound => rcases h _ ho with h | h <;> cases h
    | _ => rfl
  rw [isConverting, hnone]
  rfl

theorem exists_takesMembers (hs : s.Parsed) {uri : String} {c : Configuration} {k : Nat}
    {front us back : List Token} {opening closing : Token}
    (hn : s.document.syntaxTree.resolve? q = some n) (hk : s.document.firstListed? n = some k)
    (h : s.document.Listed uri c q n k front us back opening closing)
    (hne : (n.dropMembers k).members ≠ []) (hconverting : s.isConverting q = false) :
    ∃ list, s.TakesMembers q n k closing list := by
  have hbracketed := h.bracketed
  rcases Document.firstListed?_cases hk with ⟨hlist, rfl⟩ | ⟨t, r, rfl, hlast, hr⟩
  · rw [Node.dropMembers_zero hlist] at hbracketed
    exact takesMembers_of_isBracketed hs hn hlist h.code hbracketed
  · have hclosing : closing ∈ s.code := by
      show closing ∈ s.document.tokens.tokens.toList.filter Token.isCode
      rw [h.code]
      exact List.mem_append_right _ (List.mem_cons_of_mem _
        (List.mem_append_right _ List.mem_cons_self))
    have hlt : k < t.assignments.length := Nat.lt_of_not_le fun hle => hne (by
      have hmembers : (Node.target t).members = t.assignments.map Node.ofAssignment :=
        Node.members_eq_of_numbered rfl
      rw [Node.members_dropMembers rfl, hmembers]
      exact List.drop_eq_nil_of_le ((List.length_map _).trans_le hle))
    exact takesMembers_of_target hs hn hr hlt hclosing (h.ends t r rfl hr) hconverting

theorem exists_held (hs : s.tokens.Sorted) (hstandard : IsStandard s.printer) {k : Nat}
    {closing : Token} (hn : s.document.syntaxTree.resolve? q = some n)
    (hlist : s.TakesMembers q n k closing list)
    (hapart : list.members.Pairwise Range.Before) (hproper : ∀ r ∈ list.members, r.Proper)
    (hlast : list.members.getLast? = some last) (hends : s.Ends list last tail x y)
    (hinserts : ∀ o ∈ inserts, o.pointer = q ∧ o.adds n = true ∧
      o.InGroup s.document.syntaxTree ∧ ∀ i, o.index? = some i → k ≤ i ∧ gone i = false) :
    ∃ added fs edits moved separated, s.writeAll .empty inserts = .ok (.held edits moved separated) ∧
      Holding s list (n.dropMembers k) (fun i => gone (k + i)) tail x y
        (inserts.map (·.newMember s.printer (s.document.syntaxTree.groupName? q) k))
        added fs edits moved separated := by
  have hempty : Holding s list (n.dropMembers k) (fun i => gone (k + i)) tail x y [] (fun _ => []) []
    [] [] [] := .empty
  have hall : List.Forall₂ (fun o (r : NewMember) =>
      (∀ d, s.write d o = s.insertMember d list r.index r.fragment) ∧ r.Joins (n.dropMembers k) ∧
        ∀ i r', r.index = some i → list.members[i]? = some r' → gone (k + i) = false) inserts
      (inserts.map (·.newMember s.printer (s.document.syntaxTree.groupName? q) k)) := by
    refine List.forall₂_map_right_iff.mpr (List.forall₂_same.mpr fun o ho => ?_)
    obtain ⟨rfl, hadds, hgroup, hindex⟩ := hinserts o ho
    have hjoins := Operation.joins_of_adds hstandard hadds hn hgroup k
    refine ⟨hlist.2.2 o rfl hadds hgroup fun i hi => (hindex i hi).1, ?_, fun i _ hi _ => ?_⟩
    · rwa [NewMember.Joins, Node.lists_dropMembers]
    · obtain ⟨j, hj, rfl⟩ := Option.map_eq_some_iff.mp hi
      obtain ⟨hle, hgone⟩ := hindex j hj
      rwa [Nat.add_sub_cancel' hle]
  exact Holding.exists_writeAll hends hstandard.1 hs hlast hapart hproper hempty hall

/-- A draft that holds edits, and requests for deletions beside them, is finished with the edits moved
out of what is deleted. -/
theorem finish_of_held {front us back : List Token} {opening closing : Token}
    {flagged : Token → Bool} {edits : List TextEdit} {moved : List Pointer}
    {separated : List Position} {requests : List DeletionRequest}
    (h : ListCut s list n front opening us closing back flagged gone (s.deletionEdits requests))
    (hanchored : ∀ e ∈ edits, Anchored s list gone x y e) (hapart : StandApart edits) :
    s.finish { Draft.held edits moved separated with deletions := requests } =
      .ok ((relocated s edits (s.deletionEdits requests)).mergeSort TextEdit.comesFirst) := by
  have hdeletions : s.writeDeletions { Draft.held edits moved separated with deletions := requests } =
      { Draft.held (edits ++ s.deletionEdits requests) moved separated with
        deletions := requests } := by
    rw [writeDeletions]
    refine (foldl_push _ _).trans ?_
    simp only [Draft.held, List.map_append]
    rfl
  have hcomplete : (s.complete { Draft.held edits moved separated with deletions := requests }).edits =
      (edits ++ s.deletionEdits requests).map (·, .normal) := by
    rw [complete, writePromotions, writeEmptyLists]
    show (s.writeShifts (s.writeDeletions
      { Draft.held edits moved separated with deletions := requests })).edits = _
    rw [hdeletions, writeShifts]
    simp only [Draft.held, List.mergeSort_nil]
    rfl
  have hmoved : RankedEdit.moved s.document.lines (edits ++ s.deletionEdits requests) =
      relocated s edits (s.deletionEdits requests) :=
    StandApart.moved_append (fun e he => (hanchored e he).newText_ne) h.deletes
  rw [finish_of_standApart hcomplete, hmoved]
  rw [hmoved]
  exact h.standApart hanchored hapart

end Scene

namespace Operation

/-- Adds a printable member to the list or deletes one of its members. -/
def edits (o : Operation) (q : Pointer) (n : Node) : Bool :=
  (o.pointer == q && o.adds n) ||
    (o.isDeletion && n.children.any fun child => o.pointer == q.append child.1)

theorem edits_cases {o : Operation} {q : Pointer} {n : Node} (h : o.edits q n = true) :
    (o.pointer = q ∧ o.adds n = true) ∨
      o.isDeletion = true ∧ ∃ path m, (path, m) ∈ n.children ∧ o.pointer = q.append path := by
  rcases Bool.or_eq_true_iff.mp h with h | h
  · obtain ⟨hpointer, hadds⟩ := Bool.and_eq_true_iff.mp h
    exact Or.inl ⟨beq_iff_eq.mp hpointer, hadds⟩
  · obtain ⟨hdelete, hany⟩ := Bool.and_eq_true_iff.mp h
    obtain ⟨⟨path, m⟩, hchild, hpointer⟩ := List.any_eq_true.mp hany
    exact Or.inr ⟨hdelete, path, m, hchild, beq_iff_eq.mp hpointer⟩

end Operation

namespace Batch

def addedAt (l : List Operation) (i : Nat) : List Operation :=
  l.filter fun o => o.index? == some i && !o.isDeletion

def addedLast (l : List Operation) (length : Nat) : List Operation :=
  l.filter fun o => !(o.index?.any (· < length)) && !o.isDeletion

variable {uri text : String} {c : Configuration} {d : Document} {q : Pointer} {n : Node}
  {o : Operation}

/-- An operation of the batch that deletes a member says which one goes. -/
theorem exists_deletesAt {l : List Operation} (hlist : n.isList = true) (ho : o ∈ l)
    (hdelete : o.isDeletion = true) {path : List String} {m : Node} (hm : (path, m) ∈ n.children)
    (hpointer : o.pointer = q.append path) :
    ∃ name i, path = [name, toString i] ∧ n.members[i]? = some m ∧ deletesAt l q n i = true := by
  obtain ⟨name, hchildren, _⟩ := Node.exists_numbered_members hlist
  obtain ⟨i, hi, rfl⟩ := Node.mem_numbered.mp (hchildren ▸ hm)
  have hchild : n.children[i]? = some ([name, toString i], m) := by
    rw [hchildren, Node.numbered, List.getElem?_map, List.getElem?_zipIdx, hi, Nat.zero_add]
    rfl
  refine ⟨name, i, rfl, hi, ?_⟩
  rw [deletesAt, hchild, Option.any_some, List.any_eq_true]
  exact ⟨o, ho, by rw [hdelete, hpointer, beq_self_eq_true]; rfl⟩

/-- An accepted batch that edits the list. -/
theorem refills_of_edits (hparse : Document.parse uri text c = .ok d)
    (hlength : text.length < Text.wordBound) (hq : d.syntaxTree.resolve? q = some n) {k : Nat}
    (hlist : d.firstListed? n = some k) {l : List Operation}
    (hfits : ∀ o ∈ l, o.Fits d.syntaxTree) (h : ∀ o ∈ l, o.edits q n = true)
    (hfront : ∀ i < k, deletesAt l q n i = false) :
    ∀ o ∈ l, Refills d.syntaxTree q n o := by
  intro o ho
  rcases Operation.edits_cases (h o ho) with ⟨rfl, hadds⟩ | ⟨hdelete, path, m, hchild, hpointer⟩
  · exact Or.inl (Operation.insertsAt_of_adds hadds)
  · obtain ⟨name, i, rfl, hi, hgone⟩ :=
      exists_deletesAt (Document.isList_of_firstListed? hlist) ho hdelete hchild hpointer
    have hcommas : n.partsByCommas m = true := by
      rcases Document.firstListed?_cases hlist with ⟨hbracketed, rfl⟩ | ⟨t, r, rfl, hlast, hr⟩
      · cases n with
        | record r => rfl
        | collection c => rfl
        | groupItems i => rfl
        | _ => cases hbracketed
      · have hle : k ≤ i := Nat.le_of_not_lt fun hlt => by
          rw [hfront i hlt] at hgone
          cases hgone
        have hmembers : (Node.target t).members = t.assignments.map Node.ofAssignment :=
          Node.members_eq_of_numbered rfl
        rw [hmembers, List.getElem?_map, Option.map_eq_some_iff] at hi
        obtain ⟨a, ha, rfl⟩ := hi
        have hmem : a ∈ t.assignments.drop k := by
          refine List.mem_of_getElem? (i := i - k) ?_
          rw [List.getElem?_drop, Nat.add_sub_cancel' hle, ha]
        rw [Node.partsByCommas, Node.isBare_ofAssignment, (Syntax.Target.of_lastList? hlast).2 a hmem]
        rfl
    obtain ⟨q', name', i', parent, m', hmember⟩ := exists_deletesMember hparse hlength (hfits o ho)
      hdelete ⟨q, _, n, m, hpointer, hq, hchild, hcommas⟩
    have hq' : q' = q := by
      have hsegments := congrArg Pointer.segments (hmember.pointer.symm.trans hpointer)
      exact congrArg Pointer.mk (List.append_inj' hsegments rfl).1
    subst hq'
    obtain rfl : parent = n := Option.some.inj (hmember.list.symm.trans hq)
    exact Or.inr ⟨name', i', m', hmember⟩

/-- Where nothing goes in front of a member that is deleted, nothing is inserted in its place. -/
theorem insertedPlace?_ne_of_edits {l : List Operation} (hlist : n.isList = true)
    (h : ∀ o ∈ l, o.edits q n = true)
    (hindex : ∀ o ∈ l, ∀ i, o.index? = some i → deletesAt l q n i = false) :
    ∀ o ∈ l, ∀ d ∈ l, d.isDeletion = true → insertedPlace? o ≠ some d.pointer := by
  intro o ho d hd hdelete hplace
  obtain ⟨p, action⟩ := o
  rw [insertedPlace?] at hplace
  split at hplace
  · next i e haction =>
    obtain rfl : action = _ := haction
    have hpointer : p = q := by
      rcases Operation.edits_cases (h _ ho) with ⟨hpointer, _⟩ | ⟨hdelete, _⟩
      · exact hpointer
      · cases hdelete
    subst hpointer
    rcases Operation.edits_cases (h d hd) with ⟨_, hadds⟩ | ⟨_, path, m, hchild, hpointer⟩
    · rw [(Operation.insertsAt_of_adds hadds).isDeletion] at hdelete
      cases hdelete
    · obtain ⟨name, j, rfl, _, hgone⟩ := exists_deletesAt hlist hd hdelete hchild hpointer
      have hsame : assignmentPointer p i = p.append [name, toString j] :=
        (Option.some.inj hplace).trans hpointer
      rw [assignmentPointer, Pointer.child, Pointer.child, Pointer.append, List.append_assoc,
        Pointer.mk.injEq] at hsame
      have hsegments := List.append_cancel_left hsame
      obtain rfl := Text.eq_of_toString (List.cons.inj (List.cons.inj hsegments).2).1
      rw [hindex _ ho i rfl] at hgone
      cases hgone
  · cases hplace

theorem adds_of_edits {l : List Operation} (hedits : ∀ o ∈ l, o.edits q n = true)
    (hgroup : ∀ o ∈ l, o.InGroup d.syntaxTree) {P : Nat → Prop}
    (hindex : ∀ o ∈ l, ∀ i, o.index? = some i → P i) :
    ∀ o ∈ l.filter (!·.isDeletion), o.pointer = q ∧ o.adds n = true ∧ o.InGroup d.syntaxTree ∧
      ∀ i, o.index? = some i → P i := by
  intro o ho
  obtain ⟨ho, hkeeps⟩ := List.mem_filter.mp ho
  rcases Operation.edits_cases (hedits o ho) with ⟨hpointer, hadds⟩ | ⟨hdelete, _⟩
  · exact ⟨hpointer, hadds, hgroup o ho, hindex o ho⟩
  · rw [hdelete] at hkeeps
    cases hkeeps

/-- What is left of a batch that refills a list are insertions and deletions. -/
theorem isConverting_of_refills {l deletions : List Operation} {c : Configuration}
    (h : ∀ o ∈ l, Refills d.syntaxTree q n o)
    (hreduce : reduce d.syntaxTree l = l.filter (!·.isDeletion) ++ deletions)
    (hamong : ∀ o ∈ deletions, o ∈ l.filter (·.isDeletion)) (p : Pointer) :
    (Scene.ofOperations d c (reduce d.syntaxTree l)).isConverting p = false := by
  refine Scene.isConverting_eq_false ?_ p
  rw [hreduce]
  refine List.forall_mem_append.mpr ⟨fun o ho => Or.inl ?_, fun o ho => Or.inr ?_⟩
  · obtain ⟨ho, hkeeps⟩ := List.mem_filter.mp ho
    rcases h o ho with hinsert | ⟨_, _, _, hmember⟩
    · exact hinsert.isInsert
    · rw [hmember.isDeletion] at hkeeps
      cases hkeeps
  · exact (List.mem_filter.mp (hamong o ho)).2

theorem isBareSingle_of_firstListed? (hq : d.syntaxTree.resolve? q = some n) {k : Nat}
    (hlist : d.firstListed? n = some k) : isBareSingle d.syntaxTree q = false := by
  rcases Document.firstListed?_cases hlist with ⟨hbracketed, _⟩ | ⟨t, r, rfl, _, hr⟩
  · exact isBareSingle_of_isBracketed hq hbracketed
  · rw [isBareSingle, hq]
    show (t.compound.isNone && _) = false
    rw [hr]
    rfl

end Batch

/-! ## Reading the new text -/

theorem isNone_bind_getElem? {α : Type} {index : Option Nat} {k : Nat} (xs : List α)
    (h : ∀ i, index = some i → k ≤ i) :
    ((index.map (· - k)).bind (xs[·]?)).isNone = !(index.any (· < k + xs.length)) := by
  cases index with
  | none => rfl
  | some i =>
      have hle := h i rfl
      rw [Option.map_some, Option.bind_some, Option.any_some, Bool.eq_iff_iff,
        Option.isNone_iff_eq_none, List.getElem?_eq_none_iff, Bool.not_eq_true',
        decide_eq_false_iff_not]
      omega

/-- The new members tell what the operations tell that add them in each place. -/
theorem Answers.addedAs {list : BracketedList} {l : List Operation} {p : Printer}
    {group : Option String} {k length : Nat} {added : Nat → List Node} {fs : List Node}
    (h : Answers list ((l.filter (!·.isDeletion)).map (·.newMember p group k)) added fs)
    (hlength : k + list.members.length = length)
    (hindex : ∀ o ∈ l, ∀ i, o.index? = some i → k ≤ i) :
    (∀ i < length, List.Forall₂ (Operation.AddedAs group) (Batch.addedAt l i)
        (Node.shifted k added i)) ∧
      List.Forall₂ (Operation.AddedAs group) (Batch.addedLast l length) fs := by
  obtain ⟨hbefore, hafter⟩ := h
  constructor
  · intro i hi
    by_cases hlt : i < k
    · have hnone : Batch.addedAt l i = [] := List.filter_eq_nil_iff.mpr fun o ho htest => by
        have hplace := hindex o ho i (beq_iff_eq.mp (Bool.and_eq_true_iff.mp htest).1)
        exact absurd hlt (Nat.not_lt_of_le hplace)
      rw [hnone, Node.shifted, if_pos hlt]
      exact .nil
    · have hle := Nat.le_of_not_lt hlt
      have hadded := hbefore (i - k) _ (List.getElem?_eq_getElem (by omega))
      rw [List.filter_map, List.forall₂_map_left_iff, List.filter_filter] at hadded
      have hplace : (l.filter fun o => (o.index?.map (· - k) == some (i - k)) && !o.isDeletion) =
          Batch.addedAt l i := List.filter_congr fun o ho => by
        refine congrArg (· && !o.isDeletion) ?_
        cases hsome : o.index? with
        | none => rfl
        | some j =>
            have hj := hindex o ho j hsome
            rw [Option.map_some, Bool.eq_iff_iff, beq_iff_eq, beq_iff_eq, Option.some_inj,
              Option.some_inj]
            omega
      rw [← hplace, Node.shifted, if_neg hlt]
      exact hadded
  · rw [List.filter_map, List.forall₂_map_left_iff, List.filter_filter] at hafter
    have hlast : (l.filter fun o => ((o.index?.map (· - k)).bind (list.members[·]?)).isNone &&
        !o.isDeletion) = Batch.addedLast l length :=
      List.filter_congr fun o ho => by
        rw [isNone_bind_getElem? list.members (hindex o ho), hlength]
    rw [← hlast]
    exact hafter

namespace Writer

variable {uri text : String} {c : Configuration} {document : Document}
  {operations : List Operation} {w : Writer} {q : Pointer} {n : Node} {k : Nat}

/-- Annotations that are accepted for a group have terms of its vocabulary. -/
theorem inGroup_of_addAll (hc : c.aliases = .standard)
    (hadd : (ofDocument document c).addAll operations = .ok w) :
    ∀ o ∈ w.changes, o.InGroup document.syntaxTree := by
  obtain ⟨changes, rfl, hall⟩ := forall₂_of_addAll hadd
  have hboth : List.Forall₂ (fun o' o => o'.InGroup document.syntaxTree ∧
      Conversion.convert ⟨document, c.aliases⟩ o = .ok o') changes operations :=
    .flip (hall.imp fun o o' hconvert => ⟨Conversion.convert_grouped hc o' hconvert, hconvert⟩)
  exact ((List.forall₂_and_left _ _).mp hboth).1

/-- A batch adds printable members to a list and deletes others of it, of which none is one that a new
member goes in front of, and some member of the list stays. Then the new text is read as the file with
the members that stay and the new ones in the list. -/
theorem parse_refills (hparse : Document.parse uri text c = .ok document)
    (hc : c.aliases = .standard) (hlength : text.length < Text.wordBound)
    (hadd : (ofDocument document c).addAll operations = .ok w)
    (hq : document.syntaxTree.resolve? q = some n) (hlist : document.firstListed? n = some k)
    (hedits : ∀ o ∈ w.changes, o.edits q n = true)
    (hinserts : ∃ o ∈ w.changes, o.isDeletion = false)
    (hfront : ∀ i < k, Batch.deletesAt w.changes q n i = false)
    (hsome : ∃ p ∈ n.staying (Batch.deletesAt w.changes q n), k ≤ p.2)
    (hindex : ∀ o ∈ w.changes, ∀ i, o.index? = some i →
      k ≤ i ∧ Batch.deletesAt w.changes q n i = false) :
    ∃ edits newText document' added fs, w.textEdits = .ok edits ∧
      TextEdit.applyAll text edits = .ok newText ∧
      Document.parse uri newText c = .ok document' ∧
      (∀ i < n.members.length, List.Forall₂
        (Operation.AddedAs (document.syntaxTree.groupName? q)) (Batch.addedAt w.changes i)
        (added i)) ∧
      List.Forall₂ (Operation.AddedAs (document.syntaxTree.groupName? q))
        (Batch.addedLast w.changes n.members.length) fs ∧
      document'.syntaxTree.content = (document.syntaxTree.graft q (n.withMembers
        (Node.refilled n.members (Batch.deletesAt w.changes q n) added fs))).content := by
  obtain ⟨hdocument, hconfig, hfits⟩ := fits_of_addAll hadd fun _ h => absurd h List.not_mem_nil
  have hgroup := inGroup_of_addAll hc hadd
  have hisList := Document.isList_of_firstListed? hlist
  have hrefills := Batch.refills_of_edits hparse hlength hq hlist hfits hedits hfront
  have hstays := Node.staying_dropMembers_ne_nil hisList hsome
  obtain ⟨p, hp, _⟩ := hsome
  have hne : (n.dropMembers k).members ≠ [] := fun hnil => hstays (by rw [Node.staying, hnil]; rfl)
  have hfree := Batch.insertedPlace?_ne_of_edits hisList hedits fun o ho i hi => (hindex o ho i hi).2
  obtain ⟨deletions, hreduce, hamong, habove⟩ := Batch.reduce_of_refills hq hisList
    (Batch.isBareSingle_of_firstListed? hq hlist) (fun hnil => hne (by
      rw [Node.members_dropMembers hisList, hnil, List.drop_nil])) hrefills hfree hinserts
  let s := Scene.ofOperations document c (Batch.reduce document.syntaxTree w.changes)
  have hs : s.Parsed := ⟨uri, text, c, hparse, hlength⟩
  have hstandard : IsStandard s.printer := Printing.isStandard_ofConfiguration hc
  have hconverting := Batch.isConverting_of_refills (c := c) hrefills hreduce hamong q
  obtain ⟨front, us, back, opening, closing, hlisted⟩ := Document.exists_listed hparse hc hq hlist
  have hcode : s.code = front ++ opening :: (us ++ closing :: back) := hlisted.code
  obtain ⟨list, hwrites⟩ := Scene.exists_takesMembers hs hq hlist hlisted hne hconverting
  have hmembers := hwrites.2.1
  obtain ⟨hapart, hproper⟩ := Scene.members_apart hs.sorted hcode hlisted.bracketed
  rw [← hmembers] at hapart hproper
  obtain ⟨last, tail, x, y, hlast, hends, hstops, hcomma⟩ :=
    @Scene.exists_ends s list _ _ _ _ _ _ hs.sorted hcode hlisted.bracketed hwrites.1 hmembers hne
  have hus : us ≠ [] := by
    rintro rfl
    obtain ⟨_, ht, _⟩ := hcomma
    cases ht
  have hadds := Batch.adds_of_edits hedits hgroup hindex
  obtain ⟨added, fs, edits, moved, separated, hwrite, hholding⟩ :=
    Scene.exists_held hs.sorted hstandard hq hwrites hapart hproper hlast hends hadds
  obtain ⟨requests, hwriteDeletions, hremovable⟩ := Scene.exists_removable (s := s) hparse hlength
    (Batch.deletesMembers_of_refills hrefills)
    (Batch.leavesMembers_of_refills hrefills (List.ne_nil_of_mem hp)) hamong habove
    (.held edits moved separated)
  have hmarks := Batch.marks_of_refills hq hrefills hfront s.code
  rw [← Node.members_dropMembers hisList] at hmarks
  have hcut : ListCut s list (n.dropMembers k) front opening us closing back _
      (fun i => Batch.deletesAt w.changes q n (k + i)) (s.deletionEdits requests) :=
    ListCut.of_removable hremovable hcode hlisted.bracketed hwrites.1 hmembers hmarks hstays
  have htextEdits : w.textEdits = .ok ((relocated s edits (s.deletionEdits requests)).mergeSort
      TextEdit.comesFirst) := by
    rw [textEdits, hdocument, hconfig]
    show (s.writeAll .empty (Batch.reduce document.syntaxTree w.changes)).bind s.finish = _
    rw [hreduce, Scene.writeAll_append deletions hwrite, hwriteDeletions]
    exact Scene.finish_of_held hcut hholding.anchored hholding.apart
  obtain ⟨_, _, htokens, hplain, _⟩ := Document.tokens_of_parse hparse
  rw [← hplain] at htokens
  obtain ⟨newText, vs, ks, happly, hcodes, hvs, hrespells⟩ := hcut.exists_codes hends hstandard.1
    hstops hus htokens hholding.toListed hholding.starts hcomma hstays
  rw [Node.lists_dropMembers] at hvs
  obtain ⟨document', hparse', hcontent⟩ :=
    hlisted.reread _ vs ks newText (Node.refilled_ne_nil hstays) hvs hcodes hrespells
  have hlength : k + list.members.length = n.members.length := by
    rw [hmembers, List.length_map]
    exact Node.add_length_dropMembers hisList hne
  obtain ⟨hbefore, hafter⟩ := hholding.toAnswers.addedAs hlength fun o ho i hi =>
    (hindex o ho i hi).1
  rw [Node.members_dropMembers hisList, Node.refilled_shifted (by omega) hfront] at hcontent
  exact ⟨_, newText, document', Node.shifted k added, fs, htextEdits, happly, hparse', hbefore, hafter,
    hcontent⟩

theorem refilled_of_nil {gone : Nat → Bool} {added : Nat → List Node} (fs : List Node)
    (h : ∀ i < n.members.length, added i = []) :
    Node.refilled n.members gone added fs = (n.staying gone).map (·.1) ++ fs := by
  rw [Node.refilled, Node.staying, List.map_eq_flatMap]
  refine congrArg (· ++ fs) (List.flatMap_congr fun p hp => ?_)
  have hp := List.mem_zipIdx_iff_getElem?.mp (List.mem_filter.mp hp).1
  rw [h p.2 (List.getElem?_eq_some_iff.mp hp).1]
  rfl

/-- A batch appends printable members to a list and deletes others of it, but not all of them. The list
is one in brackets, or the last one in parentheses of a target if nothing follows it. The new text is
read as the file with the members that stay and behind them the new ones, in the order of the batch. -/
theorem parse_appendAndDelete (hparse : Document.parse uri text c = .ok document)
    (hc : c.aliases = .standard) (hlength : text.length < Text.wordBound)
    (hadd : (ofDocument document c).addAll operations = .ok w)
    (hq : document.syntaxTree.resolve? q = some n) (hlist : document.firstListed? n = some k)
    (hedits : ∀ o ∈ w.changes, o.edits q n = true ∧ o.index? = none)
    (hinserts : ∃ o ∈ w.changes, o.isDeletion = false)
    (hfront : ∀ i < k, Batch.deletesAt w.changes q n i = false)
    (hsome : ∃ p ∈ n.staying (Batch.deletesAt w.changes q n), k ≤ p.2) :
    ∃ edits newText document' fs, w.textEdits = .ok edits ∧
      TextEdit.applyAll text edits = .ok newText ∧
      Document.parse uri newText c = .ok document' ∧
      List.Forall₂ (Operation.AddedAs (document.syntaxTree.groupName? q))
        (w.changes.filter (!·.isDeletion)) fs ∧
      document'.syntaxTree.content = (document.syntaxTree.graft q (n.withMembers
        ((n.staying (Batch.deletesAt w.changes q n)).map (·.1) ++ fs))).content := by
  obtain ⟨edits, newText, document', added, fs, htext, happly, hparse', hbefore, hafter,
    hcontent⟩ := parse_refills hparse hc hlength hadd hq hlist (fun o ho => (hedits o ho).1)
      hinserts hfront hsome fun o ho i hi => absurd ((hedits o ho).2.symm.trans hi).symm
        (Option.some_ne_none i)
  have hlast : Batch.addedLast w.changes n.members.length = w.changes.filter (!·.isDeletion) :=
    List.filter_congr fun o ho => by
      rw [(hedits o ho).2]
      rfl
  have hnone : ∀ i < n.members.length, added i = [] := by
    intro i hi
    have hempty : Batch.addedAt w.changes i = [] := List.filter_eq_nil_iff.mpr fun o ho => by
      rw [(hedits o ho).2]
      exact Bool.false_ne_true
    have hadded := hbefore i hi
    rw [hempty] at hadded
    exact List.forall₂_nil_left_iff.mp hadded
  rw [hlast] at hafter
  rw [refilled_of_nil fs hnone] at hcontent
  exact ⟨edits, newText, document', fs, htext, happly, hparse', hafter, hcontent⟩

def refillsText : String := "annotate E with @A @(B : 1, C /* c */, D);"

def sampleRefills : List Operation :=
  [⟨⟨["targets", "0", "terms", "3"]⟩, .delete Deletable.annotation⟩,
    ⟨⟨["targets", "0"]⟩, .insert Insertable.annotation none
      ⟨Tree.ElementKind.annotation, [("Term", ⟨"Term", "N", none⟩)], [], none, none⟩⟩,
    ⟨⟨["targets", "0", "terms", "1"]⟩, .delete Deletable.annotation⟩,
    ⟨⟨["targets", "0"]⟩, .insert Insertable.annotation none
      ⟨Tree.ElementKind.annotation, [("Term", ⟨"Term", "M", none⟩)], [], none, none⟩⟩]

theorem parse_appendAndDelete_parentheses :
    ∃ document w q n k edits newText document' fs,
      Document.parse "a.cds" refillsText .default = .ok document ∧
      (ofDocument document .default).addAll sampleRefills = .ok w ∧
      document.syntaxTree.resolve? q = some n ∧ document.firstListed? n = some k ∧
      (∀ o ∈ w.changes, o.edits q n = true ∧ o.index? = none) ∧
      (∃ o ∈ w.changes, o.isDeletion = false) ∧
      (∀ i < k, Batch.deletesAt w.changes q n i = false) ∧
      (∃ p ∈ n.staying (Batch.deletesAt w.changes q n), k ≤ p.2) ∧
      w.textEdits = .ok edits ∧ TextEdit.applyAll refillsText edits = .ok newText ∧
      Document.parse "a.cds" newText .default = .ok document' ∧
      List.Forall₂ (Operation.AddedAs (document.syntaxTree.groupName? q))
        (w.changes.filter (!·.isDeletion)) fs ∧
      document'.syntaxTree.content = (document.syntaxTree.graft q (n.withMembers
        ((n.staying (Batch.deletesAt w.changes q n)).map (·.1) ++ fs))).content := by
  have hchecked : ((Document.parse "a.cds" refillsText .default).toOption.any fun document =>
      ((ofDocument document .default).addAll sampleRefills).toOption.any fun w =>
        let q : Pointer := ⟨["targets", "0"]⟩
        (document.syntaxTree.targets[0]?).any fun t =>
          (w.changes.all (fun o => o.edits q (.target t) && o.index?.isNone) &&
            (w.changes.any (!·.isDeletion) && (!Batch.deletesAt w.changes q (.target t) 0 &&
              ((Node.target t).staying (Batch.deletesAt w.changes q (.target t))).any (1 ≤ ·.2)))) &&
          (Lexer.tokenize refillsText).toOption.any (t.lastList? · == some 1)) = true := by
    decide +kernel
  obtain ⟨document, hparse, hchecked⟩ := Locate.exists_ok_of_any hchecked
  obtain ⟨w, hadd, hchecked⟩ := Locate.exists_ok_of_any hchecked
  obtain ⟨t, ht, hchecked⟩ := (Option.any_eq_true _ _).mp hchecked
  simp only [Bool.and_eq_true, Bool.not_eq_true', List.all_eq_true, List.any_eq_true,
    Option.isNone_iff_eq_none, decide_eq_true_eq] at hchecked
  obtain ⟨⟨hedits, hinserts, hkept, hsome⟩, hlist⟩ := hchecked
  have hroot : document.syntaxTree.resolve? .root = some (.file document.syntaxTree) := rfl
  have hn : document.syntaxTree.resolve? ⟨["targets", "0"]⟩ = some (.target t) :=
    Locate.resolves_child hroot (Node.target_mem_children ht)
  have hfront : ∀ i < 1,
      Batch.deletesAt w.changes ⟨["targets", "0"]⟩ (.target t) i = false := fun i hi =>
    Nat.lt_one_iff.mp hi ▸ hkept
  have hfirst : document.firstListed? (.target t) = some 1 := by
    obtain ⟨tokens, htokens, hlist⟩ := Locate.exists_ok_of_any hlist
    obtain ⟨tokens', _, htokens', hplain, _⟩ := Document.tokens_of_parse hparse
    obtain rfl := Except.ok.inj (htokens.symm.trans htokens')
    rw [← hplain, Syntax.Target.lastList?_plain] at hlist
    exact beq_iff_eq.mp hlist
  obtain ⟨edits, newText, document', fs, htext, happly, hparse', hfs, hcontent⟩ :=
    parse_appendAndDelete hparse rfl (by decide +kernel) hadd hn hfirst hedits hinserts hfront hsome
  exact ⟨document, w, _, _, 1, edits, newText, document', fs, hparse, hadd, hn, hfirst, hedits,
    hinserts, hfront, hsome, htext, happly, hparse', hfs, hcontent⟩

end Writer

end AnnotationEdit

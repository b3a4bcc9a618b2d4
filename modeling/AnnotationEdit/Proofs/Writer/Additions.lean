import AnnotationEdit.Proofs.Locate.Children
import AnnotationEdit.Proofs.Writer.Filling

/-!
# Members for records and collections

Operations that add a member name a record or a collection of the annotation tree, and a place by a
child of it. They are turned into operations on the node that the element is written as, in front of
the member that this child is written as (`Conversion.convert_adds`), and the new text is read as the
file with the new members there (`Writer.parse_members`).
-/

namespace AnnotationEdit

open Syntax (Node)
open AnnotationEdit.Tree (ElementKind)

namespace Operation

/-- Adds a printable member to a record or a collection. -/
def addsTo (o : Operation) (kind : ElementKind) : Bool :=
  match kind, o.action with
  | .record, .insert Insertable.embeddedAnnotation _ e => e.isPrintable .standard
  | .record, .insert .recordProperty _ e =>
    e.kind == .propertyValue && Printable.isEntry .standard e
  | .collection, .insert .record _ e | .collection, .insert .collection _ e
  | .collection, .insert .primitiveValue _ e => Printable.isValue .standard e
  | _, _ => false

theorem adds_of_addsTo {o : Operation} {kind : ElementKind} {n : Node} (h : o.addsTo kind = true)
    (hn : n.isOfKind kind = true) : o.adds n = true ∧ n.isValue = true := by
  obtain ⟨q, action⟩ := o
  rw [addsTo.eq_def] at h
  split at h
  · next haction =>
    obtain rfl : action = _ := haction
    cases n with
    | record r => exact ⟨h, rfl⟩
    | _ => cases hn
  · next haction =>
    obtain rfl : action = _ := haction
    cases n with
    | record r => exact ⟨h, rfl⟩
    | _ => cases hn
  · next haction =>
    obtain rfl : action = _ := haction
    cases n with
    | collection c => exact ⟨h, rfl⟩
    | _ => cases hn
  · next haction =>
    obtain rfl : action = _ := haction
    cases n with
    | collection c => exact ⟨h, rfl⟩
    | _ => cases hn
  · next haction =>
    obtain rfl : action = _ := haction
    cases n with
    | collection c => exact ⟨h, rfl⟩
    | _ => cases hn
  · cases h

theorem isBracketed_of_adds {o : Operation} {n : Node} (h : o.adds n = true)
    (hvalue : n.isValue = true) : n.isBracketed = true := by
  rcases adds_cases h with ⟨_, _, _, _, _, rfl, _⟩ | ⟨_, _, _, _, _, rfl, _⟩ |
    ⟨_, _, _, _, _, _, rfl, _⟩ | ⟨_, _, _, _, _, rfl, _⟩ | ⟨_, _, _, _, _, rfl, _⟩
  · rfl
  · rfl
  · rfl
  · cases hvalue
  · cases hvalue

/-- What is told does not depend on a group where the member is no item of one. -/
theorem addedAs_none {o : Operation} {n m : Node} {group : Option String} (h : o.adds n = true)
    (hvalue : n.isValue = true) (hm : o.AddedAs group m) : o.AddedAs none m := by
  rcases adds_cases h with ⟨q, r, index, e, rfl, rfl, _⟩ | ⟨q, r, index, e, rfl, rfl, _⟩ |
    ⟨q, c, what, index, e, rfl, rfl, hwhat, _⟩ | ⟨q, items, index, e, rfl, rfl, _⟩ |
    ⟨q, t, index, e, rfl, rfl, _⟩
  · exact hm
  · exact hm
  · rcases hwhat with rfl | rfl | rfl <;> exact hm
  · cases hvalue
  · cases hvalue

/-- The operation on another node, with another index. -/
def placedAt (o : Operation) (q : Pointer) (index : Option Nat) : Operation :=
  (⟨q, o.action⟩ : Operation).withIndex index

section

variable {o : Operation} {n : Node} {q : Pointer} {index : Option Nat}

theorem index?_placedAt (h : o.adds n = true) : (o.placedAt q index).index? = index := by
  obtain ⟨what, _, e, haction⟩ := insertsAt_of_adds h
  show (o.action.withIndex index).index? = index
  rw [haction]
  rfl

theorem adds_placedAt (h : o.adds n = true) : (o.placedAt q index).adds n = true := by
  have hmoved : (⟨q, o.action⟩ : Operation).adds n = true := h
  exact adds_withIndex hmoved index

end

/-- What is told by members that are added in other places. -/
theorem forall₂_of_placedAt {operations : List Operation} {n : Node} {q : Pointer}
    {index : Operation → Option Nat} {group : Option String} {ms : List Node}
    (hadds : ∀ o ∈ operations, o.adds n = true) (hvalue : n.isValue = true)
    (test : Option Nat → Bool)
    (h : List.Forall₂ (AddedAs group)
      ((operations.map fun o => o.placedAt q (index o)).filter fun o => test o.index?) ms) :
    List.Forall₂ (AddedAs none) (operations.filter fun o => test (index o)) ms := by
  have hsame : operations.filter ((fun o => test o.index?) ∘ fun o => o.placedAt q (index o)) =
      operations.filter fun o => test (index o) :=
    List.filter_congr fun o ho => congrArg test (index?_placedAt (hadds o ho))
  rw [List.filter_map, List.forall₂_map_left_iff, hsame] at h
  have hmem : ∀ o ∈ operations.filter fun o => test (index o), o.adds n = true := fun o ho =>
    hadds o (List.mem_of_mem_filter ho)
  refine ((List.forall₂_and_left _ _).mpr ⟨hmem, h⟩).imp ?_
  rintro o m ⟨h, hm⟩
  exact addedAs_none h hvalue ((addedAs_withIndex (index o) m).mp hm)

/-- The child of the element that the operation adds a member in front of. -/
def childIndex? (o : Operation) (e : Tree.Element) : Option Nat :=
  o.index?.filter (· < e.content.length)

end Operation

/-! ## The place in the list -/

namespace Conversion

open Locate (Yields)

variable {c : Context} {o : Operation} {p : Pointer} {l : Located} {n : Node}

theorem Context.resolve_eq
    (hl : locate p c.document.tree c.document.syntaxTree c.vocabulary = .ok l)
    (hn : c.document.syntaxTree.resolve? l.pointer = some n) : c.resolve p = .ok (l, n) := by
  simp only [Context.resolve, hl, bind, Except.bind, hn]
  rfl

/-- An operation that adds a member to a record or a collection adds it to the node that is found, in
front of the member that contains what stands at its place. -/
theorem convert_adds (ho : o.adds n = true) (hvalue : n.isValue = true)
    (hl : locate o.pointer c.document.tree c.document.syntaxTree c.vocabulary = .ok l)
    (hopen : l.collapsed = false) (hn : c.document.syntaxTree.resolve? l.pointer = some n) :
    Yields (· = (⟨l.pointer, o.action⟩ : Operation).withIndex (c.place? o.pointer o.index? n))
      (convert c o) := by
  have hresolve := Context.resolve_eq hl hn
  rcases Operation.adds_cases ho with ⟨q, r, index, e, rfl, rfl, _⟩ |
    ⟨q, r, index, e, rfl, rfl, _⟩ | ⟨q, v, what, index, e, rfl, rfl, hwhat, _⟩ |
    ⟨q, items, index, e, rfl, rfl, _⟩ | ⟨q, t, index, e, rfl, rfl, _⟩
  · refine Yields.bind Context.expectKind_yields fun _ _ => ?_
    show Yields _ ((c.resolve q).bind _)
    rw [hresolve]
    exact .ok rfl
  · refine Yields.bind Context.expectKind_yields fun _ _ => ?_
    show Yields _ ((c.resolve q).bind _)
    rw [hresolve]
    exact .ok rfl
  · have heditable : ∀ kind, c.resolveEditable kind q = .ok (l, .collection v) := by
      intro kind
      show (c.resolve q).bind _ = _
      rw [hresolve]
      show (if l.collapsed = true then _ else _) = _
      rw [hopen]
      rfl
    rcases hwhat with rfl | rfl | rfl
    all_goals
      refine Yields.bind Context.expectKind_yields fun _ _ => ?_
      show Yields _ ((c.resolveEditable _ q).bind _)
      rw [heditable]
      exact .ok rfl
  · cases hvalue
  · cases hvalue

end Conversion

/-- Every child has a place in the list, that of the member it is written as, and an operation without
a child in front of which it adds has none. -/
theorem Document.exists_places_of_children {uri text : String} {c : Configuration} {d : Document}
    (h : parse uri text c = .ok d) {p : Pointer} {n : Node} {e : Tree.Element}
    (hn : d.syntaxTree.resolve? p = some n) (hlist : n.isBracketed = true)
    (hvalue : n.isValue = true) (hwrites : n.Writes .standard e) : ∃ place : Nat → Nat,
      (∀ i < e.content.length, ∃ child m, e.content[i]? = some (.element child) ∧
        n.members[place i]? = some m ∧ m.Represents child) ∧
      ∀ o : Operation, insertIndex? o.index? (e.content.map (·.range)) n.memberRanges =
        (o.childIndex? e).map place := by
  let found : Nat → Option Nat := fun i =>
    insertIndex? (some i) (e.content.map (·.range)) n.memberRanges
  refine ⟨fun i => (found i).getD 0, fun i hi => ?_, fun o => ?_⟩
  · obtain ⟨child, j, m, hchild, hm, hrepresents, hfound⟩ :=
      insertIndex?_child h hn hlist hvalue hwrites hi
    refine ⟨child, m, hchild, ?_, hrepresents⟩
    show n.members[(found i).getD 0]? = some m
    rwa [show found i = some j from hfound]
  · rw [Operation.childIndex?]
    cases o.index? with
    | none => rfl
    | some i =>
        by_cases hi : i < e.content.length
        · obtain ⟨_, j, _, _, _, _, hfound⟩ := insertIndex?_child h hn hlist hvalue hwrites hi
          rw [Option.filter_some, if_pos (decide_eq_true hi), Option.map_some,
            show found i = some j from hfound]
          exact hfound
        · rw [Option.filter_some, if_neg (by rw [decide_eq_true_iff]; exact hi), Option.map_none,
            insertIndex?, Option.bind_some,
            List.getElem?_eq_none (by rw [List.length_map]; exact Nat.le_of_not_lt hi)]
          rfl

/-! ## Reading the new text -/

namespace Writer

variable {uri text : String} {c : Configuration} {document : Document}
  {operations : List Operation} {w : Writer}

/-- What is carried out for operations that add members to an element: the same on the node that the
element is written as, each in front of the member that its child is written as. -/
theorem changes_of_adds (hadd : (ofDocument document c).addAll operations = .ok w)
    {p : Pointer} {e : Tree.Element} {l : Located} {n : Node}
    {place : Nat → Nat} (he : document.tree.resolve? p = some (.element e))
    (hl : locate p document.tree document.syntaxTree c.aliases = .ok l)
    (hopen : l.collapsed = false) (hn : document.syntaxTree.resolve? l.pointer = some n)
    (hvalue : n.isValue = true) (hall : ∀ o ∈ operations, o.pointer = p ∧ o.adds n = true)
    (hplaces : ∀ o : Operation, insertIndex? o.index? (e.content.map (·.range)) n.memberRanges =
      (o.childIndex? e).map place) :
    w.changes = operations.map fun o => o.placedAt l.pointer ((o.childIndex? e).map place) := by
  obtain ⟨changes, rfl, hconverted⟩ := forall₂_of_addAll hadd
  have hplaced : List.Forall₂
      (fun o o' => o.placedAt l.pointer ((o.childIndex? e).map place) = o') operations changes := by
    refine ((List.forall₂_and_left _ _).mpr ⟨hall, hconverted⟩).imp ?_
    rintro o o' ⟨⟨rfl, h⟩, hconvert⟩
    have heq := Conversion.convert_adds (c := ⟨document, c.aliases⟩) h hvalue hl hopen hn o' hconvert
    rw [Conversion.Context.place?, Conversion.Context.childRanges, he] at heq
    exact (congrArg _ (hplaces o).symm).trans heq.symm
  have hsame := List.forall₂_map_left_iff.mpr hplaced
  rw [List.forall₂_eq_eq_eq] at hsame
  exact hsame.symm

/-- A batch only adds printable members to one record or collection that is no level of a folded name.
The new text is read as the file with the new members in the node it is written as: in front of the
member that the child with their number is written as, or behind all where there is none, and those
for one place in the order of the batch. -/
theorem parse_members (hparse : Document.parse uri text c = .ok document)
    (hc : c.aliases = .standard) (hlength : text.length < Text.wordBound)
    (honce : document.syntaxTree.namesValueOnce = true) {p : Pointer} {e : Tree.Element}
    {l : Located} (he : document.tree.resolve? p = some (.element e))
    (hl : locate p document.tree document.syntaxTree c.aliases = .ok l)
    (hopen : l.collapsed = false)
    (hadds : ∀ o ∈ operations, o.pointer = p ∧ o.addsTo e.kind = true) (hsome : operations ≠ [])
    (hadd : (ofDocument document c).addAll operations = .ok w) :
    ∃ n edits newText document' place added fs,
      document.syntaxTree.resolve? l.pointer = some n ∧ n.Represents e ∧
      w.textEdits = .ok edits ∧ TextEdit.applyAll text edits = .ok newText ∧
      Document.parse uri newText c = .ok document' ∧
      (∀ i < e.content.length, ∃ child m, e.content[i]? = some (.element child) ∧
        n.members[place i]? = some m ∧ m.Represents child) ∧
      (∀ j < n.members.length, List.Forall₂ (Operation.AddedAs none)
        (operations.filter fun o => (o.childIndex? e).map place == some j) (added j)) ∧
      List.Forall₂ (Operation.AddedAs none)
        (operations.filter fun o => (o.childIndex? e).isNone) fs ∧
      document'.syntaxTree.content = (document.syntaxTree.graft l.pointer (n.withMembers
        (Node.refilled n.members (fun _ => false) added fs))).content := by
  obtain ⟨n, hn, hwrites⟩ := exists_writes hc hparse honce he hl hopen
  have hrepresents := hwrites.represents
  have hboth := fun o ho => Operation.adds_of_addsTo (hadds o ho).2 hrepresents.2
  obtain ⟨hlist, hvalue⟩ : n.isBracketed = true ∧ n.isValue = true := by
    obtain ⟨o, ho⟩ := List.exists_mem_of_ne_nil _ hsome
    obtain ⟨h, hvalue⟩ := hboth o ho
    exact ⟨Operation.isBracketed_of_adds h hvalue, hvalue⟩
  have haddsNode : ∀ o ∈ operations, o.adds n = true := fun o ho => (hboth o ho).1
  obtain ⟨place, hplace, hplaces⟩ :=
    Document.exists_places_of_children hparse hn hlist hvalue hwrites
  have hchanges := changes_of_adds hadd he hl hopen hn hvalue
    (fun o ho => ⟨(hadds o ho).1, haddsNode o ho⟩) hplaces
  obtain ⟨edits, newText, document', added, fs, htext, happly, hparse', hbefore, hafter, hcontent⟩ :=
    parse_additions hparse hc hlength hadd hn (Document.firstListed?_of_isBracketed hlist)
      (by
        rw [hchanges]
        exact List.forall_mem_map.mpr fun o ho => ⟨rfl, Operation.adds_placedAt (haddsNode o ho)⟩)
      (fun _ _ i _ => Nat.zero_le i)
      (by rw [hchanges]; exact fun h => hsome (List.map_eq_nil_iff.mp h))
  rw [hchanges] at hbefore hafter
  have hbehind : (operations.filter fun o =>
      !(((o.childIndex? e).map place).any (· < n.members.length))) =
      operations.filter fun o => (o.childIndex? e).isNone := by
    refine List.filter_congr fun o _ => ?_
    cases hchild : o.childIndex? e with
    | none => rfl
    | some i =>
        have hi : i < e.content.length :=
          of_decide_eq_true (Option.filter_eq_some_iff.mp hchild).2
        obtain ⟨_, _, _, hm, _⟩ := hplace i hi
        rw [Option.map_some, Option.any_some, decide_eq_true (List.getElem?_eq_some_iff.mp hm).1]
        rfl
  have hlast := Operation.forall₂_of_placedAt haddsNode hvalue
    (fun index => !(index.any (· < n.members.length))) hafter
  rw [hbehind] at hlast
  exact ⟨n, edits, newText, document', place, added, fs, hn, hrepresents, htext, happly, hparse',
    hplace, fun j hj => Operation.forall₂_of_placedAt haddsNode hvalue (· == some j) (hbefore j hj),
    hlast, hcontent⟩

/-- The operations add members to the element at the pointer, which is no level of a folded name. -/
def addsMembers (d : Document) (p : Pointer) (l : List Operation) : Bool :=
  (locate p d.tree d.syntaxTree .standard).toOption.any (fun located => !located.collapsed) &&
    match d.tree.resolve? p with
    | some (.element e) => l.all fun o => o.pointer == p && o.addsTo e.kind
    | _ => false

def membersText : String := "annotate E with @A : \x7b a : 1, // one\n  b \x7d;"

def sampleMembers : List Operation :=
  let record : Pointer := ⟨["targets", "0", "terms", "0", "content", "0"]⟩
  let entry (name : String) (content : List Tree.Node) : Tree.Element :=
    ⟨.propertyValue, [("Property", ⟨"Property", name, none⟩)], content, none, none⟩
  [⟨record, .insert .recordProperty none (entry "d" [])⟩,
    ⟨record, .insert .recordProperty (some 1)
      (entry "c" [.element ⟨.int, [], [.text ⟨"2", none⟩], none, none⟩])⟩]

theorem parse_members_record :
    ∃ document e l w n edits newText document' place added fs,
      Document.parse "a.cds" membersText .default = .ok document ∧
      document.syntaxTree.namesValueOnce = true ∧
      document.tree.resolve? ⟨["targets", "0", "terms", "0", "content", "0"]⟩ =
        some (.element e) ∧
      locate ⟨["targets", "0", "terms", "0", "content", "0"]⟩ document.tree document.syntaxTree
        .standard = .ok l ∧ l.collapsed = false ∧
      (∀ o ∈ sampleMembers, o.pointer = ⟨["targets", "0", "terms", "0", "content", "0"]⟩ ∧
        o.addsTo e.kind = true) ∧
      (ofDocument document .default).addAll sampleMembers = .ok w ∧
      document.syntaxTree.resolve? l.pointer = some n ∧ n.Represents e ∧
      w.textEdits = .ok edits ∧ TextEdit.applyAll membersText edits = .ok newText ∧
      Document.parse "a.cds" newText .default = .ok document' ∧
      (∀ i < e.content.length, ∃ child m, e.content[i]? = some (.element child) ∧
        n.members[place i]? = some m ∧ m.Represents child) ∧
      (∀ j < n.members.length, List.Forall₂ (Operation.AddedAs none)
        (sampleMembers.filter fun o => (o.childIndex? e).map place == some j) (added j)) ∧
      List.Forall₂ (Operation.AddedAs none)
        (sampleMembers.filter fun o => (o.childIndex? e).isNone) fs ∧
      document'.syntaxTree.content = (document.syntaxTree.graft l.pointer (n.withMembers
        (Node.refilled n.members (fun _ => false) added fs))).content := by
  have hchecked : ((Document.parse "a.cds" membersText .default).toOption.any fun document =>
      document.syntaxTree.namesValueOnce &&
        (addsMembers document ⟨["targets", "0", "terms", "0", "content", "0"]⟩ sampleMembers &&
          ((ofDocument document .default).addAll sampleMembers).toOption.any fun _ => true)) =
            true := by
    decide +kernel
  obtain ⟨document, hparse, hchecked⟩ := Locate.exists_ok_of_any hchecked
  obtain ⟨honce, hchecked⟩ := Bool.and_eq_true_iff.mp hchecked
  obtain ⟨hmembers, hchecked⟩ := Bool.and_eq_true_iff.mp hchecked
  obtain ⟨w, hadd, _⟩ := Locate.exists_ok_of_any hchecked
  rw [addsMembers] at hmembers
  obtain ⟨hlocated, hmembers⟩ := Bool.and_eq_true_iff.mp hmembers
  obtain ⟨l, hl, hopen⟩ := Locate.exists_ok_of_any hlocated
  rw [Bool.not_eq_true'] at hopen
  split at hmembers
  · next e he =>
    have hadds : ∀ o ∈ sampleMembers,
        o.pointer = ⟨["targets", "0", "terms", "0", "content", "0"]⟩ ∧
          o.addsTo e.kind = true := by
      intro o ho
      obtain ⟨hpointer, h⟩ := Bool.and_eq_true_iff.mp (List.all_eq_true.mp hmembers o ho)
      exact ⟨beq_iff_eq.mp hpointer, h⟩
    obtain ⟨n, edits, newText, document', place, added, fs, hn, hrepresents, htext, happly, hparse',
      hplace, hadded, hfs, hcontent⟩ := parse_members hparse rfl (by decide +kernel) honce he hl hopen hadds
        (List.cons_ne_nil _ _) hadd
    exact ⟨document, e, l, w, n, edits, newText, document', place, added, fs, hparse, honce, he, hl,
      hopen, hadds, hadd, hn, hrepresents, htext, happly, hparse', hplace, hadded, hfs, hcontent⟩
  · cases hmembers

end Writer

end AnnotationEdit

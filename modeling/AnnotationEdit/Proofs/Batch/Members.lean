import AnnotationEdit.Proofs.Batch.Preparation
import AnnotationEdit.Proofs.Deletion.Rereading

/-!
# Batches that delete members of lists

Of a batch that deletes members of lists with commas and empties no list but collections, nothing is
folded and nothing bubbles up. What is carried out is some of its deletions, and every other one is
at or below one of these (`reduce_of_deletesMembers`).
-/

namespace AnnotationEdit

open Syntax (Node)

/-- The pointer leads to a member of a list with commas. -/
def Syntax.File.IsMember (f : Syntax.File) (p : Pointer) : Prop :=
  ∃ q path parent n, p = q.append path ∧ f.resolve? q = some parent ∧
    (path, n) ∈ parent.children ∧ parent.separatesByCommas = true

def Syntax.Node.canBeMember : Node → Bool
  | Node.annotation _ | .group _ | .property _ | .record _ | .collection _ | .primitive _ => true
  | _ => false

theorem Syntax.Node.exists_numbered {parent m : Node} (h : parent.partsByCommas m = true) :
    ∃ name nodes, parent.children = Node.numbered name nodes ∧
      parent.listLength? = some nodes.length ∧ ∀ n ∈ nodes, n.canBeMember = true := by
  have hlist : ∀ {α : Type} (node : α → Node) (es : List α),
      (∀ e, (node e).canBeMember = true) → ∀ n ∈ es.map node, n.canBeMember = true := by
    intro α node es hnode n hn
    obtain ⟨e, _, rfl⟩ := List.mem_map.mp hn
    exact hnode e
  cases parent with
  | record r =>
      refine ⟨"properties", r.entries.map .ofEntry, rfl, ?_, hlist _ _ fun e => by cases e <;> rfl⟩
      rw [Node.listLength?, Node.memberRanges?, Option.map_some, List.length_map, List.length_map]
  | collection c =>
      refine ⟨"items", c.items.map .ofValue, rfl, ?_, hlist _ _ fun v => by cases v <;> rfl⟩
      rw [Node.listLength?, Node.memberRanges?, Option.map_some, List.length_map, List.length_map]
  | groupItems i =>
      refine ⟨"items", i.items.map Node.annotation, rfl, ?_, hlist _ _ fun _ => rfl⟩
      rw [Node.listLength?, Node.memberRanges?, Option.map_some, List.length_map, List.length_map]
  | target t =>
      refine ⟨"assignments", t.assignments.map .ofAssignment, rfl, ?_,
        hlist _ _ fun a => by cases a <;> rfl⟩
      rw [Node.listLength?, Node.memberRanges?, Option.map_some, List.length_map, List.length_map]
  | _ => cases h

/-- Members of lists with commas are led to by the name of the list and a number. -/
theorem Syntax.File.isMember_iff {f : Syntax.File} {p : Pointer} : f.IsMember p ↔
    ((p.ancestor? 2).any fun q => (f.resolve? q).any fun parent =>
      parent.separatesByCommas && parent.children.any fun child => q.append child.1 == p) = true := by
  simp only [Option.any_eq_true, Bool.and_eq_true, List.any_eq_true, beq_iff_eq]
  constructor
  · rintro ⟨q, path, parent, n, rfl, hq, hn, hcommas⟩
    refine ⟨q, ?_, parent, hq, hcommas, (path, n), hn, rfl⟩
    obtain ⟨_, _, hchildren, _⟩ := Node.exists_numbered (Node.partsByCommas_of_mem hcommas hn)
    rw [hchildren] at hn
    obtain ⟨i, _, rfl⟩ := Node.mem_numbered.mp hn
    exact q.ancestor?_append _
  · rintro ⟨q, _, parent, hq, hcommas, ⟨path, n⟩, hn, rfl⟩
    exact ⟨q, path, parent, n, rfl, hq, hn, hcommas⟩

instance (f : Syntax.File) (p : Pointer) : Decidable (f.IsMember p) :=
  decidable_of_iff _ Syntax.File.isMember_iff.symm

/-- The pointer leads to a member with commas beside it. -/
def Syntax.File.IsParted (f : Syntax.File) (p : Pointer) : Prop :=
  ∃ q path parent n, p = q.append path ∧ f.resolve? q = some parent ∧
    (path, n) ∈ parent.children ∧ parent.partsByCommas n = true

theorem Syntax.File.IsMember.isParted {f : Syntax.File} {p : Pointer} (h : f.IsMember p) :
    f.IsParted p := by
  obtain ⟨q, path, parent, n, hpointer, hq, hn, hcommas⟩ := h
  exact ⟨q, path, parent, n, hpointer, hq, hn, Node.partsByCommas_of_mem hcommas hn⟩

theorem Syntax.Node.WrittenAs.spans {vocabulary : Vocabulary} {n : Node} {ts : List Token}
    (h : n.WrittenAs vocabulary ts) (hn : n.canBeMember = true) : Spans ts n.range := by
  cases n with
  | annotation a =>
      rcases h with h | h
      · exact Syntax.spans_entry h
      · exact h.spans
  | group g => exact Syntax.spans_assignment h.choose_spec
  | property p => exact Syntax.spans_entry h
  | record r => exact Syntax.spans_value h
  | collection c => exact Syntax.spans_value h
  | primitive p => exact Syntax.Primitive.WrittenAs.spans h
  | _ => cases hn

/-- What is below a member stands inside it. -/
theorem Document.contains_below {uri text : String} {c : Configuration} {d : Document}
    (h : parse uri text c = .ok d) {p : Pointer} {path : List String} {n m : Node}
    (hn : d.syntaxTree.resolve? p = some n) (hmember : n.canBeMember = true)
    (hm : d.syntaxTree.resolve? (p.append path) = some m) : n.range.contains m.range = true := by
  have hfile : ∀ f, n ≠ .file f := by
    rintro f rfl
    cases hmember
  rw [Syntax.File.resolve?, Pointer.append, Node.resolve?_append hn] at hm
  obtain ⟨_, _, _, _, hsorted, _⟩ := tokens_of_parse h
  obtain ⟨ts, hts, hwritten⟩ := exists_written h hn
  obtain ⟨us, hus, hbelow⟩ := Node.exists_resolved hwritten hm
  obtain ⟨vs, hvs, hspans⟩ := hbelow.within (Syntax.ne_file_of_resolve? hfile hm)
  exact (hwritten.spans hmember).contains hspans
    (hsorted.sublist (hts.trans List.filter_sublist)) (hvs.trans hus)

namespace Batch

/-- The operation deletes the member `n` with number `i` of the list `parent` at `q`. -/
structure DeletesMember (file : Syntax.File) (o : Operation) (q : Pointer) (name : String)
    (i : Nat) (parent n : Node) : Prop where
  pointer : o.pointer = q.append [name, toString i]
  action : ∃ what, o.action = .delete what ∧ what.suits n = true
  bound : i < Text.wordBound
  list : file.resolve? q = some parent
  commas : parent.partsByCommas n = true
  member : ([name, toString i], n) ∈ parent.children

/-- All operations delete members with commas beside them. -/
def DeletesMembers (file : Syntax.File) (l : List Operation) : Prop :=
  ∀ o ∈ l, ∃ q name i parent n, DeletesMember file o q name i parent n

namespace DeletesMember

variable {file : Syntax.File} {o : Operation} {q : Pointer} {name : String} {i : Nat}
variable {parent n : Node}

theorem resolve? (h : DeletesMember file o q name i parent n) :
    file.resolve? o.pointer = some n := by
  rw [h.pointer, Syntax.File.resolve?, Pointer.append, Node.resolve?_append h.list,
    ← List.append_nil [name, toString i], Node.resolve?_of_mem_children h.member]
  rfl

theorem canBeMember (h : DeletesMember file o q name i parent n) : n.canBeMember = true := by
  obtain ⟨_, nodes, hchildren, _, hnodes⟩ := Node.exists_numbered h.commas
  have hmember := h.member
  rw [hchildren] at hmember
  obtain ⟨j, hj, _⟩ := Node.mem_numbered.mp hmember
  exact hnodes n (List.mem_of_getElem? hj)

theorem isDeletion (h : DeletesMember file o q name i parent n) : o.isDeletion = true := by
  obtain ⟨what, haction, _⟩ := h.action
  rw [Operation.isDeletion, haction]

theorem removesSubtree (h : DeletesMember file o q name i parent n) :
    o.removesSubtree = true := by
  obtain ⟨what, haction, hsuits⟩ := h.action
  have hmember := h.canBeMember
  rw [Operation.removesSubtree, Operation.isDestructive, haction]
  cases what with
  | qualifier =>
      cases n with
      | qualifier r => cases hmember
      | _ => cases hsuits
  | _ => rfl

theorem lastIndex? (h : DeletesMember file o q name i parent n) :
    o.pointer.lastIndex? = some i := by
  rw [h.pointer, Pointer.lastIndex?_append_toString h.bound]

theorem ancestor? (h : DeletesMember file o q name i parent n) :
    o.pointer.ancestor? 2 = some q := by
  rw [h.pointer]
  exact q.ancestor?_append [name, toString i]

theorem last? (h : DeletesMember file o q name i parent n) :
    o.pointer.last? = some (toString i) := by
  rw [h.pointer, Pointer.last?, Pointer.append, List.getLast?_append]
  rfl

/-- The deletion counts for the list, unless that is a collection. -/
theorem of_emptiedBy? (h : DeletesMember file o q name i parent n) {container : Pointer}
    (hcontainer : emptiedBy? file o = some container) :
    container = q ∧ ∀ c, parent ≠ .collection c := by
  have hfound : containerOf? file o.pointer = some container := by
    rw [emptiedBy?] at hcontainer
    split at hcontainer
    · cases hcontainer
    · exact hcontainer
    · cases hcontainer
  simp only [containerOf?, h.last?, h.lastIndex?, h.ancestor?, h.list, Option.isSome_some,
    if_true, Option.bind_eq_bind, Option.bind_some] at hfound
  constructor
  · rw [Option.ite_none_right_eq_some] at hfound
    exact (Option.some.inj hfound.2).symm
  · rintro c rfl
    cases hfound

end DeletesMember

variable {file : Syntax.File} {l : List Operation}

namespace DeletesMembers

theorem isDeletion (h : DeletesMembers file l) : ∀ o ∈ l, o.isDeletion = true := by
  intro o ho
  obtain ⟨_, _, _, _, _, hmember⟩ := h o ho
  exact hmember.isDeletion

theorem removesSubtree (h : DeletesMembers file l) : ∀ o ∈ l, o.removesSubtree = true := by
  intro o ho
  obtain ⟨_, _, _, _, _, hmember⟩ := h o ho
  exact hmember.removesSubtree

theorem subset (h : DeletesMembers file l) {m : List Operation} (hsub : ∀ o ∈ m, o ∈ l) :
    DeletesMembers file m := fun o ho => h o (hsub o ho)

end DeletesMembers

/-- An accepted deletion of a member finds it by its number. -/
theorem exists_deletesMember {uri text : String} {c : Configuration} {d : Document} {o : Operation}
    (hparse : Document.parse uri text c = .ok d) (hlength : text.length < Text.wordBound)
    (hfits : o.Fits d.syntaxTree) (hdelete : o.isDeletion = true)
    (hmember : d.syntaxTree.IsParted o.pointer) :
    ∃ q name i parent n, DeletesMember d.syntaxTree o q name i parent n := by
  obtain ⟨q, path, parent, n, hpointer, hq, hn, hcommas⟩ := hmember
  obtain ⟨what, haction⟩ : ∃ what, o.action = .delete what := by
    rw [Operation.isDeletion] at hdelete
    split at hdelete
    · next what haction => exact ⟨what, haction⟩
    · cases hdelete
  have hresolve : d.syntaxTree.resolve? o.pointer = some n := by
    rw [hpointer]
    exact Locate.resolves_child hq hn
  have hsuits : what.suits n = true := by
    obtain ⟨⟨n', hn', hsuits⟩, _⟩ := hfits
    rw [hresolve, Option.some.injEq] at hn'
    rw [haction, ← hn'] at hsuits
    exact hsuits
  obtain ⟨ts, hts, hwritten⟩ := Document.exists_written hparse hq
  have hbound : ts.length < Text.wordBound :=
    Nat.lt_of_le_of_lt (Nat.le_trans hts.length_le (Document.length_code_le hparse)) hlength
  have hstep := Node.step_of_mem_children hwritten hn
  cases hstep with
  | member name i hi _ =>
      exact ⟨q, name, i, parent, n, hpointer, ⟨what, haction, hsuits⟩, Nat.lt_trans hi hbound, hq,
        hcommas, hn⟩
  | groupItems g => cases hcommas
  | qualifier r =>
      obtain ⟨_, _, hchildren, _⟩ := Node.exists_numbered hcommas
      rw [hchildren] at hn
      obtain ⟨_, _, hpath⟩ := Node.mem_numbered.mp hn
      cases hpath
  | annotationValue a v => cases hcommas
  | propertyValue r v => cases hcommas

/-- Only members with commas beside them are selected by the pointers of a batch that deletes such
members. -/
theorem DeletesMembers.members (h : DeletesMembers file l) :
    Syntax.Members (fun path => l.any (·.pointer == ⟨path⟩)) (.file file) := by
  intro front last parent m hgone hfront hlast
  obtain ⟨o, ho, hpointer⟩ := List.any_eq_true.mp hgone
  obtain ⟨q, name, i, list, n, hmember⟩ := h o ho
  have hpath : front ++ last = q.segments ++ [name, toString i] := by
    have heq := hmember.pointer.symm.trans (beq_iff_eq.mp hpointer)
    exact (congrArg Pointer.segments heq).symm
  rcases Node.length_of_mem_children parent with hlength | hlength
  · -- the list is reached by the same segments
    obtain ⟨hq, _⟩ := List.append_inj' hpath (hlength _ hlast)
    have hlist : (Node.file file).resolve? q.segments = some list := hmember.list
    rw [hq, hlist, Option.some.injEq] at hfront
    subst hfront
    obtain ⟨_, rfl⟩ := List.append_inj' hpath (hlength _ hlast)
    have hsame := (Node.child?_of_mem hmember.member).symm.trans (Node.child?_of_mem hlast)
    obtain rfl := Option.some.inj hsame
    exact hmember.commas
  · -- no segment alone leads below a list
    exfalso
    obtain ⟨segment, rfl⟩ := List.length_eq_one_iff.mp (hlength _ hlast)
    have hq : front = q.segments ++ [name] := by
      rw [List.append_cons q.segments] at hpath
      exact (List.append_inj' hpath rfl).1
    have hnone : list.child? [name] = none := by
      refine Option.eq_none_iff_forall_ne_some.mpr fun c hc => ?_
      obtain ⟨_, _, hchildren, _⟩ := Node.exists_numbered hmember.commas
      have hmem := Node.mem_children_of_child? hc
      rw [hchildren] at hmem
      cases Node.length_of_mem_numbered _ hmem
    rw [hq, Node.resolve?_append hmember.list] at hfront
    unfold Node.resolve? at hfront
    simp only [hnone] at hfront
    cases hfront

/-- The token belongs to a node that an operation of the batch is about. -/
def touches (file : Syntax.File) (l : List Operation) (t : Token) : Bool :=
  l.any fun o => (file.resolve? o.pointer).any (·.range.contains t.range)

theorem touches_eq_true {t : Token} : touches file l t = true ↔
    ∃ o ∈ l, ∃ n, file.resolve? o.pointer = some n ∧ n.range.contains t.range = true := by
  rw [touches, List.any_eq_true]
  simp only [Option.any_eq_true]

theorem DeletesMembers.flags (h : DeletesMembers file l) (ts : List Token) :
    Syntax.Flags (touches file l) (fun path => l.any (·.pointer == ⟨path⟩))
      (Node.file file).children ts := by
  intro t _
  rw [touches_eq_true]
  constructor
  · rintro ⟨o, ho, n, hn, hcontains⟩
    obtain ⟨q, name, i, parent, m, hmember⟩ := h o ho
    rcases Syntax.resolve?_eq_some_first hn with ⟨_, rfl⟩ | ⟨first, rest, c, hpath, hc, hrest⟩
    · have hmn := hmember.canBeMember
      rw [Option.some.inj (hmember.resolve?.symm.trans hn)] at hmn
      cases hmn
    · refine ⟨first, c, rest, n, hc, List.any_eq_true.mpr ⟨o, ho, beq_iff_eq.mpr ?_⟩, hrest,
        hcontains⟩
      rw [← hpath]
  · rintro ⟨path, c, rest, n, hc, hgone, hn, hcontains⟩
    obtain ⟨o, ho, hpointer⟩ := List.any_eq_true.mp hgone
    refine ⟨o, ho, n, ?_, hcontains⟩
    rw [beq_iff_eq.mp hpointer, Syntax.File.resolve?, Node.resolve?_of_mem_children hc]
    exact hn

/-! ## Nothing bubbles up -/

theorem childCount_of_partsByCommas {parent m : Node} (h : parent.partsByCommas m = true)
    {k : Nat} (hlength : parent.listLength? = some k) : childCount parent = k := by
  cases parent with
  | record r => exact Option.some.inj hlength
  | collection c => exact Option.some.inj hlength
  | groupItems i => exact Option.some.inj hlength
  | target t => exact Option.some.inj hlength
  | _ => cases h

/-- Some member stays of every list that a deletion counts for. -/
def LeavesMembers (file : Syntax.File) (l : List Operation) : Prop :=
  file.KeepsMembers fun p => l.any (·.pointer == p)

/-- The list that the pointer leads into keeps a member, if it has commas and is no collection. -/
def leavesSibling (file : Syntax.File) (l : List Operation) (p : Pointer) : Bool :=
  (p.ancestor? 2).all fun q => (file.resolve? q).all fun parent =>
    match parent with
    | .collection _ => true
    | parent => !parent.separatesByCommas ||
        parent.children.any fun child => !l.any (·.pointer == q.append child.1)

/-- Only lists that a deletion leads into can lose all their members. -/
theorem leavesMembers_of_forall (h : ∀ o ∈ l, leavesSibling file l o.pointer = true) :
    LeavesMembers file l := by
  intro q parent hq hcommas hcollection hne
  obtain ⟨⟨path, n⟩, rest, hchildren⟩ := List.exists_cons_of_ne_nil hne
  have hn : (path, n) ∈ parent.children := hchildren ▸ List.mem_cons_self
  cases hgone : l.any (·.pointer == q.append path) with
  | false => exact ⟨path, n, hn, hgone⟩
  | true =>
      obtain ⟨o, ho, hpointer⟩ := List.any_eq_true.mp hgone
      have hancestor : o.pointer.ancestor? 2 = some q := by
        obtain ⟨_, _, hnumbered, _⟩ :=
          Node.exists_numbered (Node.partsByCommas_of_mem hcommas hn)
        rw [hnumbered] at hn
        obtain ⟨i, _, rfl⟩ := Node.mem_numbered.mp hn
        rw [beq_iff_eq.mp hpointer]
        exact q.ancestor?_append _
      have hsibling := h o ho
      rw [leavesSibling, hancestor, Option.all_some, hq, Option.all_some] at hsibling
      split at hsibling
      · next c => exact absurd rfl (hcollection c)
      · rw [hcommas, Bool.not_true, Bool.false_or] at hsibling
        obtain ⟨⟨path', m⟩, hm, hstays⟩ := List.any_eq_true.mp hsibling
        exact ⟨path', m, hm, Bool.not_eq_true' _ ▸ hstays⟩

theorem LeavesMembers.subset (h : LeavesMembers file l) {m : List Operation}
    (hsub : ∀ o ∈ m, o ∈ l) : LeavesMembers file m := by
  intro q parent hq hcommas hcollection hne
  obtain ⟨path, n, hn, hstays⟩ := h q parent hq hcommas hcollection hne
  refine ⟨path, n, hn, List.any_eq_false.mpr fun o ho => ?_⟩
  exact List.any_eq_false.mp hstays o (hsub o ho)

/-- Some child stays where members with commas beside them are deleted: one that is kept, or one with
an `@` of its own. -/
theorem DeletesMembers.exists_stays (hl : DeletesMembers file l) (hkeeps : LeavesMembers file l)
    {q : Pointer} {parent n : Node} {path : List String} (hq : file.resolve? q = some parent)
    (hn : (path, n) ∈ parent.children) (hparts : parent.partsByCommas n = true)
    (hcollection : ∀ c, parent ≠ .collection c) :
    ∃ path m, (path, m) ∈ parent.children ∧
      (l.any fun o => o.pointer == q.append path) = false := by
  cases hcommas : parent.separatesByCommas with
  | true => exact hkeeps q parent hq hcommas hcollection (List.ne_nil_of_mem hn)
  | false =>
      cases parent with
      | target t =>
          obtain ⟨k, a, _, ha, hbare⟩ := Node.exists_bare hcommas
          refine ⟨_, _, ha, Bool.eq_false_iff.mpr fun hgone => ?_⟩
          have hparts' := hl.members q.segments _ (.target t) _ hgone hq ha
          rw [hbare] at hparts'
          cases hparts'
      | record r => cases hcommas
      | collection c => cases hcommas
      | groupItems i => cases hcommas
      | _ => cases hparts

theorem emptied?_eq_none (hl : DeletesMembers file l) (hkeeps : LeavesMembers file l)
    {o : Operation} (ho : o ∈ l) {container : Pointer}
    (hcontainer : emptiedBy? file o = some container) : emptied? file container l = none := by
  obtain ⟨q, name, i, parent, n, hmember⟩ := hl o ho
  obtain ⟨rfl, hcollection⟩ := hmember.of_emptiedBy? hcontainer
  obtain ⟨name', nodes, hchildren, hlength, _⟩ := Node.exists_numbered hmember.commas
  obtain ⟨path, m, hm, hstays⟩ :=
    hl.exists_stays hkeeps hmember.list hmember.member hmember.commas hcollection
  rw [hchildren] at hm
  obtain ⟨k, hk, rfl⟩ := Node.mem_numbered.mp hm
  have hkn : k ∈ List.range nodes.length :=
    List.mem_range.mpr (List.getElem?_eq_some_iff.mp hk).1
  have hkeys : ∀ key ∈ (l.filter fun o => emptiedBy? file o == some container).filterMap
      (fun o => o.pointer.last?), key ∈ ((List.range nodes.length).erase k).map toString := by
    intro key hkey
    obtain ⟨o', ho', hlast⟩ := List.mem_filterMap.mp hkey
    obtain ⟨ho', hcontainer'⟩ := List.mem_filter.mp ho'
    obtain ⟨q', name₁, j, parent', n', hmember'⟩ := hl o' ho'
    obtain ⟨rfl, _⟩ := hmember'.of_emptiedBy? (beq_iff_eq.mp hcontainer')
    obtain rfl : parent = parent' := Option.some.inj (hmember.list.symm.trans hmember'.list)
    have hj := hmember'.member
    rw [hchildren] at hj
    obtain ⟨j', hj', hpath⟩ := Node.mem_numbered.mp hj
    have hlast' := hmember'.last?
    rw [(List.cons.inj (List.cons.inj hpath).2).1, hlast, Option.some.injEq] at hlast'
    refine List.mem_map.mpr ⟨j', ?_, hlast'.symm⟩
    refine (List.mem_erase_of_ne ?_).mpr
      (List.mem_range.mpr (List.getElem?_eq_some_iff.mp hj').1)
    rintro rfl
    have hdeleted : (l.any fun o => o.pointer == container.append [name', toString j']) = true := by
      refine List.any_eq_true.mpr ⟨o', ho', beq_iff_eq.mpr ?_⟩
      rw [hmember'.pointer, hpath]
    exact Bool.false_ne_true (hstays.symm.trans hdeleted)
  have hfew : ((l.filter fun o => emptiedBy? file o == some container).filterMap
      fun o => o.pointer.last?).eraseDups.length < nodes.length := by
    have hle := (List.subperm_of_subset (nodup_eraseDups _) fun key hkey =>
      hkeys key (List.mem_eraseDups.mp hkey)).length_le
    rw [List.length_map, List.length_erase_of_mem hkn, List.length_range] at hle
    have hpos := List.mem_range.mp hkn
    omega
  simp only [emptied?, hmember.list, Option.bind_eq_bind, Option.bind_some,
    childCount_of_partsByCommas hmember.commas hlength, decide_eq_true hfew, Bool.true_or,
    if_true]

/-- Where every list keeps a member, nothing bubbles up. -/
theorem bubble_eq_self (hl : DeletesMembers file l) (hkeeps : LeavesMembers file l) :
    bubble file l = l :=
  bubble_of_emptied? fun _ ho _ hp => emptied?_eq_none hl hkeeps ho hp

/-! ## Nothing is folded -/

/-- Deletions alone are neither folded nor marked, and no insertion moves to the start of a list. -/
theorem stages_of_isDeletion (file : Syntax.File) (h : ∀ o ∈ l, o.isDeletion = true) :
    l.map (anchorInEmpty file) = l ∧ Command.runAll l (replacements l) = l ∧
      Command.runAll l (compounds file l) = l := by
  have hfolded : folded l [] l = l := by
    refine folded_of_pick fun o ho before => ?_
    have hnone : (l.any fun other => insertedPlace? other == some o.pointer) = false := by
      refine List.any_eq_false.mpr fun other hother => ?_
      rw [insertedPlace?_of_isDeletion (h other hother)]
      exact Bool.false_ne_true
    rw [replacement_of_isDeletion (h o ho), hnone, Bool.and_false, if_neg Bool.false_ne_true]
  refine ⟨?_, hfolded, marked_eq_self fun o ho _ =>
    insertsAnnotationAt_of_isDeletion (h o ho)⟩
  rw [List.map_congr_left (g := id), List.map_id]
  intro o ho
  have hinsert : o.isListInsert = false := by
    obtain ⟨p, action⟩ := o
    cases action with
    | delete what => rfl
    | _ => cases h _ ho
  rw [anchorInEmpty, hinsert, Bool.false_and, if_neg Bool.false_ne_true]
  rfl

/-! ## What is carried out -/

/-- Every operation of a batch that removes nodes is at or below one that is not shadowed. -/
theorem exists_mem_removeShadowed (h : ∀ o ∈ l, o.removesSubtree = true) {o : Operation}
    (ho : o ∈ l) : ∃ o' ∈ removeShadowed l, o'.pointer.isPrefixOf o.pointer = true := by
  obtain ⟨a, ha, hsame⟩ := exists_survivor ho
  have hpointer : a.pointer = o.pointer := by
    rcases hsame with rfl | hcollide
    · rfl
    · exact hcollide.2.2.symm
  rw [← hpointer]
  clear hpointer hsame ho
  induction hdepth : a.pointer.depth using Nat.strongRecOn generalizing a with
  | ind depth ih =>
    by_cases hshadowed : isShadowed (removedPointers l) a = true
    · have hdestructive := Operation.isDestructive_of_removesSubtree (h a (mem_of_mem_survivors ha))
      rw [isShadowed, if_pos hdestructive] at hshadowed
      obtain ⟨r, hr, hancestor⟩ := List.any_eq_true.mp hshadowed
      rw [removedPointers_eq] at hr
      obtain ⟨b, hb, rfl⟩ := List.mem_map.mp hr
      obtain ⟨hless, hbelow⟩ := Bool.and_eq_true_iff.mp hancestor
      obtain ⟨o', ho', habove⟩ := ih b.pointer.depth (hdepth ▸ of_decide_eq_true hless) b
        (List.mem_filter.mp hb).1 rfl
      exact ⟨o', ho', Pointer.isPrefixOf_trans habove hbelow⟩
    · refine ⟨a, ?_, ?_⟩
      · rw [removeShadowed_eq, List.mem_filter]
        exact ⟨ha, by simpa using hshadowed⟩
      · exact Pointer.isPrefixOf_refl _

/-- What is carried out for deletions of members are some of them, and every other one is at or
below one of these. -/
theorem reduce_of_deletesMembers (hl : DeletesMembers file l) (hkeeps : LeavesMembers file l) :
    (∀ o ∈ reduce file l, o ∈ l) ∧
      ∀ o ∈ l, ∃ o' ∈ reduce file l, o'.pointer.isPrefixOf o.pointer = true := by
  have hsub : ∀ o ∈ removeShadowed l, o ∈ l := fun o ho => mem_of_mem_removeShadowed ho
  have hl' := hl.subset hsub
  have hreduce : reduce file l = order (removeShadowed (removeShadowed l)) := by
    obtain ⟨hanchored, _, _⟩ := stages_of_isDeletion file hl.isDeletion
    obtain ⟨_, hfolded, hmarked⟩ := stages_of_isDeletion file hl'.isDeletion
    simp only [reduce, hanchored, hfolded, hmarked]
    rw [bubble_eq_self hl' (hkeeps.subset hsub)]
  rw [hreduce]
  constructor
  · intro o ho
    exact hsub o (mem_of_mem_removeShadowed (mem_of_mem_order ho))
  · intro o ho
    obtain ⟨a, ha, hao⟩ := exists_mem_removeShadowed hl.removesSubtree ho
    obtain ⟨b, hb, hba⟩ := exists_mem_removeShadowed hl'.removesSubtree ha
    refine ⟨b, List.mem_append_right _ ?_, Pointer.isPrefixOf_trans hba hao⟩
    refine List.mem_mergeSort.mpr (List.mem_filter.mpr ⟨hb, ?_⟩)
    exact hl'.isDeletion b (mem_of_mem_removeShadowed hb)

end Batch

end AnnotationEdit

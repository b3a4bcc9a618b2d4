import AnnotationEdit.Proofs.Batch.Insertions
import AnnotationEdit.Proofs.Batch.Members
import AnnotationEdit.Proofs.Syntax.Refilling

/-!
# Batches that refill a list

Of a batch that inserts members into one list and deletes others from it, every insertion is carried
out, in the order of the batch, and each member is deleted once (`reduce_of_refills`): the insertions
keep the list. Insertions into a list without members are all carried out at its start
(`reduce_of_fills`).
-/

namespace AnnotationEdit

open Syntax (Node)

theorem Syntax.Node.listLength?_of_isList {n : Node} (h : n.isList = true) :
    n.listLength? = some n.members.length := by
  obtain ⟨_, _, hranges⟩ := Node.exists_numbered_members h
  obtain ⟨ranges, hsome⟩ := Option.isSome_iff_exists.mp h
  rw [Node.memberRanges, hsome, Option.getD_some] at hranges
  rw [Node.listLength?, hsome, Option.map_some, hranges, List.length_map]

namespace Batch

variable {file : Syntax.File} {q : Pointer} {name : String} {i : Nat} {n m : Node}
  {l : List Operation} {o r : Operation}

/-- The operation inserts a member into the list. -/
def InsertsAt (q : Pointer) (o : Operation) : Prop :=
  ∃ what index e, o = ⟨q, .insert what index e⟩

def Refills (file : Syntax.File) (q : Pointer) (n : Node) (o : Operation) : Prop :=
  InsertsAt q o ∨ ∃ name i m, DeletesMember file o q name i n m

theorem InsertsAt.isInsert (h : InsertsAt q o) : o.isInsert = true := by
  obtain ⟨_, _, _, rfl⟩ := h
  rfl

theorem InsertsAt.isDeletion (h : InsertsAt q o) : o.isDeletion = false :=
  Operation.isDeletion_of_isInsert h.isInsert

/-- Where the deletions of a batch delete members of the list. -/
theorem Refills.exists_deletesMember (h : Refills file q n o) (hdelete : o.isDeletion = true) :
    ∃ name i m, DeletesMember file o q name i n m := by
  refine h.resolve_left fun hinsert => ?_
  rw [hinsert.isDeletion] at hdelete
  cases hdelete

/-- A member that goes is not above the list, and not above other members. -/
theorem Refills.not_isShadowed (ho : Refills file q n o) (hr : Refills file q n r)
    (hremoves : r.removesSubtree = true) : isShadowed [r.pointer] o = false := by
  have hdelete : r.isDeletion = true := by
    rcases hr with ⟨_, _, _, rfl⟩ | ⟨_, _, _, hmember⟩
    · cases hremoves
    · exact hmember.isDeletion
  obtain ⟨name, i, _, hmember⟩ := hr.exists_deletesMember hdelete
  have hdepth : r.pointer.depth = q.depth + 2 := by
    rw [hmember.pointer, Pointer.depth_append]
    rfl
  rcases ho with ⟨what, index, e, rfl⟩ | ⟨_, _, _, hmember'⟩
  · rw [isShadowed_of_not_isDestructive rfl]
    have hbelow : r.pointer.isPrefixOf q = false := by
      refine Bool.eq_false_iff.mpr fun habove => ?_
      obtain ⟨path, hpath⟩ := Pointer.isPrefixOf_iff.mp habove
      have hlength := congrArg Pointer.depth hpath
      rw [Pointer.depth_append, hdepth] at hlength
      omega
    rw [hbelow]
    rfl
  · rw [isShadowed_of_isDestructive (Operation.isDestructive_of_isDeletion hmember'.isDeletion),
      Pointer.isAncestorOf, hdepth, hmember'.pointer, Pointer.depth_append]
    exact Bool.and_eq_false_imp.mpr fun hlt => absurd (of_decide_eq_true hlt) (Nat.lt_irrefl _)

/-- Nothing is shadowed; of several deletions of one member the last one is left. -/
theorem removeShadowed_of_refills (h : ∀ o ∈ l, Refills file q n o) :
    removeShadowed l = survivors l := by
  rw [removeShadowed_eq, removedPointers_eq, List.filter_eq_self]
  intro o ho
  rw [Bool.not_eq_true', Bool.eq_false_iff]
  intro hshadowed
  obtain ⟨p, hp, hshadowed⟩ := isShadowed_iff.mp hshadowed
  obtain ⟨r, hr, rfl⟩ := List.mem_map.mp hp
  obtain ⟨hr, hremoves⟩ := List.mem_filter.mp hr
  rw [(h o (mem_of_mem_survivors ho)).not_isShadowed (h r (mem_of_mem_survivors hr)) hremoves]
    at hshadowed
  cases hshadowed

/-- Insertions are left in their order. -/
theorem filter_survivors_of_refills : ∀ {l : List Operation}, (∀ o ∈ l, Refills file q n o) →
    (survivors l).filter (!·.isDeletion) = l.filter (!·.isDeletion)
  | [], _ => rfl
  | o :: l, h => by
      obtain ⟨ho, hl⟩ := List.forall_mem_cons.mp h
      have ih := filter_survivors_of_refills hl
      rw [survivors]
      rcases ho with hinsert | ⟨_, _, _, hmember⟩
      · rw [overridden, Operation.isDestructive_of_isInsert hinsert.isInsert, Bool.false_and,
          if_neg Bool.false_ne_true]
        have hpos : (!o.isDeletion) = true := by rw [hinsert.isDeletion, Bool.not_false]
        simp only [List.filter_cons, hpos, if_true, ih]
      · have hneg : ¬ (!o.isDeletion) = true := by
          rw [hmember.isDeletion]
          exact Bool.false_ne_true
        split
        · rw [List.filter_cons, if_neg hneg, ih]
        · rw [List.filter_cons, List.filter_cons, if_neg hneg, if_neg hneg, ih]

theorem isBareSingle_of_isBracketed (hq : file.resolve? q = some n) (hlist : n.isBracketed = true) :
    isBareSingle file q = false := by
  rw [isBareSingle, hq]
  cases n with
  | target t => cases hlist
  | _ => rfl

theorem marked_of_refills (hbare : isBareSingle file q = false) {all : List Operation} :
    ∀ {l : List Operation}, (∀ o ∈ l, Refills file q n o) → marked file all l = l
  | [], _ => rfl
  | o :: l, h => by
      obtain ⟨ho, hl⟩ := List.forall_mem_cons.mp h
      have hpick : marking file all l o = .pick := by
        rcases ho with ⟨what, index, e, rfl⟩ | ⟨_, _, _, hmember⟩
        · rw [marking, hbare, Bool.and_false, if_neg Bool.false_ne_true]
        · exact marking_of_isDeletion hmember.isDeletion
      rw [marked_cons, marked_of_refills hbare hl, hpick]
      rfl

/-- Where nothing is inserted in the place of a member that goes, nothing is folded. -/
theorem folded_of_refills (h : ∀ o ∈ l, Refills file q n o)
    (hfree : ∀ o ∈ l, ∀ d ∈ l, d.isDeletion = true → insertedPlace? o ≠ some d.pointer) :
    folded l [] l = l := by
  refine folded_of_pick fun o ho before => ?_
  rcases h o ho with hinsert | ⟨_, _, _, hmember⟩
  · have hkept : ∀ place, insertedPlace? o = some place →
        l.any (deletesAssignment place) = false := by
      intro place hplace
      refine List.any_eq_false.mpr fun d hd hdeletes => ?_
      obtain ⟨hdelete, hpointer⟩ := isDeletion_of_deletesAssignment hdeletes
      exact hfree o ho d hd hdelete (hpointer ▸ hplace)
    rw [replacement.eq_def]
    split
    · next hplace => rw [hkept _ hplace, Bool.false_and, if_neg Bool.false_ne_true]
    · rw [not_deletesAssignment hinsert.isDeletion, Bool.false_and, Bool.false_and,
        if_neg Bool.false_ne_true]
  · have hnone : (l.any fun other => insertedPlace? other == some o.pointer) = false :=
      List.any_eq_false.mpr fun other hother hplace =>
        hfree other hother o ho hmember.isDeletion (beq_iff_eq.mp hplace)
    rw [replacement_of_isDeletion hmember.isDeletion, hnone, Bool.and_false,
      if_neg Bool.false_ne_true]

theorem bubble_of_refills (h : ∀ o ∈ l, Refills file q n o)
    (hinserts : ∃ o ∈ l, o.isDeletion = false) : bubble file l = l := by
  obtain ⟨a, ha, hkeeps⟩ := hinserts
  have hpointer : a.pointer = q := by
    rcases h a ha with ⟨_, _, _, rfl⟩ | ⟨_, _, _, hmember⟩
    · rfl
    · rw [hmember.isDeletion] at hkeeps
      cases hkeeps
  refine bubble_of_emptied? fun o ho p hp => ?_
  rcases h o ho with hinsert | ⟨_, _, _, hmember⟩
  · rw [emptiedBy?_of_not_isDeletion hinsert.isDeletion] at hp
    cases hp
  · obtain ⟨rfl, _⟩ := hmember.of_emptiedBy? hp
    have hany : l.any (keeps p) = true := by
      refine List.any_eq_true.mpr ⟨a, ha, ?_⟩
      rw [keeps, hkeeps, hpointer, Pointer.isPrefixOf_refl]
      rfl
    simp only [emptied?, hmember.list, Option.bind_eq_bind, Option.bind_some, hany, Bool.or_true,
      if_true]

section

variable (hq : file.resolve? q = some n) (hlist : n.isList = true)
  (hbare : isBareSingle file q = false)

include hq hlist hbare

/-- What is carried out: every insertion, in the order of the batch, and one deletion for each member
that is deleted. -/
theorem reduce_of_refills (hne : n.members ≠ []) (h : ∀ o ∈ l, Refills file q n o)
    (hfree : ∀ o ∈ l, ∀ d ∈ l, d.isDeletion = true → insertedPlace? o ≠ some d.pointer)
    (hinserts : ∃ o ∈ l, o.isDeletion = false) :
    ∃ deletions, reduce file l = l.filter (!·.isDeletion) ++ deletions ∧
      (∀ o ∈ deletions, o ∈ l.filter (·.isDeletion)) ∧
      ∀ o ∈ l.filter (·.isDeletion), ∃ d ∈ deletions,
        d.pointer.isPrefixOf o.pointer = true := by
  have hanchored : l.map (anchorInEmpty file) = l := by
    refine (List.map_congr_left fun o ho => ?_).trans (List.map_id' l)
    rcases h o ho with ⟨what, index, e, rfl⟩ | ⟨_, _, _, hmember⟩
    · have hlength : ((file.resolve? q).bind (·.listLength?) == some 0) = false := by
        rw [hq, Option.bind_some, Node.listLength?_of_isList hlist, beq_eq_false_iff_ne]
        exact fun hzero => hne (List.length_eq_zero_iff.mp (Option.some.inj hzero))
      rw [anchorInEmpty, hlength, Bool.and_false, if_neg Bool.false_ne_true]
    · exact anchorInEmpty_of_isDestructive
        (Operation.isDestructive_of_isDeletion hmember.isDeletion)
  have hsub : ∀ o ∈ survivors l, o ∈ l := fun o ho => mem_of_mem_survivors ho
  have hleft : ∀ o ∈ survivors l, Refills file q n o := fun o ho => h o (hsub o ho)
  have hfilter := filter_survivors_of_refills h
  have hinserts' : ∃ o ∈ survivors l, o.isDeletion = false := by
    obtain ⟨a, ha, hkeeps⟩ := hinserts
    have hmem : a ∈ l.filter (!·.isDeletion) := List.mem_filter.mpr ⟨ha, by rw [hkeeps]; rfl⟩
    rw [← hfilter] at hmem
    exact ⟨a, (List.mem_filter.mp hmem).1, hkeeps⟩
  have hfolded : Command.runAll (survivors l) (replacements (survivors l)) = survivors l :=
    folded_of_refills hleft fun o ho d hd => hfree o (hsub o ho) d (hsub d hd)
  have hmarked : Command.runAll (survivors l) (compounds file (survivors l)) = survivors l :=
    marked_of_refills hbare hleft
  have hreduce : reduce file l = order (survivors l) := by
    simp only [reduce, hanchored, removeShadowed_of_refills h, hfolded, hmarked]
    rw [bubble_of_refills hleft hinserts', removeShadowed_of_refills hleft,
      survivors_of_distinct (distinct_survivors l)]
  refine ⟨_, by rw [hreduce, order, hfilter], ?_, ?_⟩
  · intro o ho
    obtain ⟨ho, hdelete⟩ := List.mem_filter.mp (List.mem_mergeSort.mp ho)
    exact List.mem_filter.mpr ⟨hsub o ho, hdelete⟩
  · intro o ho
    obtain ⟨ho, hdelete⟩ := List.mem_filter.mp ho
    obtain ⟨a, ha, hsame⟩ := exists_survivor ho
    have hpointer : a.isDeletion = true ∧ a.pointer = o.pointer := by
      rcases hsame with rfl | hcollide
      · exact ⟨hdelete, rfl⟩
      · refine ⟨?_, hcollide.2.2.symm⟩
        rcases h a (hsub a ha) with hinsert | ⟨_, _, _, hmember⟩
        · have hdestructive := hcollide.2.1
          rw [Operation.isDestructive_of_isInsert hinsert.isInsert] at hdestructive
          cases hdestructive
        · exact hmember.isDeletion
    exact ⟨a, List.mem_mergeSort.mpr (List.mem_filter.mpr ⟨ha, hpointer.1⟩),
      hpointer.2 ▸ Pointer.isPrefixOf_refl _⟩

/-- Insertions into a list without members are carried out at its start. -/
theorem reduce_of_fills (hempty : n.members = []) (h : ∀ o ∈ l, InsertsAt q o) :
    reduce file l = l.map fun o => o.withIndex (some 0) := by
  have hanchored : l.map (anchorInEmpty file) = l.map fun o => o.withIndex (some 0) := by
    refine List.map_congr_left fun o ho => ?_
    obtain ⟨what, index, e, rfl⟩ := h o ho
    rw [anchorInEmpty, hq, Option.bind_some, Node.listLength?_of_isList hlist, hempty]
    rfl
  have hinserts : ∀ o ∈ l.map fun o => o.withIndex (some 0), Refills file q n o := by
    intro o ho
    obtain ⟨a, ha, rfl⟩ := List.mem_map.mp ho
    obtain ⟨what, index, e, rfl⟩ := h a ha
    exact Or.inl ⟨what, some 0, e, rfl⟩
  rw [reduce_of_isInsert fun o ho => (h o ho).isInsert, hanchored]
  exact marked_of_refills hbare hinserts

end

end Batch

end AnnotationEdit

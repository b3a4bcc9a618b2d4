import AnnotationEdit.Proofs.Batch.Emptying
import AnnotationEdit.Proofs.Batch.Insertions

/-!
# Replaced assignments and parentheses

What the reduction makes of insertions into a target. The first insertion in the place of an
assignment that is deleted becomes its replacement, and the deletion goes; all other insertions stay
as they are and in their order. Where a bare annotation gets company, the mark for parentheses
follows the last annotation that is inserted.

Folding and marking see to that, but both are followed by a stage that makes up deletions and by one
that drops what is shadowed. So first of all it is shown what these two leave alone: whatever neither
deletes nor moves anything (`filter_reduce`). A mark is such an operation, and so is the insertion in
front of it; hence nothing comes between them.
-/

namespace AnnotationEdit.Batch

open Syntax (Node)

variable {file : Syntax.File} {all batch before l : List Operation} {o : Operation} {p : Pointer}
  {test : Operation → Bool}

/-! ## What survives -/

theorem filter_survivors : ∀ {l : List Operation},
    (∀ before o after, l = before ++ o :: after → test o = true → overridden o after = false) →
      (survivors l).filter test = l.filter test
  | [], _ => rfl
  | a :: l, h => by
      have hl := filter_survivors fun before o after hsplit =>
        h (a :: before) o after (congrArg (a :: ·) hsplit)
      rw [survivors]
      split
      · next hover =>
        have htest : ¬ test a = true := fun htest => by
          rw [h [] a l rfl htest] at hover
          cases hover
        rw [hl, List.filter_cons_of_neg htest]
      · rw [List.filter_cons, List.filter_cons, hl]

/-! ## What bubbling leaves -/

/-- A batch on the way: nothing but deletions has changed, and at or below a node that is deleted
newly nothing is done but deleting. -/
structure Bubbled (batch l : List Operation) : Prop where
  rest : l.filter (!·.isDeletion) = batch.filter (!·.isDeletion)
  quiet : ∀ d ∈ l, d.isDeletion = true → d ∈ batch ∨
    ∀ o ∈ batch, o.isDeletion = false → d.pointer.isPrefixOf o.pointer = false

theorem keeps_of_emptied? {d : Operation} (h : emptied? file p l = some d) :
    ∀ o ∈ l, keeps p o = false := by
  simp only [emptied?, Option.bind_eq_bind, Option.bind_eq_some_iff,
    Option.ite_none_left_eq_some, Bool.or_eq_true, not_or] at h
  obtain ⟨_, _, ⟨_, hkeeps⟩, _⟩ := h
  exact fun o ho => Bool.eq_false_iff.mpr fun hkept => hkeeps (List.any_eq_true.mpr ⟨o, ho, hkept⟩)

namespace Bubbled

theorem refl (batch : List Operation) : Bubbled batch batch := ⟨rfl, fun _ hd _ => Or.inl hd⟩

theorem mem_iff (h : Bubbled batch l) (ho : o.isDeletion = false) : o ∈ l ↔ o ∈ batch := by
  have hmem : ∀ {m : List Operation}, o ∈ m.filter (!·.isDeletion) ↔ o ∈ m := by
    intro m
    rw [List.mem_filter, ho]
    exact and_iff_left rfl
  rw [← hmem, h.rest, hmem]

theorem bubbleContainer (h : Bubbled batch l) (p : Pointer) :
    Bubbled batch (Batch.bubbleContainer file l p) := by
  rw [Batch.bubbleContainer]
  split
  · next d hd =>
    obtain ⟨hdeletion, hpointer, _⟩ := emptied?_eq_some hd
    constructor
    · -- whatever counts for a container is a deletion
      have hcounts : ∀ o ∈ l, (!o.isDeletion && emptiedBy? file o != some p) = !o.isDeletion := by
        intro o _
        rw [Bool.and_eq_left_iff_imp, Bool.not_eq_true', bne_iff_ne]
        intro hno hcounts
        rw [Operation.isDeletion_of_deletesNode (deletesNode_of_emptiedBy? hcounts)] at hno
        cases hno
      rw [List.filter_append, List.filter_filter, List.filter_congr hcounts, h.rest,
        List.filter_cons_of_neg (by rw [hdeletion]; exact Bool.false_ne_true), List.filter_nil,
        List.append_nil]
    · intro e he hdeletes
      rcases List.mem_append.mp he with he | he
      · exact h.quiet e (List.mem_filter.mp he).1 hdeletes
      · refine Or.inr fun o ho hno => ?_
        rw [List.mem_singleton.mp he, hpointer]
        exact keeps_eq_false_iff.mp (keeps_of_emptied? hd o ((h.mem_iff hno).mpr ho)) hno
  · exact h

theorem foldl_bubbleContainer : ∀ {containers : List Pointer} {l : List Operation},
    Bubbled batch l → Bubbled batch (containers.foldl (Batch.bubbleContainer file) l)
  | [], _, h => h
  | p :: _, _, h => by
      rw [List.foldl_cons]
      exact foldl_bubbleContainer (h.bubbleContainer p)

theorem bubbleBelow : ∀ (depth : Nat) {l : List Operation}, Bubbled batch l →
    Bubbled batch (Batch.bubbleBelow file depth l)
  | 0, _, h => h
  | depth + 1, _, h => bubbleBelow depth h.foldl_bubbleContainer

theorem bubble (file : Syntax.File) (batch : List Operation) :
    Bubbled batch (Batch.bubble file batch) :=
  bubbleBelow _ (refl batch)

/-- What deletes nothing is not overridden by what is deleted newly. -/
theorem filter_survivors (h : Bubbled batch l) (hdistinct : Distinct batch) :
    (survivors l).filter (!·.isDeletion) = batch.filter (!·.isDeletion) := by
  rw [← h.rest]
  refine Batch.filter_survivors ?_
  rintro before o after rfl hno
  rw [Bool.eq_false_iff, Ne, overridden_iff]
  rintro ⟨later, hlater, hcollide⟩
  have ho : o ∈ batch := (h.mem_iff (Bool.not_eq_true' _ ▸ hno)).mp (by simp)
  cases hdeletion : later.isDeletion with
  | false =>
      have hrest := hdistinct.filter (!·.isDeletion)
      rw [← h.rest, List.filter_append, List.filter_cons, if_pos hno] at hrest
      refine (List.pairwise_cons.mp (List.pairwise_append.mp hrest).2.1).1 later ?_ hcollide
      exact List.mem_filter.mpr ⟨hlater, by rw [hdeletion]; rfl⟩
  | true =>
      rw [Bool.not_eq_true'] at hno
      rcases h.quiet later (by simp [hlater]) hdeletion with hmem | hquiet
      · rw [hdistinct.unambiguous o ho later hmem hcollide, hdeletion] at hno
        cases hno
      · have hunder := hquiet o ho hno
        rw [hcollide.2.2, Pointer.isPrefixOf_refl] at hunder
        cases hunder

/-- Of what deletes nothing only moves are shadowed by what is deleted newly. -/
theorem not_isShadowed (h : Bubbled batch l) (hclear : Clear batch) (ho : o ∈ batch)
    (hno : o.isDeletion = false) (hsources : o.sources = []) :
    isShadowed (removedPointers l) o = false := by
  rw [Bool.eq_false_iff, Ne, isShadowed_iff]
  rintro ⟨r, hr, hshadowed⟩
  rw [removedPointers_eq, List.mem_map] at hr
  obtain ⟨r, hr, rfl⟩ := hr
  obtain ⟨hr, hremoves⟩ := List.mem_filter.mp hr
  have hr := mem_of_mem_survivors hr
  have hkept : r ∈ batch ∨ r.pointer.isPrefixOf o.pointer = false := by
    cases hdeletion : r.isDeletion with
    | false => exact Or.inl ((h.mem_iff hdeletion).mp hr)
    | true => exact (h.quiet r hr hdeletion).imp_right fun hquiet => hquiet o ho hno
  rcases hkept with hmem | hbeside
  · rw [hclear r hmem hremoves o ho] at hshadowed
    cases hshadowed
  · cases hdestructive : o.isDestructive with
    | false =>
        rw [isShadowed_of_not_isDestructive hdestructive, hbeside, hsources] at hshadowed
        cases hshadowed
    | true =>
        rw [isShadowed_of_isDestructive hdestructive, Pointer.isAncestorOf, hbeside,
          Bool.and_false] at hshadowed
        cases hshadowed

end Bubbled

/-! ## What is carried out of a prepared batch -/

/-- The operation deletes nothing, and is not lost when emptied containers are deleted. -/
def stays (file : Syntax.File) (batch : List Operation) (o : Operation) : Bool :=
  !o.isDeletion && !isShadowed (removedPointers (bubble file batch)) o

theorem stays_of_mem (hclear : Clear batch) (ho : o ∈ batch) (hno : o.isDeletion = false)
    (hsources : o.sources = []) : stays file batch o = true := by
  rw [stays, hno, (Bubbled.bubble file batch).not_isShadowed hclear ho hno hsources]
  rfl

theorem distinct_prepared (file : Syntax.File) (l : List Operation) :
    Distinct (prepared file l) :=
  have hdistinct : Distinct (unshadowed file l) := distinct_removeShadowed _
  distinct_marked (distinct_folded hdistinct.unambiguous hdistinct fun _ ho => ho)

theorem clear_unshadowed (file : Syntax.File) (l : List Operation) : Clear (unshadowed file l) :=
  fun _ hr hremoves _ ho => clear_removeShadowed hr hremoves ho

theorem clear_prepared (file : Syntax.File) (l : List Operation) : Clear (prepared file l) :=
  (clear_unshadowed file l).folded.marked

theorem exists_deletions (file : Syntax.File) (l : List Operation) :
    ∃ deletions, reduce file l =
        (prepared file l).filter (stays file (prepared file l)) ++ deletions ∧
      ∀ d ∈ deletions, d.isDeletion = true ∧ d ∈ bubble file (prepared file l) := by
  have hkept := (Bubbled.bubble file (prepared file l)).filter_survivors (distinct_prepared file l)
  have hstays : (removeShadowed (bubble file (prepared file l))).filter (!·.isDeletion) =
      (prepared file l).filter (stays file (prepared file l)) := by
    rw [removeShadowed_eq, List.filter_comm, hkept, List.filter_filter]
    exact List.filter_congr fun o _ => Bool.and_comm _ _
  refine ⟨_, by rw [reduce_eq, order, hstays], ?_⟩
  intro d hd
  rw [List.mem_mergeSort, List.mem_filter] at hd
  exact ⟨hd.2, mem_of_mem_removeShadowed hd.1⟩

/-- What neither deletes nor moves anything is carried out as prepared. -/
theorem filter_reduce (file : Syntax.File) (l : List Operation)
    (htest : ∀ o, test o = true → o.isDeletion = false ∧ o.sources = []) :
    (reduce file l).filter test = (prepared file l).filter test := by
  obtain ⟨deletions, hreduce, hdeletions⟩ := exists_deletions file l
  have hnone : deletions.filter test = [] := by
    refine List.filter_eq_nil_iff.mpr fun d hd hd' => ?_
    have hno := (htest d hd').1
    rw [(hdeletions d hd).1] at hno
    cases hno
  rw [hreduce, List.filter_append, hnone, List.append_nil, List.filter_filter]
  refine List.filter_congr fun o ho => ?_
  rw [Bool.and_eq_left_iff_imp]
  intro ho'
  exact stays_of_mem (clear_prepared file l) ho (htest o ho').1 (htest o ho').2

/-- Neighbours that neither delete nor move anything stay neighbours. -/
theorem exists_neighbours {front back : List Operation} {a b : Operation}
    (hprepared : prepared file l = front ++ a :: b :: back) (ha : a.isDeletion = false)
    (hsources : a.sources = []) (hb : b.isDeletion = false) (hsources' : b.sources = []) :
    ∃ kept deletions,
      reduce file l = front.filter kept ++ a :: b :: (back.filter kept ++ deletions) ∧
      ∀ d ∈ deletions, d.isDeletion = true := by
  obtain ⟨deletions, hreduce, hdeletions⟩ := exists_deletions file l
  have hclear := clear_prepared file l
  have hstays : stays file (prepared file l) a = true :=
    stays_of_mem hclear (by simp [hprepared]) ha hsources
  have hstays' : stays file (prepared file l) b = true :=
    stays_of_mem hclear (by simp [hprepared]) hb hsources'
  generalize stays file (prepared file l) = kept at hreduce hstays hstays'
  refine ⟨kept, deletions, ?_, fun d hd => (hdeletions d hd).1⟩
  rw [hreduce, hprepared, List.filter_append, List.filter_cons_of_pos hstays,
    List.filter_cons_of_pos hstays', List.append_assoc, List.cons_append, List.cons_append]

/-! ## Folding -/

/-- Inserts something at the node. -/
def insertsAt (p : Pointer) (o : Operation) : Bool := o.isInsert && o.pointer == p

/-- Replaces the node. -/
def replacesAt (p : Pointer) (o : Operation) : Bool :=
  match o.action with
  | .replaceNode _ => o.pointer == p
  | _ => false

/-- The operation is the first to insert an annotation in the place of an assignment that is
deleted. -/
def folds (all before : List Operation) (o : Operation) : Bool :=
  match insertedPlace? o with
  | some place => all.any (deletesAssignment place) &&
      !before.any fun earlier => insertedPlace? earlier == some place
  | none => false

/-- The operations behind `before` that are not folded. -/
def unfolded (all before : List Operation) : List Operation → List Operation
  | [] => []
  | o :: rest =>
    if folds all before o then unfolded all (before ++ [o]) rest
    else o :: unfolded all (before ++ [o]) rest

theorem of_replacesAt (h : replacesAt p o = true) :
    o.isDestructive = true ∧ o.isDeletion = false ∧ o.pointer = p := by
  obtain ⟨q, action⟩ := o
  cases action with
  | replaceNode element => exact ⟨rfl, rfl, beq_iff_eq.mp h⟩
  | _ => cases h

theorem assignmentPointer_inj {q : Pointer} {i j : Nat}
    (h : assignmentPointer p i = assignmentPointer q j) : p = q ∧ i = j := by
  have hsegments : p.segments ++ ["assignments"] ++ [toString i] =
      q.segments ++ ["assignments"] ++ [toString j] := congrArg Pointer.segments h
  obtain ⟨hfront, hnumber⟩ := List.append_inj' hsegments rfl
  obtain ⟨hsegments, _⟩ := List.append_inj' hfront rfl
  exact ⟨congrArg Pointer.mk hsegments, Text.eq_of_toString (List.cons.inj hnumber).1⟩

theorem insertedPlace?_eq_some {place : Pointer} (h : insertedPlace? o = some place) :
    ∃ i element, o.action = .insert Insertable.annotation (some i) element ∧
      place = assignmentPointer o.pointer i := by
  rw [insertedPlace?] at h
  split at h
  · next i element haction => exact ⟨i, element, haction, (Option.some.inj h).symm⟩
  · cases h

/-- In the place of an assignment of a target an annotation is inserted at the target, with the number
of the assignment. -/
theorem eq_of_insertedPlace? {i : Nat} (h : insertedPlace? o = some (assignmentPointer p i)) :
    ∃ element, o = ⟨p, .insert Insertable.annotation (some i) element⟩ := by
  obtain ⟨j, element, haction, hplace⟩ := insertedPlace?_eq_some h
  obtain ⟨q, action⟩ := o
  obtain ⟨rfl, rfl⟩ := assignmentPointer_inj hplace
  exact ⟨element, congrArg (Operation.mk p) haction⟩

theorem insertsAt_of_insertedPlace? {i : Nat} (h : insertedPlace? o = some (assignmentPointer p i)) :
    insertsAt p o = true := by
  obtain ⟨element, rfl⟩ := eq_of_insertedPlace? h
  exact beq_self_eq_true p

theorem exists_first {i : Nat}
    (h : l.any (fun o => insertedPlace? o == some (assignmentPointer p i)) = true) :
    ∃ element, l.find? (fun o => insertedPlace? o == some (assignmentPointer p i)) =
      some ⟨p, .insert Insertable.annotation (some i) element⟩ := by
  obtain ⟨first, hfirst⟩ := Option.isSome_iff_exists.mp
    (List.find?_isSome.mpr (List.any_eq_true.mp h))
  have hplace := (List.find?_eq_some_iff_append.mp hfirst).1
  obtain ⟨element, rfl⟩ := eq_of_insertedPlace? (beq_iff_eq.mp hplace)
  exact ⟨element, hfirst⟩

/-- What is folded becomes a replacement of the assignment. -/
theorem run_replacement_of_folds (h : folds all before o = true) :
    ∃ place element, insertedPlace? o = some place ∧ o.element? = some element ∧
      (replacement all before o).run o = [⟨place, .replaceNode element⟩] := by
  rw [folds] at h
  cases hplace : insertedPlace? o with
  | none =>
      rw [hplace] at h
      cases h
  | some place =>
      rw [hplace] at h
      obtain ⟨i, element, haction, _⟩ := insertedPlace?_eq_some hplace
      refine ⟨place, element, rfl, ?_, ?_⟩
      · rw [Operation.element?, haction, Action.element?]
      · simp only [replacement, haction, hplace, h, if_true, Command.run]

theorem run_replacement_of_isInsert (ho : o.isInsert = true) (h : folds all before o = false) :
    (replacement all before o).run o = [o] := by
  have hno := not_deletesAssignment (Operation.isDeletion_of_isInsert ho) o.pointer
  rw [replacement]
  split
  · next hplace =>
    rw [folds, hplace] at h
    rw [if_neg (Bool.eq_false_iff.mp h)]
    rfl
  · rw [hno, Bool.false_and, Bool.false_and, if_neg Bool.false_ne_true]
    rfl

theorem folds_filter (ho : insertsAt p o = true) :
    folds all (before.filter (insertsAt p)) o = folds all before o := by
  rw [folds, folds]
  split
  · next place hplace =>
    obtain ⟨i, element, _, rfl⟩ := insertedPlace?_eq_some hplace
    rw [insertsAt, Bool.and_eq_true, beq_iff_eq] at ho
    rw [List.any_filter]
    congr 2
    refine congrArg _ (funext fun earlier => ?_)
    rw [Bool.and_eq_right_iff_imp, beq_iff_eq, ← ho.2]
    exact insertsAt_of_insertedPlace?
  · rfl

/-- Folding leaves of the insertions at a target those that are not folded. -/
theorem filter_folded : ∀ {l before : List Operation}, (folded all before l).filter (insertsAt p) =
    unfolded all (before.filter (insertsAt p)) (l.filter (insertsAt p))
  | [], _ => rfl
  | o :: l, before => by
      rw [folded_cons, List.filter_append, filter_folded, List.filter_append]
      cases ho : insertsAt p o with
      | true =>
          rw [List.filter_cons_of_pos ho, List.filter_cons_of_pos ho, List.filter_nil, unfolded,
            folds_filter ho]
          have hinsert := (Bool.and_eq_true_iff.mp ho).1
          cases hfolds : folds all before o with
          | true =>
              obtain ⟨_, _, _, _, hrun⟩ := run_replacement_of_folds hfolds
              rw [hrun]
              rfl
          | false =>
              rw [run_replacement_of_isInsert hinsert hfolds, List.filter_cons_of_pos ho]
              rfl
      | false =>
          have hnone : ((replacement all before o).run o).filter (insertsAt p) = [] := by
            refine List.filter_eq_nil_iff.mpr fun z hz => ?_
            rcases mem_run_replacement hz with rfl | ⟨_, _, _, _, _, rfl⟩
            · rw [ho]
              exact Bool.false_ne_true
            · exact Bool.false_ne_true
          have hno : ¬ insertsAt p o = true := Bool.eq_false_iff.mp ho
          rw [hnone, List.filter_cons_of_neg hno, List.filter_cons_of_neg hno, List.filter_nil,
            List.append_nil, List.nil_append]

/-- Nothing replaces an assignment that nothing is inserted in place of, or not for the first
time. -/
theorem filter_folded_eq_nil (hreplaces : ∀ o ∈ l, replacesAt p o = false)
    (hfirst : ∀ o ∈ l, insertedPlace? o = some p →
      (before.any fun earlier => insertedPlace? earlier == some p) = true) :
    (folded all before l).filter (replacesAt p) = [] := by
  refine List.filter_eq_nil_iff.mpr fun z hz => ?_
  obtain ⟨between, o, rest, rfl, hrun⟩ := exists_of_mem_folded hz
  have ho : o ∈ between ++ o :: rest := by simp
  rcases mem_run_replacement hrun with rfl | ⟨place, element, hplace, _, hnone, rfl⟩
  · rw [hreplaces z ho]
    exact Bool.false_ne_true
  · show ¬ (place == p) = true
    rw [beq_iff_eq]
    rintro rfl
    rw [List.any_append, hfirst o ho hplace] at hnone
    cases hnone

theorem folded_append (all : List Operation) : ∀ l m before : List Operation,
    folded all before (l ++ m) = folded all before l ++ folded all (before ++ l) m
  | [], _, _ => by rw [List.append_nil]; rfl
  | o :: l, m, before => by
      rw [List.cons_append, folded_cons, folded_cons, folded_append all, List.append_assoc,
        List.append_assoc, List.singleton_append]

/-- An assignment that is deleted and in whose place annotations are inserted is replaced once, by
the first of them. -/
theorem filter_folded_replaces {first : Operation} {element : Tree.Element}
    (hdistinct : Distinct batch) (hdeletes : batch.any (deletesAssignment p) = true)
    (hfirst : batch.find? (fun o => insertedPlace? o == some p) = some first)
    (helement : first.element? = some element) :
    (folded batch [] batch).filter (replacesAt p) = [⟨p, .replaceNode element⟩] := by
  obtain ⟨hplace, before, after, hsplit, hbefore⟩ := List.find?_eq_some_iff_append.mp hfirst
  rw [beq_iff_eq] at hplace
  have hreplaces : ∀ o ∈ batch, replacesAt p o = false := by
    intro o ho
    rw [Bool.eq_false_iff]
    intro h
    obtain ⟨hdestructive, hno, hpointer⟩ := of_replacesAt h
    have hcollide : Collide o ⟨p, .replaceNode element⟩ := ⟨hdestructive, rfl, hpointer⟩
    exact not_collide_replaced hdistinct.unambiguous ho hno hdeletes hcollide
  have hnone : before.any (fun earlier => insertedPlace? earlier == some p) = false :=
    List.any_eq_false.mpr fun o ho => by simpa using hbefore o ho
  have hfolds : folds batch before first = true := by
    simp only [folds, hplace, hdeletes, hnone, Bool.not_false, Bool.and_true]
  obtain ⟨place, element', hplace', helement', hrun⟩ := run_replacement_of_folds hfolds
  rw [hplace, Option.some.injEq] at hplace'
  rw [helement, Option.some.injEq] at helement'
  have hfront : (folded batch [] before).filter (replacesAt p) = [] := by
    refine filter_folded_eq_nil (fun o ho => hreplaces o (by simp [hsplit, ho])) ?_
    intro o ho hinserts
    have hno := hbefore o ho
    rw [hinserts, beq_self_eq_true] at hno
    cases hno
  have hback : (folded batch (before ++ [first]) after).filter (replacesAt p) = [] := by
    refine filter_folded_eq_nil (fun o ho => hreplaces o (by simp [hsplit, ho])) fun _ _ _ => ?_
    exact List.any_eq_true.mpr ⟨first, by simp, beq_iff_eq.mpr hplace⟩
  have hfolded : folded batch [] batch = folded batch [] before ++
      ((replacement batch before first).run first ++ folded batch (before ++ [first]) after) := by
    have happend := folded_append batch before (first :: after) []
    rwa [← hsplit, List.nil_append, folded_cons] at happend
  have hself : replacesAt p ⟨p, .replaceNode element⟩ = true := beq_self_eq_true p
  rw [hfolded, hrun, List.filter_append, List.filter_append, hfront, hback, ← hplace', ← helement',
    List.filter_cons_of_pos hself]
  rfl

theorem not_mem_folded {d : Operation} (hdistinct : Distinct batch)
    (hdeletes : deletesAssignment p d = true)
    (hinserts : batch.any (fun o => insertedPlace? o == some p) = true) :
    d ∉ folded batch [] batch := by
  intro hd
  obtain ⟨hdeletion, rfl⟩ := isDeletion_of_deletesAssignment hdeletes
  obtain ⟨before, o, after, hsplit, hrun⟩ := exists_of_mem_folded hd
  rcases mem_run_replacement hrun with rfl | ⟨_, _, _, _, _, rfl⟩
  · -- it is the only one at its pointer
    have hfirst : before.any (deletesAssignment d.pointer) = false := by
      rw [hsplit] at hdistinct
      refine List.any_eq_false.mpr fun earlier hearlier hdeletes' => ?_
      exact (List.pairwise_append.mp hdistinct).2.2 earlier hearlier d List.mem_cons_self
        (collide_of_deletesAssignment hdeletes' hdeletes)
    rw [replacement_of_isDeletion hdeletion, hdeletes, List.nil_append, hfirst, hinserts] at hrun
    exact absurd hrun List.not_mem_nil
  · cases hdeletion

/-! ## Marking -/

theorem insertsAt_of_insertsAnnotationAt (h : insertsAnnotationAt p o = true) :
    insertsAt p o = true := by
  rw [insertsAnnotationAt] at h
  split at h
  · next haction => rwa [insertsAt, Operation.isInsert, haction, Bool.true_and]
  · cases h

theorem mem_of_mem_marked_of_inserts {z : Operation} (hz : z ∈ marked file all l)
    (hinserts : insertsAnnotationAt p z = true) : z ∈ l := by
  rcases mem_marked_cases hz with hz | ⟨_, _, _, _, rfl⟩
  · exact hz
  · cases hinserts

theorem filter_marked
    (htest : ∀ q unnecessary, test ⟨q, .convertToCompound unnecessary⟩ = false) :
    ∀ {l : List Operation}, (marked file all l).filter test = l.filter test
  | [] => rfl
  | o :: l => by
      have hrun : ((marking file all l o).run o).filter test = [o].filter test := by
        rw [marking]
        split
        · rw [Command.run, List.filter_cons, List.filter_cons_of_neg (Bool.eq_false_iff.mp
            (htest _ _)), List.filter_cons]
        · rfl
      rw [marked_cons, List.filter_append, hrun, filter_marked htest, ← List.filter_append]
      rfl

/-- Only a target into which something is inserted is marked. -/
theorem not_mem_marked (hmarks : ∀ o ∈ l, ∀ unnecessary, o.action ≠ .convertToCompound unnecessary)
    (hinserts : ∀ o ∈ l, insertsAnnotationAt p o = false) (unnecessary : Bool) :
    ⟨p, .convertToCompound unnecessary⟩ ∉ marked file all l := by
  intro hmark
  rcases mem_marked_cases hmark with hmem | ⟨o, ho, hinserted, _, heq⟩
  · exact hmarks _ hmem unnecessary rfl
  · obtain rfl : p = o.pointer := congrArg Operation.pointer heq
    rw [hinserts o ho] at hinserted
    cases hinserted

/-- No mark follows an operation while annotations are still inserted behind it. -/
theorem not_mem_run_marking {a : Operation}
    (ha : ∀ unnecessary, a.action ≠ .convertToCompound unnecessary)
    (hlater : ∃ o ∈ l, insertsAnnotationAt p o = true) (unnecessary : Bool) :
    ⟨p, .convertToCompound unnecessary⟩ ∉ (marking file all l a).run a := by
  intro hmark
  rw [marking] at hmark
  split at hmark
  · next hfirst =>
    rcases List.mem_cons.mp hmark with heq | hmark
    · exact ha unnecessary (congrArg Operation.action heq).symm
    · obtain rfl : p = a.pointer := congrArg Operation.pointer (List.mem_singleton.mp hmark)
      rw [List.any_eq_true.mpr hlater, Bool.not_true, Bool.and_false] at hfirst
      cases hfirst
  · exact ha unnecessary (congrArg Operation.action (List.mem_singleton.mp hmark)).symm

/-- A target with a single bare annotation is marked once, directly behind the last annotation that
is inserted into it. -/
theorem exists_mark (all : List Operation) (hbare : isBareSingle file p = true) :
    ∀ {l : List Operation},
    (∀ o ∈ l, ∀ unnecessary, o.action ≠ .convertToCompound unnecessary) →
    (∃ o ∈ l, insertsAnnotationAt p o = true) →
      ∃ front last back, marked file all l = front ++ last ::
          ⟨p, .convertToCompound (all.any (deletesAssignment (assignmentPointer p 0)))⟩ :: back ∧
        insertsAnnotationAt p last = true ∧ (∀ o ∈ back, insertsAnnotationAt p o = false) ∧
        ∀ unnecessary, ⟨p, .convertToCompound unnecessary⟩ ∉ front ++ back
  | [], _, hinserts => by
      obtain ⟨_, ho, _⟩ := hinserts
      exact absurd ho List.not_mem_nil
  | a :: l, hmarks, hinserts => by
      obtain ⟨ha, hmarks⟩ := List.forall_mem_cons.mp hmarks
      rw [marked_cons]
      by_cases hlater : ∃ o ∈ l, insertsAnnotationAt p o = true
      · obtain ⟨front, last, back, hmarked, hlast, hback, hnone⟩ :=
          exists_mark all hbare hmarks hlater
        refine ⟨(marking file all l a).run a ++ front, last, back, ?_, hlast, hback, ?_⟩
        · rw [hmarked, List.append_assoc]
        · intro unnecessary hmark
          rw [List.append_assoc, List.mem_append] at hmark
          exact hmark.elim (not_mem_run_marking ha hlater unnecessary) (hnone unnecessary)
      · have hlast : insertsAnnotationAt p a = true := by
          obtain ⟨o, ho, hinserts⟩ := hinserts
          rcases List.mem_cons.mp ho with rfl | ho
          · exact hinserts
          · exact absurd ⟨o, ho, hinserts⟩ hlater
        have hrest : ∀ o ∈ l, insertsAnnotationAt p o = false := fun o ho =>
          Bool.eq_false_iff.mpr fun hinserts => hlater ⟨o, ho, hinserts⟩
        obtain rfl : a.pointer = p := beq_iff_eq.mp
          (Bool.and_eq_true_iff.mp (insertsAt_of_insertsAnnotationAt hlast)).2
        have hnone : l.any (insertsAnnotationAt a.pointer) = false :=
          List.any_eq_false.mpr fun o ho => Bool.eq_false_iff.mp (hrest o ho)
        refine ⟨[], a, marked file all l, ?_, hlast, ?_, not_mem_marked hmarks hrest⟩
        · rw [marking, hlast, hnone, hbare]
          rfl
        · intro o ho
          rw [Bool.eq_false_iff]
          intro hinserts
          rw [hrest o (mem_of_mem_marked_of_inserts ho hinserts)] at hinserts
          cases hinserts

/-! ## The whole reduction -/

theorem insertsAt_anchorInEmpty (file : Syntax.File) (o : Operation) :
    insertsAt p (anchorInEmpty file o) = insertsAt p o := by
  rw [insertsAt, insertsAt, isInsert_anchorInEmpty, pointer_anchorInEmpty]

/-- An insertion moves nothing. -/
theorem sources_of_isInsert (h : o.isInsert = true) : o.sources = [] := by
  obtain ⟨q, action⟩ := o
  cases action with
  | moveCollectionValue index sources => cases h
  | _ => rfl

theorem isShadowed_of_insertsAt {removed : List Pointer} (h : insertsAt p o = true) :
    isShadowed removed o = removed.any (·.isPrefixOf p) := by
  obtain ⟨hinsert, hpointer⟩ := Bool.and_eq_true_iff.mp h
  rw [isShadowed, Operation.isDestructive_of_isInsert hinsert, sources_of_isInsert hinsert,
    beq_iff_eq.mp hpointer]
  simp only [Bool.false_eq_true, if_false, List.any_nil, Bool.or_false]

theorem filter_unshadowed (hkept : ∃ o ∈ unshadowed file l, insertsAt p o = true)
    (hanchored : ∀ o ∈ l, o.pointer = p → anchorInEmpty file o = o) :
    (unshadowed file l).filter (insertsAt p) = l.filter (insertsAt p) := by
  have hinserts : (l.map (anchorInEmpty file)).filter (insertsAt p) = l.filter (insertsAt p) := by
    rw [List.filter_map]
    have htest : insertsAt p ∘ anchorInEmpty file = insertsAt p :=
      funext (insertsAt_anchorInEmpty file)
    rw [htest]
    refine (List.map_congr_left fun o ho => ?_).trans (List.map_id' _)
    obtain ⟨ho, hat⟩ := List.mem_filter.mp ho
    exact hanchored o ho (beq_iff_eq.mp (Bool.and_eq_true_iff.mp hat).2)
  obtain ⟨a, ha, hat⟩ := hkept
  rw [unshadowed, removeShadowed_eq] at ha ⊢
  have hclear := (List.mem_filter.mp ha).2
  rw [isShadowed_of_insertsAt hat] at hclear
  rw [List.filter_comm, filter_survivors, hinserts, List.filter_eq_self]
  · intro o ho
    rwa [isShadowed_of_insertsAt (List.mem_filter.mp ho).2]
  · intro before o after _ ho
    rw [overridden, Operation.isDestructive_of_isInsert (Bool.and_eq_true_iff.mp ho).1,
      Bool.false_and]

theorem not_deleted_of_replaced {d : Operation} {element : Tree.Element}
    (hdeletes : (unshadowed file l).any (deletesAssignment p) = true)
    (hinserts : (unshadowed file l).any (fun o => insertedPlace? o == some p) = true)
    (hreplaced : ⟨p, .replaceNode element⟩ ∈ prepared file l)
    (hd : d ∈ reduce file l) (hdeletion : d.isDeletion = true) :
    d.pointer ≠ p ∧ (d.deletesNode = true → d.pointer.isPrefixOf p = false) := by
  rw [reduce_eq, mem_order] at hd
  rcases (Bubbled.bubble file _).quiet d (mem_of_mem_removeShadowed hd) hdeletion with hd | hquiet
  · have hfolded := mem_of_mem_marked hdeletion hd
    have hd := mem_of_mem_folded hdeletion hfolded
    obtain ⟨e, he, hdeletes⟩ := List.any_eq_true.mp hdeletes
    have hdistinct : Distinct (unshadowed file l) := distinct_removeShadowed _
    obtain ⟨hdeletion', hpointer⟩ := isDeletion_of_deletesAssignment hdeletes
    have hdestructive := Operation.isDestructive_of_isDeletion hdeletion'
    have hne : d.pointer ≠ p := by
      intro heq
      have hsame : d = e := hdistinct.unambiguous d hd e he
        ⟨Operation.isDestructive_of_isDeletion hdeletion, hdestructive, heq.trans hpointer.symm⟩
      rw [hsame] at hfolded
      exact not_mem_folded hdistinct hdeletes hinserts hfolded
    refine ⟨hne, fun hnode => Bool.eq_false_iff.mpr fun hunder => ?_⟩
    have hclear := clear_unshadowed file l d hd (Operation.removesSubtree_of_deletesNode hnode) e he
    rw [isShadowed_of_isDestructive hdestructive, hpointer,
      Pointer.isAncestorOf_iff.mpr ⟨hunder, hne⟩] at hclear
    cases hclear
  · have hbeside : d.pointer.isPrefixOf p = false := hquiet _ hreplaced rfl
    refine ⟨?_, fun _ => hbeside⟩
    rintro rfl
    rw [Pointer.isPrefixOf_refl] at hbeside
    cases hbeside

theorem assignments_ne_nil {t : Syntax.Target} (ht : file.resolve? p = some (.target t)) {i : Nat}
    (h : (file.resolve? (assignmentPointer p i)).isSome = true) : t.assignments ≠ [] := by
  rintro hnil
  obtain ⟨n, hn⟩ := Option.isSome_iff_exists.mp h
  have hpath : (assignmentPointer p i).segments = p.segments ++ ["assignments", toString i] :=
    List.append_assoc _ _ _
  rw [Syntax.File.resolve?, hpath, Node.resolve?_append ht] at hn
  rcases Syntax.resolve?_eq_some_first hn with ⟨hpath, _⟩ | ⟨_, _, _, _, hmem, _⟩
  · cases hpath
  · rw [Node.children, hnil] at hmem
    exact absurd hmem List.not_mem_nil

/-- What inserts or replaces something is carried out as it is after folding. -/
theorem filter_reduce_folded (file : Syntax.File) (l : List Operation)
    (htest : ∀ o, test o = true → o.isInsert = true ∨ ∃ q, replacesAt q o = true) :
    (reduce file l).filter test =
      (folded (unshadowed file l) [] (unshadowed file l)).filter test := by
  rw [filter_reduce]
  · refine filter_marked fun q unnecessary => Bool.eq_false_iff.mpr fun hmark => ?_
    rcases htest _ hmark with hinsert | ⟨_, hreplaces⟩
    · cases hinsert
    · cases hreplaces
  · intro o ho
    rcases htest o ho with hinsert | ⟨_, hreplaces⟩
    · exact ⟨Operation.isDeletion_of_isInsert hinsert, sources_of_isInsert hinsert⟩
    · obtain ⟨hdestructive, hno, _⟩ := of_replacesAt hreplaces
      exact ⟨hno, sources_of_isDestructive hdestructive⟩

/-- What is in a folded batch is of the batch or a replacement, so it holds no mark. -/
theorem not_mark_of_mem_folded
    (hunmarked : ∀ o ∈ l, ∀ unnecessary, o.action ≠ .convertToCompound unnecessary) :
    ∀ o ∈ folded (unshadowed file l) [] (unshadowed file l),
      ∀ unnecessary, o.action ≠ .convertToCompound unnecessary := by
  intro o ho unnecessary haction
  rcases mem_folded_cases ho with ho | ⟨_, _, _, rfl⟩
  · obtain ⟨a, ha, rfl⟩ := List.mem_map.mp (mem_of_mem_removeShadowed ho)
    refine hunmarked a ha unnecessary ?_
    rw [anchorInEmpty] at haction
    split at haction
    · obtain ⟨q, action⟩ := a
      cases action <;> first | exact haction | cases haction
    · exact haction
  · cases haction

/-- A target with a single bare annotation is marked once, directly behind the last annotation that
is inserted into it after folding. -/
theorem exists_mark_of_reduce (file : Syntax.File) (l : List Operation)
    (hunmarked : ∀ o ∈ l, ∀ unnecessary, o.action ≠ .convertToCompound unnecessary)
    (hbare : isBareSingle file p = true) :
    let remaining := folded (unshadowed file l) [] (unshadowed file l)
    (∃ o ∈ remaining, insertsAnnotationAt p o = true) →
    ∃ front last back,
      reduce file l = front ++ last :: ⟨p, .convertToCompound
        (remaining.any (deletesAssignment (assignmentPointer p 0)))⟩ :: back ∧
      (front ++ [last]).filter (insertsAnnotationAt p) =
        remaining.filter (insertsAnnotationAt p) ∧
      insertsAnnotationAt p last = true ∧ (∀ o ∈ back, insertsAnnotationAt p o = false) ∧
      ∀ unnecessary, ⟨p, .convertToCompound unnecessary⟩ ∉ front ++ back := by
  intro remaining hinserts
  obtain ⟨front, last, back, hmarked, hlast, hback, hnone⟩ :=
    exists_mark remaining hbare (not_mark_of_mem_folded hunmarked) hinserts
  have hinsert := (Bool.and_eq_true_iff.mp (insertsAt_of_insertsAnnotationAt hlast)).1
  have hno := Operation.isDeletion_of_isInsert hinsert
  obtain ⟨kept, deletions, hreduce, hdeletions⟩ :=
    exists_neighbours (l := l) hmarked hno (sources_of_isInsert hinsert) rfl rfl
  have hrest : ∀ o ∈ back.filter kept ++ deletions, insertsAnnotationAt p o = false := by
    intro o ho
    rcases List.mem_append.mp ho with ho | ho
    · exact hback o (List.mem_filter.mp ho).1
    · exact insertsAnnotationAt_of_isDeletion (hdeletions o ho)
  refine ⟨_, last, _, hreduce, ?_, hlast, hrest, ?_⟩
  · have hfiltered : (reduce file l).filter (insertsAnnotationAt p) =
        remaining.filter (insertsAnnotationAt p) :=
      filter_reduce_folded file l fun o ho =>
        Or.inl (Bool.and_eq_true_iff.mp (insertsAt_of_insertsAnnotationAt ho)).1
    have hnothing : (back.filter kept ++ deletions).filter (insertsAnnotationAt p) = [] :=
      List.filter_eq_nil_iff.mpr fun o ho => Bool.eq_false_iff.mp (hrest o ho)
    rw [List.append_cons] at hreduce
    rw [← hfiltered, hreduce, List.filter_append (front.filter kept ++ [last]), List.filter_cons,
      hnothing]
    exact (List.append_nil _).symm
  · intro unnecessary hmark
    simp only [List.mem_append, List.mem_filter] at hmark
    rcases hmark with hmark | hmark | hmark
    · exact hnone unnecessary (List.mem_append_left _ hmark.1)
    · exact hnone unnecessary (List.mem_append_right _ hmark.1)
    · cases hdeletions _ hmark

/-- For every file and every batch of operations at nodes of the file without marks, and every
target:

If an assignment is deleted and something is inserted in its place, all that after shadowing, then
it is replaced, once and by what is inserted there first; neither it nor a node above it is deleted;
and whatever else is inserted at the target is inserted in its order.

If the target has a single assignment and no parentheses and an annotation is still inserted after
folding, then one mark for it follows, directly behind the last annotation that is inserted. The mark
says that the parentheses are unnecessary just if the assignment is still deleted. -/
theorem reduce_replaces_and_marks (file : Syntax.File) (operations : List Operation)
    (hresolve : ∀ o ∈ operations, (file.resolve? o.pointer).isSome = true)
    (hunmarked : ∀ o ∈ operations, ∀ unnecessary, o.action ≠ .convertToCompound unnecessary)
    {p : Pointer} {t : Syntax.Target} (ht : file.resolve? p = some (.target t)) :
    let batch := unshadowed file operations
    let remaining := Command.runAll batch (replacements batch)
    let result := reduce file operations
    (∀ i, batch.any (deletesAssignment (assignmentPointer p i)) = true →
      (∃ element, ⟨p, .insert Insertable.annotation (some i) element⟩ ∈ batch) →
      (∃ element,
        batch.find? (fun o => insertedPlace? o == some (assignmentPointer p i)) =
          some ⟨p, .insert Insertable.annotation (some i) element⟩ ∧
        result.filter (replacesAt (assignmentPointer p i)) =
          [⟨assignmentPointer p i, .replaceNode element⟩]) ∧
      (∀ d ∈ result, d.isDeletion = true → d.pointer ≠ assignmentPointer p i ∧
        (d.deletesNode = true → d.pointer.isPrefixOf (assignmentPointer p i) = false)) ∧
      result.filter (insertsAt p) = unfolded batch [] (operations.filter (insertsAt p))) ∧
    (t.compound = none → t.assignments.length = 1 →
      (∃ o ∈ remaining, insertsAnnotationAt p o = true) →
      ∃ front last back,
        result = front ++ last :: ⟨p, .convertToCompound
          (remaining.any (deletesAssignment (assignmentPointer p 0)))⟩ :: back ∧
        (front ++ [last]).filter (insertsAnnotationAt p) =
          remaining.filter (insertsAnnotationAt p) ∧
        insertsAnnotationAt p last = true ∧ (∀ o ∈ back, insertsAnnotationAt p o = false) ∧
        ∀ unnecessary, ⟨p, .convertToCompound unnecessary⟩ ∉ front ++ back) := by
  intro batch remaining result
  constructor
  · intro i hdeletes hinserts
    obtain ⟨inserted, hinsertion⟩ := hinserts
    have hany : batch.any (fun o => insertedPlace? o == some (assignmentPointer p i)) = true :=
      List.any_eq_true.mpr ⟨_, hinsertion, beq_self_eq_true _⟩
    obtain ⟨element, hfirst⟩ := exists_first hany
    have hreplaced := filter_folded_replaces (distinct_removeShadowed _) hdeletes hfirst rfl
    have hmem : ⟨assignmentPointer p i, .replaceNode element⟩ ∈ prepared file operations :=
      mem_marked_of_mem (List.mem_filter.mp (hreplaced ▸ List.mem_singleton_self _)).1
    refine ⟨⟨element, hfirst, ?_⟩, ?_, ?_⟩
    · exact (filter_reduce_folded file operations fun o ho => Or.inr ⟨_, ho⟩).trans hreplaced
    · intro d hd hdeletion
      exact not_deleted_of_replaced hdeletes hany hmem hd hdeletion
    · have hnonempty : t.assignments ≠ [] := by
        obtain ⟨d, hd, hdeletes⟩ := List.any_eq_true.mp hdeletes
        obtain ⟨hdeletion, hpointer⟩ := isDeletion_of_deletesAssignment hdeletes
        refine assignments_ne_nil ht (i := i) ?_
        rw [← hpointer]
        exact hresolve d (mem_of_mem_anchored (Operation.isDestructive_of_isDeletion hdeletion)
          (mem_of_mem_removeShadowed hd))
      have hanchored : ∀ o ∈ operations, o.pointer = p → anchorInEmpty file o = o :=
        fun o _ hpointer => anchorInEmpty_of_target (hpointer ▸ ht) hnonempty
      have hkept := filter_unshadowed ⟨_, hinsertion, beq_self_eq_true p⟩ hanchored
      have hfolded : result.filter (insertsAt p) = (folded batch [] batch).filter (insertsAt p) :=
        filter_reduce_folded file operations fun o ho => Or.inl (Bool.and_eq_true_iff.mp ho).1
      rw [hfolded, filter_folded, ← hkept]
      rfl
  · intro hcompound hlength hinserts
    have hbare : isBareSingle file p = true := by
      rw [isBareSingle, ht]
      show (t.compound.isNone && t.assignments.length == 1) = true
      rw [hcompound, hlength]
      rfl
    exact exists_mark_of_reduce file operations hunmarked hbare hinserts

/-- A target with one bare annotation without a value. -/
def oneAnnotation : Syntax.File :=
  let place : Range := Range.empty Position.origin
  ⟨"file", place, [], [⟨.entity, "E", place, place, none,
    [.single ⟨place, some place, ⟨place, [⟨"A", place⟩]⟩, none, none, none, false⟩]⟩]⟩

/-- An annotation of a term. -/
def annotationOf (term : String) : Tree.Element :=
  ⟨Tree.ElementKind.annotation, [("Term", ⟨"Term", term, none⟩)], [], none, none⟩

/-- Two insertions in the place of the annotation, and its deletion. -/
def insertTwiceAndDelete : List Operation :=
  [⟨⟨["targets", "0"]⟩, .insert Insertable.annotation (some 0) (annotationOf "B")⟩,
    ⟨⟨["targets", "0"]⟩, .insert Insertable.annotation (some 0) (annotationOf "C")⟩,
    ⟨⟨["targets", "0", "assignments", "0"]⟩, .delete Deletable.annotation⟩]

/-- The first insertion replaces the annotation; the second one stays, and the mark behind it says
that the parentheses are needed. -/
theorem reduce_replaces_and_marks_twice :
    (reduce oneAnnotation insertTwiceAndDelete).filter
        (replacesAt ⟨["targets", "0", "assignments", "0"]⟩) =
      [⟨⟨["targets", "0", "assignments", "0"]⟩, .replaceNode (annotationOf "B")⟩] ∧
    (reduce oneAnnotation insertTwiceAndDelete).filter (insertsAt ⟨["targets", "0"]⟩) =
      [⟨⟨["targets", "0"]⟩, .insert Insertable.annotation (some 0) (annotationOf "C")⟩] ∧
    ∃ front last back, reduce oneAnnotation insertTwiceAndDelete =
        front ++ last :: ⟨⟨["targets", "0"]⟩, .convertToCompound false⟩ :: back ∧
      insertsAnnotationAt ⟨["targets", "0"]⟩ last = true := by
  obtain ⟨hreplaced, hmarked⟩ := reduce_replaces_and_marks oneAnnotation insertTwiceAndDelete
    (by
      simp only [insertTwiceAndDelete, List.forall_mem_cons]
      exact ⟨rfl, rfl, rfl, fun _ h => absurd h List.not_mem_nil⟩)
    (by
      simp only [insertTwiceAndDelete, List.forall_mem_cons]
      exact ⟨nofun, nofun, nofun, fun _ h => absurd h List.not_mem_nil⟩)
    (p := ⟨["targets", "0"]⟩) rfl
  obtain ⟨⟨element, hfirst, hreplaces⟩, _, hinserts⟩ := hreplaced 0 rfl ⟨_, List.mem_cons_self⟩
  obtain rfl : annotationOf "B" = element := by
    injection hfirst with hfirst
    injection hfirst with _ haction
    injection haction
  obtain ⟨front, last, back, hresult, _, hlast, _⟩ := hmarked rfl rfl
    ⟨_, List.mem_cons_of_mem _ List.mem_cons_self, rfl⟩
  exact ⟨hreplaces, hinserts, front, last, back, hresult, hlast⟩

end AnnotationEdit.Batch

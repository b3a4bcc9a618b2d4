import AnnotationEdit.Proofs.Batch.Reorder

/-!
# Reduction does not depend on the order of deletions

Every stage of the reduction takes reordered batches to reordered batches: shadowing, folding,
marking and bubbling look at positions only among operations that do not commute. At the end the
deletions are sorted by pointers that resolve, and such pointers are ordered in one way only, so two
reordered batches become the same list (`reduce_eq_of_perm`).
-/

namespace AnnotationEdit.Batch

/-! ## Shadowing -/

def overridden (o : Operation) (rest : List Operation) : Bool :=
  o.isDestructive && rest.any fun later => later.isDestructive && later.pointer == o.pointer

def survivors : List Operation → List Operation
  | [] => []
  | o :: rest => if overridden o rest then survivors rest else o :: survivors rest

theorem overridden_iff {o : Operation} {rest : List Operation} :
    overridden o rest = true ↔ ∃ later ∈ rest, Collide o later := by
  simp only [overridden, Bool.and_eq_true, List.any_eq_true, beq_iff_eq]
  constructor
  · rintro ⟨ho, later, hl, hd, hp⟩
    exact ⟨later, hl, ho, hd, hp.symm⟩
  · rintro ⟨later, hl, ho, hd, hp⟩
    exact ⟨ho, later, hl, hd, hp.symm⟩

theorem mem_of_mem_survivors {o : Operation} : ∀ {l : List Operation}, o ∈ survivors l → o ∈ l
  | a :: l, h => by
      rw [survivors] at h
      split at h
      · exact List.mem_cons_of_mem _ (mem_of_mem_survivors h)
      · rcases List.mem_cons.mp h with rfl | h
        · exact List.mem_cons_self
        · exact List.mem_cons_of_mem _ (mem_of_mem_survivors h)

/-- No two operations of the batch overwrite one node. -/
def Distinct (operations : List Operation) : Prop :=
  operations.Pairwise fun a b => ¬Collide a b

theorem distinct_survivors : ∀ l : List Operation, Distinct (survivors l)
  | [] => List.Pairwise.nil
  | o :: l => by
      rw [survivors]
      split
      · exact distinct_survivors l
      · next h =>
        refine List.pairwise_cons.mpr ⟨?_, distinct_survivors l⟩
        intro b hb hc
        exact h (overridden_iff.mpr ⟨b, mem_of_mem_survivors hb, hc⟩)

theorem runAll_shadowing (removed : List Pointer) : ∀ l : List Operation,
    Command.runAll l ((l.zip (lastAtPointer l)).map fun (o, last) =>
      if last && !isShadowed removed o then .pick else .drop) =
      (survivors l).filter fun o => !isShadowed removed o
  | [] => rfl
  | o :: l => by
      have ih := runAll_shadowing removed l
      simp only [Command.runAll] at ih
      simp only [Command.runAll, lastAtPointer, survivors, List.zip_cons_cons, List.map_cons,
        List.flatMap_cons, ih]
      rw [← overridden]
      cases overridden o l
      · cases hs : isShadowed removed o <;> simp [hs, Command.run]
      · simp [Command.run]

theorem removedPointers_eq : ∀ l : List Operation,
    removedPointers l = ((survivors l).filter (·.removesSubtree)).map (·.pointer)
  | [] => rfl
  | o :: l => by
      have ih := removedPointers_eq l
      simp only [removedPointers] at ih
      simp only [removedPointers, lastAtPointer, survivors, List.zip_cons_cons, List.filter_cons]
      rw [← overridden]
      cases overridden o l
      · cases hs : o.removesSubtree <;> simp [hs, ih]
      · simp [ih]

theorem removeShadowed_eq (l : List Operation) :
    removeShadowed l = (survivors l).filter fun o => !isShadowed (removedPointers l) o :=
  runAll_shadowing (removedPointers l) l

theorem distinct_removeShadowed (l : List Operation) : Distinct (removeShadowed l) := by
  rw [removeShadowed_eq]
  exact (distinct_survivors l).filter _

theorem mem_of_mem_removeShadowed {o : Operation} {l : List Operation}
    (h : o ∈ removeShadowed l) : o ∈ l := by
  rw [removeShadowed_eq] at h
  exact mem_of_mem_survivors (List.mem_filter.mp h).1

namespace Reordered

theorem overridden_eq {l l' : List Operation} (h : Reordered l l') (o : Operation) :
    overridden o l = overridden o l' := by
  unfold overridden
  rw [h.any_eq]

theorem overridden_cons {a b : Operation} (h : Independent a b) (l : List Operation) :
    overridden a (b :: l) = overridden a l := by
  rw [Bool.eq_iff_iff, overridden_iff, overridden_iff]
  constructor
  · rintro ⟨later, hl, hc⟩
    rcases List.mem_cons.mp hl with rfl | hl
    · exact absurd hc h.2
    · exact ⟨later, hl, hc⟩
  · rintro ⟨later, hl, hc⟩
    exact ⟨later, List.mem_cons_of_mem _ hl, hc⟩

theorem survivors {l l' : List Operation} (h : Reordered l l') :
    Reordered (Batch.survivors l) (Batch.survivors l') := by
  induction h with
  | nil => exact nil
  | cons o hl ih =>
      rw [Batch.survivors, Batch.survivors, hl.overridden_eq]
      split
      · exact ih
      · exact cons o ih
  | @swap a b l hab =>
      simp only [Batch.survivors, overridden_cons hab, overridden_cons hab.symm]
      cases overridden a l
      · cases overridden b l
        · simpa using swap (Batch.survivors l) hab
        · simpa using refl _
      · simpa using refl _
  | trans _ _ ih ih' => exact ih.trans ih'

theorem isShadowed_eq {l l' : List Operation} (h : Reordered l l') :
    isShadowed (removedPointers l) = isShadowed (removedPointers l') := by
  have hperm : (removedPointers l).Perm (removedPointers l') := by
    rw [removedPointers_eq, removedPointers_eq]
    exact ((h.survivors.perm).filter _).map _
  funext o
  unfold isShadowed
  rw [hperm.any_eq, hperm.any_eq]

theorem removeShadowed {l l' : List Operation} (h : Reordered l l') :
    Reordered (Batch.removeShadowed l) (Batch.removeShadowed l') := by
  rw [removeShadowed_eq, removeShadowed_eq, h.isShadowed_eq]
  exact h.survivors.filter _

end Reordered

/-! ## Folding -/

/-- What becomes of an operation of the batch `all` when the batch before it is `before`. -/
def replacement (all before : List Operation) (o : Operation) : Command :=
  match o.action, insertedPlace? o with
  | .insert _ _ element, some place =>
    if all.any (deletesAssignment place) &&
        !before.any (fun earlier => insertedPlace? earlier == some place) then
      .replace [⟨place, .replaceNode element⟩]
    else .pick
  | _, _ =>
    if deletesAssignment o.pointer o && !before.any (deletesAssignment o.pointer) &&
        all.any (fun other => insertedPlace? other == some o.pointer) then .drop
    else .pick

/-- The batch after folding, when `before` was folded already. -/
def folded (all before operations : List Operation) : List Operation :=
  Command.runAll operations (replacementsFrom all before operations)

theorem folded_cons (all before : List Operation) (o : Operation) (rest : List Operation) :
    folded all before (o :: rest) =
      (replacement all before o).run o ++ folded all (before ++ [o]) rest := rfl

/-- Where every operation stays what it is, folding changes nothing. -/
theorem folded_of_pick {all : List Operation} : ∀ {l before : List Operation},
    (∀ o ∈ l, ∀ before, replacement all before o = .pick) → folded all before l = l
  | [], _, _ => rfl
  | o :: l, before, h => by
      obtain ⟨ho, hl⟩ := List.forall_mem_cons.mp h
      rw [folded_cons, ho before, folded_of_pick hl]
      rfl

theorem replacement_congr {all all' before before' : List Operation}
    (hall : all.Perm all') (hbefore : before.Perm before') (o : Operation) :
    replacement all before o = replacement all' before' o := by
  simp only [replacement, hall.any_eq, hbefore.any_eq]

theorem folded_congr {all all' : List Operation} (hall : all.Perm all') :
    ∀ {before before' : List Operation} (l : List Operation), before.Perm before' →
      folded all before l = folded all' before' l
  | _, _, [], _ => rfl
  | before, before', o :: l, hbefore => by
      rw [folded_cons, folded_cons, replacement_congr hall hbefore,
        folded_congr hall l (hbefore.append_right [o])]

theorem isDeletion_of_deletesAssignment {p : Pointer} {o : Operation}
    (h : deletesAssignment p o = true) : o.isDeletion = true ∧ o.pointer = p := by
  unfold deletesAssignment at h
  split at h
  · next heq => exact ⟨by simp [Operation.isDeletion, heq], beq_iff_eq.mp h⟩
  · next heq => exact ⟨by simp [Operation.isDeletion, heq], beq_iff_eq.mp h⟩
  · exact absurd h (by decide)

theorem collide_of_deletesAssignment {p : Pointer} {a b : Operation}
    (ha : deletesAssignment p a = true) (hb : deletesAssignment p b = true) : Collide a b := by
  obtain ⟨hda, hpa⟩ := isDeletion_of_deletesAssignment ha
  obtain ⟨hdb, hpb⟩ := isDeletion_of_deletesAssignment hb
  exact ⟨Operation.isDestructive_of_isDeletion hda, Operation.isDestructive_of_isDeletion hdb,
    hpa.trans hpb.symm⟩

theorem insertedPlace?_of_isDeletion {o : Operation} (h : o.isDeletion = true) :
    insertedPlace? o = none := by
  obtain ⟨p, action⟩ := o
  cases action <;> simp_all [Operation.isDeletion, insertedPlace?]

theorem replacement_of_isDeletion {all before : List Operation} {o : Operation}
    (h : o.isDeletion = true) :
    replacement all before o =
      if deletesAssignment o.pointer o && !before.any (deletesAssignment o.pointer) &&
        all.any (fun other => insertedPlace? other == some o.pointer) then .drop else .pick := by
  unfold replacement
  split
  · next hplace =>
    rw [insertedPlace?_of_isDeletion h] at hplace
    exact absurd hplace (by simp)
  · rfl

/-- Every other operation stays, or becomes the replacement of an assignment that is deleted. -/
theorem run_replacement_of_not_isDeletion {all before : List Operation} {o z : Operation}
    (h : o.isDeletion = false) (hz : z ∈ (replacement all before o).run o) :
    z = o ∨ ∃ place, insertedPlace? o = some place ∧ all.any (deletesAssignment place) = true ∧
      z.isDeletion = false ∧ z.pointer = place := by
  have hnot : deletesAssignment o.pointer o = false := by
    cases hd : deletesAssignment o.pointer o
    · rfl
    · rw [(isDeletion_of_deletesAssignment hd).1] at h
      exact absurd h (by decide)
  unfold replacement at hz
  split at hz
  · next element place _ hplace =>
    split at hz
    · next hc =>
      rw [Bool.and_eq_true] at hc
      have heq := List.mem_singleton.mp hz
      exact Or.inr ⟨place, hplace, hc.1, by rw [heq]; rfl, by rw [heq]⟩
    · exact Or.inl (List.mem_singleton.mp hz)
  · rw [hnot] at hz
    exact Or.inl (List.mem_singleton.mp hz)

/-- What becomes of an operation does not depend on operations before it that it commutes with. -/
theorem replacement_append {all before : List Operation} {a b : Operation} (h : Independent a b) :
    replacement all (before ++ [b]) a = replacement all before a := by
  cases ha : a.isDeletion
  · have hb : b.isDeletion = true := by
      rcases h.1 with h' | h'
      · rw [ha] at h'
        exact absurd h' (by decide)
      · exact h'
    have hnone : insertedPlace? b = none := insertedPlace?_of_isDeletion hb
    have hnot : deletesAssignment a.pointer a = false := by
      cases hd : deletesAssignment a.pointer a
      · rfl
      · rw [(isDeletion_of_deletesAssignment hd).1] at ha
        exact absurd ha (by decide)
    simp only [replacement, List.any_append, List.any_cons, List.any_nil, hnone, hnot]
    simp
  · rw [replacement_of_isDeletion ha, replacement_of_isDeletion ha]
    cases hd : deletesAssignment a.pointer a
    · rfl
    · have hnot : deletesAssignment a.pointer b = false := by
        cases hb : deletesAssignment a.pointer b
        · rfl
        · exact absurd (collide_of_deletesAssignment hd hb) h.2
      simp [hnot]

/-- When the deletion `a` is kept, it commutes with whatever becomes of `b`. -/
theorem independent_of_mem_run {all before before' : List Operation} {a b y z : Operation}
    (hall : Unambiguous all) (ha : a ∈ all) (hb : b ∈ all) (hdelete : a.isDeletion = true)
    (hbefore : ∀ c ∈ before, ¬Collide c a) (h : Independent a b)
    (hy : y ∈ (replacement all before a).run a) (hz : z ∈ (replacement all before' b).run b) :
    Independent y z := by
  rw [replacement_of_isDeletion hdelete] at hy
  split at hy
  · exact absurd hy (by simp [Command.run])
  next hkept =>
  have hya : y = a := List.mem_singleton.mp hy
  rw [hya]
  cases hdb : b.isDeletion
  · rcases run_replacement_of_not_isDeletion hdb hz with rfl | ⟨place, hplace, hany, _, hpz⟩
    · exact h
    · refine ⟨Or.inl hdelete, fun hc => hkept ?_⟩
      obtain ⟨d, hd, hdp⟩ := List.any_eq_true.mp hany
      have hpa : a.pointer = place := hc.2.2.trans hpz
      have hcollide : Collide a d := by
        obtain ⟨hdd, hpd⟩ := isDeletion_of_deletesAssignment hdp
        exact ⟨hc.1, Operation.isDestructive_of_isDeletion hdd, hpa.trans hpd.symm⟩
      have had : a = d := hall a ha d hd hcollide
      rw [← had, ← hpa] at hdp
      have hfirst : before.any (deletesAssignment a.pointer) = false := by
        rw [List.any_eq_false]
        intro c hc' hcd
        exact hbefore c hc' (collide_of_deletesAssignment hcd hdp)
      have hinsert : all.any (fun other => insertedPlace? other == some a.pointer) = true :=
        List.any_eq_true.mpr ⟨b, hb, by rw [hplace, hpa]; simp⟩
      rw [hdp, hfirst, hinsert]
      rfl
  · rw [replacement_of_isDeletion hdb] at hz
    split at hz
    · exact absurd hz (by simp [Command.run])
    · rw [List.mem_singleton.mp hz]
      exact h

theorem Distinct.perm {l l' : List Operation} (hl : Distinct l) (h : l.Perm l') : Distinct l' :=
  (h.pairwise_iff fun hab hc => hab hc.symm).mp hl

theorem Distinct.unambiguous {l : List Operation} (h : Distinct l) : Unambiguous l := by
  induction l with
  | nil => exact fun a ha => absurd ha (by simp)
  | cons o l ih =>
      obtain ⟨ho, hl⟩ := List.pairwise_cons.mp h
      intro a ha b hb hc
      rcases List.mem_cons.mp ha with hao | ha'
      · rcases List.mem_cons.mp hb with hbo | hb'
        · rw [hao, hbo]
        · rw [hao] at hc
          exact absurd hc (ho b hb')
      · rcases List.mem_cons.mp hb with hbo | hb'
        · rw [hbo] at hc
          exact absurd hc.symm (ho a ha')
        · exact ih hl a ha' b hb' hc

theorem Reordered.folded {all l l' : List Operation} (hall : Unambiguous all)
    (h : Reordered l l') : ∀ before, Distinct (before ++ l) → (∀ o ∈ l, o ∈ all) →
      Reordered (Batch.folded all before l) (Batch.folded all before l') := by
  induction h with
  | nil => exact fun _ _ _ => refl _
  | cons o _ ih =>
      intro before hdistinct hmem
      rw [folded_cons, folded_cons]
      refine (ih (before ++ [o]) ?_ ?_).append_left _
      · rwa [List.append_assoc, List.singleton_append]
      · exact fun a ha => hmem a (List.mem_cons_of_mem _ ha)
  | @swap a b l hab =>
      intro before hdistinct hmem
      have hbefore : ∀ o ∈ [a, b], ∀ c ∈ before, ¬Collide c o := by
        intro o ho c hc
        have := (List.pairwise_append.mp hdistinct).2.2 c hc o
        exact this (by rcases List.mem_cons.mp ho with rfl | ho <;> simp_all)
      have hbetween : ∀ y ∈ (replacement all before a).run a,
          ∀ z ∈ (replacement all before b).run b, Independent y z := by
        intro y hy z hz
        rcases hab.1 with hd | hd
        · exact independent_of_mem_run hall (hmem a (by simp)) (hmem b (by simp)) hd
            (hbefore a (by simp)) hab hy hz
        · exact (independent_of_mem_run hall (hmem b (by simp)) (hmem a (by simp)) hd
            (hbefore b (by simp)) hab.symm hz hy).symm
      have htail : Batch.folded all (before ++ [b] ++ [a]) l =
          Batch.folded all (before ++ [a] ++ [b]) l := by
        refine folded_congr (List.Perm.refl all) l ?_
        rw [List.append_assoc, List.append_assoc]
        exact (List.Perm.swap a b []).append_left before
      rw [folded_cons, folded_cons, folded_cons, folded_cons, replacement_append hab,
        replacement_append hab.symm, htail]
      exact exchange _ hbetween
  | trans hlm _ ih ih' =>
      intro before hdistinct hmem
      refine (ih before hdistinct hmem).trans (ih' before ?_ ?_)
      · exact hdistinct.perm (hlm.perm.append_left before)
      · exact fun o ho => hmem o (hlm.mem_iff.mpr ho)

theorem Reordered.replacements {l l' : List Operation} (h : Reordered l l') (hl : Distinct l) :
    Reordered (Command.runAll l (Batch.replacements l))
      (Command.runAll l' (Batch.replacements l')) := by
  have hfold : Reordered (Batch.folded l [] l) (Batch.folded l [] l') :=
    h.folded hl.unambiguous [] (by simpa using hl) (fun _ ho => ho)
  have hall : Batch.folded l [] l' = Batch.folded l' [] l' :=
    folded_congr h.perm l' (List.Perm.refl [])
  rw [hall] at hfold
  exact hfold

/-! ## Marking -/

def marking (file : Syntax.File) (all rest : List Operation) (o : Operation) : Command :=
  if insertsAnnotationAt o.pointer o && !rest.any (insertsAnnotationAt o.pointer) &&
      isBareSingle file o.pointer then
    .replace [o, ⟨o.pointer,
      .convertToCompound (all.any (deletesAssignment (assignmentPointer o.pointer 0)))⟩]
  else .pick

/-- The operations with the marks for parentheses. -/
def marked (file : Syntax.File) (all operations : List Operation) : List Operation :=
  Command.runAll operations (compoundsFrom file all operations)

theorem marked_cons (file : Syntax.File) (all : List Operation) (o : Operation)
    (rest : List Operation) :
    marked file all (o :: rest) = (marking file all rest o).run o ++ marked file all rest := rfl

theorem marked_eq_self {file : Syntax.File} {all : List Operation} : ∀ {l : List Operation},
    (∀ o ∈ l, ∀ p, insertsAnnotationAt p o = false) → marked file all l = l
  | [], _ => rfl
  | o :: l, h => by
      obtain ⟨ho, hl⟩ := List.forall_mem_cons.mp h
      rw [marked_cons, marked_eq_self hl, marking, ho]
      rfl

theorem insertsAnnotationAt_of_isDeletion {p : Pointer} {o : Operation}
    (h : o.isDeletion = true) : insertsAnnotationAt p o = false := by
  obtain ⟨q, action⟩ := o
  cases action <;> simp_all [Operation.isDeletion, insertsAnnotationAt]

theorem marking_of_isDeletion {file : Syntax.File} {all rest : List Operation} {o : Operation}
    (h : o.isDeletion = true) : marking file all rest o = .pick := by
  unfold marking
  rw [insertsAnnotationAt_of_isDeletion h]
  rfl

/-- A mark is no deletion and overwrites nothing. -/
theorem mem_run_marking {file : Syntax.File} {all rest : List Operation} {o z : Operation}
    (h : z ∈ (marking file all rest o).run o) :
    z = o ∨ (z.isDeletion = false ∧ z.isDestructive = false) := by
  unfold marking at h
  split at h
  · rcases List.mem_cons.mp h with rfl | h
    · exact Or.inl rfl
    · rw [List.mem_singleton.mp h]
      exact Or.inr ⟨rfl, rfl⟩
  · exact Or.inl (List.mem_singleton.mp h)

/-- The place of the last insertion into a target does not depend on deletions. -/
theorem marking_cons {file : Syntax.File} {all rest : List Operation} {a b : Operation}
    (h : Independent a b) : marking file all (b :: rest) a = marking file all rest a := by
  rcases h.1 with ha | hb
  · rw [marking_of_isDeletion ha, marking_of_isDeletion ha]
  · simp only [marking, List.any_cons, insertsAnnotationAt_of_isDeletion hb, Bool.false_or]

theorem independent_of_mem_marking {file : Syntax.File} {all rest rest' : List Operation}
    {a b y z : Operation} (hdelete : a.isDeletion = true) (h : Independent a b)
    (hy : y ∈ (marking file all rest a).run a) (hz : z ∈ (marking file all rest' b).run b) :
    Independent y z := by
  rw [marking_of_isDeletion hdelete] at hy
  rw [List.mem_singleton.mp hy]
  rcases mem_run_marking hz with rfl | ⟨_, hkeeps⟩
  · exact h
  · refine ⟨Or.inl hdelete, fun hc => ?_⟩
    exact absurd hc.2.1 (by rw [hkeeps]; decide)

theorem Reordered.marked {file : Syntax.File} {all l l' : List Operation} (h : Reordered l l') :
    Reordered (Batch.marked file all l) (Batch.marked file all l') := by
  induction h with
  | nil => exact nil
  | cons o hl ih =>
      have hsame : ∀ rest rest' : List Operation, Reordered rest rest' →
          marking file all rest o = marking file all rest' o := by
        intro rest rest' hr
        unfold marking
        rw [hr.any_eq]
      rw [marked_cons, marked_cons, hsame _ _ hl]
      exact ih.append_left _
  | @swap a b l hab =>
      rw [marked_cons, marked_cons, marked_cons, marked_cons, marking_cons hab,
        marking_cons hab.symm]
      refine exchange _ fun y hy z hz => ?_
      rcases hab.1 with hd | hd
      · exact independent_of_mem_marking hd hab hy hz
      · exact (independent_of_mem_marking hd hab.symm hz hy).symm
  | trans _ _ ih ih' => exact ih.trans ih'

theorem Reordered.compounds {l l' : List Operation} (h : Reordered l l') (file : Syntax.File) :
    Reordered (Command.runAll l (Batch.compounds file l))
      (Command.runAll l' (Batch.compounds file l')) := by
  have hall : ∀ m : List Operation, Batch.marked file l m = Batch.marked file l' m := by
    intro m
    induction m with
    | nil => rfl
    | cons o m ih =>
        rw [marked_cons, marked_cons, ih]
        unfold marking
        rw [h.any_eq]
  have hmark : Reordered (Batch.marked file l l) (Batch.marked file l l') := h.marked
  rw [hall l'] at hmark
  exact hmark

/-! ## Bubbling -/

theorem nodup_eraseDups {α : Type} [BEq α] [LawfulBEq α] (l : List α) : l.eraseDups.Nodup := by
  induction hn : l.length using Nat.strongRecOn generalizing l with
  | ind n ih =>
    cases l with
    | nil => simp
    | cons a as =>
        rw [List.eraseDups_cons, List.nodup_cons]
        refine ⟨by simp, ih _ ?_ _ rfl⟩
        have := List.length_filter_le (fun b => !b == a) as
        rw [List.length_cons] at hn
        omega

theorem eraseDups_perm {α : Type} [BEq α] [LawfulBEq α] {l l' : List α} (h : l.Perm l') :
    l.eraseDups.Perm l'.eraseDups := by
  rw [List.perm_ext_iff_of_nodup (nodup_eraseDups l) (nodup_eraseDups l')]
  intro a
  rw [List.mem_eraseDups, List.mem_eraseDups, h.mem_iff]

theorem emptied?_congr {file : Syntax.File} {container : Pointer} {l l' : List Operation}
    (h : l.Perm l') : emptied? file container l = emptied? file container l' := by
  have hkeys := (eraseDups_perm ((h.filter
    fun o => emptiedBy? file o == some container).filterMap fun o => o.pointer.last?)).length_eq
  simp only [emptied?, h.any_eq, hkeys]

/-- An emptied container stands in the file, and it is a deletion that takes its place. -/
theorem emptied?_eq_some {file : Syntax.File} {container : Pointer} {l : List Operation}
    {o : Operation} (h : emptied? file container l = some o) :
    o.isDeletion = true ∧ o.pointer = container ∧ file.Resolves container := by
  simp only [emptied?, Option.bind_eq_bind, Option.bind_eq_some_iff] at h
  obtain ⟨node, hnode, h⟩ := h
  split at h
  · exact absurd h (by simp)
  · obtain ⟨kind, _, h⟩ := Option.bind_eq_some_iff.mp h
    rw [← Option.some.inj h]
    exact ⟨rfl, rfl, by rw [Syntax.File.Resolves, hnode]; rfl⟩

theorem Reordered.bubbleContainer {file : Syntax.File} {l l' : List Operation}
    (h : Reordered l l') (container : Pointer) :
    Reordered (Batch.bubbleContainer file l container)
      (Batch.bubbleContainer file l' container) := by
  unfold Batch.bubbleContainer
  rw [emptied?_congr h.perm]
  split
  · exact (h.filter _).append_right _
  · exact h

theorem resolves_of_emptiedBy? {file : Syntax.File} {o : Operation} {p : Pointer}
    (h : emptiedBy? file o = some p) : file.Resolves p := by
  have hcontainer : containerOf? file o.pointer = some p := by
    unfold emptiedBy? at h
    split at h
    · exact absurd h (by simp)
    · exact h
    · exact absurd h (by simp)
  have hnode : ∃ node, file.resolve? p = some node := by
    simp only [containerOf?, Option.bind_eq_bind, Option.bind_eq_some_iff] at hcontainer
    obtain ⟨last, _, hp⟩ := hcontainer
    split at hp
    all_goals
      obtain ⟨container, _, hp⟩ := Option.bind_eq_some_iff.mp hp
      obtain ⟨node, hnode, hp⟩ := Option.bind_eq_some_iff.mp hp
      rw [Option.ite_none_right_eq_some] at hp
      rw [← Option.some.inj hp.2]
      exact ⟨node, hnode⟩
  obtain ⟨node, hnode⟩ := hnode
  rw [Syntax.File.Resolves, hnode]
  rfl

/-- Where no container that a deletion counts for is emptied, nothing bubbles up. -/
theorem bubble_of_emptied? {file : Syntax.File} {l : List Operation}
    (h : ∀ o ∈ l, ∀ p, emptiedBy? file o = some p → emptied? file p l = none) :
    bubble file l = l := by
  have hcontainers : ∀ containers : List Pointer,
      (∀ p ∈ containers, ∃ o ∈ l, emptiedBy? file o = some p) →
      containers.foldl (bubbleContainer file) l = l := by
    intro containers hmem
    induction containers with
    | nil => rfl
    | cons p rest ih =>
        obtain ⟨⟨o, ho, hp⟩, hrest⟩ := List.forall_mem_cons.mp hmem
        rw [List.foldl_cons, bubbleContainer, h o ho p hp]
        exact ih hrest
  have hlevel : ∀ depth, bubbleLevel file l depth = l := by
    intro depth
    refine hcontainers _ fun p hp => ?_
    have hp := List.mem_mergeSort.mp hp
    rw [List.mem_eraseDups, List.mem_filter, List.mem_filterMap] at hp
    exact hp.1
  rw [bubble]
  generalize maxDepth l = depth
  induction depth with
  | zero => rfl
  | succ depth ih => rw [bubbleBelow, hlevel, ih]

theorem pairwise_mergeSort_cmp {α : Type} {cmp : α → α → Ordering} [Std.TransCmp cmp]
    (l : List α) :
    (l.mergeSort fun a b => cmp a b != .gt).Pairwise fun a b => (cmp a b).isLE = true := by
  have hle : ∀ a b : α, (cmp a b != .gt) = (cmp a b).isLE := by
    intro a b
    cases cmp a b <;> rfl
  simp only [hle]
  have htrans : ∀ a b c : α, (cmp a b).isLE → (cmp b c).isLE → (cmp a c).isLE :=
    fun _ _ _ => Std.TransCmp.isLE_trans
  have htotal : ∀ a b : α, (cmp a b).isLE || (cmp b a).isLE := by
    intro a b
    have hswap : cmp b a = (cmp a b).swap := Std.OrientedCmp.eq_swap
    rw [hswap]
    cases cmp a b <;> rfl
  exact List.pairwise_mergeSort htrans htotal l

/-- Values that a comparison tells apart are sorted in one way. -/
theorem mergeSort_eq_of_perm {α : Type} {cmp : α → α → Ordering} [Std.TransCmp cmp]
    {l l' : List α} (h : l.Perm l') (hsame : ∀ a ∈ l, ∀ b ∈ l, cmp a b = .eq → a = b) :
    l.mergeSort (fun a b => cmp a b != .gt) = l'.mergeSort (fun a b => cmp a b != .gt) := by
  refine List.Perm.eq_of_pairwise ?_ (pairwise_mergeSort_cmp l) (pairwise_mergeSort_cmp l')
    ((List.mergeSort_perm l _).trans (h.trans (List.mergeSort_perm l' _).symm))
  intro a b ha hb hab hba
  refine hsame a ((List.mergeSort_perm l _).mem_iff.mp ha) b
    (h.mem_iff.mpr ((List.mergeSort_perm l' _).mem_iff.mp hb)) ?_
  exact Std.OrientedCmp.isLE_antisymm hab hba

theorem containersAt_eq {file : Syntax.File} {l l' : List Operation} (h : l.Perm l')
    (depth : Nat) : containersAt file l depth = containersAt file l' depth := by
  unfold containersAt
  have hresolve : ∀ p ∈
      ((l.filterMap (emptiedBy? file)).filter fun p => p.depth == depth).eraseDups,
      file.Resolves p := by
    intro p hp
    rw [List.mem_eraseDups, List.mem_filter, List.mem_filterMap] at hp
    obtain ⟨⟨o, _, ho⟩, _⟩ := hp
    exact resolves_of_emptiedBy? ho
  refine mergeSort_eq_of_perm (eraseDups_perm ((h.filterMap (emptiedBy? file)).filter _)) ?_
  intro p hp q hq
  exact Syntax.File.eq_of_compare_eq (hresolve p hp) (hresolve q hq)

theorem Reordered.bubbleLevel {file : Syntax.File} {l l' : List Operation} (h : Reordered l l')
    (depth : Nat) :
    Reordered (Batch.bubbleLevel file l depth) (Batch.bubbleLevel file l' depth) := by
  unfold Batch.bubbleLevel
  rw [containersAt_eq h.perm]
  generalize containersAt file l' depth = containers
  induction containers generalizing l l' with
  | nil => exact h
  | cons p ps ih =>
      rw [List.foldl_cons, List.foldl_cons]
      exact ih (h.bubbleContainer p)

theorem Reordered.bubbleBelow {file : Syntax.File} : ∀ (depth : Nat) {l l' : List Operation},
    Reordered l l' → Reordered (Batch.bubbleBelow file depth l) (Batch.bubbleBelow file depth l')
  | 0, _, _, h => h
  | depth + 1, _, _, h => Reordered.bubbleBelow depth (h.bubbleLevel depth)

theorem maxDepth_perm {l l' : List Operation} (h : l.Perm l') : maxDepth l = maxDepth l' := by
  unfold maxDepth
  refine h.foldl_eq' ?_ 0
  intro a _ b _ depth
  exact Nat.max_right_comm depth a.pointer.depth b.pointer.depth

theorem Reordered.bubble {l l' : List Operation} (h : Reordered l l') (file : Syntax.File) :
    Reordered (Batch.bubble file l) (Batch.bubble file l') := by
  unfold Batch.bubble
  rw [maxDepth_perm h.perm]
  exact h.bubbleBelow _

/-! ## Sorting -/

def DeletionsResolve (file : Syntax.File) (operations : List Operation) : Prop :=
  ∀ o ∈ operations, o.isDeletion = true → file.Resolves o.pointer

theorem mem_of_mem_folded {all : List Operation} {o : Operation} (ho : o.isDeletion = true) :
    ∀ {l before : List Operation}, o ∈ folded all before l → o ∈ l
  | a :: l, before, h => by
      rw [folded_cons] at h
      rcases List.mem_append.mp h with h | h
      · cases ha : a.isDeletion
        · rcases run_replacement_of_not_isDeletion ha h with rfl | ⟨_, _, _, hno, _⟩
          · exact List.mem_cons_self
          · rw [ho] at hno
            exact absurd hno (by decide)
        · rw [replacement_of_isDeletion ha] at h
          split at h
          · exact absurd h (by simp [Command.run])
          · rw [List.mem_singleton.mp h]
            exact List.mem_cons_self
      · exact List.mem_cons_of_mem _ (mem_of_mem_folded ho h)

theorem mem_of_mem_marked {file : Syntax.File} {all : List Operation} {o : Operation}
    (ho : o.isDeletion = true) : ∀ {l : List Operation}, o ∈ marked file all l → o ∈ l
  | a :: l, h => by
      rw [marked_cons] at h
      rcases List.mem_append.mp h with h | h
      · rcases mem_run_marking h with rfl | ⟨hno, _⟩
        · exact List.mem_cons_self
        · rw [ho] at hno
          exact absurd hno (by decide)
      · exact List.mem_cons_of_mem _ (mem_of_mem_marked ho h)

theorem DeletionsResolve.bubbleContainer {file : Syntax.File} {l : List Operation}
    (h : DeletionsResolve file l) (container : Pointer) :
    DeletionsResolve file (Batch.bubbleContainer file l container) := by
  unfold Batch.bubbleContainer
  split
  · next d hd =>
    obtain ⟨_, hp, hresolve⟩ := emptied?_eq_some hd
    intro o ho hdelete
    rcases List.mem_append.mp ho with ho | ho
    · exact h o (List.mem_filter.mp ho).1 hdelete
    · rw [List.mem_singleton.mp ho, hp]
      exact hresolve
  · exact h

theorem DeletionsResolve.bubbleLevel {file : Syntax.File} {l : List Operation}
    (h : DeletionsResolve file l) (depth : Nat) :
    DeletionsResolve file (Batch.bubbleLevel file l depth) := by
  unfold Batch.bubbleLevel
  generalize containersAt file l depth = containers
  induction containers generalizing l with
  | nil => exact h
  | cons p ps ih =>
      rw [List.foldl_cons]
      exact ih (h.bubbleContainer p)

theorem DeletionsResolve.bubbleBelow {file : Syntax.File} : ∀ (depth : Nat) {l : List Operation},
    DeletionsResolve file l → DeletionsResolve file (Batch.bubbleBelow file depth l)
  | 0, _, h => h
  | depth + 1, _, h => DeletionsResolve.bubbleBelow depth (h.bubbleLevel depth)

def compareOperations (a b : Operation) : Ordering :=
  (a.pointer.compare b.pointer).then (compare a.kindName b.kindName)

instance transCmp_operations : Std.TransCmp compareOperations :=
  have : Std.TransCmp fun a b : Operation => a.pointer.compare b.pointer :=
    { eq_swap := Pointer.transCmp.eq_swap
      isLE_trans := Pointer.transCmp.isLE_trans }
  inferInstanceAs (Std.TransCmp (compareLex (fun a b : Operation => a.pointer.compare b.pointer)
    (compareOn Operation.kindName)))

/-- Reordered batches whose deletions are at different nodes of the file are sorted into one
list. -/
theorem Reordered.order_eq {file : Syntax.File} {l l' : List Operation} (h : Reordered l l')
    (hdistinct : Distinct l) (hresolve : DeletionsResolve file l) : order l = order l' := by
  unfold order
  rw [h.filter_rest]
  congr 1
  refine @mergeSort_eq_of_perm _ compareOperations _ _ _ (h.perm.filter _) ?_
  intro a ha b hb hab
  rw [List.mem_filter] at ha hb
  have hpointer : a.pointer = b.pointer :=
    Syntax.File.eq_of_compare_eq (hresolve a ha.1 ha.2) (hresolve b hb.1 hb.2)
      (Ordering.then_eq_eq.mp hab).1
  exact hdistinct.unambiguous a ha.1 b hb.1
    ⟨Operation.isDestructive_of_isDeletion ha.2, Operation.isDestructive_of_isDeletion hb.2,
      hpointer⟩

/-! ## The whole reduction -/

theorem isDeletion_anchorInEmpty (file : Syntax.File) (o : Operation) :
    (anchorInEmpty file o).isDeletion = o.isDeletion := by
  obtain ⟨p, action⟩ := o
  unfold anchorInEmpty
  split
  · cases action <;> rfl
  · rfl

theorem isDestructive_anchorInEmpty (file : Syntax.File) (o : Operation) :
    (anchorInEmpty file o).isDestructive = o.isDestructive := by
  obtain ⟨p, action⟩ := o
  unfold anchorInEmpty
  split
  · cases action <;> rfl
  · rfl

theorem pointer_anchorInEmpty (file : Syntax.File) (o : Operation) :
    (anchorInEmpty file o).pointer = o.pointer := by
  unfold anchorInEmpty
  split
  · rfl
  · rfl

theorem Independent.anchorInEmpty {a b : Operation} (h : Independent a b) (file : Syntax.File) :
    Independent (Batch.anchorInEmpty file a) (Batch.anchorInEmpty file b) := by
  unfold Independent Collide
  simp only [isDeletion_anchorInEmpty, isDestructive_anchorInEmpty, pointer_anchorInEmpty]
  exact h

theorem Reordered.map_anchorInEmpty {l l' : List Operation} (h : Reordered l l')
    (file : Syntax.File) :
    Reordered (l.map (anchorInEmpty file)) (l'.map (anchorInEmpty file)) := by
  induction h with
  | nil => exact nil
  | cons o _ ih => exact cons _ ih
  | swap l hab => exact swap _ (hab.anchorInEmpty file)
  | trans _ _ ih ih' => exact ih.trans ih'

theorem DeletionsResolve.map_anchorInEmpty {file : Syntax.File} {l : List Operation}
    (h : DeletionsResolve file l) : DeletionsResolve file (l.map (anchorInEmpty file)) := by
  intro o ho hdelete
  obtain ⟨a, ha, rfl⟩ := List.mem_map.mp ho
  rw [isDeletion_anchorInEmpty] at hdelete
  rw [pointer_anchorInEmpty]
  exact h a ha hdelete

theorem DeletionsResolve.bubble {file : Syntax.File} {l : List Operation}
    (h : DeletionsResolve file l) : DeletionsResolve file (Batch.bubble file l) :=
  DeletionsResolve.bubbleBelow (maxDepth l) h

theorem DeletionsResolve.removeShadowed {file : Syntax.File} {l : List Operation}
    (h : DeletionsResolve file l) : DeletionsResolve file (Batch.removeShadowed l) :=
  fun o ho => h o (mem_of_mem_removeShadowed ho)

theorem DeletionsResolve.replacements {file : Syntax.File} {l : List Operation}
    (h : DeletionsResolve file l) :
    DeletionsResolve file (Command.runAll l (Batch.replacements l)) := by
  intro o ho hdelete
  have hfolded : o ∈ folded l [] l := ho
  exact h o (mem_of_mem_folded hdelete hfolded) hdelete

theorem DeletionsResolve.compounds {file : Syntax.File} {l : List Operation}
    (h : DeletionsResolve file l) :
    DeletionsResolve file (Command.runAll l (Batch.compounds file l)) := by
  intro o ho hdelete
  have hmarked : o ∈ marked file l l := ho
  exact h o (mem_of_mem_marked hdelete hmarked) hdelete

/-- For every file and every batch of operations at nodes of the file, in which two different
operations never overwrite one node: the operations that are carried out stay the same when the
deletions are permuted among themselves and moved anywhere between the other operations. -/
theorem reduce_eq_of_perm (file : Syntax.File) (operations reordered : List Operation)
    (hresolve : ∀ o ∈ operations, (file.resolve? o.pointer).isSome = true)
    (hsame : ∀ a ∈ operations, ∀ b ∈ operations, a.isDestructive = true → b.isDestructive = true →
      a.pointer = b.pointer → a = b)
    (hperm : operations.Perm reordered)
    (hrest : operations.filter (!·.isDeletion) = reordered.filter (!·.isDeletion)) :
    reduce file operations = reduce file reordered := by
  have hstart : Reordered operations reordered :=
    reordered_of_perm (fun a ha b hb hc => hsame a ha b hb hc.1 hc.2.1 hc.2.2) hperm hrest
  have hfolded := (hstart.map_anchorInEmpty file).removeShadowed.replacements
    (distinct_removeShadowed _)
  have hreduced := ((hfolded.compounds file).bubble file).removeShadowed
  have hresolved : DeletionsResolve file operations := fun o ho _ => hresolve o ho
  exact hreduced.order_eq (distinct_removeShadowed _)
    hresolved.map_anchorInEmpty.removeShadowed.replacements.compounds.bubble.removeShadowed

/-- A target of three bare annotations without values. -/
def threeAnnotations : Syntax.File :=
  let place : Range := Range.empty Position.origin
  let bare (term : String) : Syntax.Assignment :=
    .single ⟨place, some place, ⟨place, [⟨term, place⟩]⟩, none, none, none, false⟩
  ⟨"file", place, [], [⟨.entity, "E", place, place, none, [bare "A", bare "B", bare "C"]⟩]⟩

/-- Two deletions and an insertion in the place of one of them, in two orders. -/
theorem reduce_eq_of_perm_three :
    reduce threeAnnotations
        [⟨assignmentPointer ⟨["targets", "0"]⟩ 2, .delete Deletable.annotation⟩,
          ⟨⟨["targets", "0"]⟩, .insert Insertable.annotation (some 0)
            (Tree.Element.ofKind Tree.ElementKind.annotation)⟩,
          ⟨assignmentPointer ⟨["targets", "0"]⟩ 0, .delete Deletable.annotation⟩] =
      reduce threeAnnotations
        [⟨assignmentPointer ⟨["targets", "0"]⟩ 0, .delete Deletable.annotation⟩,
          ⟨assignmentPointer ⟨["targets", "0"]⟩ 2, .delete Deletable.annotation⟩,
          ⟨⟨["targets", "0"]⟩, .insert Insertable.annotation (some 0)
            (Tree.Element.ofKind Tree.ElementKind.annotation)⟩] := by
  refine reduce_eq_of_perm _ _ _ ?_ ?_ ?_ rfl
  · simp only [List.forall_mem_cons]
    exact ⟨rfl, rfl, rfl, fun _ h => absurd h (by simp)⟩
  · intro a ha b hb _ _ hp
    simp only [List.mem_cons, List.not_mem_nil, or_false] at ha hb
    rcases ha with rfl | rfl | rfl <;> rcases hb with rfl | rfl | rfl <;>
      first | rfl | exact absurd hp (by decide)
  · exact (List.Perm.cons _ (List.Perm.swap _ _ [])).trans (List.Perm.swap _ _ [_])

end AnnotationEdit.Batch

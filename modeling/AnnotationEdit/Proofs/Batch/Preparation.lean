import AnnotationEdit.Proofs.Batch.Fitting

/-!
# Batches before containers are emptied

A batch is shadowed, folded and marked before emptied containers are looked for (`prepared`). After
that no two operations overwrite one node, and none works on what another one removes; a batch of
which this holds is `Ready`. The operations made up on the way take the places of others: a
replacement stands where the deletion stood that it came from, and a mark where an insertion stands.
-/

namespace AnnotationEdit

open Syntax (Node)

/-! ## Pointers above and below -/

namespace Pointer

theorem isPrefixOf_iff {p q : Pointer} : p.isPrefixOf q = true ↔ ∃ path, q = p.append path := by
  rw [isPrefixOf, List.isPrefixOf_iff_prefix]
  constructor
  · rintro ⟨path, hpath⟩
    refine ⟨path, ?_⟩
    rw [append, hpath]
  · rintro ⟨path, rfl⟩
    exact List.prefix_append p.segments path

theorem isPrefixOf_refl (p : Pointer) : p.isPrefixOf p = true :=
  List.isPrefixOf_iff_prefix.mpr (List.prefix_refl _)

theorem isPrefixOf_append (p : Pointer) (path : List String) :
    p.isPrefixOf (p.append path) = true :=
  isPrefixOf_iff.mpr ⟨path, rfl⟩

theorem isPrefixOf_trans {p q r : Pointer} (hpq : p.isPrefixOf q = true)
    (hqr : q.isPrefixOf r = true) : p.isPrefixOf r = true :=
  List.isPrefixOf_iff_prefix.mpr
    ((List.isPrefixOf_iff_prefix.mp hpq).trans (List.isPrefixOf_iff_prefix.mp hqr))

theorem depth_append (p : Pointer) (path : List String) :
    (p.append path).depth = p.depth + path.length := by
  rw [depth, append, List.length_append, depth]

theorem append_append (p : Pointer) (first rest : List String) :
    (p.append first).append rest = p.append (first ++ rest) := by
  simp only [append, List.append_assoc]

/-- To lie strictly below is to lie below and to be another pointer. -/
theorem isAncestorOf_iff {p q : Pointer} :
    p.isAncestorOf q = true ↔ p.isPrefixOf q = true ∧ p ≠ q := by
  rw [isAncestorOf, Bool.and_eq_true, decide_eq_true_eq, and_comm]
  refine and_congr_right fun hunder => ?_
  obtain ⟨path, rfl⟩ := isPrefixOf_iff.mp hunder
  rw [depth_append]
  constructor
  · intro hlt heq
    have hdepth := congrArg depth heq
    rw [depth_append] at hdepth
    omega
  · intro hne
    cases path with
    | nil => exact absurd (by rw [append, List.append_nil]) hne
    | cons s path =>
        rw [List.length_cons]
        omega

/-- Two pointers above one pointer are above each other. -/
theorem isPrefixOf_or {p q r : Pointer} (hp : p.isPrefixOf r = true) (hq : q.isPrefixOf r = true) :
    p.isPrefixOf q = true ∨ q.isPrefixOf p = true := by
  have hor := List.prefix_or_prefix_of_prefix (List.isPrefixOf_iff_prefix.mp hp)
    (List.isPrefixOf_iff_prefix.mp hq)
  exact hor.imp List.isPrefixOf_iff_prefix.mpr List.isPrefixOf_iff_prefix.mpr

theorem eq_of_isPrefixOf {p q : Pointer} (hpq : p.isPrefixOf q = true)
    (hqp : q.isPrefixOf p = true) : p = q := by
  obtain ⟨path, rfl⟩ := isPrefixOf_iff.mp hpq
  obtain ⟨back, hback⟩ := isPrefixOf_iff.mp hqp
  have hdepth := congrArg depth hback
  rw [depth_append, depth_append] at hdepth
  obtain rfl : path = [] := List.length_eq_zero_iff.mp (by omega)
  rw [append, List.append_nil]

/-- What lies strictly above a child lies above the node. -/
theorem isAncestorOf_child {p q : Pointer} {segment : String} :
    q.isAncestorOf (p.child segment) = true ↔ q.isPrefixOf p = true := by
  have hchild : p.child segment = p.append [segment] := rfl
  rw [hchild, isAncestorOf, Bool.and_eq_true, decide_eq_true_eq, depth_append]
  constructor
  · rintro ⟨hdepth, hunder⟩
    rcases isPrefixOf_or hunder (isPrefixOf_append p [segment]) with hqp | hpq
    · exact hqp
    · obtain ⟨path, rfl⟩ := isPrefixOf_iff.mp hpq
      rw [depth_append, List.length_singleton] at hdepth
      obtain rfl : path = [] := List.length_eq_zero_iff.mp (by omega)
      rw [append, List.append_nil]
      exact isPrefixOf_refl p
  · intro hunder
    refine ⟨?_, isPrefixOf_trans hunder (isPrefixOf_append p [segment])⟩
    obtain ⟨path, rfl⟩ := isPrefixOf_iff.mp hunder
    rw [depth_append, List.length_singleton]
    omega

end Pointer

/-! ## What an operation needs of the file -/

namespace Operation

/-- Deletes a node; a qualifier is not one. -/
def deletesNode (o : Operation) : Bool :=
  match o.action with
  | .delete .qualifier => false
  | .delete _ => true
  | _ => false

theorem isDeletion_of_deletesNode {o : Operation} (h : o.deletesNode = true) :
    o.isDeletion = true := by
  obtain ⟨p, action⟩ := o
  cases action with
  | delete what => rfl
  | _ => cases h

theorem deletesNode_of_not_isDeletion {o : Operation} (h : o.isDeletion = false) :
    o.deletesNode = false := by
  rw [Bool.eq_false_iff]
  intro hdeletes
  rw [isDeletion_of_deletesNode hdeletes] at h
  cases h

theorem removesSubtree_of_deletesNode {o : Operation} (h : o.deletesNode = true) :
    o.removesSubtree = true := by
  obtain ⟨p, action⟩ := o
  cases action with
  | delete what => cases what <;> first | rfl | cases h
  | _ => cases h

theorem removesSubtree_cases {o : Operation} (h : o.removesSubtree = true) :
    o.deletesNode = true ∨ o.isDeletion = false := by
  obtain ⟨p, action⟩ := o
  cases action with
  | delete what => cases what <;> first | exact Or.inl rfl | cases h
  | _ => exact Or.inr rfl

theorem isDeletion_cases {o : Operation} (h : o.isDeletion = true) :
    o.deletesNode = true ∨ o.action = .delete .qualifier := by
  obtain ⟨p, action⟩ := o
  cases action with
  | delete what => cases what <;> first | exact Or.inl rfl | exact Or.inr rfl
  | _ => cases h

/-- The pointer leads to a node, and qualifiers, and nothing else, are deleted as such. -/
def Placed (file : Syntax.File) (o : Operation) : Prop :=
  ∃ n, file.resolve? o.pointer = some n ∧
    ∀ what, o.action = .delete what → (what = .qualifier ↔ ∃ q, n = .qualifier q)

theorem Placed.of_action {file : Syntax.File} {o : Operation} {action : Action}
    (h : o.Placed file) (haction : ∀ what, action ≠ .delete what) :
    Placed file ⟨o.pointer, action⟩ := by
  obtain ⟨n, hn, _⟩ := h
  exact ⟨n, hn, fun what heq => absurd heq (haction what)⟩

theorem Placed.ne_qualifier {file : Syntax.File} {o : Operation} {n : Node} (h : o.Placed file)
    (hdeletes : o.deletesNode = true) (hn : file.resolve? o.pointer = some n)
    (q : Syntax.Identifier) : n ≠ .qualifier q := by
  rintro rfl
  obtain ⟨m, hm, hkind⟩ := h
  obtain rfl := Option.some.inj (hn.symm.trans hm)
  obtain ⟨p, action⟩ := o
  cases action with
  | delete what =>
      rw [(hkind what rfl).mpr ⟨q, rfl⟩] at hdeletes
      cases hdeletes
  | _ => cases hdeletes

theorem Placed.exists_qualifier {file : Syntax.File} {o : Operation} (h : o.Placed file)
    (haction : o.action = .delete .qualifier) :
    ∃ q, file.resolve? o.pointer = some (.qualifier q) := by
  obtain ⟨n, hn, hkind⟩ := h
  obtain ⟨q, rfl⟩ := (hkind .qualifier haction).mp rfl
  exact ⟨q, hn⟩

theorem Fits.placed {file : Syntax.File} {o : Operation} (h : o.Fits file) : o.Placed file := by
  obtain ⟨⟨n, hn, hsuits⟩, _⟩ := h
  refine ⟨n, hn, ?_⟩
  intro what hwhat
  rw [hwhat] at hsuits
  constructor
  · rintro rfl
    cases n with
    | qualifier q => exact ⟨q, rfl⟩
    | _ => cases hsuits
  · rintro ⟨q, rfl⟩
    cases what with
    | qualifier => rfl
    | _ => cases hsuits

end Operation

namespace Batch

variable {file : Syntax.File} {l : List Operation} {o r : Operation}

/-! ## One operation shadowing another -/

theorem isShadowed_iff {removed : List Pointer} :
    isShadowed removed o = true ↔ ∃ p ∈ removed, isShadowed [p] o = true := by
  unfold isShadowed
  split
  · simp only [List.any_eq_true, List.mem_singleton, exists_eq_left]
  · simp only [List.any_eq_true, List.mem_singleton, exists_eq_left]

/-- A destructive operation is shadowed from above. -/
theorem isShadowed_of_isDestructive {p : Pointer} (ho : o.isDestructive = true) :
    isShadowed [p] o = p.isAncestorOf o.pointer := by
  rw [isShadowed, if_pos ho, List.any_cons, List.any_nil, Bool.or_false]

/-- Any other operation is shadowed from above and from its own node, by its pointer or by what it
moves. -/
theorem isShadowed_of_not_isDestructive {p : Pointer} (ho : o.isDestructive = false) :
    isShadowed [p] o = (p.isPrefixOf o.pointer || o.sources.any p.isPrefixOf) := by
  rw [isShadowed, if_neg (by rw [ho]; exact Bool.false_ne_true), List.any_cons, List.any_nil,
    Bool.or_false]

theorem sources_of_isDestructive (ho : o.isDestructive = true) : o.sources = [] := by
  obtain ⟨p, action⟩ := o
  cases action <;> first | rfl | cases ho

theorem exists_survivor : ∀ {l : List Operation} {o : Operation}, o ∈ l →
    ∃ a ∈ survivors l, a = o ∨ Collide o a
  | b :: l, o, h => by
      have hlater : ∀ {a : Operation}, a ∈ survivors l → a ∈ survivors (b :: l) := by
        intro a ha
        rw [survivors]
        split
        · exact ha
        · exact List.mem_cons_of_mem b ha
      rcases List.mem_cons.mp h with rfl | h
      · by_cases hover : overridden o l = true
        · obtain ⟨later, hmem, hcollide⟩ := overridden_iff.mp hover
          obtain ⟨a, ha, rfl | hcollide'⟩ := exists_survivor hmem
          · exact ⟨a, hlater ha, Or.inr hcollide⟩
          · exact ⟨a, hlater ha, Or.inr ⟨hcollide.1, hcollide'.2.1,
              hcollide.2.2.trans hcollide'.2.2⟩⟩
        · refine ⟨o, ?_, Or.inl rfl⟩
          rw [survivors, if_neg hover]
          exact List.mem_cons_self
      · obtain ⟨a, ha, heq⟩ := exists_survivor h
        exact ⟨a, hlater ha, heq⟩

/-- Where no operation overwrites the node of another, all survive. -/
theorem survivors_of_distinct : ∀ {l : List Operation}, Distinct l → survivors l = l
  | [], _ => rfl
  | o :: l, h => by
      obtain ⟨ho, hl⟩ := List.pairwise_cons.mp h
      have hkept : ¬ overridden o l = true := by
        intro hover
        obtain ⟨later, hmem, hcollide⟩ := overridden_iff.mp hover
        exact ho later hmem hcollide
      rw [survivors, if_neg hkept, survivors_of_distinct hl]

/-- Shadowing such a batch only drops what another operation shadows. -/
theorem mem_removeShadowed_of_distinct (hl : Distinct l) :
    o ∈ removeShadowed l ↔
      o ∈ l ∧ ∀ r ∈ l, r.removesSubtree = true → isShadowed [r.pointer] o = false := by
  rw [removeShadowed_eq, List.mem_filter, survivors_of_distinct hl]
  refine and_congr_right fun _ => ?_
  rw [Bool.not_eq_true', Bool.eq_false_iff, Ne, isShadowed_iff, removedPointers_eq,
    survivors_of_distinct hl]
  constructor
  · intro hnot r hr hremoves
    rw [Bool.eq_false_iff]
    intro hshadowed
    exact hnot ⟨r.pointer, List.mem_map_of_mem (List.mem_filter.mpr ⟨hr, hremoves⟩), hshadowed⟩
  · rintro hall ⟨p, hp, hshadowed⟩
    obtain ⟨r, hr, rfl⟩ := List.mem_map.mp hp
    obtain ⟨hr, hremoves⟩ := List.mem_filter.mp hr
    rw [hall r hr hremoves] at hshadowed
    cases hshadowed

/-- Nothing that shadowing leaves is shadowed by another operation that it leaves. -/
theorem clear_removeShadowed (hr : r ∈ removeShadowed l) (hremoves : r.removesSubtree = true)
    (ho : o ∈ removeShadowed l) : isShadowed [r.pointer] o = false := by
  rw [removeShadowed_eq, List.mem_filter] at hr ho
  have hkept : isShadowed (removedPointers l) o = false := by simpa using ho.2
  rw [Bool.eq_false_iff] at hkept ⊢
  intro hshadowed
  refine hkept (isShadowed_iff.mpr ⟨r.pointer, ?_, hshadowed⟩)
  rw [removedPointers_eq]
  exact List.mem_map_of_mem (List.mem_filter.mpr ⟨hr.1, hremoves⟩)

/-! ## Ready batches -/

/-- None of the operations works on what another one removes. -/
def Clear (l : List Operation) : Prop :=
  ∀ r ∈ l, r.removesSubtree = true → ∀ o ∈ l, isShadowed [r.pointer] o = false

/-- The operations are at nodes of the file, no two of them overwrite one node, and none works on
what another one removes. -/
structure Ready (file : Syntax.File) (l : List Operation) : Prop where
  placed : ∀ o ∈ l, o.Placed file
  distinct : Distinct l
  clear : ∀ r ∈ l, r.removesSubtree = true → ∀ o ∈ l, isShadowed [r.pointer] o = false

theorem ready_removeShadowed (h : ∀ o ∈ l, o.Placed file) : Ready file (removeShadowed l) where
  placed := fun o ho => h o (mem_of_mem_removeShadowed ho)
  distinct := distinct_removeShadowed l
  clear := fun _ hr hremoves _ ho => clear_removeShadowed hr hremoves ho

/-! ## Folding keeps a batch ready -/

/-- What folding makes of an operation: itself, or the replacement of an assignment that is deleted
and where nothing was inserted before. -/
theorem mem_run_replacement {all before : List Operation} {z : Operation}
    (hz : z ∈ (replacement all before o).run o) :
    z = o ∨ ∃ place element, insertedPlace? o = some place ∧
      all.any (deletesAssignment place) = true ∧
      (before.any fun earlier => insertedPlace? earlier == some place) = false ∧
      z = ⟨place, .replaceNode element⟩ := by
  unfold replacement at hz
  split at hz
  · next element place _ hplace =>
    split at hz
    · next hfold =>
      rw [Bool.and_eq_true, Bool.not_eq_true'] at hfold
      exact Or.inr ⟨place, element, hplace, hfold.1, hfold.2, List.mem_singleton.mp hz⟩
    · exact Or.inl (List.mem_singleton.mp hz)
  · split at hz
    · exact absurd hz List.not_mem_nil
    · exact Or.inl (List.mem_singleton.mp hz)

/-- What is left of a batch after folding is of the batch or replaces an assignment. -/
theorem mem_folded_cases {all : List Operation} {z : Operation} :
    ∀ {l before : List Operation}, z ∈ folded all before l →
      z ∈ l ∨ ∃ place element, all.any (deletesAssignment place) = true ∧
        z = ⟨place, .replaceNode element⟩
  | [], _, hz => absurd hz List.not_mem_nil
  | a :: l, before, hz => by
      rw [folded_cons] at hz
      rcases List.mem_append.mp hz with hz | hz
      · rcases mem_run_replacement hz with rfl | ⟨place, element, _, hany, _, rfl⟩
        · exact Or.inl List.mem_cons_self
        · exact Or.inr ⟨place, element, hany, rfl⟩
      · exact (mem_folded_cases hz).imp_left (List.mem_cons_of_mem a)

/-- Where an assignment is replaced, the batch deletes one. -/
theorem exists_deletion {all : List Operation} {place : Pointer}
    (h : all.any (deletesAssignment place) = true) :
    ∃ d ∈ all, d.deletesNode = true ∧ d.pointer = place := by
  obtain ⟨d, hd, hdeletes⟩ := List.any_eq_true.mp h
  refine ⟨d, hd, ?_, (isDeletion_of_deletesAssignment hdeletes).2⟩
  obtain ⟨p, action⟩ := d
  cases action with
  | delete what => cases what <;> first | rfl | cases hdeletes
  | _ => cases hdeletes

/-- An operation that is kept and overwrites an assignment is not where another one is replaced. -/
theorem not_collide_replaced {all : List Operation} (hall : Unambiguous all) (ho : o ∈ all)
    (hdelete : o.isDeletion = false) {place : Pointer} {element : Tree.Element}
    (hany : all.any (deletesAssignment place) = true) :
    ¬ Collide o ⟨place, .replaceNode element⟩ := by
  rintro ⟨hdestructive, _, hpointer⟩
  obtain ⟨d, hd, hdeletes, rfl⟩ := exists_deletion hany
  have hdeletion := Operation.isDeletion_of_deletesNode hdeletes
  have heq : o = d := hall o ho d hd
    ⟨hdestructive, Operation.isDestructive_of_isDeletion hdeletion, hpointer⟩
  rw [heq, hdeletion] at hdelete
  cases hdelete

/-- Two operations that do not overwrite one node do not do so after folding. -/
theorem not_collide_of_mem_run {all before between : List Operation} {a b y z : Operation}
    (hall : Unambiguous all) (ha : a ∈ all) (hb : b ∈ all) (hab : ¬ Collide a b)
    (hbefore : ∀ c ∈ before, ¬ Collide c a) (hbetween : ∀ c ∈ before ++ a :: between, ¬ Collide c b)
    (hy : y ∈ (replacement all before a).run a)
    (hz : z ∈ (replacement all (before ++ a :: between) b).run b) : ¬ Collide y z := by
  cases hda : a.isDeletion with
  | true => exact (independent_of_mem_run hall ha hb hda hbefore ⟨Or.inl hda, hab⟩ hy hz).2
  | false =>
    cases hdb : b.isDeletion with
    | true =>
        exact (independent_of_mem_run hall hb ha hdb hbetween
          ⟨Or.inl hdb, fun hc => hab hc.symm⟩ hz hy).symm.2
    | false =>
      rcases mem_run_replacement hy with rfl | ⟨place, element, hplace, hany, _, rfl⟩
      · rcases mem_run_replacement hz with rfl | ⟨place', element', _, hany', _, rfl⟩
        · exact hab
        · exact not_collide_replaced hall ha hda hany'
      · rcases mem_run_replacement hz with rfl | ⟨place', element', _, _, hfirst, rfl⟩
        · exact fun hc => not_collide_replaced hall hb hdb hany hc.symm
        · -- the second insertion at a place finds the first one before it
          rintro ⟨_, _, hsame⟩
          obtain rfl : place = place' := hsame
          rw [List.any_append, List.any_cons, hplace, beq_self_eq_true, Bool.true_or,
            Bool.or_true] at hfirst
          cases hfirst

/-- The operation that becomes `z` by folding, with the batch before it. -/
theorem exists_of_mem_folded {all : List Operation} {z : Operation} :
    ∀ {l before : List Operation}, z ∈ folded all before l →
      ∃ between b rest, l = between ++ b :: rest ∧
        z ∈ (replacement all (before ++ between) b).run b
  | [], _, hz => absurd hz List.not_mem_nil
  | a :: l, before, hz => by
      rw [folded_cons] at hz
      rcases List.mem_append.mp hz with hz | hz
      · exact ⟨[], a, l, rfl, by rwa [List.append_nil]⟩
      · obtain ⟨between, b, rest, rfl, hb⟩ := exists_of_mem_folded hz
        refine ⟨a :: between, b, rest, rfl, ?_⟩
        rwa [List.append_assoc, List.singleton_append] at hb

theorem distinct_folded {all : List Operation} (hall : Unambiguous all) :
    ∀ {l before : List Operation}, Distinct (before ++ l) → (∀ o ∈ before ++ l, o ∈ all) →
      Distinct (folded all before l)
  | [], _, _, _ => List.Pairwise.nil
  | a :: l, before, hdistinct, hmem => by
      obtain ⟨_, hrest, hcross⟩ := List.pairwise_append.mp hdistinct
      obtain ⟨hal, _⟩ := List.pairwise_cons.mp hrest
      have happend : before ++ a :: l = before ++ [a] ++ l := by
        rw [List.append_assoc, List.singleton_append]
      rw [folded_cons]
      refine List.pairwise_append.mpr ⟨?_, ?_, ?_⟩
      · unfold replacement
        split
        · split <;> exact List.pairwise_singleton _ _
        · split
          · exact List.Pairwise.nil
          · exact List.pairwise_singleton _ _
      · rw [happend] at hdistinct hmem
        exact distinct_folded hall hdistinct hmem
      · intro y hy z hz
        obtain ⟨between, b, rest, rfl, hb⟩ := exists_of_mem_folded hz
        rw [List.append_assoc, List.singleton_append] at hb
        refine not_collide_of_mem_run hall (hmem a (by simp)) (hmem b (by simp))
          (hal b (by simp)) (fun c hc => hcross c hc a List.mem_cons_self) ?_ hy hb
        intro c hc
        have hpre : (before ++ a :: between) ++ b :: rest = before ++ a :: (between ++ b :: rest) := by
          simp
        rw [← hpre] at hdistinct
        exact (List.pairwise_append.mp hdistinct).2.2 c hc b List.mem_cons_self

theorem Clear.folded (h : Clear l) : Clear (Batch.folded l [] l) := by
  have hstands : ∀ z ∈ Batch.folded l [] l, z ∈ l ∨ ∃ d ∈ l, d.deletesNode = true ∧
      d.pointer = z.pointer ∧ z.isDestructive = true := by
    intro z hz
    rcases mem_folded_cases hz with hz | ⟨place, element, hany, rfl⟩
    · exact Or.inl hz
    · obtain ⟨d, hd, hdeletes, hpointer⟩ := exists_deletion hany
      exact Or.inr ⟨d, hd, hdeletes, hpointer, rfl⟩
  intro r hr hremoves z hz
  obtain ⟨r', hr', hremoves', hpointer⟩ :
      ∃ r' ∈ l, r'.removesSubtree = true ∧ r'.pointer = r.pointer := by
    rcases hstands r hr with hr | ⟨d, hd, hdeletes, hpointer, _⟩
    · exact ⟨r, hr, hremoves, rfl⟩
    · exact ⟨d, hd, Operation.removesSubtree_of_deletesNode hdeletes, hpointer⟩
  rw [← hpointer]
  rcases hstands z hz with hz | ⟨d, hd, hdeletes, hplace, hdestructive⟩
  · exact h r' hr' hremoves' z hz
  · have hclear := h r' hr' hremoves' d hd
    have hd' := Operation.isDestructive_of_isDeletion
      (Operation.isDeletion_of_deletesNode hdeletes)
    rw [isShadowed_of_isDestructive hd', hplace] at hclear
    rw [isShadowed_of_isDestructive hdestructive, hclear]

theorem Ready.folded (h : Ready file l) : Ready file (Batch.folded l [] l) where
  placed := by
    intro z hz
    rcases mem_folded_cases hz with hz | ⟨place, element, hany, rfl⟩
    · exact h.placed z hz
    · obtain ⟨d, hd, _, rfl⟩ := exists_deletion hany
      exact (h.placed d hd).of_action fun _ => Action.noConfusion
  distinct := distinct_folded h.distinct.unambiguous h.distinct fun _ ho => ho
  clear := Clear.folded h.clear

/-! ## Marking keeps a batch ready -/

/-- What inserts an annotation overwrites nothing. -/
theorem not_isDestructive_of_insertsAnnotationAt {p : Pointer}
    (h : insertsAnnotationAt p o = true) : o.isDestructive = false := by
  obtain ⟨q, action⟩ := o
  cases action with
  | insert what index e => rfl
  | _ => cases h

/-- A mark stands at the target of an insertion. -/
theorem mem_marked_cases {all : List Operation} {z : Operation} :
    ∀ {l : List Operation}, z ∈ marked file all l →
      z ∈ l ∨ ∃ o ∈ l, insertsAnnotationAt o.pointer o = true ∧
        ∃ unnecessary, z = ⟨o.pointer, .convertToCompound unnecessary⟩
  | [], hz => absurd hz List.not_mem_nil
  | a :: l, hz => by
      rw [marked_cons] at hz
      rcases List.mem_append.mp hz with hz | hz
      · rw [marking] at hz
        split at hz
        · next hmark =>
          rw [Bool.and_eq_true, Bool.and_eq_true] at hmark
          rcases List.mem_cons.mp hz with rfl | hz
          · exact Or.inl List.mem_cons_self
          · exact Or.inr ⟨a, List.mem_cons_self, hmark.1.1, _, List.mem_singleton.mp hz⟩
        · exact Or.inl (List.mem_singleton.mp hz ▸ List.mem_cons_self)
      · rcases mem_marked_cases hz with hz | ⟨o, ho, h⟩
        · exact Or.inl (List.mem_cons_of_mem a hz)
        · exact Or.inr ⟨o, List.mem_cons_of_mem a ho, h⟩

theorem distinct_marked {all : List Operation} : ∀ {l : List Operation}, Distinct l →
    Distinct (marked file all l)
  | [], _ => List.Pairwise.nil
  | a :: l, h => by
      obtain ⟨ha, hl⟩ := List.pairwise_cons.mp h
      rw [marked_cons]
      refine List.pairwise_append.mpr ⟨?_, distinct_marked hl, ?_⟩
      · rw [marking]
        split
        · refine List.pairwise_pair.mpr ?_
          rintro ⟨_, hdestructive, _⟩
          cases hdestructive
        · exact List.pairwise_singleton _ _
      · rintro y hy z hz ⟨hdy, hdz, hpointer⟩
        have hya : y = a := by
          rcases mem_run_marking hy with hya | ⟨_, hno⟩
          · exact hya
          · rw [hdy] at hno
            cases hno
        rcases mem_marked_cases hz with hz | ⟨_, _, _, _, rfl⟩
        · exact ha z hz ⟨hya ▸ hdy, hdz, hya ▸ hpointer⟩
        · cases hdz

theorem Clear.marked {all : List Operation} (h : Clear l) : Clear (Batch.marked file all l) := by
  intro r hr hremoves z hz
  have hr : r ∈ l := by
    rcases mem_marked_cases hr with hr | ⟨_, _, _, _, rfl⟩
    · exact hr
    · cases hremoves
  rcases mem_marked_cases hz with hz | ⟨o, ho, hinserts, unnecessary, rfl⟩
  · exact h r hr hremoves z hz
  · have hclear := h r hr hremoves o ho
    rw [isShadowed_of_not_isDestructive (not_isDestructive_of_insertsAnnotationAt hinserts),
      Bool.or_eq_false_iff] at hclear
    rw [isShadowed_of_not_isDestructive rfl, hclear.1]
    rfl

theorem Ready.marked {all : List Operation} (h : Ready file l) :
    Ready file (Batch.marked file all l) where
  placed := by
    intro z hz
    rcases mem_marked_cases hz with hz | ⟨o, ho, _, _, rfl⟩
    · exact h.placed z hz
    · exact (h.placed o ho).of_action fun _ => Action.noConfusion
  distinct := distinct_marked h.distinct
  clear := Clear.marked h.clear

/-! ## The batch before containers are emptied -/

/-- The operations that are not shadowed. -/
def unshadowed (file : Syntax.File) (operations : List Operation) : List Operation :=
  removeShadowed (operations.map (anchorInEmpty file))

/-- The operations after folding and marking. -/
def prepared (file : Syntax.File) (operations : List Operation) : List Operation :=
  let remaining := unshadowed file operations
  let replaced := Command.runAll remaining (replacements remaining)
  Command.runAll replaced (compounds file replaced)

theorem reduce_eq (file : Syntax.File) (operations : List Operation) :
    reduce file operations = order (removeShadowed (bubble file (prepared file operations))) := rfl

theorem anchorInEmpty_of_isDestructive (h : o.isDestructive = true) : anchorInEmpty file o = o := by
  obtain ⟨p, action⟩ := o
  cases action <;> first | rfl | cases h

theorem mem_of_mem_anchored (hdestructive : o.isDestructive = true)
    (h : o ∈ l.map (anchorInEmpty file)) : o ∈ l := by
  obtain ⟨a, ha, rfl⟩ := List.mem_map.mp h
  rw [isDestructive_anchorInEmpty] at hdestructive
  rw [anchorInEmpty_of_isDestructive hdestructive]
  exact ha

theorem placed_anchorInEmpty (h : o.Placed file) : (anchorInEmpty file o).Placed file := by
  rw [anchorInEmpty]
  split
  · obtain ⟨n, hn, hkind⟩ := h
    obtain ⟨p, action⟩ := o
    refine ⟨n, hn, fun what hwhat => hkind what ?_⟩
    cases action <;> first | exact hwhat | cases hwhat
  · exact h

theorem ready_unshadowed (h : ∀ o ∈ l, o.Placed file) : Ready file (unshadowed file l) := by
  refine ready_removeShadowed fun o ho => ?_
  obtain ⟨a, ha, rfl⟩ := List.mem_map.mp ho
  exact placed_anchorInEmpty (h a ha)

theorem ready_prepared (h : ∀ o ∈ l, o.Placed file) : Ready file (prepared file l) :=
  (ready_unshadowed h).folded.marked

/-- What is neither an annotation that is inserted nor an assignment that is deleted is not
folded. -/
theorem mem_folded_of_not_assignment {all : List Operation} (hplace : insertedPlace? o = none)
    (hdeletes : deletesAssignment o.pointer o = false) : ∀ {l before : List Operation}, o ∈ l →
      o ∈ folded all before l
  | [], _, ho => absurd ho List.not_mem_nil
  | a :: l, before, ho => by
      rw [folded_cons, List.mem_append]
      rcases List.mem_cons.mp ho with rfl | ho
      · left
        unfold replacement
        split
        · next heq =>
          rw [hplace] at heq
          cases heq
        · rw [hdeletes, Bool.false_and, Bool.false_and, if_neg Bool.false_ne_true]
          exact List.mem_singleton_self o
      · exact Or.inr (mem_folded_of_not_assignment hplace hdeletes ho)

/-- Marking adds operations and drops none. -/
theorem mem_marked_of_mem {all : List Operation} : ∀ {l : List Operation}, o ∈ l →
    o ∈ marked file all l
  | [], ho => absurd ho List.not_mem_nil
  | a :: l, ho => by
      rw [marked_cons, List.mem_append]
      rcases List.mem_cons.mp ho with rfl | ho
      · left
        unfold marking
        split
        · exact List.mem_cons_self
        · exact List.mem_singleton_self o
      · exact Or.inr (mem_marked_of_mem ho)

theorem mem_prepared_of_not_assignment (hplace : insertedPlace? o = none)
    (hdeletes : deletesAssignment o.pointer o = false) (ho : o ∈ unshadowed file l) :
    o ∈ prepared file l :=
  mem_marked_of_mem (mem_folded_of_not_assignment hplace hdeletes ho)

end Batch

end AnnotationEdit

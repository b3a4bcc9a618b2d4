import AnnotationEdit.Proofs.Batch.Containers

/-!
# Emptied containers

What becomes of a batch when emptied containers are deleted instead of what they hold. The pointers
that are to go are given by two rules (`Dead`): what the batch deletes is dead, and so is a container
that holds something, all of it dead, and at or below which the batch does nothing but delete. These
rules know no order; the work is done level by level from the deepest one up.

What the work keeps is `Progress`: every deletion is at a dead pointer, none lies below another, and
everything the batch deletes is still covered. What it achieves is that in the end every container is
`Settled`: when its contents are all deleted, something else keeps it. Together they say that the
deletions are at the topmost dead pointers (`mem_bubble_iff`), and with the last shadowing and the
sorting this is the main result, `reduce_topmost`.
-/

namespace AnnotationEdit.Batch

open Syntax (Node)

variable {file : Syntax.File} {batch l : List Operation} {o : Operation}

/-! ## Dead pointers -/

/-- The pointers that go with what the batch deletes. -/
inductive Dead (file : Syntax.File) (batch : List Operation) : Pointer → Prop
  | deleted {o : Operation} (ho : o ∈ batch) (hdeletes : o.deletesNode = true) :
      Dead file batch o.pointer
  | emptied {p : Pointer} {n : Node} (hn : file.resolve? p = some n) (hne : n.held ≠ [])
      (hall : ∀ c ∈ n.held, Dead file batch (p.append c.1))
      (hquiet : ∀ o ∈ batch, o.isDeletion = false → p.isPrefixOf o.pointer = false) :
      Dead file batch p

/-- Dead, with nothing dead above. -/
def Topmost (file : Syntax.File) (batch : List Operation) (p : Pointer) : Prop :=
  Dead file batch p ∧ ∀ q, Dead file batch q → q.isAncestorOf p = false

theorem keeps_eq_false_iff {p : Pointer} :
    keeps p o = false ↔ (o.isDeletion = false → p.isPrefixOf o.pointer = false) := by
  rw [keeps]
  cases o.isDeletion <;> simp

/-- Nothing is done at or below a dead pointer but deleting. -/
theorem Dead.quiet (hbatch : Ready file batch) {p : Pointer} (h : Dead file batch p) :
    ∀ o ∈ batch, o.isDeletion = false → p.isPrefixOf o.pointer = false := by
  cases h with
  | emptied _ _ _ hquiet => exact hquiet
  | @deleted d hd hdeletes =>
      intro o ho hdeletion
      have hclear := hbatch.clear d hd (Operation.removesSubtree_of_deletesNode hdeletes) o ho
      rw [Bool.eq_false_iff]
      intro hunder
      cases hdestructive : o.isDestructive with
      | false =>
          rw [isShadowed_of_not_isDestructive hdestructive, hunder] at hclear
          cases hclear
      | true =>
          rw [isShadowed_of_isDestructive hdestructive] at hclear
          have hsame : d.pointer = o.pointer := by
            by_contra hne
            rw [Pointer.isAncestorOf_iff.mpr ⟨hunder, hne⟩] at hclear
            cases hclear
          have hd' := Operation.isDeletion_of_deletesNode hdeletes
          have heq : o = d := hbatch.distinct.unambiguous o ho d hd
            ⟨hdestructive, Operation.isDestructive_of_isDeletion hd', hsame.symm⟩
          rw [heq, hd'] at hdeletion
          cases hdeletion

theorem Dead.not_below (hbatch : Ready file batch) {r : Operation} (hr : r ∈ batch)
    (hremoves : r.removesSubtree = true) {p : Pointer} (h : Dead file batch p) :
    r.pointer.isAncestorOf p = false := by
  induction h with
  | deleted ho hdeletes =>
      have hclear := hbatch.clear r hr hremoves _ ho
      rwa [isShadowed_of_isDestructive (Operation.isDestructive_of_isDeletion
        (Operation.isDeletion_of_deletesNode hdeletes))] at hclear
  | @emptied p n _ hne _ _ ih =>
      obtain ⟨c, hc⟩ := List.exists_mem_of_ne_nil _ hne
      have hchild := ih c hc
      rw [Bool.eq_false_iff] at hchild ⊢
      intro habove
      refine hchild ?_
      rw [Pointer.isAncestorOf, Bool.and_eq_true, decide_eq_true_eq] at habove ⊢
      refine ⟨?_, Pointer.isPrefixOf_trans habove.2 (Pointer.isPrefixOf_append p c.1)⟩
      rw [Pointer.depth_append]
      omega

/-- What holds nothing and is not deleted, by itself or with something above it, does not go. -/
theorem Dead.not_above {p : Pointer} {n : Node} (hn : file.resolve? p = some n)
    (hheld : n.held = []) (hqualifier : ∀ q, n ≠ .qualifier q)
    (hkept : ∀ o ∈ batch, o.deletesNode = true → o.pointer.isPrefixOf p = false) {q : Pointer}
    (h : Dead file batch q) : q.isPrefixOf p = false := by
  induction h with
  | deleted ho hdeletes => exact hkept _ ho hdeletes
  | @emptied q m hm hne hall hquiet ih =>
      rw [Bool.eq_false_iff]
      intro hunder
      have hne' : q ≠ p := by
        rintro rfl
        rw [Option.some.inj (hm.symm.trans hn)] at hne
        exact hne hheld
      obtain ⟨c, hc, hbelow⟩ := exists_held_isPrefixOf hm hne hn hqualifier
        (Pointer.isAncestorOf_iff.mpr ⟨hunder, hne'⟩)
      rw [ih c hc] at hbelow
      cases hbelow

/-! ## What emptying keeps -/

/-- The batch on the way: nothing but deletions of nodes has changed, those are at dead pointers and
apart from each other, and they cover what the batch deletes. -/
structure Progress (file : Syntax.File) (batch l : List Operation) : Prop where
  others : ∀ o, o.deletesNode = false → (o ∈ l ↔ o ∈ batch)
  origin : ∀ o ∈ l, o.deletesNode = true → o ∈ batch ∨ o.Matches file
  dead : ∀ o ∈ l, o.deletesNode = true → Dead file batch o.pointer
  covers : ∀ o ∈ batch, o.deletesNode = true →
    ∃ d ∈ l, d.deletesNode = true ∧ d.pointer.isPrefixOf o.pointer = true
  apart : ∀ a ∈ l, ∀ b ∈ l, a.deletesNode = true → b.deletesNode = true →
    a.pointer.isPrefixOf b.pointer = true → a = b
  distinct : Distinct l

theorem Ready.progress (hbatch : Ready file batch) : Progress file batch batch where
  others := fun _ _ => Iff.rfl
  origin := fun _ ho _ => Or.inl ho
  dead := fun _ ho hdeletes => .deleted ho hdeletes
  covers := fun o ho hdeletes => ⟨o, ho, hdeletes, Pointer.isPrefixOf_refl _⟩
  apart := by
    intro a ha b hb hdeletes hdeletes' hunder
    have hdestructive : ∀ {o : Operation}, o.deletesNode = true → o.isDestructive = true :=
      fun h => Operation.isDestructive_of_isDeletion (Operation.isDeletion_of_deletesNode h)
    have hclear := hbatch.clear a ha (Operation.removesSubtree_of_deletesNode hdeletes) b hb
    rw [isShadowed_of_isDestructive (hdestructive hdeletes')] at hclear
    refine hbatch.distinct.unambiguous a ha b hb
      ⟨hdestructive hdeletes, hdestructive hdeletes', ?_⟩
    by_contra hne
    rw [Pointer.isAncestorOf_iff.mpr ⟨hunder, hne⟩] at hclear
    cases hclear
  distinct := hbatch.distinct

namespace Progress

theorem placed (h : Progress file batch l) (hbatch : ∀ o ∈ batch, o.Placed file) :
    ∀ o ∈ l, o.Placed file := by
  intro o ho
  cases hdeletes : o.deletesNode with
  | false => exact hbatch o ((h.others o hdeletes).mp ho)
  | true =>
      rcases h.origin o ho hdeletes with hmem | hmatches
      · exact hbatch o hmem
      · exact hmatches.placed

/-- Other deletions are neither above nor below a container all of whose contents are deleted. -/
theorem apart_of_emptied (h : Progress file batch l) (hbatch : ∀ o ∈ batch, o.Placed file)
    {p : Pointer} {n : Node} (hn : file.resolve? p = some n) (hne : n.held ≠ [])
    (hall : Emptied file l p n) (ho : o ∈ l) (hdeletes : o.deletesNode = true)
    (hother : emptiedBy? file o ≠ some p) :
    p.isPrefixOf o.pointer = false ∧ o.pointer.isPrefixOf p = false := by
  have hheld : ∀ c ∈ n.held, (p.append c.1).isPrefixOf o.pointer = false ∧
      o.pointer.isPrefixOf (p.append c.1) = false := by
    intro c hc
    obtain ⟨d, hd, hcounts, hpointer⟩ := hall c hc
    have hdeletes' := deletesNode_of_emptiedBy? hcounts
    rw [← hpointer, Bool.eq_false_iff, Bool.eq_false_iff]
    constructor
    · intro hunder
      rw [h.apart d hd o ho hdeletes' hdeletes hunder] at hcounts
      exact hother hcounts
    · intro hunder
      rw [← h.apart o ho d hd hdeletes hdeletes' hunder] at hcounts
      exact hother hcounts
  obtain ⟨c, hc⟩ := List.exists_mem_of_ne_nil _ hne
  have habove : o.pointer.isPrefixOf p = false := by
    rw [Bool.eq_false_iff]
    intro hunder
    have hchild := (hheld c hc).2
    rw [Pointer.isPrefixOf_trans hunder (Pointer.isPrefixOf_append p c.1)] at hchild
    cases hchild
  refine ⟨?_, habove⟩
  rw [Bool.eq_false_iff]
  intro hunder
  have hne' : p ≠ o.pointer := by
    rintro rfl
    rw [Pointer.isPrefixOf_refl] at habove
    cases habove
  have hplaced := h.placed hbatch o ho
  obtain ⟨m, hm, _⟩ := id hplaced
  obtain ⟨c, hc, hbelow⟩ := exists_held_isPrefixOf hn hne hm (hplaced.ne_qualifier hdeletes hm)
    (Pointer.isAncestorOf_iff.mpr ⟨hunder, hne'⟩)
  rw [(hheld c hc).1] at hbelow
  cases hbelow

/-- No other deletion is of a container all of whose contents are deleted. -/
theorem pointer_ne_of_emptied (h : Progress file batch l) (hbatch : ∀ o ∈ batch, o.Placed file)
    {p : Pointer} {n : Node} (hn : file.resolve? p = some n) (hne : n.held ≠ [])
    (hall : Emptied file l p n) (hquiet : ∀ o ∈ l, keeps p o = false) (ho : o ∈ l)
    (hother : emptiedBy? file o ≠ some p) : o.pointer ≠ p := by
  intro hpointer
  have hunder : p.isPrefixOf o.pointer = true := by
    rw [hpointer]
    exact Pointer.isPrefixOf_refl p
  cases hdeletion : o.isDeletion with
  | false =>
      rw [keeps_eq_false_iff.mp (hquiet o ho) hdeletion] at hunder
      cases hunder
  | true =>
      rcases Operation.isDeletion_cases hdeletion with hdeletes | haction
      · rw [(h.apart_of_emptied hbatch hn hne hall ho hdeletes hother).1] at hunder
        cases hunder
      · obtain ⟨q, hq⟩ := (h.placed hbatch o ho).exists_qualifier haction
        rw [hpointer, hn] at hq
        rw [Option.some.inj hq] at hne
        exact hne rfl

/-- Giving up an emptied container is progress. -/
theorem replace (h : Progress file batch l) (hbatch : Ready file batch) {p : Pointer} {n : Node}
    {kind : Deletable} (hn : file.resolve? p = some n) (hne : n.held ≠ [])
    (hkind : n.deletable? = some kind) (hqualifier : kind ≠ .qualifier)
    (hall : Emptied file l p n) (hquiet : ∀ o ∈ l, keeps p o = false) :
    Progress file batch
      ((l.filter fun o => emptiedBy? file o != some p) ++ [⟨p, .delete kind⟩]) := by
  have hnew : Operation.deletesNode ⟨p, .delete kind⟩ = true := by
    cases kind <;> first | rfl | exact absurd rfl hqualifier
  have hmem : ∀ {o : Operation}, o ∈ (l.filter fun o => emptiedBy? file o != some p) ++
      [⟨p, .delete kind⟩] ↔ o ∈ l ∧ emptiedBy? file o ≠ some p ∨ o = ⟨p, .delete kind⟩ := by
    intro o
    rw [List.mem_append, List.mem_filter, List.mem_singleton, bne_iff_ne]
  have hapart := fun o ho hdeletes hother =>
    h.apart_of_emptied (o := o) hbatch.placed hn hne hall ho hdeletes hother
  constructor
  case others =>
    intro o ho
    rw [hmem, ← h.others o ho]
    constructor
    · rintro (⟨hmem, _⟩ | rfl)
      · exact hmem
      · rw [hnew] at ho
        cases ho
    · intro hmem
      refine Or.inl ⟨hmem, fun hcounts => ?_⟩
      rw [deletesNode_of_emptiedBy? hcounts] at ho
      cases ho
  case origin =>
    intro o ho hdeletes
    rcases hmem.mp ho with ⟨ho, _⟩ | rfl
    · exact h.origin o ho hdeletes
    · exact Or.inr ⟨n, hn, fun what hwhat => by rw [hkind, Action.delete.inj hwhat]⟩
  case dead =>
    intro o ho hdeletes
    rcases hmem.mp ho with ⟨ho, _⟩ | rfl
    · exact h.dead o ho hdeletes
    · refine .emptied hn hne ?_ ?_
      · intro c hc
        obtain ⟨d, hd, hcounts, hpointer⟩ := hall c hc
        rw [← hpointer]
        exact h.dead d hd (deletesNode_of_emptiedBy? hcounts)
      · intro o ho hdeletion
        have hother := Operation.deletesNode_of_not_isDeletion hdeletion
        exact keeps_eq_false_iff.mp (hquiet o ((h.others o hother).mpr ho)) hdeletion
  case covers =>
    intro o ho hdeletes
    obtain ⟨d, hd, hdeletes', hunder⟩ := h.covers o ho hdeletes
    by_cases hcounts : emptiedBy? file d = some p
    · obtain ⟨_, path, _, _, _, hpointer⟩ :=
        exists_held_of_emptiedBy? (h.placed hbatch.placed d hd) hcounts
      rw [hpointer] at hunder
      exact ⟨_, hmem.mpr (Or.inr rfl), hnew,
        Pointer.isPrefixOf_trans (Pointer.isPrefixOf_append p path) hunder⟩
    · exact ⟨d, hmem.mpr (Or.inl ⟨hd, hcounts⟩), hdeletes', hunder⟩
  case apart =>
    intro a ha b hb hdeletes hdeletes' hunder
    rcases hmem.mp ha with ⟨ha, hother⟩ | rfl
    · rcases hmem.mp hb with ⟨hb, _⟩ | rfl
      · exact h.apart a ha b hb hdeletes hdeletes' hunder
      · rw [(hapart a ha hdeletes hother).2] at hunder
        cases hunder
    · rcases hmem.mp hb with ⟨hb, hother⟩ | rfl
      · rw [(hapart b hb hdeletes' hother).1] at hunder
        cases hunder
      · rfl
  case distinct =>
    refine List.pairwise_append.mpr
      ⟨h.distinct.filter _, List.pairwise_singleton _ _, ?_⟩
    intro o ho d hd
    rw [List.mem_singleton.mp hd]
    rintro ⟨_, _, hpointer⟩
    rw [List.mem_filter, bne_iff_ne] at ho
    exact h.pointer_ne_of_emptied hbatch.placed hn hne hall hquiet ho.1 ho.2 hpointer

/-- Looking at one container that a deletion counts for is progress. -/
theorem bubbleContainer (h : Progress file batch l) (hbatch : Ready file batch) {p : Pointer}
    (hcounts : ∃ o ∈ l, emptiedBy? file o = some p) :
    Progress file batch (Batch.bubbleContainer file l p) := by
  rw [Batch.bubbleContainer]
  split
  · next d hd =>
    obtain ⟨n, kind, hn, hne, hkind, rfl, hqualifier, hall, hquiet⟩ :=
      of_emptied? (h.placed hbatch.placed) hcounts hd
    exact h.replace hbatch hn hne hkind hqualifier hall hquiet
  · exact h

theorem foldl_bubbleContainer (hbatch : Ready file batch) : ∀ {containers : List Pointer}
    {l : List Operation}, containers.Nodup →
      (∀ p ∈ containers, ∃ o ∈ l, emptiedBy? file o = some p) → Progress file batch l →
      Progress file batch (containers.foldl (Batch.bubbleContainer file) l)
  | [], _, _, _, h => h
  | p :: containers, l, hnodup, hcounts, h => by
      obtain ⟨hp, hnodup⟩ := List.nodup_cons.mp hnodup
      rw [List.foldl_cons]
      refine foldl_bubbleContainer hbatch hnodup ?_
        (h.bubbleContainer hbatch (hcounts p List.mem_cons_self))
      intro q hq
      obtain ⟨o, ho, hcounts⟩ := hcounts q (List.mem_cons_of_mem p hq)
      refine ⟨o, mem_bubbleContainer_of_ne ho ?_, hcounts⟩
      rw [hcounts]
      rintro heq
      rw [Option.some.inj heq] at hq
      exact hp hq

theorem bubbleLevel (h : Progress file batch l) (hbatch : Ready file batch) (depth : Nat) :
    Progress file batch (Batch.bubbleLevel file l depth) :=
  foldl_bubbleContainer hbatch (nodup_containersAt l depth)
    (fun _ hp => (mem_containersAt.mp hp).1) h

theorem bubbleBelow (hbatch : Ready file batch) : ∀ (depth : Nat) {l : List Operation},
    Progress file batch l → Progress file batch (Batch.bubbleBelow file depth l)
  | 0, _, h => h
  | depth + 1, _, h => bubbleBelow hbatch depth (h.bubbleLevel hbatch depth)

end Progress

theorem Ready.progress_bubble (hbatch : Ready file batch) :
    Progress file batch (bubble file batch) :=
  Progress.bubbleBelow hbatch _ hbatch.progress

/-! ## What emptying achieves -/

/-- If everything that the node holds is deleted, something keeps it. -/
def Settled (file : Syntax.File) (l : List Operation) (p : Pointer) : Prop :=
  ∀ n, file.resolve? p = some n → n.held ≠ [] → Emptied file l p n → ∃ o ∈ l, keeps p o = true

/-- A container is settled when nothing counts for it. -/
theorem settled_of_not_counted {p : Pointer} (h : ∀ o ∈ l, emptiedBy? file o ≠ some p) :
    Settled file l p := by
  intro n _ hne hall
  obtain ⟨c, hc⟩ := List.exists_mem_of_ne_nil _ hne
  obtain ⟨o, ho, hcounts, _⟩ := hall c hc
  exact absurd hcounts (h o ho)

theorem settled_bubbleContainer (p : Pointer) : Settled file (bubbleContainer file l p) p := by
  rw [bubbleContainer]
  split
  · next d hd =>
    obtain ⟨_, hpointer, _⟩ := emptied?_eq_some hd
    refine settled_of_not_counted fun o ho hcounts => ?_
    rcases List.mem_append.mp ho with ho | ho
    · exact bne_iff_ne.mp (List.mem_filter.mp ho).2 hcounts
    · -- the container is not a child of itself
      obtain rfl := List.mem_singleton.mp ho
      have hdepth := depth_lt_of_emptiedBy? hcounts
      rw [hpointer] at hdepth
      exact Nat.lt_irrefl _ hdepth
  · next hnone =>
    intro n hn hne hall
    by_contra hquiet
    obtain ⟨d, hd⟩ := exists_emptied? hn hne hall fun o ho =>
      Bool.eq_false_iff.mpr fun hkeeps => hquiet ⟨o, ho, hkeeps⟩
    rw [hnone] at hd
    cases hd

/-- Looking at a container does not unsettle another one that is not above it. -/
theorem Settled.bubbleContainer {p q : Pointer} (h : Settled file l p) (hdepth : q.depth ≤ p.depth) :
    Settled file (Batch.bubbleContainer file l q) p := by
  intro n hn hne hall
  have hall' : Emptied file l p n := by
    intro c hc
    obtain ⟨o, ho, hcounts, hpointer⟩ := hall c hc
    rcases mem_bubbleContainer ho with ho | hq
    · exact ⟨o, ho, hcounts, hpointer⟩
    · have hbelow := depth_lt_of_emptiedBy? hcounts
      rw [hq] at hbelow
      omega
  obtain ⟨o, ho, hkeeps⟩ := h n hn hne hall'
  refine ⟨o, mem_bubbleContainer_of_ne ho ?_, hkeeps⟩
  intro hcounts
  rw [keeps, Operation.isDeletion_of_deletesNode (deletesNode_of_emptiedBy? hcounts)] at hkeeps
  cases hkeeps

theorem settled_foldl {p : Pointer} : ∀ {containers : List Pointer} {l : List Operation},
    (∀ q ∈ containers, q.depth ≤ p.depth) → (p ∈ containers ∨ Settled file l p) →
      Settled file (containers.foldl (bubbleContainer file) l) p
  | [], _, _, h => h.resolve_left List.not_mem_nil
  | q :: containers, l, hdepth, h => by
      rw [List.foldl_cons]
      refine settled_foldl (fun r hr => hdepth r (List.mem_cons_of_mem q hr)) ?_
      rcases h with hp | hp
      · rcases List.mem_cons.mp hp with rfl | hp
        · exact Or.inr (settled_bubbleContainer p)
        · exact Or.inl hp
      · exact Or.inr (hp.bubbleContainer (hdepth q List.mem_cons_self))

theorem settled_bubbleLevel {depth : Nat} (h : ∀ p, depth < p.depth → Settled file l p) :
    ∀ p, depth ≤ p.depth → Settled file (bubbleLevel file l depth) p := by
  intro p hp
  refine settled_foldl ?_ ?_
  · intro q hq
    rw [(mem_containersAt.mp hq).2]
    exact hp
  · rcases Nat.eq_or_lt_of_le hp with heq | hlt
    · by_cases hmem : p ∈ containersAt file l depth
      · exact Or.inl hmem
      · refine Or.inr (settled_of_not_counted fun o ho hcounts => hmem ?_)
        exact mem_containersAt.mpr ⟨⟨o, ho, hcounts⟩, heq.symm⟩
    · exact Or.inr (h p hlt)

theorem settled_bubbleBelow : ∀ (depth : Nat) {l : List Operation},
    (∀ p, depth ≤ p.depth → Settled file l p) → ∀ p, Settled file (bubbleBelow file depth l) p
  | 0, _, h => fun p => h p (Nat.zero_le _)
  | depth + 1, _, h => settled_bubbleBelow depth (settled_bubbleLevel h)

theorem depth_le_maxDepth (ho : o ∈ l) : o.pointer.depth ≤ maxDepth l := by
  have hfold : ∀ (l : List Operation) (depth : Nat),
      depth ≤ l.foldl (fun depth o => Nat.max depth o.pointer.depth) depth ∧
        ∀ o ∈ l, o.pointer.depth ≤ l.foldl (fun depth o => Nat.max depth o.pointer.depth) depth := by
    intro l
    induction l with
    | nil => exact fun depth => ⟨Nat.le_refl _, fun _ ho => absurd ho List.not_mem_nil⟩
    | cons a l ih =>
        intro depth
        obtain ⟨hstart, hall⟩ := ih (Nat.max depth a.pointer.depth)
        refine ⟨Nat.le_trans (Nat.le_max_left _ _) hstart, ?_⟩
        intro o ho
        rcases List.mem_cons.mp ho with rfl | ho
        · exact Nat.le_trans (Nat.le_max_right _ _) hstart
        · exact hall o ho
  exact (hfold l 0).2 o ho

/-- In the end all containers are settled. -/
theorem settled_bubble (p : Pointer) : Settled file (bubble file l) p := by
  refine settled_bubbleBelow _ (fun p hp => settled_of_not_counted fun o ho hcounts => ?_) p
  have hbelow := depth_lt_of_emptiedBy? hcounts
  have hdepth := depth_le_maxDepth ho
  omega

/-! ## The deletions that are left -/

/-- What is dead is deleted in the end, or something above it is. -/
theorem exists_covering (hlists : file.ListsFit) (hbatch : Ready file batch) {p : Pointer}
    (h : Dead file batch p) : ∃ d ∈ bubble file batch, d.deletesNode = true ∧
      d.pointer.isPrefixOf p = true := by
  have hprogress := hbatch.progress_bubble
  induction h with
  | deleted ho hdeletes => exact hprogress.covers _ ho hdeletes
  | @emptied p n hn hne hall hquiet ih =>
      by_contra hnot
      have hemptied : Emptied file (bubble file batch) p n := by
        intro c hc
        obtain ⟨d, hd, hdeletes, hunder⟩ := ih c hc
        obtain ⟨m, hm, _⟩ := hprogress.placed hbatch.placed d hd
        have hpointer : d.pointer = p.append c.1 :=
          eq_child_of_isPrefixOf hn (Node.mem_children_of_mem_held hc) hm hunder
            (Bool.eq_false_iff.mpr fun habove => hnot ⟨d, hd, hdeletes, habove⟩)
        exact ⟨d, hd, emptiedBy?_of_held hlists hdeletes hn hc hpointer, hpointer⟩
      obtain ⟨o, ho, hkeeps⟩ := settled_bubble p n hn hne hemptied
      rw [keeps, Bool.and_eq_true, Bool.not_eq_true'] at hkeeps
      have hother : o.deletesNode = false := Operation.deletesNode_of_not_isDeletion hkeeps.1
      have hno := hquiet o ((hprogress.others o hother).mp ho) hkeeps.1
      rw [hkeeps.2] at hno
      cases hno

theorem mem_bubble_iff (hlists : file.ListsFit) (hbatch : Ready file batch) {p : Pointer} :
    (∃ d ∈ bubble file batch, d.deletesNode = true ∧ d.pointer = p) ↔ Topmost file batch p := by
  have hprogress := hbatch.progress_bubble
  constructor
  · rintro ⟨d, hd, hdeletes, rfl⟩
    refine ⟨hprogress.dead d hd hdeletes, fun q hq => ?_⟩
    rw [Bool.eq_false_iff]
    intro habove
    obtain ⟨hunder, hne⟩ := Pointer.isAncestorOf_iff.mp habove
    obtain ⟨e, he, hdeletes', hcovers⟩ := exists_covering hlists hbatch hq
    have heq := hprogress.apart e he d hd hdeletes' hdeletes
      (Pointer.isPrefixOf_trans hcovers hunder)
    rw [heq] at hcovers
    exact hne (Pointer.eq_of_isPrefixOf hunder hcovers)
  · rintro ⟨hdead, htop⟩
    obtain ⟨d, hd, hdeletes, hcovers⟩ := exists_covering hlists hbatch hdead
    refine ⟨d, hd, hdeletes, ?_⟩
    by_contra hne
    have habove := htop d.pointer (hprogress.dead d hd hdeletes)
    rw [Pointer.isAncestorOf_iff.mpr ⟨hcovers, hne⟩] at habove
    cases habove

/-! ## Shadowing once more -/

/-- Of what is neither deleting nor dead itself only moves can lose anything to a dead pointer. -/
theorem isShadowed_of_dead (hbatch : Ready file batch) {p : Pointer} (hp : Dead file batch p)
    (ho : o ∈ batch) (hdeletion : o.isDeletion = false) :
    isShadowed [p] o = o.sources.any p.isPrefixOf := by
  have hquiet := hp.quiet hbatch o ho hdeletion
  cases hdestructive : o.isDestructive with
  | false => rw [isShadowed_of_not_isDestructive hdestructive, hquiet, Bool.false_or]
  | true =>
      rw [isShadowed_of_isDestructive hdestructive, sources_of_isDestructive hdestructive,
        Pointer.isAncestorOf, hquiet, Bool.and_false]
      rfl

/-- What is left after shadowing: what no deletion of a node shadows. -/
theorem mem_removeShadowed_bubble (hbatch : Ready file batch)
    (hclear : ∀ r ∈ batch, r.removesSubtree = true → isShadowed [r.pointer] o = false) :
    o ∈ removeShadowed (bubble file batch) ↔ o ∈ bubble file batch ∧
      ∀ d ∈ bubble file batch, d.deletesNode = true → isShadowed [d.pointer] o = false := by
  have hprogress := hbatch.progress_bubble
  rw [mem_removeShadowed_of_distinct hprogress.distinct]
  refine and_congr_right fun _ => ⟨fun h d hd hdeletes => ?_, fun h r hr hremoves => ?_⟩
  · exact h d hd (Operation.removesSubtree_of_deletesNode hdeletes)
  · rcases Operation.removesSubtree_cases hremoves with hdeletes | hdeletion
    · exact h r hr hdeletes
    · exact hclear r ((hprogress.others r (Operation.deletesNode_of_not_isDeletion hdeletion)).mp hr)
        hremoves

/-- Deletions of nodes are all left. -/
theorem mem_removeShadowed_of_deletesNode (hbatch : Ready file batch)
    (hdeletes : o.deletesNode = true) :
    o ∈ removeShadowed (bubble file batch) ↔ o ∈ bubble file batch := by
  have hprogress := hbatch.progress_bubble
  have hshadowed := fun p => isShadowed_of_isDestructive (p := p)
    (Operation.isDestructive_of_isDeletion (Operation.isDeletion_of_deletesNode hdeletes))
  refine ⟨mem_of_mem_removeShadowed, fun ho => ?_⟩
  refine (mem_removeShadowed_bubble hbatch ?_).mpr ⟨ho, ?_⟩
  · intro r hr hremoves
    rw [hshadowed]
    exact (hprogress.dead o ho hdeletes).not_below hbatch hr hremoves
  · intro d hd hdeletes'
    rw [hshadowed, Bool.eq_false_iff]
    intro habove
    obtain ⟨hunder, hne⟩ := Pointer.isAncestorOf_iff.mp habove
    exact hne (congrArg Operation.pointer (hprogress.apart d hd o ho hdeletes' hdeletes hunder))

/-- What deletes nothing is left unless it moves something dead. -/
theorem mem_removeShadowed_of_not_isDeletion (hlists : file.ListsFit) (hbatch : Ready file batch)
    (hdeletion : o.isDeletion = false) :
    o ∈ removeShadowed (bubble file batch) ↔ o ∈ batch ∧
      ∀ source ∈ o.sources, ∀ p, Dead file batch p → p.isPrefixOf source = false := by
  have hprogress := hbatch.progress_bubble
  have hmem := hprogress.others o (Operation.deletesNode_of_not_isDeletion hdeletion)
  constructor
  · intro h
    have ho := hmem.mp (mem_of_mem_removeShadowed h)
    have hclear := ((mem_removeShadowed_bubble hbatch
      fun r hr hremoves => hbatch.clear r hr hremoves o ho).mp h).2
    refine ⟨ho, fun source hsource p hp => ?_⟩
    obtain ⟨d, hd, hdeletes, hunder⟩ := exists_covering hlists hbatch hp
    have hshadowed := hclear d hd hdeletes
    rw [isShadowed_of_dead hbatch (hprogress.dead d hd hdeletes) ho hdeletion,
      List.any_eq_false] at hshadowed
    exact Bool.eq_false_iff.mpr fun habove =>
      hshadowed source hsource (Pointer.isPrefixOf_trans hunder habove)
  · rintro ⟨ho, hsources⟩
    refine (mem_removeShadowed_bubble hbatch
      fun r hr hremoves => hbatch.clear r hr hremoves o ho).mpr ⟨hmem.mpr ho, ?_⟩
    intro d hd hdeletes
    have hdead := hprogress.dead d hd hdeletes
    rw [isShadowed_of_dead hbatch hdead ho hdeletion, List.any_eq_false]
    exact fun source hsource => Bool.eq_false_iff.mp (hsources source hsource _ hdead)

/-- A qualifier is deleted by itself unless its annotation goes. -/
theorem mem_removeShadowed_of_qualifier (hlists : file.ListsFit) (hbatch : Ready file batch)
    {above : Pointer} (ho : ⟨above.child "qualifier", .delete .qualifier⟩ ∈ batch) :
    ⟨above.child "qualifier", .delete .qualifier⟩ ∈ removeShadowed (bubble file batch) ↔
      ∀ p, Topmost file batch p → p.isPrefixOf above = false := by
  have hshadowed : ∀ p, isShadowed [p] ⟨above.child "qualifier", .delete .qualifier⟩ = false ↔
      p.isPrefixOf above = false := by
    intro p
    rw [isShadowed_of_isDestructive rfl, Bool.eq_false_iff, Bool.eq_false_iff, Ne, Ne,
      Pointer.isAncestorOf_child]
  rw [mem_removeShadowed_bubble hbatch fun r hr hremoves => hbatch.clear r hr hremoves _ ho]
  refine (and_iff_right ((hbatch.progress_bubble.others _ rfl).mpr ho)).trans ?_
  constructor
  · intro h p hp
    obtain ⟨d, hd, hdeletes, rfl⟩ := (mem_bubble_iff hlists hbatch).mpr hp
    exact (hshadowed _).mp (h d hd hdeletes)
  · intro h d hd hdeletes
    exact (hshadowed _).mpr (h _ ((mem_bubble_iff hlists hbatch).mp ⟨d, hd, hdeletes, rfl⟩))

/-! ## The deletions in order -/

theorem mem_order : o ∈ order l ↔ o ∈ l := by
  rw [order, List.mem_append, List.mem_mergeSort, List.mem_filter, List.mem_filter, ← and_or_left]
  cases o.isDeletion <;> simp

/-- Deletions at different nodes of the file are sorted strictly by pointer. -/
theorem pairwise_order (hdistinct : Distinct l) (hresolve : DeletionsResolve file l) :
    (((order l).filter (·.deletesNode)).map (·.pointer)).Pairwise fun p q => p.compare q = .lt := by
  have hnone : (l.filter (!·.isDeletion)).filter (·.deletesNode) = [] := by
    rw [List.filter_eq_nil_iff]
    intro o ho hdeletes
    have hno := (List.mem_filter.mp ho).2
    rw [Operation.isDeletion_of_deletesNode hdeletes] at hno
    cases hno
  rw [order, List.filter_append, hnone, List.nil_append, List.pairwise_map]
  refine List.Pairwise.filter _ ?_
  have hperm := List.mergeSort_perm (l.filter (·.isDeletion)) comesFirst
  have hsorted := @pairwise_mergeSort_cmp _ compareOperations _ (l.filter (·.isDeletion))
  have hapart := Distinct.perm (hdistinct.filter (·.isDeletion)) hperm.symm
  refine (hsorted.and hapart).imp_of_mem fun {a b} ha hb h => ?_
  obtain ⟨hle, hcollide⟩ := h
  have ha := List.mem_filter.mp (hperm.mem_iff.mp ha)
  have hb := List.mem_filter.mp (hperm.mem_iff.mp hb)
  have hne : a.pointer.compare b.pointer ≠ .eq := by
    intro heq
    exact hcollide ⟨Operation.isDestructive_of_isDeletion ha.2,
      Operation.isDestructive_of_isDeletion hb.2,
      Syntax.File.eq_of_compare_eq (hresolve a ha.1 ha.2) (hresolve b hb.1 hb.2) heq⟩
  rw [compareOperations] at hle
  cases hcompare : a.pointer.compare b.pointer with
  | lt => rfl
  | eq => exact absurd hcompare hne
  | gt =>
      rw [hcompare] at hle
      cases hle

/-! ## The whole reduction -/

theorem mem_of_mem_prepared (hdeletion : o.isDeletion = true) (h : o ∈ prepared file l) :
    o ∈ l := by
  have hunshadowed : o ∈ unshadowed file l :=
    mem_of_mem_folded hdeletion (mem_of_mem_marked hdeletion h)
  exact mem_of_mem_anchored (Operation.isDestructive_of_isDeletion hdeletion)
    (mem_of_mem_removeShadowed hunshadowed)

/-- What a reduced batch does: nodes are deleted once each, in the order of their pointers and as
what they are, at the topmost dead pointers. Everything else is done as prepared, but for moves of
what is dead. A qualifier is deleted by itself unless its annotation goes. -/
theorem reduce_topmost (file : Syntax.File) (operations : List Operation) (hlists : file.ListsFit)
    (hmatches : ∀ o ∈ operations, o.Matches file) :
    let batch := prepared file operations
    let result := reduce file operations
    ((result.filter (·.deletesNode)).map (·.pointer)).Pairwise (fun p q => p.compare q = .lt) ∧
      (∀ p, (∃ o ∈ result, o.deletesNode = true ∧ o.pointer = p) ↔ Topmost file batch p) ∧
      (∀ o ∈ result, o.deletesNode = true → o.Matches file) ∧
      (∀ o, o.isDeletion = false → (o ∈ result ↔ o ∈ batch ∧
        ∀ source ∈ o.sources, ∀ p, Dead file batch p → p.isPrefixOf source = false)) ∧
      ∀ o ∈ unshadowed file operations, o.action = .delete .qualifier →
        ∃ above a, file.resolve? above = some (Node.annotation a) ∧
          o.pointer = above.child "qualifier" ∧
          (o ∉ result ↔ ∃ p, Topmost file batch p ∧ p.isPrefixOf above = true) := by
  intro batch result
  have hplaced := fun o ho => (hmatches o ho).placed
  have hbatch : Ready file batch := ready_prepared hplaced
  have hprogress := hbatch.progress_bubble
  have hresult : ∀ o, o ∈ result ↔ o ∈ removeShadowed (bubble file batch) := by
    intro o
    show o ∈ reduce file operations ↔ _
    rw [reduce_eq, mem_order]
  have hdeletes : ∀ o, o.deletesNode = true → (o ∈ result ↔ o ∈ bubble file batch) := fun o ho =>
    (hresult o).trans (mem_removeShadowed_of_deletesNode hbatch ho)
  refine ⟨?_, ?_, ?_, ?_, ?_⟩
  · have hresolve : DeletionsResolve file (removeShadowed (bubble file batch)) := by
      intro o ho _
      obtain ⟨n, hn, _⟩ := hprogress.placed hbatch.placed o (mem_of_mem_removeShadowed ho)
      exact Option.isSome_iff_exists.mpr ⟨n, hn⟩
    exact pairwise_order (distinct_removeShadowed _) hresolve
  · intro p
    rw [← mem_bubble_iff hlists hbatch]
    constructor
    · rintro ⟨o, ho, hnode, hpointer⟩
      exact ⟨o, (hdeletes o hnode).mp ho, hnode, hpointer⟩
    · rintro ⟨o, ho, hnode, hpointer⟩
      exact ⟨o, (hdeletes o hnode).mpr ho, hnode, hpointer⟩
  · intro o ho hnode
    rcases hprogress.origin o ((hdeletes o hnode).mp ho) hnode with hmem | hfits
    · exact hmatches o (mem_of_mem_prepared (Operation.isDeletion_of_deletesNode hnode) hmem)
    · exact hfits
  · intro o hdeletion
    exact (hresult o).trans (mem_removeShadowed_of_not_isDeletion hlists hbatch hdeletion)
  · intro o ho haction
    obtain ⟨q, hq⟩ := ((ready_unshadowed hplaced).placed o ho).exists_qualifier haction
    obtain ⟨above, a, habove, hpointer⟩ := exists_annotation_of_qualifier hq
    obtain ⟨pointer, action⟩ := o
    obtain rfl : pointer = above.child "qualifier" := hpointer
    obtain rfl : action = .delete .qualifier := haction
    have hmem : ⟨above.child "qualifier", .delete .qualifier⟩ ∈ batch :=
      mem_prepared_of_not_assignment rfl rfl ho
    refine ⟨above, a, habove, rfl, ?_⟩
    rw [hresult, mem_removeShadowed_of_qualifier hlists hbatch hmem]
    simp only [not_forall, Bool.not_eq_false, exists_prop]

/-- The only value of a record is deleted, and the qualifier of the annotation that has the record
for its value. -/
def valueAndQualifier : List Operation :=
  [⟨⟨["targets", "0", "assignments", "0", "value", "properties", "0", "value"]⟩,
      .delete .primitiveValue⟩,
    ⟨⟨["targets", "0", "assignments", "0", "qualifier"]⟩, .delete .qualifier⟩]

/-- The value takes everything around it along, up to the target, and so the qualifier too. -/
theorem reduce_topmost_nested :
    ∃ d, Document.parse "a.cds" "annotate E with @A#q : \x7ba : 1\x7d;" .default = .ok d ∧
      Topmost d.syntaxTree (prepared d.syntaxTree valueAndQualifier) ⟨["targets", "0"]⟩ ∧
      ∀ o ∈ valueAndQualifier, o ∉ reduce d.syntaxTree valueAndQualifier := by
  have hchecks : ((Document.parse "a.cds" "annotate E with @A#q : \x7ba : 1\x7d;"
      .default).toOption.any fun d =>
        decide (∀ o ∈ valueAndQualifier, o.Matches d.syntaxTree) &&
        (reduce d.syntaxTree valueAndQualifier).any (fun o =>
          o.deletesNode && o.pointer == ⟨["targets", "0"]⟩) &&
        (reduce d.syntaxTree valueAndQualifier).all (fun o =>
          valueAndQualifier.all fun a => a.pointer != o.pointer)) = true := by decide +kernel
  obtain ⟨d, hd, hchecks⟩ := Locate.exists_ok_of_any hchecks
  rw [Bool.and_eq_true, Bool.and_eq_true, decide_eq_true_eq] at hchecks
  obtain ⟨⟨hmatches, hdeleted⟩, hgone⟩ := hchecks
  obtain ⟨_, htopmost, _⟩ := reduce_topmost d.syntaxTree valueAndQualifier
    (Document.listsFit hd (by decide)) hmatches
  refine ⟨d, hd, ?_, ?_⟩
  · obtain ⟨o, ho, hnode⟩ := List.any_eq_true.mp hdeleted
    obtain ⟨hnode, hpointer⟩ := Bool.and_eq_true_iff.mp hnode
    exact (htopmost _).mp ⟨o, ho, hnode, beq_iff_eq.mp hpointer⟩
  · intro a ha hmem
    have hne := List.all_eq_true.mp (List.all_eq_true.mp hgone a hmem) a ha
    exact bne_iff_ne.mp hne rfl

/-- A record is moved to the end of its collection, and its only property is deleted. -/
def moveAndEmpty : List Operation :=
  [⟨⟨["targets", "0", "assignments", "0", "value"]⟩, .moveCollectionValue none
      [⟨["targets", "0", "assignments", "0", "value", "items", "0"]⟩]⟩,
    ⟨⟨["targets", "0", "assignments", "0", "value", "items", "0", "properties", "0"]⟩,
      .delete .recordProperty⟩]

/-- The record goes, and the move that is still there after shadowing goes with it. -/
theorem reduce_drops_move :
    ∃ d, Document.parse "a.cds" "annotate E with @A : [\x7ba : 1\x7d, \x7bb : 2\x7d];" .default =
        .ok d ∧
      d.syntaxTree.ListsFit ∧ (∀ o ∈ moveAndEmpty, o.Matches d.syntaxTree) ∧
      ∃ o ∈ prepared d.syntaxTree moveAndEmpty,
        o.isDeletion = false ∧ o ∉ reduce d.syntaxTree moveAndEmpty := by
  have hchecks : ((Document.parse "a.cds" "annotate E with @A : [\x7ba : 1\x7d, \x7bb : 2\x7d];"
      .default).toOption.any fun d =>
        decide (∀ o ∈ moveAndEmpty, o.Matches d.syntaxTree) &&
        (prepared d.syntaxTree moveAndEmpty).any (!·.isDeletion) &&
        (reduce d.syntaxTree moveAndEmpty).all (·.isDeletion)) = true := by decide +kernel
  obtain ⟨d, hd, hchecks⟩ := Locate.exists_ok_of_any hchecks
  rw [Bool.and_eq_true, Bool.and_eq_true, decide_eq_true_eq] at hchecks
  obtain ⟨⟨hmatches, hprepared⟩, hall⟩ := hchecks
  obtain ⟨o, ho, hdeletion⟩ := List.any_eq_true.mp hprepared
  rw [Bool.not_eq_true'] at hdeletion
  refine ⟨d, hd, Document.listsFit hd (by decide), hmatches, o, ho, hdeletion, ?_⟩
  intro hmem
  rw [List.all_eq_true.mp hall o hmem] at hdeletion
  cases hdeletion

end AnnotationEdit.Batch

import AnnotationEdit.Batch.Reduce
import AnnotationEdit.Proofs.PointerOrder
import Mathlib.Data.List.Perm.Basic
import Mathlib.Data.List.Nodup

/-!
# Reordered batches

Two operations commute when one of them is a deletion and they do not both overwrite one node
(`Independent`); `Reordered` is what swapping such neighbours leads to. A batch in which nothing is
overwritten by two different operations may have its deletions permuted and moved about freely
(`reordered_partition`, `reordered_of_perm_deletions`).
-/

namespace AnnotationEdit

namespace Operation

theorem isDestructive_of_isDeletion {o : Operation} (h : o.isDeletion = true) :
    o.isDestructive = true := by
  obtain ⟨p, action⟩ := o
  cases action <;> simp_all [isDeletion, isDestructive]

theorem isDestructive_of_removesSubtree {o : Operation} (h : o.removesSubtree = true) :
    o.isDestructive = true := by
  rw [removesSubtree] at h
  split at h
  · cases h
  · exact h

end Operation

namespace Batch

/-! ## Operations that commute -/

/-- Both operations remove or overwrite the node at one pointer. -/
def Collide (a b : Operation) : Prop :=
  a.isDestructive = true ∧ b.isDestructive = true ∧ a.pointer = b.pointer

theorem Collide.symm {a b : Operation} (h : Collide a b) : Collide b a :=
  ⟨h.2.1, h.1, h.2.2.symm⟩

/-- The operations may trade places: one is a deletion, and they do not collide. -/
def Independent (a b : Operation) : Prop :=
  (a.isDeletion = true ∨ b.isDeletion = true) ∧ ¬Collide a b

theorem Independent.symm {a b : Operation} (h : Independent a b) : Independent b a :=
  ⟨h.1.symm, fun hc => h.2 hc.symm⟩

/-- The second batch comes from the first by swaps of neighbours that commute. -/
inductive Reordered : List Operation → List Operation → Prop where
  | nil : Reordered [] []
  | cons {l l' : List Operation} (o : Operation) : Reordered l l' → Reordered (o :: l) (o :: l')
  | swap {a b : Operation} (l : List Operation) : Independent a b →
      Reordered (a :: b :: l) (b :: a :: l)
  | trans {l m r : List Operation} : Reordered l m → Reordered m r → Reordered l r

namespace Reordered

theorem refl : ∀ l : List Operation, Reordered l l
  | [] => nil
  | o :: l => cons o (refl l)

theorem perm {l l' : List Operation} (h : Reordered l l') : l.Perm l' := by
  induction h with
  | nil => exact List.Perm.refl _
  | cons o _ ih => exact ih.cons o
  | swap l _ => exact List.Perm.swap _ _ l
  | trans _ _ ih ih' => exact ih.trans ih'

theorem symm {l l' : List Operation} (h : Reordered l l') : Reordered l' l := by
  induction h with
  | nil => exact nil
  | cons o _ ih => exact cons o ih
  | swap l hab => exact swap l hab.symm
  | trans _ _ ih ih' => exact ih'.trans ih

theorem mem_iff {l l' : List Operation} (h : Reordered l l') {o : Operation} : o ∈ l ↔ o ∈ l' :=
  h.perm.mem_iff

theorem any_eq {l l' : List Operation} (h : Reordered l l') (p : Operation → Bool) :
    l.any p = l'.any p :=
  h.perm.any_eq

theorem append_left {l l' : List Operation} (h : Reordered l l') :
    ∀ m : List Operation, Reordered (m ++ l) (m ++ l')
  | [] => h
  | o :: m => cons o (h.append_left m)

theorem append_right {l l' : List Operation} (h : Reordered l l') (m : List Operation) :
    Reordered (l ++ m) (l' ++ m) := by
  induction h with
  | nil => exact refl m
  | cons o _ ih => exact cons o ih
  | swap l hab => exact swap (l ++ m) hab
  | trans _ _ ih ih' => exact ih.trans ih'

/-- An operation moves past others that it commutes with. -/
theorem move {o : Operation} : ∀ {l : List Operation} (r : List Operation),
    (∀ b ∈ l, Independent o b) → Reordered (o :: (l ++ r)) (l ++ o :: r)
  | [], r, _ => refl (o :: r)
  | b :: l, r, h => by
      have hb : Independent o b := h b List.mem_cons_self
      have hl : Reordered (o :: (l ++ r)) (l ++ o :: r) :=
        move r (fun c hc => h c (List.mem_cons_of_mem _ hc))
      exact (swap (l ++ r) hb).trans (cons b hl)

/-- Two groups of operations trade places when their members commute. -/
theorem exchange (r : List Operation) : ∀ {l m : List Operation},
    (∀ a ∈ l, ∀ b ∈ m, Independent a b) → Reordered (l ++ (m ++ r)) (m ++ (l ++ r))
  | [], m, _ => refl (m ++ r)
  | a :: l, m, h => by
      have hl : Reordered (l ++ (m ++ r)) (m ++ (l ++ r)) :=
        exchange r (fun c hc => h c (List.mem_cons_of_mem _ hc))
      have ha : Reordered (a :: (m ++ (l ++ r))) (m ++ a :: (l ++ r)) :=
        move (l ++ r) (h a List.mem_cons_self)
      exact (cons a hl).trans ha

theorem filter {l l' : List Operation} (h : Reordered l l') (p : Operation → Bool) :
    Reordered (l.filter p) (l'.filter p) := by
  induction h with
  | nil => exact nil
  | @cons l l' o _ ih =>
      cases ho : p o
      · simpa [List.filter_cons, ho] using ih
      · simpa [List.filter_cons, ho] using cons o ih
  | @swap a b l hab =>
      cases ha : p a
      · cases hb : p b <;> simp [ha, hb, refl]
      · cases hb : p b
        · simp [ha, hb, refl]
        · simpa [List.filter_cons, ha, hb] using swap (l.filter p) hab
  | trans _ _ ih ih' => exact ih.trans ih'

/-- The operations that are no deletions keep their order. -/
theorem filter_rest {l l' : List Operation} (h : Reordered l l') :
    l.filter (!·.isDeletion) = l'.filter (!·.isDeletion) := by
  induction h with
  | nil => rfl
  | cons o _ ih => rw [List.filter_cons, List.filter_cons, ih]
  | @swap a b l hab =>
      rcases hab.1 with ha | hb
      · simp [List.filter_cons, ha]
      · simp [List.filter_cons, hb]
  | trans _ _ ih ih' => exact ih.trans ih'

end Reordered

/-! ## Where reordered batches come from -/

/-- Operations of the batch that overwrite one node are the same operation. -/
def Unambiguous (operations : List Operation) : Prop :=
  ∀ a ∈ operations, ∀ b ∈ operations, Collide a b → a = b

/-- The deletions of a batch can all go to its end. -/
theorem reordered_partition : ∀ {l : List Operation}, Unambiguous l →
    Reordered l (l.filter (!·.isDeletion) ++ l.filter (·.isDeletion))
  | [], _ => Reordered.nil
  | o :: l, h => by
      have hl : Reordered l (l.filter (!·.isDeletion) ++ l.filter (·.isDeletion)) :=
        reordered_partition
          (fun a ha b hb => h a (List.mem_cons_of_mem _ ha) b (List.mem_cons_of_mem _ hb))
      cases ho : o.isDeletion
      · simpa [List.filter_cons, ho] using Reordered.cons o hl
      · have hpast : ∀ b ∈ l.filter (!·.isDeletion), Independent o b := by
          intro b hb
          rw [List.mem_filter] at hb
          refine ⟨Or.inl ho, fun hc => ?_⟩
          have heq : o = b := h o List.mem_cons_self b (List.mem_cons_of_mem _ hb.1) hc
          rw [← heq, ho] at hb
          exact absurd hb.2 (by decide)
        have hmove := (Reordered.cons o hl).trans (Reordered.move (l.filter (·.isDeletion)) hpast)
        simpa [List.filter_cons, ho] using hmove

theorem reordered_of_perm_deletions {l l' : List Operation} (h : l.Perm l')
    (hdelete : ∀ o ∈ l, o.isDeletion = true) (hsame : Unambiguous l) : Reordered l l' := by
  induction h with
  | nil => exact Reordered.nil
  | cons o _ ih =>
      refine Reordered.cons o (ih (fun a ha => hdelete a (List.mem_cons_of_mem _ ha)) ?_)
      intro a ha b hb
      exact hsame a (List.mem_cons_of_mem _ ha) b (List.mem_cons_of_mem _ hb)
  | swap a b l =>
      by_cases hc : Collide b a
      · have heq : b = a := hsame b (by simp) a (by simp) hc
        rw [heq]
        exact Reordered.refl _
      · exact Reordered.swap l ⟨Or.inl (hdelete b (by simp)), hc⟩
  | trans hlm _ ih ih' =>
      refine (ih hdelete hsame).trans (ih' ?_ ?_)
      · intro o ho
        exact hdelete o (hlm.mem_iff.mpr ho)
      · intro a ha b hb
        exact hsame a (hlm.mem_iff.mpr ha) b (hlm.mem_iff.mpr hb)

/-- A batch may have its deletions permuted and moved anywhere between the other operations. -/
theorem reordered_of_perm {l l' : List Operation} (hsame : Unambiguous l) (hperm : l.Perm l')
    (hrest : l.filter (!·.isDeletion) = l'.filter (!·.isDeletion)) : Reordered l l' := by
  have hsame' : Unambiguous l' :=
    fun a ha b hb => hsame a (hperm.mem_iff.mpr ha) b (hperm.mem_iff.mpr hb)
  have hdeletions : Reordered (l.filter (·.isDeletion)) (l'.filter (·.isDeletion)) := by
    refine reordered_of_perm_deletions (hperm.filter _) (fun o ho => (List.mem_filter.mp ho).2) ?_
    intro a ha b hb
    exact hsame a (List.mem_filter.mp ha).1 b (List.mem_filter.mp hb).1
  have hends := hdeletions.append_left (l.filter (!·.isDeletion))
  nth_rewrite 2 [hrest] at hends
  exact (reordered_partition hsame).trans (hends.trans (reordered_partition hsame').symm)

end Batch

end AnnotationEdit

import AnnotationEdit.Proofs.Batch.Insertions
import AnnotationEdit.Proofs.Batch.Preparation
import AnnotationEdit.Proofs.Syntax.Rewriting

/-!
# Batches of replacements

Operations that overwrite nodes and delete none, at pointers that diverge, have nothing to do with
each other: none is shadowed, folded or followed by a mark, and no container is emptied. Such a
batch is carried out as it stands (`Batch.reduce_of_overwrites`).
-/

namespace AnnotationEdit

def Operation.overwrites (o : Operation) : Bool := o.isDestructive && !o.isDeletion

namespace Batch

variable {file : Syntax.File} {l : List Operation} {o : Operation}

theorem isDestructive_of_overwrites (h : o.overwrites = true) : o.isDestructive = true :=
  (Bool.and_eq_true_iff.mp h).1

theorem not_isDeletion_of_overwrites (h : o.overwrites = true) : o.isDeletion = false :=
  Bool.not_eq_true' _ ▸ (Bool.and_eq_true_iff.mp h).2

/-- What overwrites a node inserts nothing. -/
theorem not_isInsert_of_overwrites (h : o.overwrites = true) : o.isInsert = false := by
  cases hinsert : o.isInsert
  · rfl
  · rw [Operation.overwrites, Operation.isDestructive_of_isInsert hinsert] at h
    cases h

theorem anchorInEmpty_of_not_isInsert (h : o.isInsert = false) : anchorInEmpty file o = o := by
  obtain ⟨p, action⟩ := o
  cases action with
  | insertTarget | insert => cases h
  | _ => rfl

theorem insertsAnnotationAt_of_not_isInsert (h : o.isInsert = false) (p : Pointer) :
    insertsAnnotationAt p o = false := by
  obtain ⟨q, action⟩ := o
  cases action with
  | insert => cases h
  | _ => rfl

/-- Operations at pointers that diverge do not overwrite each other, and none is below another. -/
theorem removeShadowed_of_diverges (hl : l.Pairwise fun a b => a.pointer.Diverges b.pointer)
    (h : ∀ o ∈ l, o.isDestructive = true) : removeShadowed l = l := by
  have hdistinct : Distinct l := hl.imp fun {a b} hdiverges hcollide => by
    have hprefix := hdiverges.1
    rw [hcollide.2.2, Pointer.isPrefixOf_refl] at hprefix
    cases hprefix
  have hbeside : ∀ {a b : Operation}, a.pointer.Diverges b.pointer →
      a.pointer.isAncestorOf b.pointer = false := by
    intro a b hdiverges
    rw [Pointer.isAncestorOf, hdiverges.1, Bool.and_false]
  have hself : ∀ o ∈ l, o.pointer.isAncestorOf o.pointer = false := by
    intro o _
    rw [Pointer.isAncestorOf, decide_eq_false (Nat.lt_irrefl _), Bool.false_and]
  have hapart := List.Pairwise.forall_of_forall_of_flip hself (hl.imp hbeside)
    (hl.imp fun hdiverges => hbeside hdiverges.symm)
  rw [removeShadowed_eq, removedPointers_eq, survivors_of_distinct hdistinct, List.filter_eq_self]
  intro o ho
  rw [isShadowed, if_pos (h o ho), Bool.not_eq_true', List.any_eq_false]
  intro p hp
  obtain ⟨r, hr, rfl⟩ := List.mem_map.mp hp
  rw [hapart (List.mem_filter.mp hr).1 ho]
  exact Bool.false_ne_true

/-- Replacements at pointers that diverge are carried out as they stand. -/
theorem reduce_of_overwrites (h : ∀ o ∈ l, o.overwrites = true)
    (hl : l.Pairwise fun a b => a.pointer.Diverges b.pointer) : reduce file l = l := by
  have hkeeps : ∀ o ∈ l, o.isDeletion = false := fun o ho => not_isDeletion_of_overwrites (h o ho)
  have hanchored : l.map (anchorInEmpty file) = l :=
    (List.map_congr_left fun o ho => anchorInEmpty_of_not_isInsert
      (not_isInsert_of_overwrites (h o ho))).trans (List.map_id' l)
  have hshadowed := removeShadowed_of_diverges hl fun o ho => isDestructive_of_overwrites (h o ho)
  have hfolded : Command.runAll l (replacements l) = l := folded_eq_self hkeeps hkeeps
  have hmarked : Command.runAll l (compounds file l) = l := marked_eq_self fun o ho =>
    insertsAnnotationAt_of_not_isInsert (not_isInsert_of_overwrites (h o ho))
  simp only [reduce, hanchored, hshadowed, hfolded, hmarked]
  rw [bubble_of_not_isDeletion hkeeps, hshadowed, order_eq_self hkeeps]

end Batch

end AnnotationEdit

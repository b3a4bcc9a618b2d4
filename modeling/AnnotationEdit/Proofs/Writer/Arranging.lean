import AnnotationEdit.Proofs.Syntax.Layout
import AnnotationEdit.Proofs.Writer.Application

/-!
# Arranging edits

The edits of a draft are moved out of deleted text and sorted. Edits that stand apart afterwards
come one before the other once they are sorted (`StandApart.pairwise_mergeSort`); none of them is
left out and no two overlap, so they can be applied as they are (`Scene.finish_of_standApart`).
-/

namespace AnnotationEdit

namespace TextEdit

/-- Of any two edits one stands in front of the other, in whatever order they come. -/
structure StandApart (edits : List TextEdit) : Prop where
  proper : ∀ e ∈ edits, e.range.start ≤ e.range.stop
  apart : edits.Pairwise fun e f => e.range.Before f.range ∨ f.range.Before e.range

theorem comesFirst_of_starts {edits : List TextEdit}
    (h : edits.Pairwise fun e f => e.range.start < f.range.start) :
    edits.Pairwise fun e f => e.comesFirst f = true :=
  h.imp fun hlt => comesFirst_iff.mpr (Prod.Lex.le_iff.mpr (Or.inl hlt))

theorem pairwise_mergeSort (edits : List TextEdit) :
    (edits.mergeSort comesFirst).Pairwise fun e f => e.comesFirst f = true :=
  List.pairwise_mergeSort comesFirst_trans comesFirst_total edits

/-- An edit that comes first stands in front, if one of the two does. -/
theorem before_of_comesFirst {e f : TextEdit} (hfirst : e.comesFirst f = true)
    (hf : f.range.start ≤ f.range.stop)
    (h : e.range.Before f.range ∨ f.range.Before e.range) : e.range.Before f.range := by
  rcases h with hbefore | hbehind
  · exact hbefore
  · have hstart : f.range.start ≤ e.range.start := le_trans hf hbehind
    rcases Prod.Lex.le_iff.mp (comesFirst_iff.mp hfirst) with hlt | ⟨heq, hstop⟩
    · exact absurd hstart (not_le_of_gt hlt)
    · -- both are at one place, and neither has characters
      have heq : e.range.start = f.range.start := heq
      have hstop : e.range.stop ≤ f.range.stop := hstop
      exact le_trans hstop (hbehind.trans (le_of_eq heq))

theorem StandApart.pairwise_mergeSort {edits : List TextEdit} (h : StandApart edits) :
    (edits.mergeSort comesFirst).Pairwise fun e f => e.range.Before f.range := by
  have hperm := List.mergeSort_perm edits comesFirst
  have hapart := (hperm.symm.pairwise_iff fun hef => Or.symm hef).mp h.apart
  refine (hapart.and (TextEdit.pairwise_mergeSort edits)).imp_of_mem fun _ hf hef => ?_
  exact before_of_comesFirst hef.2 (h.proper _ (hperm.mem_iff.mp hf)) hef.1

end TextEdit

namespace RankedEdit

open TextEdit (StandApart)

theorem dropRepeated_of_before : ∀ {edits : List TextEdit},
    (∀ e ∈ edits, e.range.start ≤ e.range.stop) →
    (edits.Pairwise fun e f => e.range.Before f.range) → dropRepeated edits = edits
  | [], _, _ => rfl
  | e :: edits, hproper, h => by
      rw [dropRepeated]
      refine congrArg (e :: ·) ?_
      induction edits generalizing e with
      | nil => rfl
      | cons f edits ih =>
          obtain ⟨hfirst, hrest⟩ := List.pairwise_cons.mp h
          obtain ⟨hle, hproper⟩ := List.forall_mem_cons.mp hproper
          have hnot : ¬ (f.isDeletion && decide (f = e)) = true := by
            rw [Bool.and_eq_true, decide_eq_true_eq]
            rintro ⟨hdeletes, rfl⟩
            have heq : f.range.start = f.range.stop :=
              le_antisymm hle (hfirst f List.mem_cons_self)
            rw [TextEdit.isDeletion, Range.isEmpty, heq, beq_self_eq_true] at hdeletes
            cases hdeletes
          rw [dropRepeatedFrom, if_neg hnot, ih f hproper hrest]

theorem overlap?_of_before : ∀ {edits : List TextEdit} {stop : Position},
    (edits.Pairwise fun e f => e.range.Before f.range) →
    (∀ e ∈ edits, stop ≤ e.range.start) → overlap? stop edits = none
  | [], _, _, _ => rfl
  | e :: edits, stop, hbefore, hstop => by
      obtain ⟨he, hbefore⟩ := List.pairwise_cons.mp hbefore
      obtain ⟨hestop, hstop⟩ := List.forall_mem_cons.mp hstop
      rw [overlap?, if_neg (not_lt.mpr hestop)]
      refine overlap?_of_before hbefore fun f hf => ?_
      exact max_le (hstop f hf) (he f hf)

def deletedRanges (edits : List TextEdit) : List Range :=
  (edits.filter (·.isDeletion)).map (·.range)

/-- The edits, moved out of what they delete. -/
def moved (lines : Lines) (edits : List TextEdit) : List TextEdit :=
  edits.map (relocate lines (deletedRanges edits))

theorem moved_eq_self {lines : Lines} {edits : List TextEdit}
    (h : ∀ e ∈ edits, e.isInsertion = false) : moved lines edits = edits := by
  refine (List.map_congr_left fun e he => ?_).trans (List.map_id edits)
  rw [relocate, h e he]
  rfl

theorem arrange_of_standApart {lines : Lines} {edits : List TextEdit}
    (h : StandApart (moved lines edits)) :
    arrange lines (edits.map (·, .normal)) = (moved lines edits).mergeSort TextEdit.comesFirst := by
  have hdeleted : ((edits.map (·, EditPriority.normal)).filter (·.1.isDeletion)).map (·.1.range) =
      deletedRanges edits := by
    rw [List.filter_map, List.map_map]
    rfl
  have hmoved : (edits.map (·, EditPriority.normal)).map (fun (e, priority) =>
      (relocate lines (deletedRanges edits) e, priority)) =
        (moved lines edits).map (·, .normal) := by
    rw [moved, List.map_map, List.map_map]
    rfl
  have hsort : ((moved lines edits).map (·, EditPriority.normal)).mergeSort comesFirst =
      ((moved lines edits).mergeSort TextEdit.comesFirst).map (·, .normal) := by
    refine (List.map_mergeSort fun e _ f _ => ?_).symm
    show (e.range.compare f.range != .gt) = ((e.range.compare f.range).then .eq != .gt)
    rw [Ordering.then_eq]
  simp only [arrange, hdeleted, hmoved, hsort]
  rw [List.map_map]
  refine (congrArg dropRepeated (List.map_id _)).trans (dropRepeated_of_before ?_ ?_)
  · exact fun e he => h.proper e (List.mem_mergeSort.mp he)
  · exact h.pairwise_mergeSort

end RankedEdit

/-- A draft whose edits stand apart once they are moved is finished with them, in the order of the
text. -/
theorem Scene.finish_of_standApart {s : Scene} {d : Draft} {edits : List TextEdit}
    (hedits : (s.complete d).edits = edits.map (·, .normal))
    (h : TextEdit.StandApart (RankedEdit.moved s.document.lines edits)) :
    s.finish d =
      .ok ((RankedEdit.moved s.document.lines edits).mergeSort TextEdit.comesFirst) := by
  rw [finish, hedits, RankedEdit.arrange_of_standApart h,
    RankedEdit.overlap?_of_before h.pairwise_mergeSort fun e _ => Position.origin_le _]

/-- Edits that stand apart can be applied, and sorting them for this leaves them as they are. -/
theorem TextEdit.StandApart.exists_splice {edits : List TextEdit} (h : StandApart edits)
    (text : String) : ∃ cs,
      splice (.ofString text) 0 (edits.mergeSort comesFirst) = .ok cs ∧
      applyAll text (edits.mergeSort comesFirst) = .ok (String.ofList cs) := by
  have hsorted := TextEdit.pairwise_mergeSort edits
  obtain ⟨cs, hcs⟩ : ∃ cs, splice (.ofString text) 0 (edits.mergeSort comesFirst) = .ok cs :=
    RankedEdit.exists_splice (RankedEdit.overlap?_of_before h.pairwise_mergeSort
      fun e _ => Position.origin_le _) hsorted fun e _ => Nat.zero_le _
  refine ⟨cs, hcs, ?_⟩
  rw [applyAll, List.mergeSort_of_pairwise hsorted, hcs]
  rfl

end AnnotationEdit

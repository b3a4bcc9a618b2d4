import AnnotationEdit.Proofs.Token.Inserting
import AnnotationEdit.Proofs.Writer.Arranging

/-!
# Moving insertions out of deleted text

An insertion strictly inside deleted text moves to the start of that text. Places move with it
(`DeletedRanges.move`): they keep their order, and what stands in front of a token that stays, or
behind it, still does. Insertions and deletions that stand apart among each other stand apart once the
insertions are moved (`TextEdit.StandApart.moved`).
-/

namespace AnnotationEdit

open TextEdit (StandApart)

namespace RankedEdit

def around? (deleted : List Range) (p : Position) : Option Range :=
  deleted.find? fun r => r.start < p && p < r.stop

def movedPlace (deleted : List Range) (p : Position) : Position :=
  match around? deleted p with
  | none => p
  | some r => r.start

variable {deleted : List Range} {lines : Lines} {edits deletions : List TextEdit} {e f : TextEdit}
  {p q : Position} {r : Range}

theorem movedPlace_cases (deleted : List Range) (p : Position) :
    (movedPlace deleted p = p ∧ ∀ r ∈ deleted, ¬ (r.start < p ∧ p < r.stop)) ∨
      ∃ r ∈ deleted, r.start < p ∧ p < r.stop ∧ movedPlace deleted p = r.start := by
  rw [movedPlace]
  cases h : around? deleted p with
  | none =>
      refine Or.inl ⟨rfl, fun r hr ⟨hstart, hstop⟩ => ?_⟩
      have hnone := List.find?_eq_none.mp h r hr
      rw [decide_eq_true hstart, decide_eq_true hstop] at hnone
      exact hnone rfl
  | some r =>
      have htest := List.find?_some h
      rw [Bool.and_eq_true, decide_eq_true_eq, decide_eq_true_eq] at htest
      exact Or.inr ⟨r, List.mem_of_find?_eq_some h, htest.1, htest.2, rfl⟩

theorem movedPlace_le (deleted : List Range) (p : Position) : movedPlace deleted p ≤ p := by
  rcases movedPlace_cases deleted p with ⟨heq, _⟩ | ⟨r, _, hstart, _, heq⟩
  · exact le_of_eq heq
  · exact heq ▸ le_of_lt hstart

theorem exists_relocate (he : e.isInsertion = true) : ∃ bs, Text.allBlank bs = true ∧
    relocate lines deleted e =
      .insert (movedPlace deleted e.range.start) (String.ofList bs ++ e.newText) := by
  have hempty : ∀ p, TextEdit.insert p e.newText = .insert p (String.ofList [] ++ e.newText) :=
    fun p => congrArg (TextEdit.insert p) (String.toList_inj.mp (by simp))
  simp only [relocate, he, Bool.not_true, Bool.false_eq_true, if_false]
  rw [movedPlace, around?]
  cases deleted.find? fun r => decide (r.start < e.range.start) && decide (e.range.start < r.stop) with
  | none =>
      refine ⟨[], rfl, ?_⟩
      rw [← hempty]
      rw [TextEdit.isInsertion, Bool.and_eq_true, Range.isEmpty, beq_iff_eq] at he
      obtain ⟨⟨start, stop⟩, text⟩ := e
      obtain rfl : start = stop := he.1
      rfl
  | some r =>
      by_cases hblank : Text.allBlank (lines.slice ⟨r.start, e.range.start⟩) = true
      · exact ⟨_, hblank, congrArg _ (if_pos hblank)⟩
      · exact ⟨[], rfl, (congrArg _ (if_neg hblank)).trans (hempty _)⟩

theorem relocate_eq_self (he : e.isInsertion = false) : relocate lines deleted e = e := by
  rw [relocate, he]
  rfl

/-- An insertion at a place that is not deleted stays. -/
theorem relocate_of_movedPlace (h : ∀ r ∈ deleted, ¬ (r.start < e.range.start ∧ e.range.start < r.stop)) :
    relocate lines deleted e = e := by
  have hnone : (deleted.find? fun r =>
      decide (r.start < e.range.start) && decide (e.range.start < r.stop)) = none := by
    refine List.find?_eq_none.mpr fun r hr htest => h r hr ?_
    rwa [Bool.and_eq_true, decide_eq_true_eq, decide_eq_true_eq] at htest
  simp only [relocate, hnone, ite_self]

/-! ## Ranges that stand apart -/

section

variable (h : deleted.Pairwise fun r s => r.Before s ∨ s.Before r)

include h

theorem eq_or_before {s : Range} (hr : r ∈ deleted) (hs : s ∈ deleted) :
    r = s ∨ r.Before s ∨ s.Before r := by
  obtain ⟨i, hi⟩ := List.mem_iff_getElem?.mp hr
  obtain ⟨j, hj⟩ := List.mem_iff_getElem?.mp hs
  rcases eq_or_rel_of_getElem? h hi hj with rfl | hrs | hsr
  · exact Or.inl (Option.some.inj (hi.symm.trans hj))
  · exact Or.inr hrs
  · exact Or.inr hsr.symm

variable (hproper : ∀ r ∈ deleted, r.start ≤ r.stop)

include hproper

/-- Places keep their order. -/
theorem movedPlace_mono (hpq : p ≤ q) : movedPlace deleted p ≤ movedPlace deleted q := by
  rcases movedPlace_cases deleted q with ⟨heq, _⟩ | ⟨s, hs, hsq, hqs, heq⟩
  · rw [heq]
    exact (movedPlace_le deleted p).trans hpq
  rw [heq]
  rcases movedPlace_cases deleted p with ⟨heq', hout⟩ | ⟨r, hr, hrp, hpr, heq'⟩
  · rw [heq']
    exact le_of_not_gt fun hlt => hout s hs ⟨hlt, lt_of_le_of_lt hpq hqs⟩
  · rw [heq']
    rcases eq_or_before h hr hs with rfl | hbefore | hbefore
    · exact le_refl _
    · exact (hproper r hr).trans hbefore
    · exact absurd (lt_of_le_of_lt hpq hqs)
        (not_lt_of_ge (le_of_lt (lt_of_le_of_lt hbefore hrp)))

theorem movedPlace_apart (p : Position) (hr : r ∈ deleted) :
    movedPlace deleted p ≤ r.start ∨ r.stop ≤ movedPlace deleted p := by
  rcases movedPlace_cases deleted p with ⟨heq, hout⟩ | ⟨s, hs, _, _, heq⟩
  · rw [heq]
    rcases le_or_gt p r.start with hle | hlt
    · exact Or.inl hle
    · exact Or.inr (le_of_not_gt fun hp => hout r hr ⟨hlt, hp⟩)
  · rw [heq]
    rcases eq_or_before h hr hs with rfl | hbefore | hbefore
    · exact Or.inl (le_refl _)
    · exact Or.inr hbefore
    · exact Or.inl ((hproper s hs).trans hbefore)

end

end RankedEdit

namespace TextEdit.StandApart

open RankedEdit

variable {lines : Lines} {edits deletions : List TextEdit}

theorem pairwise_ranges (h : StandApart deletions) :
    (deletions.map (·.range)).Pairwise fun r s => r.Before s ∨ s.Before r :=
  List.pairwise_map.mpr h.apart

theorem proper_ranges (h : StandApart deletions) :
    ∀ r ∈ deletions.map (·.range), r.start ≤ r.stop :=
  List.forall_mem_map.mpr h.proper

theorem moved_append (hedits : ∀ e ∈ edits, e.newText ≠ "")
    (hdeletions : ∀ e ∈ deletions, e.newText = "" ∧ e.range.Proper) :
    moved lines (edits ++ deletions) =
      edits.map (relocate lines (deletions.map (·.range))) ++ deletions := by
  have hdeleted : deletedRanges (edits ++ deletions) = deletions.map (·.range) := by
    rw [deletedRanges, List.filter_append, List.filter_eq_nil_iff.mpr, List.nil_append,
      List.filter_eq_self.mpr]
    · intro e he
      obtain ⟨htext, hproper⟩ := hdeletions e he
      rw [isDeletion, htext, Range.isEmpty, beq_eq_false_iff_ne.mpr (ne_of_lt hproper)]
      rfl
    · intro e he hdeletion
      rw [isDeletion, Bool.and_eq_true, String.isEmpty_iff] at hdeletion
      exact hedits e he hdeletion.2
  rw [moved, hdeleted, List.map_append]
  refine congrArg _ ((List.map_congr_left fun e he => relocate_eq_self ?_).trans (List.map_id _))
  rw [isInsertion, (hdeletions e he).1]
  exact Bool.and_false _

/-- An insertion stays, or it moves; other edits stay. -/
theorem relocate_cases {deleted : List Range} (e : TextEdit) :
    relocate lines deleted e = e ∧ e.isInsertion = false ∨
      e.range.start = e.range.stop ∧ ∃ text, relocate lines deleted e =
        .insert (movedPlace deleted e.range.start) text := by
  cases hinsert : e.isInsertion with
  | true =>
      obtain ⟨bs, _, heq⟩ := @exists_relocate deleted lines e hinsert
      rw [isInsertion, Bool.and_eq_true, Range.isEmpty, beq_iff_eq] at hinsert
      exact Or.inr ⟨hinsert.1, _, heq⟩
  | false => exact Or.inl ⟨relocate_eq_self hinsert, rfl⟩

/-- Edits that stand apart do so when insertions among them move. -/
theorem map_relocate (hedits : StandApart edits) (hdeletions : StandApart deletions)
    (hapart : ∀ e ∈ edits, e.isInsertion = true ∨
      ∀ f ∈ deletions, e.range.Before f.range ∨ f.range.Before e.range) :
    StandApart (edits.map (relocate lines (deletions.map (·.range))) ++ deletions) := by
  have hstays : ∀ e ∈ edits, e.isInsertion = false →
      ∀ f ∈ deletions, e.range.Before f.range ∨ f.range.Before e.range := fun e he hnot =>
    (hapart e he).resolve_left (by rw [hnot]; exact Bool.false_ne_true)
  have hmixed : ∀ {e f : TextEdit}, e ∈ edits → e.isInsertion = false →
      f.range.start = f.range.stop → (e.range.Before f.range ∨ f.range.Before e.range) →
      e.range.stop ≤ movedPlace (deletions.map (·.range)) f.range.start ∨
        movedPlace (deletions.map (·.range)) f.range.start ≤ e.range.start := by
    intro e f he hnot hf hef
    rcases movedPlace_cases (deletions.map (·.range)) f.range.start with
      ⟨heq, _⟩ | ⟨r, hr, _, _, heq⟩
    · rw [heq]
      exact hef.imp_right fun hbefore => hf.trans_le hbefore
    · rw [heq]
      obtain ⟨g, hg, rfl⟩ := List.mem_map.mp hr
      exact (hstays e he hnot g hg).imp_right (hdeletions.proper g hg).trans
  refine ⟨List.forall_mem_append.mpr ⟨List.forall_mem_map.mpr fun e he => ?_, hdeletions.proper⟩,
    List.pairwise_append.mpr ⟨List.pairwise_map.mpr (hedits.apart.imp_of_mem ?_),
      hdeletions.apart, List.forall_mem_map.mpr fun e he f hf => ?_⟩⟩
  · rcases relocate_cases e with ⟨heq, _⟩ | ⟨_, text, heq⟩
    · rw [heq]
      exact hedits.proper e he
    · rw [heq]
      exact le_refl _
  · intro e f he hf hef
    rcases relocate_cases e with ⟨heq, hnot⟩ | ⟨hempty, text, heq⟩ <;>
      rcases relocate_cases f with ⟨heq', hnot'⟩ | ⟨hempty', text', heq'⟩ <;> rw [heq, heq']
    · exact hef
    · exact hmixed he hnot hempty' hef
    · exact (hmixed hf hnot' hempty hef.symm).symm
    · exact le_total _ _
  · rcases relocate_cases e with ⟨heq, hnot⟩ | ⟨_, text, heq⟩
    · rw [heq]
      exact hstays e he hnot f hf
    · rw [heq]
      exact movedPlace_apart hdeletions.pairwise_ranges hdeletions.proper_ranges _
        (List.mem_map_of_mem hf)

end TextEdit.StandApart

/-! ## Places between tokens -/

namespace CleanCut

open RankedEdit

variable {tokens : List Token} {deletions : List TextEdit} {t : Token} {p : Position}
  (h : CleanCut tokens deletions) (ht : t ∈ tokens) (hcut : TextEdit.cuts deletions t = false)

include h ht hcut

/-- What is deleted is in front of a token that stays, or behind it. -/
theorem before_or_behind {r : Range} (hr : r ∈ deletions.map (·.range)) :
    r.stop ≤ t.range.start ∨ t.range.stop ≤ r.start ∧
      (t.kind = .lineComment → t.range.stop.line < r.start.line) := by
  obtain ⟨e, he, rfl⟩ := List.mem_map.mp hr
  rcases h.apart e he t ht with hcontains | hbefore | hbehind
  · rw [TextEdit.cuts_eq_true.mpr ⟨e, he, hcontains⟩] at hcut
    cases hcut
  · exact Or.inl hbefore
  · exact Or.inr hbehind

variable (hlines : Token.InLines tokens)

include hlines

/-- A place behind a token that stays moves up to the token at most, and not behind a comment up to
the end of its line. -/
theorem stop_le_movedPlace (hle : t.range.stop ≤ p) :
    t.range.stop ≤ movedPlace (deletions.map (·.range)) p ∧
      (t.kind = .lineComment → movedPlace (deletions.map (·.range)) p = t.range.stop →
        movedPlace (deletions.map (·.range)) p = p) := by
  rcases movedPlace_cases (deletions.map (·.range)) p with ⟨heq, _⟩ | ⟨r, hr, _, hstop, heq⟩
  · rw [heq]
    exact ⟨hle, fun _ _ => rfl⟩
  · rw [heq]
    rcases h.before_or_behind ht hcut hr with hbefore | ⟨hbehind, hline⟩
    · exact absurd (lt_of_le_of_lt hle hstop)
        (not_lt_of_ge (hbefore.trans (le_of_lt (hlines.proper t ht))))
    · refine ⟨hbehind, fun hkind hplace => ?_⟩
      exact absurd (hplace ▸ hline hkind) (Nat.lt_irrefl _)

/-- The start of a token that stays does not move. -/
theorem not_around_start {r : Range} (hr : r ∈ deletions.map (·.range)) :
    ¬ (r.start < t.range.start ∧ t.range.start < r.stop) := by
  rintro ⟨hstart, hstop⟩
  rcases h.before_or_behind ht hcut hr with hbefore | ⟨hbehind, _⟩
  · exact absurd hstop (not_lt_of_ge hbefore)
  · exact absurd (lt_of_lt_of_le (hlines.proper t ht) hbehind) (not_lt_of_ge (le_of_lt hstart))

end CleanCut

end AnnotationEdit

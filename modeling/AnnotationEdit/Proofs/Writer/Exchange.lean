import AnnotationEdit.Proofs.Sorting
import AnnotationEdit.Proofs.Writer.Application
import AnnotationEdit.Proofs.Writer.Contribution

/-!
# Drafts in either order

Sorting keeps the order of edits with one key, so a batch is arranged the same when for every key
the edits come in the same order (`mergeSort_eq_of_filter_key`). Two drafts that take nothing
away and write at different places can therefore be joined in either order
(`Scene.finish_append_comm`), with what they have only noted and with the lines that they shift.
-/

namespace AnnotationEdit

/-! ## What is written at the end -/

namespace Scene

open Draft (ofEdits OnlyAt)

variable {s : Scene} {d : Draft} {p q : Pointer}

def emptyListEdit (s : Scene) (list : EmptyList) : RankedEdit :=
  (⟨⟨list.opening.stop, list.closing.start⟩, s.printer.block "" "" list.fragments list.level⟩,
    .normal)

def promotionText (s : Scene) (m : Promotion) : String :=
  s.printer.braces (("$value : " ++ (m.value.map fun range =>
    reindent (s.document.lines.slice range) s.printer.indentUnit 1).getD "true") :: m.fragments)
    m.level

def promotionEdit (s : Scene) (m : Promotion) : RankedEdit :=
  ((m.value.map fun range => ⟨range, s.promotionText m⟩).getD
    (.insert m.headEnd (" : " ++ s.promotionText m)), .normal)

def notedEdits (s : Scene) (d : Draft) : List RankedEdit :=
  d.emptyLists.map (fun l => s.emptyListEdit l.2) ++ d.promotions.map fun m => s.promotionEdit m.2

def plainEdits (s : Scene) (d : Draft) : List RankedEdit := d.edits ++ s.notedEdits d

theorem foldl_edits {α : Type} {f : Draft → α → Draft} {edit : α → RankedEdit}
    (hf : ∀ d a, f d a = d.append (ofEdits [edit a])) : ∀ (l : List α) (d : Draft),
      l.foldl f d = d.append (ofEdits (l.map edit))
  | [], d => by simp only [List.foldl_nil, Draft.append, ofEdits, List.map_nil, List.append_nil,
      List.nil_append]
  | a :: l, d => by
      rw [List.foldl_cons, hf, foldl_edits hf l, Draft.append_assoc, Draft.ofEdits_append]
      rfl

theorem writePromotion_eq (s : Scene) (d : Draft) (m : Promotion) :
    s.writePromotion d m = d.append (ofEdits [s.promotionEdit m]) := by
  rw [writePromotion, promotionEdit, promotionText]
  cases m.value with
  | none => exact Draft.push_eq d _ _
  | some range => exact Draft.push_eq d _ _

theorem writeEmptyLists_eq (s : Scene) (d : Draft) : s.writeEmptyLists d =
    d.append (ofEdits (d.emptyLists.map fun l => s.emptyListEdit l.2)) :=
  foldl_edits (fun d l => Draft.push_eq d (s.emptyListEdit l.2).1 .normal) d.emptyLists d

theorem writePromotions_eq (s : Scene) (d : Draft) : s.writePromotions d =
    d.append (ofEdits (d.promotions.map fun m => s.promotionEdit m.2)) :=
  foldl_edits (fun d m => s.writePromotion_eq d m.2) d.promotions d

theorem write_noted (s : Scene) (d : Draft) :
    s.writePromotions (s.writeEmptyLists d) = d.append (ofEdits (s.notedEdits d)) := by
  rw [writePromotions_eq, writeEmptyLists_eq, Draft.append_assoc, Draft.ofEdits_append]
  simp only [Draft.append, ofEdits, List.append_nil, notedEdits]

def shiftEdits (s : Scene) (lines : List Nat) (edits : List RankedEdit) : List RankedEdit :=
  (((lines.mergeSort (· ≤ ·)).eraseReps).filter fun line =>
    !(Text.allBlank (s.document.lines.lineText line) || edits.any (overwritesLine ·.1 line))).map
      fun line => (.insert ⟨line, 0⟩ s.printer.indentUnit, .normal)

theorem overwritesLine_insert (x : Position) (text : String) (line : Nat) :
    overwritesLine (.insert x text) line = false := by
  rw [Bool.eq_false_iff]
  intro h
  simp only [overwritesLine, Bool.and_eq_true, Bool.or_eq_true, TextEdit.isDeletion_insert,
    Bool.false_eq_true, false_and, or_false] at h
  obtain ⟨⟨_, hlt⟩, hgt⟩ := h
  exact lt_asymm (of_decide_eq_true hlt) (of_decide_eq_true hgt)

/-- Shifting a line changes nothing for the others. -/
theorem foldl_shiftLine (s : Scene) : ∀ (lines : List Nat) (d : Draft),
    lines.foldl s.shiftLine d = d.append (ofEdits ((lines.filter fun line =>
      !(Text.allBlank (s.document.lines.lineText line) ||
        d.edits.any (overwritesLine ·.1 line))).map
          fun line => (.insert ⟨line, 0⟩ s.printer.indentUnit, .normal)))
  | [], d => by simp only [List.foldl_nil, Draft.append, ofEdits, List.filter_nil, List.map_nil,
      List.append_nil, List.nil_append]
  | line :: lines, d => by
      rw [List.foldl_cons, List.filter_cons, shiftLine]
      split
      · next hkept =>
        rw [hkept, foldl_shiftLine s lines d]
        rfl
      · next hshifted =>
        rw [Bool.not_eq_true] at hshifted
        rw [hshifted, foldl_shiftLine s lines, Draft.insert, Draft.push_eq, Draft.append_assoc,
          Draft.ofEdits_append]
        have hany : ∀ line', (d.append (ofEdits [(.insert ⟨line, 0⟩ s.printer.indentUnit,
            .normal)])).edits.any (overwritesLine ·.1 line') =
            d.edits.any (overwritesLine ·.1 line') := by
          intro line'
          simp only [Draft.append, ofEdits, List.any_append, List.any_cons, List.any_nil,
            overwritesLine_insert, Bool.or_false]
        simp only [hany]
        rfl

/-- All edits of a draft that takes nothing away. -/
theorem edits_complete (hd : d.deletions = []) : (s.complete d).edits =
    s.plainEdits d ++ s.shiftEdits d.shiftedLines (s.plainEdits d) := by
  have hdeletions : s.writeDeletions (d.append (ofEdits (s.notedEdits d))) =
      d.append (ofEdits (s.notedEdits d)) := by
    have hnone : (d.append (ofEdits (s.notedEdits d))).deletions = [] := by
      rw [Draft.append, hd]
      rfl
    rw [writeDeletions, hnone, List.filterMap_nil, DeletionRange.settle_nil]
    rfl
  rw [complete, write_noted, hdeletions, writeShifts, foldl_shiftLine]
  simp only [Draft.append, ofEdits, shiftEdits, plainEdits, List.append_nil]

/-! ## Joining drafts -/

theorem toList_block_ne_nil {printer : Printer} {opening closing : String} {entries : List String}
    {level : Nat} (h : entries ≠ []) :
    (printer.block opening closing entries level).toList ≠ [] := by
  rw [Printer.block, if_neg (by rwa [List.isEmpty_iff])]
  simp

/-- What a draft only notes for a node is no deletion, and written at one of its places. -/
theorem notedEdits_spec {c : Draft} (hc : c.OnlyAt p) : ∀ e ∈ s.notedEdits c,
    e.1.isDeletion = false ∧ (e.1.range.start, e.2) ∈ c.spots := by
  refine List.forall_mem_append.mpr ⟨List.forall_mem_map.mpr fun l hl => ?_,
    List.forall_mem_map.mpr fun m hm => ?_⟩
  · refine ⟨TextEdit.isDeletion_of_toList (toList_block_ne_nil (hc.emptyLists l hl).2), ?_⟩
    refine List.mem_append_right _ (List.mem_append_left _ ?_)
    exact List.mem_map_of_mem (f := fun l : Pointer × EmptyList => (l.2.opening.stop, _)) hl
  · have hspot : ((m.2.value.map (·.start)).getD m.2.headEnd, EditPriority.normal) ∈ c.spots :=
      List.mem_append_right _ (List.mem_append_right _ (List.mem_map_of_mem
        (f := fun m : Pointer × Promotion => ((m.2.value.map (·.start)).getD m.2.headEnd, _)) hm))
    rw [promotionEdit]
    cases hvalue : m.2.value with
    | none =>
        rw [hvalue] at hspot
        exact ⟨TextEdit.isDeletion_insert _ _, hspot⟩
    | some range =>
        rw [hvalue] at hspot
        refine ⟨TextEdit.isDeletion_of_toList ?_, hspot⟩
        exact toList_block_ne_nil (List.cons_ne_nil _ _)

theorem plainEdits_spec {c : Draft} (hc : c.OnlyAt p) : ∀ e ∈ s.plainEdits c,
    e.1.isDeletion = false ∧ (e.1.range.start, e.2) ∈ c.spots := by
  refine List.forall_mem_append.mpr ⟨fun e he => ⟨hc.edits e he, ?_⟩, notedEdits_spec hc⟩
  exact List.mem_append_left _ (List.mem_map_of_mem
    (f := fun e : RankedEdit => (e.1.range.start, e.2)) he)

theorem eq_of_key {e f : RankedEdit} (h : e.key = f.key) :
    (e.1.range.start, e.2) = (f.1.range.start, f.2) := by
  have hparts : e.1.key = f.1.key ∧ e.2.rank = f.2.rank := Prod.mk.inj (toLex_inj.mp h)
  have hstart : e.1.range.start = f.1.range.start := (Prod.mk.inj (toLex_inj.mp hparts.1)).1
  have hrank : e.2 = f.2 := by
    have hrank := hparts.2
    revert hrank
    cases e.2 <;> cases f.2 <;> decide
  rw [hstart, hrank]

theorem shiftEdits_perm {lines lines' : List Nat} {edits edits' : List RankedEdit}
    (hlines : lines.Perm lines') (hedits : edits.Perm edits') :
    s.shiftEdits lines edits = s.shiftEdits lines' edits' := by
  have hsorted : ∀ l : List Nat, (l.mergeSort (· ≤ ·)).Pairwise (· ≤ ·) := by
    intro l
    refine (List.pairwise_mergeSort ?_ ?_ l).imp of_decide_eq_true
    · intro a b c hab hbc
      exact decide_eq_true (Nat.le_trans (of_decide_eq_true hab) (of_decide_eq_true hbc))
    · intro a b
      rw [Bool.or_eq_true, decide_eq_true_iff, decide_eq_true_iff]
      exact Nat.le_total a b
  have hperm : (lines.mergeSort (· ≤ ·)).Perm (lines'.mergeSort (· ≤ ·)) :=
    ((List.mergeSort_perm lines _).trans hlines).trans (List.mergeSort_perm lines' _).symm
  have hequal : lines.mergeSort (· ≤ ·) = lines'.mergeSort (· ≤ ·) :=
    hperm.eq_of_pairwise (fun a b _ _ => Nat.le_antisymm) (hsorted lines) (hsorted lines')
  have hany : ∀ line, edits.any (overwritesLine ·.1 line) = edits'.any (overwritesLine ·.1 line) :=
    fun line => hedits.any_eq
  simp only [shiftEdits, hequal, hany]

theorem plainEdits_append (c d : Draft) : s.plainEdits (c.append d) =
    (c.edits ++ d.edits) ++
      ((c.emptyLists.map (fun l => s.emptyListEdit l.2) ++
        d.emptyLists.map (fun l => s.emptyListEdit l.2)) ++
      (c.promotions.map (fun m => s.promotionEdit m.2) ++
        d.promotions.map fun m => s.promotionEdit m.2)) := by
  simp only [plainEdits, notedEdits, Draft.append, List.map_append]

theorem plainEdits_append_comm (c d : Draft) :
    (s.plainEdits (c.append d)).Perm (s.plainEdits (d.append c)) := by
  rw [plainEdits_append, plainEdits_append]
  exact List.perm_append_comm.append (List.perm_append_comm.append List.perm_append_comm)

/-- Of two drafts, what only one of them has does not depend on their order. -/
theorem filter_plainEdits {c d : Draft} {f : RankedEdit → Bool}
    (h : ∀ e ∈ s.plainEdits d, f e = false) :
    (s.plainEdits (c.append d)).filter f = (s.plainEdits c).filter f ∧
      (s.plainEdits (d.append c)).filter f = (s.plainEdits c).filter f := by
  have hnone : ∀ {l : List RankedEdit}, (∀ e ∈ l, f e = false) → l.filter f = [] := by
    intro l hl
    refine List.filter_eq_nil_iff.mpr fun e he => ?_
    rw [hl e he]
    exact Bool.false_ne_true
  obtain ⟨hedits, hnoted⟩ := List.forall_mem_append.mp h
  obtain ⟨hlists, hpromotions⟩ := List.forall_mem_append.mp hnoted
  rw [plainEdits_append, plainEdits_append, plainEdits, notedEdits]
  simp only [List.filter_append, hnone hedits, hnone hlists, hnone hpromotions, List.append_nil,
    List.nil_append, and_self]

/-- No edit of the two drafts takes anything away. -/
theorem filter_isDeletion {c d : Draft} (hc : c.OnlyAt p) (hd : d.OnlyAt q) :
    (s.complete (c.append d)).edits.filter (·.1.isDeletion) = [] := by
  have hdeletions : (c.append d).deletions = [] := by
    rw [Draft.append, hc.deletions, hd.deletions]
    rfl
  rw [edits_complete hdeletions, List.filter_append,
    (filter_plainEdits fun e he => (plainEdits_spec hd e he).1).1]
  refine List.append_eq_nil_iff.mpr ⟨List.filter_eq_nil_iff.mpr fun e he => ?_,
    List.filter_eq_nil_iff.mpr (List.forall_mem_map.mpr fun line _ => ?_)⟩
  · rw [(plainEdits_spec hc e he).1]
    exact Bool.false_ne_true
  · rw [TextEdit.isDeletion_insert]
    exact Bool.false_ne_true

/-- Two drafts that take nothing away and write at different places are finished the same in either
order. -/
theorem finish_append_comm {c d : Draft} (hc : c.OnlyAt p) (hd : d.OnlyAt q)
    (hspots : ∀ x ∈ c.spots, x ∉ d.spots) : s.finish (c.append d) = s.finish (d.append c) := by
  have hdeletions : (c.append d).deletions = [] ∧ (d.append c).deletions = [] := by
    rw [Draft.append, Draft.append, hc.deletions, hd.deletions]
    exact ⟨rfl, rfl⟩
  have hshifts : s.shiftEdits (c.append d).shiftedLines (s.plainEdits (c.append d)) =
      s.shiftEdits (d.append c).shiftedLines (s.plainEdits (d.append c)) :=
    shiftEdits_perm List.perm_append_comm (plainEdits_append_comm c d)
  have hfilter : ∀ k, (s.plainEdits (c.append d)).filter (RankedEdit.key · = k) =
      (s.plainEdits (d.append c)).filter (RankedEdit.key · = k) := by
    intro k
    by_cases hk : ∃ e ∈ s.plainEdits c, e.key = k
    · obtain ⟨e, he, rfl⟩ := hk
      have hother : ∀ f ∈ s.plainEdits d, decide (f.key = e.key) = false := by
        refine fun f hf => decide_eq_false fun hkey => ?_
        exact hspots _ (plainEdits_spec hc e he).2 (eq_of_key hkey ▸ (plainEdits_spec hd f hf).2)
      obtain ⟨hleft, hright⟩ := filter_plainEdits (c := c) hother
      rw [hleft, hright]
    · have hother : ∀ e ∈ s.plainEdits c, decide (e.key = k) = false :=
        fun e he => decide_eq_false fun hkey => hk ⟨e, he, hkey⟩
      obtain ⟨hleft, hright⟩ := filter_plainEdits (c := d) hother
      rw [hleft, hright]
  have hsort : (s.complete (c.append d)).edits.mergeSort RankedEdit.comesFirst =
      (s.complete (d.append c)).edits.mergeSort RankedEdit.comesFirst := by
    refine mergeSort_eq_of_filter_key (fun _ _ => RankedEdit.comesFirst_iff) fun k => ?_
    rw [edits_complete hdeletions.1, edits_complete hdeletions.2, hshifts, List.filter_append,
      List.filter_append, hfilter]
  rw [finish, finish, RankedEdit.arrange_of_insertions (filter_isDeletion hc hd),
    RankedEdit.arrange_of_insertions (filter_isDeletion hd hc), hsort]

end Scene

end AnnotationEdit

import AnnotationEdit.Proofs.Text.Places
import AnnotationEdit.Writer.Queue
import Mathlib.Data.Prod.Lex

/-!
# Applying what a writer returns

A writer sorts its edits by range and refuses those that overlap as positions. Applying edits sorts
them once more and refuses those that overlap as places in the text. The second check never fails
after the first one, and the second sort changes nothing (`Writer.applyAll_textEdits`), whatever
text, tokens and trees the document is put together from.
-/

namespace AnnotationEdit

/-! ## The order of ranges -/

theorem Position.compare_eq_lt {p q : Position} : p.compare q = .lt ↔ p < q := by
  rw [compare, Ordering.then_eq_lt, Nat.compare_eq_lt, Nat.compare_eq_eq, Nat.compare_eq_lt, lt_def]

theorem Position.compare_eq_eq {p q : Position} : p.compare q = .eq ↔ p = q := by
  rw [compare, Ordering.then_eq_eq, Nat.compare_eq_eq, Nat.compare_eq_eq, eq_iff]

theorem Position.isLE_compare {p q : Position} : (p.compare q).isLE = true ↔ p ≤ q := by
  rw [Ordering.isLE_iff_eq_lt_or_eq_eq, compare_eq_lt, compare_eq_eq, le_iff_lt_or_eq]

theorem isLE_of_ne_gt : ∀ o : Ordering, (o != .gt) = o.isLE := by decide

/-- What edits are sorted by when they are applied. -/
def TextEdit.key (e : TextEdit) : Position ×ₗ Position := toLex (e.range.start, e.range.stop)

theorem Range.isLE_compare {r s : Range} : (r.compare s).isLE = true ↔
    r.start < s.start ∨ r.start = s.start ∧ r.stop ≤ s.stop := by
  rw [compare, Ordering.isLE_then_iff_or, Position.compare_eq_lt, Position.compare_eq_eq,
    Position.isLE_compare]

theorem TextEdit.comesFirst_iff {a b : TextEdit} : a.comesFirst b = true ↔ a.key ≤ b.key := by
  rw [comesFirst, isLE_of_ne_gt, Range.isLE_compare, key, key, Prod.Lex.le_iff]
  rfl

theorem TextEdit.comesFirst_trans (a b c : TextEdit) (hab : a.comesFirst b = true)
    (hbc : b.comesFirst c = true) : a.comesFirst c = true := by
  rw [comesFirst_iff] at hab hbc ⊢
  exact le_trans hab hbc

theorem TextEdit.comesFirst_total (a b : TextEdit) :
    (a.comesFirst b || b.comesFirst a) = true := by
  rw [Bool.or_eq_true, comesFirst_iff, comesFirst_iff]
  exact le_total _ _

/-- What the edits of a draft are sorted by. -/
def RankedEdit.key (e : RankedEdit) : (Position ×ₗ Position) ×ₗ Nat := toLex (e.1.key, e.2.rank)

theorem RankedEdit.comesFirst_iff {a b : RankedEdit} : a.comesFirst b = true ↔ a.key ≤ b.key := by
  have hlt : a.1.range.compare b.1.range = .lt ↔ a.1.key < b.1.key := by
    rw [Range.compare, Ordering.then_eq_lt, Position.compare_eq_lt, Position.compare_eq_eq,
      Position.compare_eq_lt, TextEdit.key, TextEdit.key, Prod.Lex.lt_iff]
    rfl
  have heq : a.1.range.compare b.1.range = .eq ↔ a.1.key = b.1.key := by
    rw [Range.compare, Ordering.then_eq_eq, Position.compare_eq_eq, Position.compare_eq_eq,
      TextEdit.key, TextEdit.key, toLex_inj, Prod.mk.injEq]
  rw [comesFirst, isLE_of_ne_gt, Ordering.isLE_then_iff_or, hlt, heq, Nat.isLE_compare, key, key,
    Prod.Lex.le_iff]
  rfl

namespace RankedEdit

theorem comesFirst_trans (a b c : RankedEdit) (hab : a.comesFirst b = true)
    (hbc : b.comesFirst c = true) : a.comesFirst c = true := by
  rw [comesFirst_iff] at hab hbc ⊢
  exact le_trans hab hbc

theorem comesFirst_total (a b : RankedEdit) : (a.comesFirst b || b.comesFirst a) = true := by
  rw [Bool.or_eq_true, comesFirst_iff, comesFirst_iff]
  exact le_total _ _

/-! ## Arranged edits -/

theorem dropRepeatedFrom_sublist : ∀ (es : List TextEdit) (previous : TextEdit),
    (dropRepeatedFrom previous es).Sublist es
  | [], _ => .slnil
  | e :: es, previous => by
      rw [dropRepeatedFrom]
      split
      · exact (dropRepeatedFrom_sublist es previous).cons e
      · exact (dropRepeatedFrom_sublist es e).cons_cons e

theorem dropRepeated_sublist : ∀ es : List TextEdit, (dropRepeated es).Sublist es
  | [] => .slnil
  | e :: es => (dropRepeatedFrom_sublist es e).cons_cons e

/-- Edits are arranged in the order in which they are applied. -/
theorem pairwise_arrange (lines : Lines) (edits : List RankedEdit) :
    (arrange lines edits).Pairwise fun a b => a.comesFirst b = true := by
  refine List.Pairwise.sublist (dropRepeated_sublist _) (List.pairwise_map.mpr ?_)
  refine (List.pairwise_mergeSort comesFirst_trans comesFirst_total _).imp ?_
  intro a b hab
  rw [comesFirst_iff, Prod.Lex.le_iff] at hab
  rw [TextEdit.comesFirst_iff]
  rcases hab with hab | ⟨hab, _⟩
  · exact le_of_lt hab
  · exact le_of_eq hab

/-- Where nothing is deleted, nothing moves. -/
theorem arrange_of_insertions {lines : Lines} {edits : List RankedEdit}
    (h : edits.filter (·.1.isDeletion) = []) :
    arrange lines edits = dropRepeated ((edits.mergeSort comesFirst).map (·.1)) := by
  have hrelocate : ∀ e : TextEdit, relocate lines [] e = e := by
    intro e
    rw [relocate, List.find?_nil]
    exact ite_self e
  rw [arrange, h]
  simp only [List.map_nil, hrelocate, Prod.mk.eta, List.map_id_fun']
  rfl

theorem le_start_of_overlap? : ∀ {es : List TextEdit} {stop : Position},
    overlap? stop es = none → ∀ e ∈ es, stop ≤ e.range.start
  | e :: es, stop, h, f, hf => by
      rw [overlap?] at h
      split at h
      · cases h
      · next hstart =>
        rcases List.mem_cons.mp hf with rfl | hf
        · exact not_lt.mp hstart
        · exact le_trans (le_max_left stop e.range.stop) (le_start_of_overlap? h f hf)

/-- Sorted edits that do not overlap as positions do not overlap as places: each starts at or after
the place where the ones before it have started and ended. -/
theorem exists_splice {lines : Lines} : ∀ {es : List TextEdit} {stop : Position} {cursor : Nat},
    overlap? stop es = none → (es.Pairwise fun a b => a.comesFirst b = true) →
      (∀ e ∈ es, cursor ≤ lines.index e.range.start) →
      ∃ cs, TextEdit.splice lines cursor es = .ok cs
  | [], _, _, _, _, _ => ⟨_, rfl⟩
  | e :: es, stop, cursor, h, hsorted, hcursor => by
      obtain ⟨hfirst, hrest⟩ := List.pairwise_cons.mp hsorted
      rw [overlap?] at h
      split at h
      · cases h
      have hnext : ∀ f ∈ es,
          Nat.max (lines.index e.range.stop) (lines.index e.range.start) ≤
            lines.index f.range.start := by
        intro f hf
        have hstop : e.range.stop ≤ f.range.start :=
          le_trans (le_max_right stop e.range.stop) (le_start_of_overlap? h f hf)
        have hstart : e.range.start ≤ f.range.start := by
          have hkey := TextEdit.comesFirst_iff.mp (hfirst f hf)
          rw [Prod.Lex.le_iff] at hkey
          rcases hkey with hkey | ⟨hkey, _⟩
          · exact le_of_lt hkey
          · exact le_of_eq hkey
        exact Nat.max_le.mpr ⟨lines.index_mono hstop, lines.index_mono hstart⟩
      obtain ⟨cs, hcs⟩ := exists_splice h hrest hnext
      have hplace := hcursor e List.mem_cons_self
      rw [TextEdit.splice]
      simp only [if_neg (Nat.not_lt.mpr hplace), hcs]
      exact ⟨_, rfl⟩

end RankedEdit

/-- Edits that do not overlap as positions can be applied as they stand. -/
theorem Scene.finish_eq_ok {s : Scene} {d : Draft} {edits : List TextEdit}
    (h : s.finish d = .ok edits) :
    edits = RankedEdit.arrange s.document.lines (s.complete d).edits ∧
      RankedEdit.overlap? .origin edits = none := by
  rw [finish] at h
  split at h
  · cases h
  · next hnone =>
    obtain rfl := Except.ok.inj h
    exact ⟨rfl, hnone⟩

theorem synthesize_eq_ok {document : Document} {config : Configuration}
    {operations : List Operation} {edits : List TextEdit}
    (h : synthesize document config operations = .ok edits) :
    ∃ (s : Scene) (d : Draft), s.document = document ∧ s.finish d = .ok edits := by
  rw [synthesize] at h
  simp only [bind, Except.bind] at h
  split at h
  · cases h
  · next draft hdraft => exact ⟨_, draft, rfl, h⟩

/-- What a writer returns can be applied: sorting the edits for application leaves them in the order
of the list, edits of one range included, and passing through the text in that order meets no
overlap. -/
theorem Writer.applyAll_textEdits (w : Writer) {edits : List TextEdit}
    (h : w.textEdits = .ok edits) :
    edits.mergeSort TextEdit.comesFirst = edits ∧
      ∃ cs, TextEdit.splice w.document.lines 0 edits = .ok cs ∧
        TextEdit.applyAll w.document.text edits = .ok (String.ofList cs) := by
  obtain ⟨s, d, hdocument, hfinish⟩ := synthesize_eq_ok h
  obtain ⟨hedits, hnone⟩ := Scene.finish_eq_ok hfinish
  have hsorted : edits.Pairwise fun a b => a.comesFirst b = true := by
    rw [hedits]
    exact RankedEdit.pairwise_arrange _ _
  have hsort : edits.mergeSort TextEdit.comesFirst = edits := List.mergeSort_of_pairwise hsorted
  obtain ⟨cs, hcs⟩ : ∃ cs, TextEdit.splice w.document.lines 0 edits = .ok cs :=
    RankedEdit.exists_splice hnone hsorted fun e _ => Nat.zero_le _
  refine ⟨hsort, cs, hcs, ?_⟩
  have hlines : Lines.ofString w.document.text = w.document.lines := by
    rw [Lines.ofString, Document.text, Lines.text, String.toList_ofList]
  rw [TextEdit.applyAll, hsort, hlines, hcs]
  rfl

/-- A writer for a document whose only declaration stands below the text and ends before it
starts. -/
def strayWriter : Writer where
  document := {
    uri := "a.cds"
    lines := .ofString "ab"
    tokens := ⟨#[]⟩
    syntaxTree := ⟨"a.cds", .empty .origin, [⟨⟨⟨9, 9⟩, ⟨7, 3⟩⟩, none, none, none⟩], []⟩
    tree := ⟨"a.cds", none, [], []⟩
    ghost := false }
  config := .default
  changes := [⟨.root, .insertTarget none ⟨"E", none, none, []⟩⟩,
    ⟨.root, .insertReference ⟨"x", none, some "./x", none⟩⟩,
    ⟨.root, .insertReference ⟨"y", none, some "./y", none⟩⟩]

/-- Its edits, in the order in which they are applied. -/
def strayEdits : List TextEdit :=
  [.insert .origin "annotate E with @();\n", .insert ⟨7, 3⟩ "\nusing x from './x';",
    .insert ⟨7, 3⟩ "\nusing y from './y';"]

theorem DeletionRange.settle_nil (context : DeletionContext) : settle context [] = [] := by
  have hmerge : expandAndMerge context [] = [] := by
    rw [expandAndMerge, merge, List.map_nil, List.mergeSort_nil, dropRepeated, mergeSorted]
    rfl
  rw [settle, rounds, settleWithin]
  simp only [hmerge, if_true]

theorem Scene.writeDeletions_of_nil {s : Scene} {d : Draft} (hd : d.deletions = []) :
    s.writeDeletions d = d := by
  rw [writeDeletions, hd, List.filterMap_nil, DeletionRange.settle_nil]
  rfl

theorem Scene.writeShifts_of_nil {s : Scene} {d : Draft} (hd : d.shiftedLines = []) :
    s.writeShifts d = d := by
  rw [writeShifts, hd, List.mergeSort_nil]
  rfl

/-- A draft that has noted nothing is complete. -/
theorem Scene.complete_of_edits (s : Scene) (edits : List RankedEdit) :
    s.complete ⟨edits, [], [], [], [], [], [], []⟩ = ⟨edits, [], [], [], [], [], [], []⟩ := by
  rw [complete, writePromotions, writeEmptyLists, List.foldl_nil, List.foldl_nil,
    writeDeletions_of_nil rfl, writeShifts_of_nil rfl]

theorem applyAll_textEdits_stray : strayWriter.textEdits = .ok strayEdits ∧
    strayEdits.mergeSort TextEdit.comesFirst = strayEdits ∧
    ∃ text, TextEdit.applyAll "ab" strayEdits = .ok text := by
  have hedits : strayWriter.textEdits = .ok strayEdits := by
    have hreduce : Batch.reduce strayWriter.document.syntaxTree strayWriter.changes =
        strayWriter.changes := by with_unfolding_all rfl
    have harrange : ∀ lines, RankedEdit.arrange lines (strayEdits.map (·, .normal)) =
        strayEdits := by
      intro lines
      have hsort : (strayEdits.map (·, EditPriority.normal)).mergeSort RankedEdit.comesFirst =
          strayEdits.map (·, .normal) := List.mergeSort_of_pairwise (by decide)
      rw [RankedEdit.arrange_of_insertions (by decide), hsort]
      rfl
    rw [Writer.textEdits, synthesize, hreduce]
    show Scene.finish _ ⟨strayEdits.map (·, .normal), [], [], [], [], [], [], []⟩ = _
    rw [Scene.finish, Scene.complete_of_edits, harrange]
    rfl
  obtain ⟨hsort, cs, _, htext⟩ := strayWriter.applyAll_textEdits hedits
  exact ⟨hedits, hsort, _, htext⟩

end AnnotationEdit

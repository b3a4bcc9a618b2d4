import AnnotationEdit.Proofs.Syntax.Layout
import Mathlib.Algebra.GroupWithZero.Nat
import Mathlib.Order.Lattice
import Mathlib.Order.Monotone.Basic

/-!
# Places of positions

Every position has a place in the text, also one outside of it. A later position has a later place
or the same one (`Lines.index_mono`): within a line because it is cut off at the end of the line,
and from line to line because each line ends before the next one starts.
-/

namespace AnnotationEdit

theorem Position.eq_iff {p q : Position} :
    p = q ↔ p.line = q.line ∧ p.character = q.character := by
  cases p
  cases q
  rw [Position.mk.injEq]

instance Position.linearOrder : LinearOrder Position where
  toPreorder := Position.preorder
  le_antisymm p q hpq hqp := by
    rw [le_def] at hpq hqp
    rw [eq_iff]
    omega
  le_total p q := by
    rw [le_def, le_def]
    omega
  toDecidableLE := inferInstance
  toDecidableLT := inferInstance
  toDecidableEq := inferInstance

namespace Text

/-- The pieces and their separators make up the text, with one more separator at the end. -/
theorem sum_length_pieces (sep : Char) : ∀ cs : List Char,
    ((pieces sep cs).map (·.length + 1)).sum = cs.length + 1
  | [] => rfl
  | c :: cs => by
      have ih := sum_length_pieces sep cs
      rw [pieces]
      split
      · rw [List.map_cons, List.sum_cons, ih, List.length_cons, List.length_nil]
        omega
      · split
        · next hnil =>
          rw [hnil] at ih
          exact absurd ih (by simp)
        · next p ps hpieces =>
          rw [hpieces, List.map_cons, List.sum_cons] at ih
          rw [List.map_cons, List.sum_cons, List.length_cons, List.length_cons]
          omega

end Text

namespace Lines

variable (l : Lines)

theorem lineStart_eq (n : Nat) : l.lineStart n = ((l.rows.take n).map (·.length + 1)).sum := rfl

theorem lineStart_succ {n : Nat} {row : List Char} (h : l.rows[n]? = some row) :
    l.lineStart (n + 1) = l.lineStart n + (row.length + 1) := by
  rw [lineStart_eq, lineStart_eq, List.take_add_one, h, List.map_append, List.sum_append]
  rfl

theorem lineStart_mono : Monotone l.lineStart := by
  refine monotone_nat_of_le_succ fun n => ?_
  cases h : l.rows[n]? with
  | none =>
      have hcount := List.getElem?_eq_none_iff.mp h
      rw [lineStart_eq, lineStart_eq, List.take_of_length_le hcount,
        List.take_of_length_le (by omega)]
  | some row =>
      rw [l.lineStart_succ h]
      omega

/-- The line feed that the last line does not have is counted too. -/
theorem lineStart_le (n : Nat) : l.lineStart n ≤ l.chars.length + 1 := by
  have hall : l.lineStart l.count = l.chars.length + 1 := by
    rw [lineStart_eq, count, List.take_length]
    exact Text.sum_length_pieces '\n' l.chars
  rw [← hall]
  rcases Nat.le_total n l.count with h | h
  · exact l.lineStart_mono h
  · refine Nat.le_of_eq ?_
    rw [lineStart_eq, lineStart_eq, List.take_of_length_le h, count, List.take_length]

theorem length_dropReturns_le (cs : List Char) : (dropReturns cs).length ≤ cs.length := by
  rw [dropReturns, List.length_reverse]
  have h := (List.dropWhile_sublist (p := (· == '\r')) (l := cs.reverse)).length_le
  rwa [List.length_reverse] at h

/-- A line and its line feed end before the next line starts. -/
theorem lineStart_add_lineText_lt {n : Nat} (h : n < l.count) :
    l.lineStart n + (l.lineText n).length < l.lineStart (n + 1) := by
  have hrow : l.rows[n]? = some l.rows[n] := List.getElem?_eq_getElem h
  rw [l.lineStart_succ hrow, lineText, hrow]
  have := length_dropReturns_le l.rows[n]
  dsimp only
  omega

theorem index_of_lt {p : Position} (h : p.line < l.count) :
    l.index p = l.lineStart p.line + min p.character (l.lineText p.line).length := if_pos h

/-- A position below the last line is at the end. -/
theorem index_of_le {p : Position} (h : l.count ≤ p.line) : l.index p = l.chars.length :=
  if_neg (Nat.not_lt.mpr h)

theorem index_le_length (p : Position) : l.index p ≤ l.chars.length := by
  rcases Nat.lt_or_ge p.line l.count with h | h
  · have hline := l.lineStart_add_lineText_lt h
    have hstart := l.lineStart_le (p.line + 1)
    rw [l.index_of_lt h]
    omega
  · rw [l.index_of_le h]

/-- A later position has a later place, or the same one. -/
theorem index_mono {p q : Position} (h : p ≤ q) : l.index p ≤ l.index q := by
  rw [Position.le_def] at h
  rcases Nat.lt_or_ge q.line l.count with hq | hq
  · rcases h with h | ⟨hline, hcharacter⟩
    · have hp := Nat.lt_trans h hq
      have hend := l.lineStart_add_lineText_lt hp
      have hnext : l.lineStart (p.line + 1) ≤ l.lineStart q.line := l.lineStart_mono h
      rw [l.index_of_lt hp, l.index_of_lt hq]
      omega
    · rw [l.index_of_lt (hline ▸ hq), l.index_of_lt hq, hline]
      omega
  · rw [l.index_of_le hq]
    exact l.index_le_length p

end Lines

end AnnotationEdit

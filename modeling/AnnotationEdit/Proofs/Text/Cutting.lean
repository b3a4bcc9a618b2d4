import AnnotationEdit.Proofs.Printing.Spelling
import AnnotationEdit.Proofs.Text.Places
import AnnotationEdit.Text.Edit
import Mathlib.Data.List.Induction

/-!
# Cutting a text

Edits that only take characters away leave the characters at the other places
(`TextEdit.splice_eq_remain`). The place of the position after some characters at the front of a
text is their number (`Lines.index_after`), unless only carriage returns stand around it up to the
end of its line: there it is in front of them.
-/

namespace AnnotationEdit

/-! ## Rows -/

namespace Text

theorem pieces_sep (sep : Char) (cs : List Char) : pieces sep (sep :: cs) = [] :: pieces sep cs := by
  rw [pieces, if_pos rfl]

theorem pieces_cons {sep c : Char} {cs p : List Char} {ps : List (List Char)} (hc : c ≠ sep)
    (h : pieces sep cs = p :: ps) : pieces sep (c :: cs) = (c :: p) :: ps := by
  rw [pieces, if_neg hc, h]

end Text

namespace Lines

/-- The row that a text goes on with after its front: what the front has of it, and the first row of
the rest. -/
theorem drop_rows_after (front rest : List Char) : ∃ before current : List Char,
    front = before ++ current ∧ current.length = (Position.origin.after front).character ∧
    (Lines.mk (front ++ rest)).lineStart (Position.origin.after front).line = before.length ∧
    ∀ r rs, Text.pieces '\n' rest = r :: rs →
      (Lines.mk (front ++ rest)).rows.drop (Position.origin.after front).line =
        (current ++ r) :: rs := by
  induction front using List.reverseRecOn generalizing rest with
  | nil => exact ⟨[], [], rfl, rfl, rfl, fun r rs h => h⟩
  | append_singleton front c ih =>
      obtain ⟨before, current, hfront, hcharacter, hstart, hrows⟩ := ih (c :: rest)
      obtain ⟨r, rs, hpieces, _⟩ := Lexer.pieces_eq_cons '\n' rest
      have hafter : Position.origin.after (front ++ [c]) = (Position.origin.after front).advance c :=
        Lexer.after_append _ _ _
      rw [hafter, List.append_assoc, List.singleton_append]
      by_cases hc : c = '\n'
      · -- the row is complete, and the rest starts the next one
        subst hc
        have hrow := hrows [] _ (Text.pieces_sep '\n' rest)
        rw [List.append_nil] at hrow
        have hget : (Lines.mk (front ++ '\n' :: rest)).rows[(Position.origin.after front).line]? =
            some current := by
          rw [← List.head?_drop, hrow]
          rfl
        refine ⟨front ++ ['\n'], [], (List.append_nil _).symm, rfl, ?_, fun r rs h => ?_⟩
        · show lineStart _ ((Position.origin.after front).line + 1) = _
          rw [lineStart_succ _ hget, hstart, hfront]
          simp only [List.length_append, List.length_singleton]
          omega
        · show List.drop ((Position.origin.after front).line + 1) _ = _
          rw [← List.tail_drop, hrow, List.tail_cons, h, List.nil_append]
      · have hadvance : (Position.origin.after front).advance c =
            ⟨(Position.origin.after front).line, (Position.origin.after front).character + 1⟩ :=
          if_neg hc
        rw [hadvance]
        refine ⟨before, current ++ [c], ?_, ?_, hstart, fun r rs h => ?_⟩
        · rw [hfront, List.append_assoc]
        · rw [List.length_append, hcharacter, List.length_singleton]
        · rw [hrows (c :: r) rs (Text.pieces_cons hc h), List.append_assoc, List.singleton_append]

/-- Characters that do not end with a carriage return are not lost at the end of a row. -/
theorem length_le_dropReturns {cs ds : List Char} (h : cs.getLast? ≠ some '\r') :
    cs.length ≤ (dropReturns (cs ++ ds)).length := by
  rw [dropReturns, List.length_reverse, List.reverse_append, List.dropWhile_append]
  split
  · have hself : cs.reverse.dropWhile (· == '\r') = cs.reverse := by
      cases hrev : cs.reverse with
      | nil => rfl
      | cons c rev =>
          refine List.dropWhile_cons_of_neg ?_
          rintro hc
          rw [← List.head?_reverse, hrev, List.head?_cons, beq_iff_eq.mp hc] at h
          exact h rfl
    rw [hself, List.length_reverse]
  · rw [List.length_append, List.length_reverse]
    omega

theorem dropReturns_append (cs : List Char) :
    dropReturns cs ++ (cs.reverse.takeWhile (· == '\r')).reverse = cs := by
  rw [dropReturns, ← List.reverse_append, List.takeWhile_append_dropWhile, List.reverse_reverse]

/-- What is lost at the end of a row are carriage returns. -/
theorem eq_return_of_dropReturns {cs : List Char} {k : Nat} {d : Char} (h : cs[k]? = some d)
    (hk : (dropReturns cs).length ≤ k) : d = '\r' := by
  rw [← dropReturns_append cs, List.getElem?_append_right hk] at h
  have hmem := List.mem_reverse.mp (List.mem_of_getElem? h)
  exact beq_iff_eq.mp (List.all_eq_true.mp List.all_takeWhile d hmem)

theorem exists_row (front rest : List Char) : ∃ before current r : List Char, ∃ rs,
    front = before ++ current ∧ current.length = (Position.origin.after front).character ∧
    (Lines.mk (front ++ rest)).lineStart (Position.origin.after front).line = before.length ∧
    Text.pieces '\n' rest = r :: rs ∧
    (Lines.mk (front ++ rest)).rows[(Position.origin.after front).line]? = some (current ++ r) := by
  obtain ⟨before, current, hfront, hcharacter, hstart, hrows⟩ := drop_rows_after front rest
  obtain ⟨r, rs, hpieces, _⟩ := Lexer.pieces_eq_cons '\n' rest
  refine ⟨before, current, r, rs, hfront, hcharacter, hstart, hpieces, ?_⟩
  rw [← List.head?_drop, hrows r rs hpieces]
  rfl

theorem line_after_lt (front rest : List Char) :
    (Position.origin.after front).line < (Lines.mk (front ++ rest)).count := by
  obtain ⟨_, _, _, _, _, _, _, _, hrow⟩ := exists_row front rest
  exact (List.getElem?_eq_some_iff.mp hrow).1

theorem lineText_eq {l : Lines} {line : Nat} {row : List Char} (h : l.rows[line]? = some row) :
    l.lineText line = dropReturns row := by
  rw [lineText, h]

/-- The place of the position after the front of a text, unless it stands among carriage returns. -/
theorem index_after {front rest : List Char} (h : front.getLast? ≠ some '\r' ∨
    ∃ c cs, rest = c :: cs ∧ c ≠ '\n' ∧ c ≠ '\r') :
    (Lines.mk (front ++ rest)).index (Position.origin.after front) = front.length := by
  obtain ⟨before, current, r, rs, hfront, hcharacter, hstart, hpieces, hrow⟩ :=
    exists_row front rest
  have hlength : current.length ≤ (dropReturns (current ++ r)).length := by
    rcases h with h | ⟨c, cs, rfl, hnewline, hreturn⟩
    · refine length_le_dropReturns fun hlast => h ?_
      rw [hfront, List.getLast?_append, hlast]
      rfl
    · obtain ⟨q, qs, hq, _⟩ := Lexer.pieces_eq_cons '\n' cs
      rw [Text.pieces_cons hnewline hq] at hpieces
      obtain ⟨rfl, _⟩ := List.cons.inj hpieces
      have hlast : (current ++ [c]).getLast? ≠ some '\r' := by
        rw [List.getLast?_concat]
        exact fun h => hreturn (Option.some.inj h)
      have hle : (current ++ [c]).length ≤ (dropReturns ((current ++ [c]) ++ q)).length :=
        length_le_dropReturns hlast
      rw [List.append_assoc, List.singleton_append, List.length_append] at hle
      omega
  rw [index_of_lt _ (line_after_lt front rest), hstart, lineText_eq hrow, ← hcharacter,
    Nat.min_eq_left hlength, hfront, List.length_append]

theorem lineText_after {front rest : List Char} {c : Char} (hnewline : c ≠ '\n')
    (hreturn : c ≠ '\r') :
    ((Lines.mk (front ++ c :: rest)).lineText
      (Position.origin.after front).line)[(Position.origin.after front).character]? = some c := by
  obtain ⟨before, current, r, rs, _, hcharacter, _, hpieces, hrow⟩ := exists_row front (c :: rest)
  obtain ⟨q, qs, hq, _⟩ := Lexer.pieces_eq_cons '\n' rest
  rw [Text.pieces_cons hnewline hq] at hpieces
  obtain ⟨rfl, _⟩ := List.cons.inj hpieces
  have hget : (current ++ c :: q)[current.length]? = some c := by
    rw [List.getElem?_append_right (Nat.le_refl _), Nat.sub_self]
    rfl
  have hlt : current.length < (dropReturns (current ++ c :: q)).length := by
    refine Nat.lt_of_not_le fun hle => hreturn ?_
    exact eq_return_of_dropReturns hget hle
  rw [← dropReturns_append (current ++ c :: q), List.getElem?_append_left hlt] at hget
  rw [lineText_eq hrow, ← hcharacter]
  exact hget

/-! ## Rows up to their end -/

section

variable {front rest : List Char}

/-- The position behind all characters of a row is in front of the carriage returns at its end. -/
theorem lt_index_after (hrest : ∀ c ∈ rest.head?, c = '\n') {j : Nat} {d : Char}
    (hd : front[j]? = some d) :
    j < (Lines.mk (front ++ rest)).index (Position.origin.after front) ∨ d = '\r' := by
  obtain ⟨before, current, r, rs, hfront, hcharacter, hstart, hpieces, hrow⟩ :=
    exists_row front rest
  have hr : r = [] := by
    cases rest with
    | nil => exact (List.cons.inj hpieces).1.symm
    | cons c rest =>
        rw [hrest c rfl, Text.pieces_sep] at hpieces
        exact (List.cons.inj hpieces).1.symm
  rw [hr, List.append_nil] at hrow
  have hle := length_dropReturns_le current
  rw [index_of_lt _ (line_after_lt front rest), hstart, lineText_eq hrow, ← hcharacter,
    Nat.min_eq_right hle]
  by_cases hj : j < before.length + (dropReturns current).length
  · exact Or.inl hj
  · right
    rw [hfront, List.getElem?_append_right (by omega)] at hd
    exact eq_return_of_dropReturns hd (by omega)

/-- Positions on later lines are behind the line feed at the end of a row. -/
theorem length_lt_index {q : Position}
    (hq : (Position.origin.after front).line < q.line) :
    front.length ≤ (Lines.mk (front ++ rest)).index q ∧
      (rest ≠ [] → front.length < (Lines.mk (front ++ rest)).index q) := by
  obtain ⟨before, current, r, rs, hfront, hcharacter, hstart, hpieces, hrow⟩ :=
    exists_row front rest
  rcases Nat.lt_or_ge q.line (Lines.mk (front ++ rest)).count with hlt | hge
  · have hnext := lineStart_succ _ hrow
    have hmono : (Lines.mk (front ++ rest)).lineStart ((Position.origin.after front).line + 1) ≤
        (Lines.mk (front ++ rest)).lineStart q.line :=
      (Lines.mk (front ++ rest)).lineStart_mono (Nat.succ_le_of_lt hq)
    rw [index_of_lt _ hlt]
    have hlength : front.length = before.length + current.length := by
      rw [hfront, List.length_append]
    rw [List.length_append] at hnext
    constructor
    · omega
    · omega
  · rw [index_of_le _ hge]
    have hlength : (front ++ rest).length = front.length + rest.length := List.length_append
    refine ⟨?_, fun hne => ?_⟩
    · show front.length ≤ (front ++ rest).length
      omega
    · have hpos := List.length_pos_iff.mpr hne
      show front.length < (front ++ rest).length
      omega

end

end Lines

/-! ## What remains of a text -/

def remain (removed : Nat → Bool) : Nat → List Char → List Char
  | _, [] => []
  | i, c :: cs => if removed i then remain removed (i + 1) cs else c :: remain removed (i + 1) cs

section

variable {removed : Nat → Bool} {i : Nat} {cs ds : List Char}

theorem remain_append : ∀ {cs : List Char} {i : Nat},
    remain removed i (cs ++ ds) = remain removed i cs ++ remain removed (i + cs.length) ds
  | [], _ => rfl
  | c :: cs, i => by
      have hnext : i + 1 + cs.length = i + (c :: cs).length := by
        rw [List.length_cons]
        omega
      rw [List.cons_append, remain, remain, remain_append, hnext]
      split
      · rfl
      · rw [List.cons_append]

theorem mem_remain {d : Char} : ∀ {cs : List Char} {i : Nat}, d ∈ remain removed i cs →
    ∃ j, cs[j]? = some d ∧ removed (i + j) = false
  | c :: cs, i, h => by
      have hnext : d ∈ remain removed (i + 1) cs →
          ∃ j, (c :: cs)[j]? = some d ∧ removed (i + j) = false := by
        intro h
        obtain ⟨j, hj, hremoved⟩ := mem_remain h
        refine ⟨j + 1, by rw [List.getElem?_cons_succ, hj], ?_⟩
        rw [← hremoved, Nat.add_assoc, Nat.add_comm 1 j]
      rw [remain] at h
      split at h
      · exact hnext h
      · next hkept =>
        rcases List.mem_cons.mp h with rfl | h
        · exact ⟨0, rfl, Bool.eq_false_iff.mpr hkept⟩
        · exact hnext h

theorem remain_eq_self : ∀ {cs : List Char} {i : Nat},
    (∀ j, i ≤ j → j < i + cs.length → removed j = false) → remain removed i cs = cs
  | [], _, _ => rfl
  | c :: cs, i, h => by
      rw [List.length_cons] at h
      have hfirst := h i (Nat.le_refl i) (by omega)
      rw [remain, if_neg (Bool.eq_false_iff.mp hfirst),
        remain_eq_self fun j hij hj => h j (by omega) (by omega)]

theorem remain_eq_nil (h : ∀ j, i ≤ j → j < i + cs.length → removed j = true) :
    remain removed i cs = [] := by
  refine List.eq_nil_iff_forall_not_mem.mpr fun d hd => ?_
  obtain ⟨j, hj, hkept⟩ := mem_remain hd
  have hlt := (List.getElem?_eq_some_iff.mp hj).1
  rw [h (i + j) (by omega) (by omega)] at hkept
  cases hkept

theorem remain_congr {removed' : Nat → Bool} : ∀ {cs : List Char} {i : Nat},
    (∀ j, i ≤ j → removed j = removed' j) → remain removed i cs = remain removed' i cs
  | [], _, _ => rfl
  | c :: cs, i, h => by
      rw [remain, remain, h i (Nat.le_refl i),
        remain_congr fun j hij => h j (Nat.le_trans (Nat.le_succ i) hij)]

end

namespace TextEdit

/-- The edits take the character at a place away. -/
def removes (lines : Lines) (edits : List TextEdit) (j : Nat) : Bool :=
  edits.any fun e => decide (lines.index e.range.start ≤ j ∧ j < lines.index e.range.stop)

theorem removes_eq_true {lines : Lines} {edits : List TextEdit} {j : Nat} :
    removes lines edits j = true ↔
      ∃ e ∈ edits, lines.index e.range.start ≤ j ∧ j < lines.index e.range.stop := by
  simp only [removes, List.any_eq_true, decide_eq_true_eq]

theorem splice_cons_eq_ok {lines : Lines} {e : TextEdit} {es : List TextEdit} {cursor : Nat}
    {cs : List Char} (h : splice lines cursor (e :: es) = .ok cs) :
    cursor ≤ lines.index e.range.start ∧ ∃ rest,
      splice lines (Nat.max (lines.index e.range.stop) (lines.index e.range.start)) es = .ok rest ∧
      cs = lines.between cursor (lines.index e.range.start) ++ (e.newText.toList ++ rest) := by
  rw [splice] at h
  split at h
  · cases h
  · next hfirst =>
    split at h
    · next rest hrest =>
      exact ⟨Nat.le_of_not_lt hfirst, rest, hrest, (Except.ok.inj h).symm⟩
    · cases h

theorem le_index_of_splice {lines : Lines} : ∀ {es : List TextEdit} {cursor : Nat}
    {cs : List Char}, splice lines cursor es = .ok cs →
      ∀ e ∈ es, cursor ≤ lines.index e.range.start
  | e :: es, cursor, cs, h, f, hf => by
      obtain ⟨hfirst, rest, hrest, _⟩ := splice_cons_eq_ok h
      rcases List.mem_cons.mp hf with rfl | hf
      · exact hfirst
      · have hle := le_index_of_splice hrest f hf
        exact Nat.le_trans hfirst (Nat.le_trans (Nat.le_max_right _ _) hle)

theorem drop_eq_between_append (lines : Lines) {first last : Nat} (h : first ≤ last) :
    lines.chars.drop first = lines.between first last ++ lines.chars.drop last := by
  have hsplit := List.take_append_drop (last - first) (lines.chars.drop first)
  rw [List.drop_drop, Nat.add_sub_cancel' h] at hsplit
  exact hsplit.symm

theorem between_eq_append (lines : Lines) {first middle last : Nat} (h : first ≤ middle)
    (h' : middle ≤ last) :
    lines.between first last = lines.between first middle ++ lines.between middle last := by
  have hlength : last - first = (middle - first) + (last - middle) := by omega
  rw [Lines.between, hlength, List.take_add, List.drop_drop, Nat.add_sub_cancel' h]
  rfl

theorem length_between (lines : Lines) {first last : Nat} (h : last ≤ lines.chars.length) :
    (lines.between first last).length = last - first := by
  rw [Lines.between, List.length_take, List.length_drop]
  omega

/-- Edits that only take away leave the other characters. -/
theorem splice_eq_remain {lines : Lines} : ∀ {es : List TextEdit} {cursor : Nat} {cs : List Char},
    splice lines cursor es = .ok cs → (∀ e ∈ es, e.newText = "") →
      cs = remain (removes lines es) cursor (lines.chars.drop cursor)
  | [], cursor, cs, h, _ => by
      have hkept : remain (removes lines []) cursor (lines.chars.drop cursor) =
          lines.chars.drop cursor := remain_eq_self fun j _ _ => rfl
      rw [hkept]
      exact (Except.ok.inj h).symm
  | e :: es, cursor, cs, h, hdeletes => by
      obtain ⟨hfirst, rest, hsplice, rfl⟩ := splice_cons_eq_ok h
      obtain ⟨hempty, hdeletes⟩ := List.forall_mem_cons.mp hdeletes
      have hlater := le_index_of_splice hsplice
      rw [hempty, splice_eq_remain hsplice hdeletes]
      have hstart := lines.index_le_length e.range.start
      have hstop := lines.index_le_length e.range.stop
      set first := lines.index e.range.start
      set next := Nat.max (lines.index e.range.stop) first
      have hnext : first ≤ next := Nat.le_max_right _ _
      have hlength : next ≤ lines.chars.length := Nat.max_le.mpr ⟨hstop, hstart⟩
      have hbefore : remain (removes lines (e :: es)) cursor (lines.between cursor first) =
          lines.between cursor first := by
        refine remain_eq_self fun j _ hj => ?_
        rw [length_between lines hstart] at hj
        rw [← Bool.not_eq_true, removes_eq_true]
        rintro ⟨f, hf, hle, _⟩
        rcases List.mem_cons.mp hf with rfl | hf
        · omega
        · have := Nat.le_trans hnext (hlater f hf)
          omega
      have hinside : remain (removes lines (e :: es)) first (lines.between first next) = [] := by
        refine remain_eq_nil fun j hij hj => removes_eq_true.mpr ⟨e, List.mem_cons_self, hij, ?_⟩
        rw [length_between lines hlength, Nat.add_sub_cancel' hnext] at hj
        refine Nat.lt_of_not_le fun hle => ?_
        exact Nat.not_lt.mpr (Nat.max_le.mpr ⟨hle, hij⟩) hj
      have hbehind : remain (removes lines (e :: es)) next (lines.chars.drop next) =
          remain (removes lines es) next (lines.chars.drop next) := by
        refine remain_congr fun j hij => ?_
        have hnot : ¬ j < lines.index e.range.stop :=
          Nat.not_lt.mpr (Nat.le_trans (Nat.le_max_left _ _) hij)
        rw [removes, removes, List.any_cons, decide_eq_false fun h => hnot h.2, Bool.false_or]
      rw [drop_eq_between_append lines hfirst, remain_append, hbefore, length_between lines hstart,
        Nat.add_sub_cancel' hfirst, drop_eq_between_append lines hnext, remain_append, hinside,
        length_between lines hlength, Nat.add_sub_cancel' hnext, hbehind]
      rfl

end TextEdit

end AnnotationEdit

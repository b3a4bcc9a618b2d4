import AnnotationEdit.Proofs.Token.Placement

/-!
# Byte offsets and positions

Every position has a byte offset, also one outside of the text, and it is always one between two
characters. An offset between two characters has a position, which leads back to it, or, from among
the carriage returns at the end of a line, to the place in front of them
(`Lines.offset_position`).
-/

namespace AnnotationEdit

/-! ## Bytes of the front of a text -/

namespace Text

variable {cs : List Char} {m n : Nat}

/-- The bytes between two places of a text. -/
theorem byteLength_take (cs : List Char) (h : m ≤ n) :
    byteLength (cs.take n) = byteLength (cs.take m) + byteLength ((cs.drop m).take (n - m)) := by
  rw [← byteLength_append, ← List.take_add, Nat.add_sub_cancel' h]

theorem byteLength_take_mono (cs : List Char) (h : m ≤ n) :
    byteLength (cs.take m) ≤ byteLength (cs.take n) := by
  rw [byteLength_take cs h]
  exact Nat.le_add_right _ _

theorem byteLength_pos (h : cs ≠ []) : 0 < byteLength cs := by
  obtain ⟨c, ds, rfl⟩ := List.exists_cons_of_ne_nil h
  rw [byteLength_cons]
  exact Nat.lt_of_lt_of_le c.utf8Size_pos (Nat.le_add_right _ _)

/-- Every character takes a byte. -/
theorem byteLength_take_lt (h : m < n) (hn : n ≤ cs.length) :
    byteLength (cs.take m) < byteLength (cs.take n) := by
  rw [byteLength_take cs (Nat.le_of_lt h)]
  refine Nat.lt_add_of_pos_right (byteLength_pos fun hnil => ?_)
  have hlength := congrArg List.length hnil
  rw [List.length_take, List.length_drop, List.length_nil] at hlength
  omega

theorem byteLength_take_min (cs : List Char) (m n : Nat) :
    byteLength (cs.take (min m n)) = min (byteLength (cs.take m)) (byteLength (cs.take n)) := by
  rcases Nat.le_total m n with h | h
  · rw [Nat.min_eq_left h, Nat.min_eq_left (byteLength_take_mono cs h)]
  · rw [Nat.min_eq_right h, Nat.min_eq_right (byteLength_take_mono cs h)]

end Text

namespace Lines

variable {l : Lines} {p q : Position}

/-! ## From positions to offsets -/

/-- Offsets and numbers of characters say the same about the order of positions. -/
theorem offset_le_offset : l.offset p ≤ l.offset q ↔ l.index p ≤ l.index q := by
  constructor
  · intro h
    by_contra hlt
    exact Nat.not_lt.mpr h (Text.byteLength_take_lt (Nat.lt_of_not_le hlt) (l.index_le_length p))
  · exact Text.byteLength_take_mono l.chars

theorem offset_mono (h : p ≤ q) : l.offset p ≤ l.offset q := offset_le_offset.mpr (l.index_mono h)

/-- The offset is one between two characters, or at an end of the text. -/
def IsBoundary (l : Lines) (offset : Nat) : Prop :=
  ∃ front rest : List Char, l.chars = front ++ rest ∧ Text.byteLength front = offset

theorem isBoundary_offset (l : Lines) (p : Position) : l.IsBoundary (l.offset p) :=
  ⟨l.chars.take (l.index p), l.chars.drop (l.index p), (List.take_append_drop _ _).symm, rfl⟩

/-- Two fronts of a text with the same number of bytes are the same. -/
theorem front_unique {front rest front' rest' : List Char}
    (h : front ++ rest = front' ++ rest')
    (hbytes : Text.byteLength front = Text.byteLength front') : front = front' ∧ rest = rest' := by
  have hlength := boundary?_byteLength front rest
  rw [h, hbytes, boundary?_byteLength] at hlength
  exact List.append_inj h (Option.some.inj hlength).symm

theorem index_lineEnd {line : Nat} (h : line < l.count) :
    l.index (l.lineEnd line) = l.lineStart line + (l.lineText line).length := by
  rw [index_of_lt _ h]
  exact congrArg _ (Nat.min_self _)

/-- The position is found again after as many characters as stand in front of it. -/
theorem after_take_index (hline : p.line < l.count)
    (hcharacter : p.character ≤ (l.lineText p.line).length) :
    Position.origin.after (l.chars.take (l.index p)) = p := by
  have hindex : l.index p = l.lineStart p.line + p.character := by
    rw [index_of_lt _ hline, Nat.min_eq_left hcharacter]
  have hfinds := finds_after (l.chars.take (l.index p)) (l.chars.drop (l.index p))
  rw [List.take_append_drop, List.length_take_of_le (l.index_le_length p)] at hfinds
  set q := Position.origin.after (l.chars.take (l.index p))
  have hstart : l.lineStart q.line + q.character = l.index p := hfinds.start
  have hle : p.line ≤ q.line := hfinds.last p.line hline (by show l.lineStart p.line ≤ _; omega)
  have hge : q.line ≤ p.line := by
    by_contra hlt
    have hend := l.lineStart_add_lineText_lt hline
    have hnext : l.lineStart (p.line + 1) ≤ l.lineStart q.line :=
      l.lineStart_mono (Nat.lt_of_not_le hlt)
    omega
  have hsame : q.line = p.line := Nat.le_antisymm hge hle
  rw [hsame] at hstart
  exact Position.eq_iff.mpr ⟨hsame, by omega⟩

/-- A position inside of the text is the position of its offset. -/
theorem position?_offset (hline : p.line < l.count)
    (hcharacter : p.character ≤ (l.lineEnd p.line).character) :
    l.position? (l.offset p) = some p := by
  have hposition := position?_byteLength (l.chars.take (l.index p)) (l.chars.drop (l.index p))
  rw [List.take_append_drop] at hposition
  rw [offset, hposition, after_take_index hline hcharacter]

/-! ## From offsets to positions -/

/-- The offset is on a line: behind the start of the line and in front of the next one. -/
def OnLine (l : Lines) (line offset : Nat) : Prop :=
  line < l.count ∧ l.offset ⟨line, 0⟩ ≤ offset ∧
    (line + 1 < l.count → offset < l.offset ⟨line + 1, 0⟩)

/-- The offset is among the carriage returns at the end of a line, behind the first one. -/
def InReturns (l : Lines) (offset : Nat) : Prop :=
  ∃ front rest : List Char, l.chars = front ++ '\r' :: rest ∧
    Text.byteLength (front ++ ['\r']) = offset ∧ ∀ c ∈ rest.takeWhile (· != '\n'), c = '\r'

variable {front rest : List Char}

theorem index_lineStart {line : Nat} (h : line < l.count) : l.index ⟨line, 0⟩ = l.lineStart line := by
  rw [index_of_lt _ h]
  exact congrArg _ (Nat.zero_min _)

theorem onLine_after (front rest : List Char) : (Lines.mk (front ++ rest)).OnLine
    (Position.origin.after front).line (Text.byteLength front) := by
  obtain ⟨hstart, hlast⟩ := finds_after front rest
  have hline := line_after_lt front rest
  set l := Lines.mk (front ++ rest)
  set p := Position.origin.after front
  have hfront : l.chars.take front.length = front := List.take_left
  refine ⟨hline, ?_, fun hnext => ?_⟩
  · rw [offset, index_lineStart hline, ← hfront]
    refine Text.byteLength_take_mono _ ?_
    omega
  · have hlt : front.length < l.lineStart (p.line + 1) := by
      refine Nat.lt_of_not_le fun hle => ?_
      exact Nat.not_succ_le_self _ (hlast _ hnext hle)
    have hle := l.index_le_length ⟨p.line + 1, 0⟩
    rw [index_lineStart hnext] at hle
    rw [offset, index_lineStart hnext]
    nth_rewrite 1 [← hfront]
    exact Text.byteLength_take_lt hlt hle

theorem offset_after (front rest : List Char) :
    (Lines.mk (front ++ rest)).offset (Position.origin.after front) =
      min (Text.byteLength front) ((Lines.mk (front ++ rest)).offset
        ((Lines.mk (front ++ rest)).lineEnd (Position.origin.after front).line)) := by
  have hstart := (finds_after front rest).start
  have hline := line_after_lt front rest
  set l := Lines.mk (front ++ rest)
  set p := Position.origin.after front
  have hfront : l.chars.take front.length = front := List.take_left
  have hindex : l.index p = min front.length (l.index (l.lineEnd p.line)) := by
    rw [index_of_lt _ hline, index_lineEnd hline]
    omega
  calc l.offset p = Text.byteLength (l.chars.take (min front.length (l.index (l.lineEnd p.line)))) :=
        congrArg (fun n => Text.byteLength (l.chars.take n)) hindex
    _ = min (Text.byteLength front) (l.offset (l.lineEnd p.line)) := by
        rw [Text.byteLength_take_min, hfront, offset]

/-! ## Carriage returns -/

/-- What stands in front of a character that is no carriage return is not lost. -/
theorem length_le_dropReturns_of_mem {current row : List Char} {c : Char} (hc : c ∈ row)
    (hreturn : c ≠ '\r') : current.length ≤ (dropReturns (current ++ row)).length := by
  obtain ⟨us, vs, rfl⟩ := List.append_of_mem hc
  have hlast : (current ++ (us ++ [c])).getLast? ≠ some '\r' := by
    rw [← List.append_assoc, List.getLast?_concat]
    exact fun h => hreturn (Option.some.inj h)
  have hle : (current ++ (us ++ [c])).length ≤ (dropReturns (current ++ (us ++ [c]) ++ vs)).length :=
    length_le_dropReturns hlast
  rw [List.length_append, List.append_assoc, List.append_assoc, List.singleton_append] at hle
  omega

theorem eq_newline_of_head? (rest : List Char) :
    ∀ d ∈ (rest.dropWhile (· != '\n')).head?, d = '\n' := by
  intro d hd
  have hnot := List.head?_dropWhile_not (· != '\n') rest
  rw [hd] at hnot
  simpa using hnot

theorem pieces_rest (rest : List Char) : ∃ rows, Text.pieces '\n' rest =
    rest.takeWhile (· != '\n') :: rows := by
  have hnone : '\n' ∉ rest.takeWhile (· != '\n') := fun h =>
    absurd (List.all_eq_true.mp List.all_takeWhile _ h) (by decide)
  have hpieces := Text.pieces_row_append hnone (eq_newline_of_head? rest)
  rw [List.takeWhile_append_dropWhile] at hpieces
  exact ⟨_, hpieces⟩

/-- Apart from the carriage returns at the end of a line, no offset is lost. -/
theorem index_after_of_not_inReturns
    (h : ¬(Lines.mk (front ++ rest)).InReturns (Text.byteLength front)) :
    (Lines.mk (front ++ rest)).index (Position.origin.after front) = front.length := by
  by_cases hlast : front.getLast? = some '\r'
  · obtain ⟨before, rfl⟩ := List.getLast?_eq_some_iff.mp hlast
    obtain ⟨c, hc, hreturn⟩ : ∃ c ∈ rest.takeWhile (· != '\n'), c ≠ '\r' := by
      by_contra hall
      push Not at hall
      exact h ⟨before, rest, List.append_cons _ _ _ ▸ rfl, rfl, hall⟩
    obtain ⟨front', current, r, rs, hfront, hcharacter, hstart, hpieces, hrow⟩ :=
      exists_row (before ++ ['\r']) rest
    obtain ⟨rows, hrest⟩ := pieces_rest rest
    obtain ⟨rfl, -⟩ := List.cons.inj (hpieces.symm.trans hrest)
    have hle : current.length ≤ (dropReturns (current ++ rest.takeWhile (· != '\n'))).length :=
      length_le_dropReturns_of_mem hc hreturn
    rw [index_of_lt _ (line_after_lt _ rest), hstart, lineText_eq hrow, ← hcharacter,
      Nat.min_eq_left hle, hfront, List.length_append]
  · exact index_after (Or.inl hlast)

/-- From among the carriage returns at the end of a line the position leads in front of them. -/
theorem index_after_lt_of_inReturns
    (h : (Lines.mk (front ++ rest)).InReturns (Text.byteLength front)) :
    (Lines.mk (front ++ rest)).index (Position.origin.after front) < front.length := by
  obtain ⟨before, rest', htext, hbytes, hall⟩ := h
  have htext : front ++ rest = (before ++ ['\r']) ++ rest' := by
    rw [List.append_assoc]
    exact htext
  obtain ⟨rfl, rfl⟩ := front_unique htext hbytes.symm
  set returns := ((before ++ ['\r']).reverse.takeWhile (· == '\r')).reverse
  set kept := dropReturns (before ++ ['\r'])
  have hsplit : kept ++ returns = before ++ ['\r'] := dropReturns_append _
  have hshort : kept.length < (before ++ ['\r']).length := by
    have hreturn : ∀ r ∈ ['\r'], r = '\r' := fun r hr => List.mem_singleton.mp hr
    have hkept : kept = dropReturns before := dropReturns_append_returns hreturn before
    rw [hkept, List.length_append, List.length_singleton]
    exact Nat.lt_succ_of_le (length_dropReturns_le before)
  have hreturns : ∀ r ∈ returns ++ rest.takeWhile (· != '\n'), r = '\r' := by
    refine List.forall_mem_append.mpr ⟨fun r hr => ?_, hall⟩
    exact beq_iff_eq.mp (List.all_eq_true.mp List.all_takeWhile r (List.mem_reverse.mp hr))
  have hend := index_after_returns hreturns (getLast?_dropReturns (before ++ ['\r']))
    (eq_newline_of_head? rest)
  rw [List.append_assoc returns, List.takeWhile_append_dropWhile, ← List.append_assoc,
    ← List.append_assoc, hsplit] at hend
  have hle : Position.origin.after (before ++ ['\r']) ≤
      Position.origin.after (before ++ ['\r'] ++ rest.takeWhile (· != '\n')) := by
    rw [Lexer.after_append _ (before ++ ['\r']), after_returns hall, Position.le_def]
    exact Or.inr ⟨rfl, Nat.le_add_right _ _⟩
  exact Nat.lt_of_le_of_lt ((index_mono _ hle).trans_eq hend) hshort

/-- The position of an offset leads back to it, unless it is among the carriage returns at the end
of a line. -/
theorem offset_after_eq_iff : (Lines.mk (front ++ rest)).offset (Position.origin.after front) =
    Text.byteLength front ↔ ¬(Lines.mk (front ++ rest)).InReturns (Text.byteLength front) := by
  have hfront : (front ++ rest).take front.length = front := List.take_left
  constructor
  · intro hsame h
    have hlength : front.length ≤ (front ++ rest).length := by
      rw [List.length_append]
      exact Nat.le_add_right _ _
    have hlt := Text.byteLength_take_lt (index_after_lt_of_inReturns h) hlength
    rw [hfront] at hlt
    exact Nat.ne_of_lt hlt hsame
  · intro h
    show Text.byteLength ((front ++ rest).take _) = _
    rw [index_after_of_not_inReturns h, hfront]

/-! ## Both ways -/

/-- Offsets follow the order of positions and are always between two characters. A position inside
of the text is the position of its offset. An offset between two characters has a position on its
line, which leads back to it or to the end of the line without its carriage returns, whatever comes
first. Lines and characters fit into 32 bits where the number of characters does. -/
theorem offset_position (l : Lines) (hlength : l.chars.length < 2 ^ 32) :
    (∀ p q : Position, p ≤ q → l.offset p ≤ l.offset q) ∧
    (∀ p : Position, l.IsBoundary (l.offset p)) ∧
    (∀ p : Position, p.line < l.count → p.character ≤ (l.lineEnd p.line).character →
      l.position? (l.offset p) = some p) ∧
    ∀ o : Nat, l.IsBoundary o → ∃ p : Position, l.position? o = some p ∧
      p.line < 2 ^ 32 ∧ p.character < 2 ^ 32 ∧ l.OnLine p.line o ∧
      l.offset p = min o (l.offset (l.lineEnd p.line)) ∧ (l.offset p = o ↔ ¬l.InReturns o) := by
  refine ⟨fun _ _ => offset_mono, l.isBoundary_offset, fun _ => position?_offset, ?_⟩
  rintro o ⟨front, rest, htext, rfl⟩
  obtain ⟨chars⟩ := l
  obtain rfl : chars = front ++ rest := htext
  have hfront : front.length < 2 ^ 32 := by
    refine Nat.lt_of_le_of_lt ?_ hlength
    exact List.length_append ▸ Nat.le_add_right _ _
  obtain ⟨hline, hcharacter⟩ := Position.after_bounds front Position.origin
  have hzero : Position.origin.line = 0 ∧ Position.origin.character = 0 := ⟨rfl, rfl⟩
  exact ⟨_, position?_byteLength front rest, by omega, by omega, onLine_after front rest,
    offset_after front rest, offset_after_eq_iff⟩

/-- A character of two bytes and two carriage returns on the first line. -/
def returnsText : Lines := ⟨['ä', '\r', '\r', '\n', 'b']⟩

/-- Between the carriage returns there is no way back. -/
theorem offset_position_returns :
    returnsText.chars.length < 2 ^ 32 ∧ returnsText.IsBoundary 3 ∧
      returnsText.position? 3 = some ⟨0, 2⟩ ∧ returnsText.OnLine 0 3 ∧
      returnsText.offset ⟨0, 2⟩ = min 3 (returnsText.offset (returnsText.lineEnd 0)) ∧
      returnsText.offset ⟨0, 2⟩ = 2 ∧ returnsText.InReturns 3 := by
  have hlength : returnsText.chars.length < 2 ^ 32 := by decide
  have hboundary : returnsText.IsBoundary 3 := ⟨['ä', '\r'], ['\r', '\n', 'b'], rfl, by decide⟩
  have hposition : returnsText.position? 3 = some ⟨0, 2⟩ := by decide
  have hoffset : returnsText.offset ⟨0, 2⟩ = 2 := by decide
  obtain ⟨p, hp, _, _, hline, hmin, hiff⟩ := (offset_position _ hlength).2.2.2 3 hboundary
  obtain rfl := Option.some.inj (hposition.symm.trans hp)
  refine ⟨hlength, hboundary, hposition, hline, hmin, hoffset, ?_⟩
  by_contra hreturns
  exact absurd (hiff.mpr hreturns) (by decide)

end Lines

end AnnotationEdit

import AnnotationEdit.Proofs.Syntax.Nodes
import AnnotationEdit.Proofs.Token.Relexing

/-!
# Between tokens

A place stands between tokens when no token has it inside; the start and the end of every token do.
So a range from one such place to another takes a token as a whole or has nothing of it
(`TokenStream.Splits.avoids_or_contains`), and the text of the tokens that it takes is part of its
text (`Document.infix_slice`).
-/

namespace AnnotationEdit

/-- The ranges have no characters in common. -/
def Range.Avoids (r s : Range) : Prop := s.Before r ∨ r.Before s

namespace TokenStream

/-- The place is inside no token. -/
def Splits (s : TokenStream) (x : Position) : Prop :=
  ∀ t ∈ s.tokens.toList, t.range.stop ≤ x ∨ x ≤ t.range.start

variable {s : TokenStream} {i : Nat} {t u : Token} {x : Position} {r : Range}

theorem splits_origin : s.Splits .origin := fun _ _ => Or.inr (Position.origin_le _)

theorem Sorted.splits_start (hs : s.Sorted) (ht : t ∈ s.tokens.toList) :
    s.Splits t.range.start := by
  intro u hu
  obtain ⟨i, hi⟩ := exists_get? hu
  obtain ⟨j, hj⟩ := exists_get? ht
  rcases Nat.lt_or_ge i j with hij | hji
  · exact Or.inl (hs.before hi hj hij)
  · exact Or.inr (hs.start_le hj hi hji)

theorem Sorted.splits_stop (hs : s.Sorted) (ht : t ∈ s.tokens.toList) :
    s.Splits t.range.stop := by
  intro u hu
  obtain ⟨i, hi⟩ := exists_get? hu
  obtain ⟨j, hj⟩ := exists_get? ht
  rcases Nat.lt_or_ge j i with hji | hij
  · exact Or.inr (hs.before hj hi hji)
  · exact Or.inl (hs.stop_le hi hj hij)

theorem Sorted.splits_of_within (hs : s.Sorted)
    (hr : Within (s.tokens.toList.filter Token.isCode) r) :
    s.Splits r.start ∧ s.Splits r.stop := by
  obtain ⟨_, _, t, u, ht, hu, _, _, _, rfl⟩ := hs.exists_bounds hr
  exact ⟨hs.splits_start (mem_of_get? ht), hs.splits_stop (mem_of_get? hu)⟩

theorem Splits.avoids_empty (hx : s.Splits x) (ht : t ∈ s.tokens.toList) :
    (Range.empty x).Avoids t.range := hx t ht

/-- A range between such places takes a token as a whole or has nothing of it. -/
theorem Splits.avoids_or_contains (hstart : s.Splits r.start) (hstop : s.Splits r.stop)
    (ht : t ∈ s.tokens.toList) : r.Avoids t.range ∨ r.contains t.range = true := by
  rcases hstart t ht with hbefore | hle
  · exact Or.inl (Or.inl hbefore)
  · rcases hstop t ht with hle' | hbehind
    · exact Or.inr (Range.contains_iff.mpr ⟨hle, hle'⟩)
    · exact Or.inl (Or.inr hbehind)

/-- Between a token and the next one there is none. -/
theorem Sorted.avoids_gap (hs : s.Sorted) (hi : s.get? i = some t)
    (hnext : s.get? (i + 1) = some u) {v : Token} (hv : v ∈ s.tokens.toList) :
    (⟨t.range.stop, u.range.start⟩ : Range).Avoids v.range := by
  obtain ⟨k, hk⟩ := exists_get? hv
  rcases Nat.lt_or_ge i k with hik | hki
  · exact Or.inr (hs.start_le hnext hk hik)
  · exact Or.inl (hs.stop_le hk hi hki)

theorem startingAt?_spec (h : s.startingAt? x = some i) :
    ∃ t, s.get? i = some t ∧ t.range.start = x := by
  rw [startingAt?] at h
  split at h
  · next htest =>
    obtain ⟨t, ht, hstart⟩ := test_eq_true.mp htest
    rw [Option.some.inj h] at ht
    exact ⟨t, ht, beq_iff_eq.mp hstart⟩
  · cases h

theorem endingAt?_spec (h : s.endingAt? x = some i) :
    ∃ t, s.get? i = some t ∧ t.range.stop = x := by
  rw [endingAt?] at h
  split at h
  · next htest =>
    obtain ⟨t, ht, hstop⟩ := test_eq_true.mp htest
    rw [Option.some.inj h] at ht
    exact ⟨t, ht, beq_iff_eq.mp hstop⟩
  · cases h

end TokenStream

/-! ## Texts of tokens -/

namespace Position

theorem line_le_after (p : Position) (cs : List Char) : p.line ≤ (p.after cs).line := by
  have hle := le_after cs p
  rw [le_def] at hle
  omega

/-- Behind a line feed comes a later line. -/
theorem line_lt_after : ∀ {cs : List Char} (p : Position), '\n' ∈ cs → p.line < (p.after cs).line
  | c :: cs, p, h => by
      have hadvance : p.line ≤ (p.advance c).line := line_le_after p [c]
      rcases List.mem_cons.mp h with rfl | h
      · have hrest := line_le_after (p.advance '\n') cs
        have hnext : (p.advance '\n').line = p.line + 1 := rfl
        show p.line < ((p.advance '\n').after cs).line
        omega
      · exact Nat.lt_of_le_of_lt hadvance (line_lt_after (p.advance c) h)

/-- Of two texts that one text starts with, the one that ends earlier is not longer. -/
theorem length_le_of_after_le {xs ys cs ds : List Char} (h : xs ++ cs = ys ++ ds)
    (hle : origin.after xs ≤ origin.after ys) : xs.length ≤ ys.length := by
  rcases List.append_eq_append_iff.mp h with ⟨zs, rfl, _⟩ | ⟨zs, rfl, _⟩
  · rw [List.length_append]
    exact Nat.le_add_right _ _
  · cases zs with
    | nil => rw [List.append_nil]
    | cons z zs =>
        rw [Lexer.after_append] at hle
        exact absurd hle (not_le_of_gt (lt_after_cons _ z zs))

end Position

theorem Lines.infix_between {front mid rest : List Char} {first last : Nat}
    (hfirst : first ≤ front.length) (hlast : front.length + mid.length ≤ last) :
    mid <:+: (Lines.mk (front ++ (mid ++ rest))).between first last := by
  have hlength : (front.drop first ++ mid).length ≤ last - first := by
    rw [List.length_append, List.length_drop]
    omega
  rw [between, List.drop_append_of_le_length hfirst, ← List.append_assoc, List.take_append,
    List.take_of_length_le hlength]
  exact List.infix_append _ _ _

namespace Document

variable {uri text : String} {c : Configuration} {d : Document} {t : Token}

/-- The characters of a token among those of the text. -/
theorem exists_placed (h : parse uri text c = .ok d) (ht : t ∈ d.tokens.tokens.toList) :
    ∃ front b tail rest, text.toList = front ++ ((b :: tail) ++ rest) ∧
      Lexer.Placed front b tail rest t.plain := by
  obtain ⟨tokens, _, hread, hplain, _⟩ := tokens_of_parse h
  have hrun : Lexer.tokenizeFrom (Position.origin.after []) text.toList = .ok tokens := hread
  exact Lexer.exists_placed _ (Nat.le_refl _) hrun _ (hplain ▸ List.mem_map_of_mem ht)

/-- The text of a range that code tokens span holds the texts of all tokens in it. -/
theorem infix_slice (h : parse uri text c = .ok d) {r : Range}
    (hr : Within (d.tokens.tokens.toList.filter Token.isCode) r) (ht : t ∈ d.tokens.tokens.toList)
    (hin : r.contains t.range = true) : t.text.toList <:+: d.lines.slice r := by
  obtain ⟨_, _, _, _, hsorted, _, hlines, _⟩ := tokens_of_parse h
  obtain ⟨_, _, a, b, ha, hb, _, _, hcode, rfl⟩ := hsorted.exists_bounds hr
  obtain ⟨front, e, tail, rest, hchars, hplaced⟩ := exists_placed h ht
  obtain ⟨front₁, e₁, tail₁, rest₁, hchars₁, hplaced₁⟩ :=
    exists_placed h (TokenStream.mem_of_get? ha)
  obtain ⟨front₂, e₂, tail₂, rest₂, hchars₂, hplaced₂⟩ :=
    exists_placed h (TokenStream.mem_of_get? hb)
  obtain ⟨hstart, hstop⟩ := Range.contains_iff.mp hin
  have hkind : b.plain.kind ≠ .lineComment := by
    intro hcomment
    rw [Token.isCode, Token.isComment, show b.kind = .lineComment from hcomment] at hcode
    cases hcode
  have hfirst : d.lines.index a.range.start = front₁.length := by
    rw [hlines, Lines.ofString, hchars₁]
    exact hplaced₁.index_start
  have hlast : d.lines.index b.range.stop = front₂.length + (e₂ :: tail₂).length := by
    rw [hlines, Lines.ofString, hchars₂]
    exact hplaced₂.index_stop hkind
  have hle : front₁.length ≤ front.length := by
    refine Position.length_le_of_after_le (hchars₁.symm.trans hchars) ?_
    rw [← hplaced₁.range_start, ← hplaced.range_start]
    exact hstart
  have hends : front ++ (e :: tail) ++ rest = front₂ ++ (e₂ :: tail₂) ++ rest₂ := by
    rw [List.append_assoc, List.append_assoc, ← hchars, ← hchars₂]
  have hle' : (front ++ (e :: tail)).length ≤ (front₂ ++ (e₂ :: tail₂)).length := by
    refine Position.length_le_of_after_le hends ?_
    rw [← hplaced.range_stop, ← hplaced₂.range_stop]
    exact hstop
  rw [List.length_append, List.length_append] at hle'
  rw [show t.text = String.ofList (e :: tail) from hplaced.text, String.toList_ofList, Lines.slice,
    hfirst, hlast, hlines, Lines.ofString, hchars]
  exact Lines.infix_between hle hle'

theorem newline_not_mem_text (h : parse uri text c = .ok d) (ht : t ∈ d.tokens.tokens.toList)
    (hline : t.range.stop.line ≤ t.range.start.line) : '\n' ∉ t.text.toList := by
  obtain ⟨front, e, tail, rest, _, hplaced⟩ := exists_placed h ht
  have hstart : t.range.start = Position.origin.after front := hplaced.range_start
  have hstop : t.range.stop = Position.origin.after (front ++ (e :: tail)) := hplaced.range_stop
  rw [show t.text = String.ofList (e :: tail) from hplaced.text, String.toList_ofList]
  intro hmem
  have hlt := Position.line_lt_after (Position.origin.after front) hmem
  rw [← Lexer.after_append, ← hstart, ← hstop] at hlt
  exact absurd hline (Nat.not_le_of_lt hlt)

end Document

end AnnotationEdit

import AnnotationEdit.Pointer
import AnnotationEdit.Proofs.Service.Paths

/-!
# The text of a pointer

A text is cut at its slashes before the escapes in the pieces are read, and a pointer is written the
other way round, so no slash or tilde inside a segment is taken for anything else. Only two things
are lost: a lone slash is the root and not a pointer with one empty segment, and a tilde that starts
no escape is written as one (`parse_display`).
-/

namespace AnnotationEdit

/-! ## Pieces put together -/

namespace Text

theorem flatMap_pieces (sep : Char) (cs : List Char) :
    (pieces sep cs).flatMap (sep :: ·) = sep :: cs := by
  obtain ⟨q, qs, hpieces, hcs⟩ := Lexer.pieces_eq_cons sep cs
  rw [hpieces, List.flatMap_cons, hcs]
  rfl

theorem pieces_flatMap {sep : Char} : ∀ {qs : List (List Char)} {q : List Char},
    (∀ p ∈ q :: qs, sep ∉ p) → pieces sep (q ++ qs.flatMap (sep :: ·)) = q :: qs
  | [], q, h => by
      rw [List.flatMap_nil, List.append_nil, pieces_eq_singleton (h q List.mem_cons_self)]
  | p :: qs, q, h => by
      obtain ⟨hq, h⟩ := List.forall_mem_cons.mp h
      rw [List.flatMap_cons, List.cons_append, pieces_append, pieces_eq_singleton hq,
        pieces_flatMap h]
      rfl

/-- Pieces without separators are told apart by what they make up. -/
theorem flatMap_sep_inj {sep : Char} {ps qs : List (List Char)} (hp : ∀ p ∈ ps, sep ∉ p)
    (hq : ∀ q ∈ qs, sep ∉ q) (h : ps.flatMap (sep :: ·) = qs.flatMap (sep :: ·)) : ps = qs := by
  cases ps with
  | nil =>
      cases qs with
      | nil => rfl
      | cons q qs => cases h
  | cons p ps =>
      cases qs with
      | nil => cases h
      | cons q qs =>
          have hrest : p ++ ps.flatMap (sep :: ·) = q ++ qs.flatMap (sep :: ·) :=
            (List.cons.inj h).2
          rw [← pieces_flatMap hp, hrest, pieces_flatMap hq]

end Text

namespace Pointer

/-! ## Escapes -/

variable {c : Char} {cs ds : List Char}

theorem unescape_cons (hc : c ≠ '~') (cs : List Char) : unescape (c :: cs) = c :: unescape cs := by
  rw [unescape]
  · rintro cs rfl
    exact absurd rfl hc
  · rintro cs rfl
    exact absurd rfl hc

/-- Reading a written segment gives the segment back. -/
theorem unescape_escape : ∀ cs : List Char, unescape (escape cs) = cs
  | [] => rfl
  | c :: cs => by
      rw [escape]
      split
      · next htilde => rw [unescape, unescape_escape cs, htilde]
      · next htilde =>
        split
        · next hslash => rw [unescape, unescape_escape cs, hslash]
        · rw [unescape_cons htilde, unescape_escape cs]

theorem escape_eq_nil : escape cs = [] ↔ cs = [] := by
  constructor
  · intro h
    rw [← unescape_escape cs, h]
    rfl
  · rintro rfl
    rfl

theorem unescape_eq_nil : unescape cs = [] ↔ cs = [] := by
  fun_cases unescape cs <;> simp

/-- A slash in a segment is never written as one. -/
theorem slash_not_mem_escape : ∀ cs : List Char, '/' ∉ escape cs
  | [] => List.not_mem_nil
  | c :: cs => by
      have ih := slash_not_mem_escape cs
      rw [escape]
      split
      · simpa using ih
      · split
        · simpa using ih
        · next hslash => exact List.not_mem_cons_of_ne_of_not_mem (Ne.symm hslash) ih

/-- Every tilde starts an escape. -/
def Escaped (cs : List Char) : Prop :=
  ∀ i : Nat, cs[i]? = some '~' → cs[i + 1]? = some '0' ∨ cs[i + 1]? = some '1'

theorem escaped_nil : Escaped [] := fun _ h => by cases h

theorem escaped_cons : Escaped (c :: cs) ↔
    (c = '~' → cs.head? = some '0' ∨ cs.head? = some '1') ∧ Escaped cs := by
  rw [List.head?_eq_getElem?]
  constructor
  · intro h
    exact ⟨fun hc => h 0 (congrArg some hc), fun i hi => h (i + 1) hi⟩
  · rintro ⟨hfirst, hrest⟩ (_ | i) hi
    · exact hfirst (Option.some.inj hi)
    · exact hrest i hi

theorem escaped_cons_of_ne (hc : c ≠ '~') : Escaped (c :: cs) ↔ Escaped cs :=
  escaped_cons.trans (and_iff_right fun h => absurd h hc)

theorem escaped_escape (hc : c = '0' ∨ c = '1') : Escaped ('~' :: c :: cs) ↔ Escaped cs := by
  have hfirst : (c :: cs).head? = some '0' ∨ (c :: cs).head? = some '1' :=
    hc.imp (congrArg some) (congrArg some)
  have htilde : c ≠ '~' := by
    rcases hc with rfl | rfl
    · decide
    · decide
  rw [escaped_cons, and_iff_right fun _ => hfirst, escaped_cons_of_ne htilde]

/-- An escape does not go on behind a slash. -/
theorem escaped_append (hds : ∀ d ∈ ds.head?, d = '/') :
    Escaped (cs ++ ds) ↔ Escaped cs ∧ Escaped ds := by
  induction cs with
  | nil => exact (and_iff_right escaped_nil).symm
  | cons c cs ih =>
      rw [List.cons_append, escaped_cons, escaped_cons, ih, and_assoc]
      refine and_congr_left fun _ => imp_congr_right fun _ => ?_
      cases cs with
      | nil =>
          cases ds with
          | nil => rfl
          | cons d ds =>
              rw [hds d rfl]
              simp
      | cons d cs => rfl

theorem escaped_flatMap : ∀ qs : List (List Char),
    Escaped (qs.flatMap ('/' :: ·)) ↔ ∀ q ∈ qs, Escaped q
  | [] => iff_of_true escaped_nil fun _ h => absurd h List.not_mem_nil
  | q :: qs => by
      have hhead : ∀ d ∈ (qs.flatMap ('/' :: ·)).head?, d = '/' := by
        intro d hd
        cases qs with
        | nil => cases hd
        | cons p qs => exact (Option.some.inj hd).symm
      rw [List.flatMap_cons, List.cons_append, escaped_cons_of_ne (by decide), escaped_append hhead,
        escaped_flatMap qs, List.forall_mem_cons]

/-- Writing what was read gives the same piece back when every tilde of it starts an escape. -/
theorem escape_unescape_iff (h : '/' ∉ cs) : escape (unescape cs) = cs ↔ Escaped cs := by
  fun_induction unescape cs with
  | case1 => exact iff_of_true rfl escaped_nil
  | case2 cs ih =>
    rw [List.mem_cons, List.mem_cons, not_or, not_or] at h
    rw [escaped_escape (Or.inr rfl), ← ih h.2.2]
    simp [escape]
  | case3 cs ih =>
    rw [List.mem_cons, List.mem_cons, not_or, not_or] at h
    rw [escaped_escape (Or.inl rfl), ← ih h.2.2]
    simp [escape]
  | case4 c cs hone hzero ih =>
    rw [List.mem_cons, not_or] at h
    by_cases htilde : c = '~'
    · -- a tilde that starts no escape is written as an escape of its own
      subst htilde
      refine iff_of_false (fun heq => ?_) (fun hescaped => ?_)
      · rw [escape, if_pos rfl] at heq
        exact hzero _ rfl (List.cons.inj heq).2.symm
      · have hhead := (escaped_cons.mp hescaped).1 rfl
        cases cs with
        | nil => simp at hhead
        | cons d cs =>
            rcases hhead with hd | hd
            · exact hzero cs rfl (congrArg (· :: cs) (Option.some.inj hd))
            · exact hone cs rfl (congrArg (· :: cs) (Option.some.inj hd))
    · rw [escape, if_neg htilde, if_neg (Ne.symm h.1), escaped_cons_of_ne htilde, ← ih h.2,
        List.cons_inj_right]

/-! ## Pointers -/

/-- The text of a pointer has a slash in front of each segment. -/
theorem toList_display (p : Pointer) :
    p.display.toList = (p.segments.map fun s => escape s.toList).flatMap ('/' :: ·) := by
  rw [display, String.toList_ofList, List.flatMap_map]

/-- Pieces, other than a single empty one, are read as the segments they stand for. -/
theorem parse_eq_ok {text : String} {qs : List (List Char)} (hqs : qs ≠ [[]])
    (hslash : ∀ q ∈ qs, '/' ∉ q) (htext : text.toList = qs.flatMap ('/' :: ·)) :
    parse text = .ok ⟨qs.map fun q => String.ofList (unescape q)⟩ := by
  cases qs with
  | nil =>
      rw [parse, htext]
      rfl
  | cons q qs =>
      have htext : text.toList = '/' :: (q ++ qs.flatMap ('/' :: ·)) := htext
      have hrest : q ++ qs.flatMap ('/' :: ·) ≠ [] := by
        intro hnil
        obtain ⟨rfl, hnil⟩ := List.append_eq_nil_iff.mp hnil
        cases qs with
        | nil => exact hqs rfl
        | cons p qs => cases hnil
      have hpieces := Text.pieces_flatMap hslash
      rw [parse, htext]
      split
      · next heq => cases heq
      · next heq => exact absurd (List.cons.inj heq).2 hrest
      · next rest _ heq => rw [← (List.cons.inj heq).2, hpieces]
      · next hother => exact absurd rfl (hother _)

/-- A text that is read has a slash in front of each piece, unless it is a lone slash. -/
theorem parse_cases {text : String} {p : Pointer} (h : parse text = .ok p) :
    (text = "/" ∧ p = root) ∨ ∃ qs, qs ≠ [[]] ∧ (∀ q ∈ qs, '/' ∉ q) ∧
      text.toList = qs.flatMap ('/' :: ·) ∧
      p = ⟨qs.map fun q => String.ofList (unescape q)⟩ := by
  rw [parse] at h
  split at h
  · next htext => exact Or.inr ⟨[], by simp, by simp, htext, (Except.ok.inj h).symm⟩
  · next htext => exact Or.inl ⟨String.toList_injective htext, (Except.ok.inj h).symm⟩
  · next rest hrest htext =>
    refine Or.inr ⟨Text.pieces '/' rest, ?_, fun _ => Text.not_mem_of_mem_pieces, ?_,
      (Except.ok.inj h).symm⟩
    · intro hpieces
      have hnil := Text.flatMap_pieces '/' rest
      rw [hpieces] at hnil
      exact hrest (List.cons.inj hnil).2.symm
    · rw [htext, Text.flatMap_pieces]
  · cases h

theorem segments_ne_of_parse {text : String} {p : Pointer} (h : parse text = .ok p) :
    p.segments ≠ [""] := by
  rcases parse_cases h with ⟨_, rfl⟩ | ⟨qs, hqs, _, _, rfl⟩
  · exact (List.cons_ne_nil _ _).symm
  · intro hsegments
    obtain ⟨q, rfl, hq⟩ := List.map_eq_singleton_iff.mp hsegments
    rw [String.ofList_eq_empty_iff, unescape_eq_nil] at hq
    exact hqs (congrArg (fun q => [q]) hq)

theorem parse_display_of_ne {p : Pointer} (hp : p.segments ≠ [""]) : parse p.display = .ok p := by
  have hslash : ∀ q ∈ p.segments.map fun s => escape s.toList, '/' ∉ q := by
    intro q hq
    obtain ⟨s, _, rfl⟩ := List.mem_map.mp hq
    exact slash_not_mem_escape s.toList
  have hqs : (p.segments.map fun s => escape s.toList) ≠ [[]] := by
    intro hempty
    obtain ⟨s, hs, hnil⟩ := List.map_eq_singleton_iff.mp hempty
    rw [escape_eq_nil, String.toList_eq_nil_iff] at hnil
    exact hp (hnil ▸ hs)
  rw [parse_eq_ok hqs hslash (toList_display p), List.map_map]
  refine congrArg (fun segments => Except.ok (Pointer.mk segments)) ?_
  refine (List.map_congr_left fun s _ => ?_).trans (List.map_id' p.segments)
  show String.ofList (unescape (escape s.toList)) = s
  rw [unescape_escape, String.ofList_toList]

theorem display_of_parse {text : String} {p : Pointer} (h : parse text = .ok p) :
    p.display = text ↔ text ≠ "/" ∧ Escaped text.toList := by
  rcases parse_cases h with ⟨rfl, rfl⟩ | ⟨qs, hqs, hslash, htext, rfl⟩
  · exact iff_of_false (by decide) fun h => h.1 rfl
  · have hlone : text ≠ "/" := by
      rintro rfl
      refine hqs (Text.flatMap_sep_inj hslash ?_ htext.symm)
      exact List.forall_mem_singleton.mpr List.not_mem_nil
    rw [and_iff_right hlone, htext, escaped_flatMap, ← String.toList_inj, toList_display, htext,
      List.map_map]
    have hwritten : ∀ q ∈ qs.map fun q => escape (unescape q), '/' ∉ q := by
      intro q hq
      obtain ⟨s, _, rfl⟩ := List.mem_map.mp hq
      exact slash_not_mem_escape _
    have hpieces : (qs.map ((fun s => escape s.toList) ∘ fun q => String.ofList (unescape q))) =
        qs.map fun q => escape (unescape q) :=
      List.map_congr_left fun q _ => congrArg escape String.toList_ofList
    rw [hpieces]
    calc (qs.map fun q => escape (unescape q)).flatMap ('/' :: ·) = qs.flatMap ('/' :: ·)
        ↔ (qs.map fun q => escape (unescape q)) = qs.map id := by
          rw [List.map_id]
          exact ⟨Text.flatMap_sep_inj hwritten hslash, congrArg _⟩
      _ ↔ ∀ q ∈ qs, escape (unescape q) = q := List.map_inj_left
      _ ↔ ∀ q ∈ qs, Escaped q :=
          forall₂_congr fun q hq => escape_unescape_iff (hslash q hq)

/-- Every pointer is read back from its text but the one with a single empty segment, which no text
is read as. A text that is read is written again as it was exactly when it is no lone slash and
every tilde in it is followed by `0` or `1`. -/
theorem parse_display :
    (∀ p : Pointer, parse p.display = .ok p ↔ p.segments ≠ [""]) ∧
      ∀ (text : String) (p : Pointer), parse text = .ok p →
        p.segments ≠ [""] ∧
          (p.display = text ↔ text ≠ "/" ∧ ∀ i : Nat, text.toList[i]? = some '~' →
            text.toList[i + 1]? = some '0' ∨ text.toList[i + 1]? = some '1') :=
  ⟨fun _ => ⟨segments_ne_of_parse, parse_display_of_ne⟩,
    fun _ _ h => ⟨segments_ne_of_parse h, display_of_parse h⟩⟩

/-- Escapes in a row, an empty segment at the end, and a tilde that starts no escape. -/
theorem parse_display_mixed :
    parse "/a~01/~1~0/" = .ok ⟨["a~1", "/~", ""]⟩ ∧
      Pointer.display ⟨["a~1", "/~", ""]⟩ = "/a~01/~1~0/" ∧
      parse "/~~1" = .ok ⟨["~/"]⟩ ∧ Pointer.display ⟨["~/"]⟩ ≠ "/~~1" ∧
      parse (Pointer.display ⟨["~/"]⟩) = .ok ⟨["~/"]⟩ := by
  have hescapes : parse "/a~01/~1~0/" = .ok ⟨["a~1", "/~", ""]⟩ := by decide
  have htilde : parse "/~~1" = .ok ⟨["~/"]⟩ := by decide
  refine ⟨hescapes, ?_, htilde, ?_, (parse_display.1 _).mpr (by decide)⟩
  · refine (parse_display.2 _ _ hescapes).2.mpr ⟨by decide, ?_⟩
    show Escaped "/a~01/~1~0/".toList
    simp [escaped_cons, escaped_nil]
  · intro hsame
    have hnext := ((parse_display.2 _ _ htilde).2.mp hsame).2 1 rfl
    revert hnext
    decide

end Pointer

end AnnotationEdit

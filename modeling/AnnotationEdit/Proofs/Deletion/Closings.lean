import AnnotationEdit.Proofs.Deletion.Separators

/-!
# Blanks in front of a closing bracket

The edits for runs delete blanks around the tokens that go. The blanks between a closing bracket and
a token in front of it on the same line are not deleted, unless everything goes that stands between
the brackets (`Removable.stop_le_or_start_le`).
-/

namespace AnnotationEdit

def Token.isOpener (t : Token) : Bool := t.is "[" || t.is "(" || t.is Token.openBrace

theorem Token.isCode_of_isOpener {t : Token} (h : t.isOpener = true) : t.isCode = true := by
  have hkind : t.kind = .punctuation := by
    rw [isOpener, Bool.or_eq_true, Bool.or_eq_true] at h
    rcases h with (h | h) | h <;> exact kind_of_is h
  rw [isCode, isComment, hkind]
  rfl

/-- What opens a list separates no members. -/
theorem Token.not_comma_of_isOpener {t : Token} (h : t.isOpener = true) : t.is "," = false := by
  refine Bool.eq_false_iff.mpr fun hcomma => ?_
  rw [isOpener, Bool.or_eq_true, Bool.or_eq_true] at h
  rcases h with (h | h) | h <;> exact absurd ((text_of_is h).symm.trans (text_of_is hcomma)) (by decide)

namespace DeletionRange

variable {context : DeletionContext} {tokens : TokenStream} {first last i : Nat} {t closing : Token}
  {r : Range}

/-- Beside a closing bracket no blanks behind the tokens go. -/
theorem stop_widen (h : context.tokens.OnLines context.lines)
    (ht : context.tokens.get? last = some t)
    (hclosing : context.tokens.get? (last + 1) = some closing) (hcloser : closing.isCloser = true)
    (hline : closing.range.start.line ≤ t.range.stop.line) :
    (widen context first last).stop = t.range.stop := by
  have hnext : (context.tokens.get? (last + 1)).filter (fun next =>
      next.range.start.line == t.range.stop.line && !next.isCloser && !next.is ";") = none := by
    rw [hclosing, Option.filter_some, hcloser]
    simp
  simp only [widen, TokenStream.rangeAt_of_get? ht, hnext]
  split
  · next hblank =>
    rw [Bool.and_eq_true] at hblank
    exact absurd (lt_start_line h ht hblank.2 (Nat.lt_succ_self last) hclosing)
      (Nat.not_lt_of_le hline)
  · split
    · rfl
    · split
      · split <;> rfl
      · rfl

/-- Between two brackets everything goes behind the one that opens. -/
theorem exists_opener (h : betweenBrackets? tokens first last = some r) :
    ∃ k opening, first = k + 1 ∧ tokens.get? k = some opening ∧ opening.isOpener = true := by
  rw [betweenBrackets?] at h
  split at h
  · cases h
  · next hpos =>
    obtain ⟨k, rfl⟩ := Nat.exists_eq_succ_of_ne_zero hpos
    split at h
    · next opening closing hopening hclosing =>
      split at h
      · next hbrackets =>
        refine ⟨k, opening, rfl, hopening, ?_⟩
        rw [Token.isOpener]
        simp only [Bool.or_eq_true, Bool.and_eq_true] at hbrackets ⊢
        rcases hbrackets with (⟨h, _⟩ | ⟨h, _⟩) | ⟨h, _⟩
        · exact Or.inl (Or.inl h)
        · exact Or.inl (Or.inr h)
        · exact Or.inr h
      · cases h
    · cases h

namespace Removable

variable {flagged : Token → Bool} {ranges : List DeletionRange} {front back : List Token} {w : Token}

theorem opener_stays (h : Removable context flagged ranges) {d : DeletionRange} (hd : d ∈ ranges)
    (hfirst : d.tokens.first = i + 1) (ht : context.tokens.get? i = some t)
    (hopener : t.isOpener = true) : TextEdit.cuts (allEdits context ranges) t = false := by
  rw [← Bool.not_eq_true]
  intro hcut
  have hcode := Token.isCode_of_isOpener hopener
  obtain ⟨d', hd', htakes⟩ := (h.cut_iff ht).mp hcut
  rcases h.flagged_or_comma hd' htakes ht hcode with hflagged | hcomma
  · -- it would be in a run of its own, and nothing stands between the two
    obtain ⟨r, hr, hle, hle'⟩ := h.runs.covers i t ht hcode hflagged
    have hproper := (h.runs.run d hd).first_le_last
    rcases h.runs.eq_or_parted hr hd with rfl | ⟨_, k, _, hk, hk', _⟩ | ⟨_, k, _, hk, hk', _⟩ <;>
      omega
  · rw [Token.not_comma_of_isOpener hopener] at hcomma
    cases hcomma

/-- Where a token that stays, but opens no list, is the last code in front of a closing bracket, the
blanks stay that stand in front of the bracket on its line. -/
theorem stop_le_or_start_le (h : Removable context flagged ranges)
    (ht : context.tokens.get? i = some t) (hclosing : context.tokens.get? (i + 1) = some closing)
    (hcloser : closing.isCloser = true)
    (hline : closing.range.start.line ≤ t.range.stop.line)
    (hkept : kept (TextEdit.cuts (allEdits context ranges))
      (context.tokens.tokens.toList.filter Token.isCode) = front ++ w :: closing :: back)
    (hw : w.isOpener = false) {e : TextEdit} (he : e ∈ allEdits context ranges) :
    e.range.stop ≤ t.range.stop ∨ closing.range.start ≤ e.range.start := by
  have hsorted := h.onLines.sorted
  have hmem : ∀ {u : Token}, u ∈ front ++ w :: closing :: back → u.isCode = true ∧
      TextEdit.cuts (allEdits context ranges) u = false ∧ ∃ k, context.tokens.get? k = some u := by
    intro u hu
    rw [← hkept, kept, List.mem_filter, List.mem_filter, Bool.not_eq_true'] at hu
    exact ⟨hu.1.2, hu.2, TokenStream.exists_get? hu.1.1⟩
  obtain ⟨_, hstays, _⟩ := hmem (u := closing) (by simp)
  obtain ⟨d, hd, he'⟩ := List.mem_flatMap.mp he
  rw [edits, List.mem_append] at he'
  rcases he' with he' | he'
  · -- the comma in front of the run
    obtain ⟨r, hr, rfl⟩ := List.mem_map.mp he'
    obtain ⟨k, v, _, hv, _, rfl, _⟩ :=
      (commaBefore?_eq_some (h.runs.run d hd)).mp (Option.mem_toList.mp hr)
    rcases Nat.lt_or_ge i k with hik | hki
    · exact Or.inr (hsorted.start_le hclosing hv hik)
    · exact Or.inl (hsorted.stop_le hv ht hki)
  · obtain rfl := List.mem_singleton.mp he'
    obtain ⟨main, hwraps, hedits⟩ := mem_edits (h.runs.run d hd) h.onLines
      (h.lastWithSeparator_succ_lt d hd)
    obtain rfl : (betweenBrackets? context.tokens d.tokens.first
        (d.lastWithSeparator context.tokens)).getD
          (widen context d.tokens.first (d.lastWithSeparator context.tokens)) = main := by
      rw [edits] at hedits
      exact congrArg TextEdit.range (List.singleton_inj.mp (List.append_cancel_left hedits))
    by_cases hfirst : i + 1 < d.tokens.first
    · have hbefore := (hwraps.before hfirst hclosing).1
      exact Or.inr ((le_of_lt (hsorted.proper hclosing)).trans hbefore)
    · rcases Nat.lt_trichotomy (d.lastWithSeparator context.tokens) i with hlast | hlast | hlast
      · exact Or.inl ((hwraps.after hlast ht).trans (le_of_lt (hsorted.proper ht)))
      · subst hlast
        refine Or.inl (le_of_eq ?_)
        cases hbetween : betweenBrackets? context.tokens d.tokens.first
            (d.lastWithSeparator context.tokens) with
        | none => exact stop_widen h.onLines ht hclosing hcloser hline
        | some r =>
            exfalso
            obtain ⟨k, opening, hk, hopening, hopener⟩ := exists_opener hbetween
            have hcut := h.opener_stays hd hk hopening hopener
            have hkeeps : opening ∈ front ++ w :: closing :: back := by
              rw [← hkept, kept, List.mem_filter, List.mem_filter, hcut]
              exact ⟨⟨TokenStream.mem_of_get? hopening, Token.isCode_of_isOpener hopener⟩, rfl⟩
            have hordered : Token.Ordered context.tokens.size (front ++ w :: closing :: back) := by
              rw [← hkept]
              exact hsorted.sublist (List.filter_sublist.trans List.filter_sublist)
            obtain ⟨_, hwstays, j, hj⟩ := hmem (u := w) (by simp)
            have hapart := List.pairwise_append.mp hordered.apart
            obtain ⟨hbehind, hrest⟩ := List.pairwise_cons.mp hapart.2.1
            have hlt : ∀ {a b : Nat} {u v : Token}, context.tokens.get? a = some u →
                context.tokens.get? b = some v → u.range.Before v.range → a < b :=
              fun ha hb hbefore => (hsorted.start_lt_iff ha hb).mp
                (lt_of_lt_of_le (hsorted.proper ha) hbefore)
            have hji := hlt hj hclosing (hbehind closing List.mem_cons_self)
            have hki : k < d.lastWithSeparator context.tokens + 1 := by omega
            rcases List.mem_append.mp hkeeps with hfront | hkeeps
            · have hkj := hlt hopening hj (hapart.2.2 opening hfront w List.mem_cons_self)
              rw [TextEdit.cuts_eq_true.mpr
                ⟨_, he, hwraps.takes (by omega) (Nat.le_of_lt_succ hji) hj⟩] at hwstays
              cases hwstays
            · rcases List.mem_cons.mp hkeeps with rfl | hkeeps
              · rw [hopener] at hw
                cases hw
              · have hle : closing.range.start ≤ opening.range.start := by
                  rcases List.mem_cons.mp hkeeps with rfl | hback
                  · exact le_refl _
                  · have hbefore := (List.pairwise_cons.mp hrest).1 opening hback
                    exact (le_of_lt (hsorted.proper hclosing)).trans hbefore
                exact absurd ((hsorted.start_lt_iff hopening hclosing).mpr hki) (not_lt_of_ge hle)
      · -- the closing bracket would go
        rw [TextEdit.cuts_eq_true.mpr
          ⟨_, he, hwraps.takes (Nat.le_of_not_lt hfirst) hlast hclosing⟩] at hstays
        cases hstays

end Removable

end DeletionRange

end AnnotationEdit

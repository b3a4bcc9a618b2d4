import AnnotationEdit.Proofs.Syntax.Content
import AnnotationEdit.Proofs.Text.Cutting

/-!
# Reading what remains of a text

When some tokens are cut out of a text, with blanks around them, the others are read again, with the
same kinds and texts (`Lexer.tokenize_applyAll`). This holds when the cuts take whole tokens, leave
the line feed after a comment, and leave two tokens next to each other only where the second one
does not continue the first.
-/

namespace AnnotationEdit

theorem TokenKind.eq_blockComment {kind : TokenKind} (h : kind.isComment = true)
    (hkind : kind ≠ .lineComment) : kind = .blockComment := by
  cases kind <;> first | rfl | exact absurd rfl hkind | cases h

namespace Lexer

/-! ## Where a token ends -/

theorem throughClose?_eq_some {cs body rest : List Char} (h : throughClose? cs = some (body, rest)) :
    (∀ rest', throughClose? (body ++ rest') = some (body, rest')) ∧
      body.getLast? = some '/' := by
  fun_induction throughClose? cs generalizing body with
  | case1 => cases h
  | case2 cs =>
      obtain ⟨rfl, rfl⟩ := Prod.mk.inj (Option.some.inj h)
      exact ⟨fun rest' => rfl, rfl⟩
  | case3 c cs hopen ih =>
      obtain ⟨⟨b, r⟩, hb, heq⟩ := Option.map_eq_some_iff.mp h
      obtain ⟨rfl, rfl⟩ := Prod.mk.inj heq
      obtain ⟨hrest, hlast⟩ := ih hb
      obtain ⟨d, b, rfl⟩ := List.exists_cons_of_ne_nil (List.ne_nil_of_mem (List.mem_of_getLast? hlast))
      have hcs := throughClose?_append hb
      refine ⟨fun rest' => ?_, by rw [List.getLast?_cons_cons, hlast]⟩
      rw [List.cons_append, throughClose?.eq_def]
      split
      · next heq => cases heq
      · next ds heq =>
        obtain ⟨rfl, hds⟩ := List.cons.inj heq
        rw [List.cons_append] at hds hcs
        obtain ⟨rfl, _⟩ := List.cons.inj hds
        exact absurd hcs.symm (hopen _ rfl)
      · next _ _ _ heq =>
        obtain ⟨rfl, rfl⟩ := List.cons.inj heq
        rw [hrest rest']
        rfl

theorem throughBackquote?_eq_some {cs body rest : List Char}
    (h : throughBackquote? cs = some (body, rest)) :
    (∀ rest', throughBackquote? (body ++ rest') = some (body, rest')) ∧
      body.getLast? = some backquote := by
  fun_induction throughBackquote? cs generalizing body with
  | case1 => cases h
  | case2 cs =>
      obtain ⟨rfl, rfl⟩ := Prod.mk.inj (Option.some.inj h)
      refine ⟨fun rest' => ?_, rfl⟩
      rw [List.singleton_append, throughBackquote?, if_pos rfl]
  | case3 c cs hc ih =>
      obtain ⟨⟨b, r⟩, hb, heq⟩ := Option.map_eq_some_iff.mp h
      obtain ⟨rfl, rfl⟩ := Prod.mk.inj heq
      obtain ⟨hrest, hlast⟩ := ih hb
      refine ⟨fun rest' => ?_, ?_⟩
      · rw [List.cons_append, throughBackquote?, if_neg hc, hrest rest']
        rfl
      · rw [List.getLast?_cons, hlast]
        rfl

theorem throughQuote?_quote {rest : List Char} (h : EndsString rest) :
    throughQuote? (quote :: rest) = some ([quote], rest) := by
  cases rest with
  | nil => rfl
  | cons d rest => rw [throughQuote?, if_pos rfl, if_neg (h d rfl)]

theorem throughQuote?_eq_some {cs body rest : List Char} (h : throughQuote? cs = some (body, rest)) :
    (∀ rest', EndsString rest' → throughQuote? (body ++ rest') = some (body, rest')) ∧
      body.getLast? = some quote ∧ EndsString rest := by
  fun_induction throughQuote? cs generalizing body with
  | case1 => cases h
  | case2 =>
      obtain ⟨rfl, rfl⟩ := Prod.mk.inj (Option.some.inj h)
      refine ⟨fun rest' hrest' => throughQuote?_quote hrest', rfl, fun d hd => ?_⟩
      cases hd
  | case3 => cases h
  | case4 cs ih =>
      obtain ⟨⟨b, r⟩, hb, heq⟩ := Option.map_eq_some_iff.mp h
      obtain ⟨rfl, rfl⟩ := Prod.mk.inj heq
      obtain ⟨hrest, hlast, hend⟩ := ih hb
      refine ⟨fun rest' hrest' => ?_, ?_, hend⟩
      · rw [List.cons_append, List.cons_append, throughQuote?, if_pos rfl, if_pos rfl,
          hrest rest' hrest']
        rfl
      · rw [List.getLast?_cons_cons, List.getLast?_cons, hlast]
        rfl
  | case5 d cs hd =>
      obtain ⟨rfl, rfl⟩ := Prod.mk.inj (Option.some.inj h)
      refine ⟨fun rest' hrest' => throughQuote?_quote hrest', rfl, fun e he => ?_⟩
      rw [← Option.some.inj he]
      exact hd
  | case6 c d cs hc ih =>
      obtain ⟨⟨b, r⟩, hb, heq⟩ := Option.map_eq_some_iff.mp h
      obtain ⟨rfl, rfl⟩ := Prod.mk.inj heq
      obtain ⟨hrest, hlast, hend⟩ := ih hb
      obtain ⟨e, b, rfl⟩ := List.exists_cons_of_ne_nil (List.ne_nil_of_mem (List.mem_of_getLast? hlast))
      refine ⟨fun rest' hrest' => ?_, by rw [List.getLast?_cons_cons, hlast], hend⟩
      have hnext := hrest rest' hrest'
      rw [List.cons_append] at hnext
      rw [List.cons_append, List.cons_append, throughQuote?, if_neg hc, hnext]
      rfl

theorem isBlank_eq_false_of_isNumberChar {c : Char} (h : isNumberChar c = true) :
    Text.isBlank c = false := by
  rw [isNumberChar, Bool.or_eq_true, beq_iff_eq] at h
  rcases h with hdigit | rfl
  · exact isBlank_eq_false_of_isDigit hdigit
  · decide

/-- A blank continues nothing. -/
theorem break_of_isBlank {c : Char} {cs : List Char} (h : Text.isBlank c = true) :
    Break (c :: cs) := by
  intro d hd
  obtain rfl := Option.some.inj hd
  refine ⟨?_, ?_, ?_⟩
  · rw [← Bool.not_eq_true]
    intro hname
    rw [isBlank_eq_false_of_isNameChar hname] at h
    cases h
  · rw [← Bool.not_eq_true]
    intro hnumber
    rw [isBlank_eq_false_of_isNumberChar hnumber] at h
    cases h
  · rintro rfl
    cases h

/-- The characters `c :: tail` are read as one token, of some kind, in front of everything that
satisfies the condition at the end. -/
inductive Lexeme (c : Char) (tail : List Char) : TokenKind → (List Char → Prop) → Prop where
  | lineComment : c = '/' → tail.head? = some '/' → tail.all (· != '\n') = true →
      Lexeme c tail .lineComment fun rest => ∀ d ∈ rest.head?, d = '\n'
  | blockComment {body : List Char} : c = '/' → tail = '*' :: body →
      (∀ rest, throughClose? (body ++ rest) = some (body, rest)) → body.getLast? = some '/' →
      Lexeme c tail .blockComment Anything
  | quoted : c = quote →
      (∀ rest, EndsString rest → throughQuote? (tail ++ rest) = some (tail, rest)) →
      tail.getLast? = some quote → Lexeme c tail .string EndsString
  | backquoted : c = backquote →
      (∀ rest, throughBackquote? (tail ++ rest) = some (tail, rest)) →
      tail.getLast? = some backquote → Lexeme c tail .string Anything
  | number : Text.isDigit c = true ∨ (c = '-' ∧ tail.head?.any Text.isDigit = true) →
      tail.all isNumberChar = true → Lexeme c tail .number EndsNumber
  | word : isWord (c :: tail) = true → Lexeme c tail (wordKind (c :: tail)) EndsWord
  | mark : isPunctuation c = true → tail = [] → Lexeme c tail .punctuation Anything

theorem Lexeme.of_lineComment {c : Char} {tail : List Char} {kind : TokenKind}
    {follow : List Char → Prop} (h : Lexeme c tail kind follow) (hkind : kind = .lineComment) :
    c = '/' ∧ tail.head? = some '/' ∧ tail.all (· != '\n') = true ∧
      follow = fun rest => ∀ d ∈ rest.head?, d = '\n' := by
  cases h with
  | lineComment hc hhead hall => exact ⟨hc, hhead, hall, rfl⟩
  | word =>
      unfold wordKind at hkind
      split at hkind <;> cases hkind
  | _ => cases hkind

theorem takeWhile_eq {p : Char → Bool} {tail rest : List Char}
    (htake : (tail ++ rest).takeWhile p = tail) :
    tail.all p = true ∧ ∀ c ∈ rest.head?, p c = false := by
  have hall : tail.all p = true := by
    rw [← htake]
    exact List.all_takeWhile
  refine ⟨hall, ?_⟩
  intro c hc
  obtain ⟨rest', rfl⟩ := List.head?_eq_some_iff.mp hc
  rw [List.takeWhile_append_of_pos (List.all_eq_true.mp hall)] at htake
  rw [← Bool.not_eq_true]
  intro hpc
  rw [List.takeWhile_cons_of_pos hpc] at htake
  have hlength := congrArg List.length htake
  rw [List.length_append, List.length_cons] at hlength
  omega

theorem ok_inj {kind kind' : TokenKind} {tail tail' rest rest' : List Char}
    (h : (Except.ok (kind, tail, rest) : Except SyntaxFault _) = .ok (kind', tail', rest')) :
    kind = kind' ∧ tail = tail' ∧ rest = rest' := by
  obtain ⟨hkind, hpair⟩ := Prod.mk.inj (Except.ok.inj h)
  exact ⟨hkind, Prod.mk.inj hpair⟩

theorem exists_lexeme {c : Char} {cs tail rest : List Char} {kind : TokenKind}
    (h : scan c cs = .ok (kind, tail, rest)) :
    ∃ follow, Lexeme c tail kind follow ∧ follow rest := by
  obtain rfl := scan_append h
  unfold scan at h
  split at h
  · next hc =>
    simp only [Bool.and_eq_true, decide_eq_true_eq, beq_iff_eq] at hc
    obtain ⟨rfl, htail, _⟩ := ok_inj h
    obtain ⟨hall, hrest⟩ := takeWhile_eq htail
    refine ⟨_, Lexeme.lineComment hc.1 ?_ hall, fun d hd => by simpa using hrest d hd⟩
    cases tail with
    | nil => cases hrest '/' hc.2
    | cons d tail => exact hc.2
  split at h
  · next hc =>
    simp only [Bool.and_eq_true, decide_eq_true_eq, beq_iff_eq] at hc
    split at h
    · next body rest' hclose =>
      obtain ⟨rfl, htail, rfl⟩ := ok_inj h
      obtain ⟨hbody, hlast⟩ := throughClose?_eq_some hclose
      obtain ⟨cs, hcs⟩ := List.head?_eq_some_iff.mp hc.2
      rw [hcs] at htail
      exact ⟨_, Lexeme.blockComment hc.1 htail.symm hbody hlast, trivial⟩
    · cases h
  split at h
  · next hc =>
    split at h
    · next body rest' hquote =>
      obtain ⟨rfl, rfl, rfl⟩ := ok_inj h
      obtain ⟨hbody, hlast, hend⟩ := throughQuote?_eq_some hquote
      exact ⟨_, Lexeme.quoted hc hbody hlast, hend⟩
    · cases h
  split at h
  · next hc =>
    split at h
    · next body rest' hquote =>
      obtain ⟨rfl, rfl, rfl⟩ := ok_inj h
      obtain ⟨hbody, hlast⟩ := throughBackquote?_eq_some hquote
      exact ⟨_, Lexeme.backquoted hc hbody hlast, trivial⟩
    · cases h
  split at h
  · next hc =>
    simp only [Bool.or_eq_true, Bool.and_eq_true, decide_eq_true_eq] at hc
    obtain ⟨rfl, htail, _⟩ := ok_inj h
    obtain ⟨hall, hrest⟩ := takeWhile_eq htail
    refine ⟨_, Lexeme.number (hc.imp_right fun hminus => ⟨hminus.1, ?_⟩) hall, hrest⟩
    cases tail with
    | nil =>
        obtain ⟨d, hd, hdigit⟩ := (Option.any_eq_true ..).mp hminus.2
        have hnot := hrest d hd
        rw [isNumberChar, hdigit, Bool.true_or] at hnot
        cases hnot
    | cons d tail => exact hminus.2
  · next hdigit =>
    split at h
    · next hname =>
      obtain ⟨rfl, htail, _⟩ := ok_inj h
      obtain ⟨hall, hrest⟩ := takeWhile_eq htail
      simp only [Bool.or_eq_true, not_or, Bool.not_eq_true] at hdigit
      rw [htail]
      refine ⟨_, Lexeme.word ?_, hrest⟩
      rw [isWord, hname, hdigit.1, hall]
      rfl
    · split at h
      · next hmark =>
        obtain ⟨rfl, rfl, _⟩ := ok_inj h
        exact ⟨_, Lexeme.mark hmark rfl, trivial⟩
      · cases h

namespace Lexeme

variable {c : Char} {tail rest : List Char} {kind : TokenKind} {follow : List Char → Prop}

/-- The token is read wherever it stands in front of something that may follow it. -/
theorem scan (h : Lexeme c tail kind follow) (hrest : follow rest) :
    Lexer.scan c (tail ++ rest) = .ok (kind, tail, rest) := by
  cases h with
  | lineComment hc hhead hall =>
      subst hc
      obtain ⟨htake, hdrop⟩ := takeWhile_append_of_break hall fun d hd => by
        rw [hrest d hd]
        rfl
      have hfirst : (tail ++ rest).head? = some '/' := by
        rw [List.head?_append, hhead]
        rfl
      rw [Lexer.scan, if_pos (by rw [hfirst]; rfl), htake, hdrop]
  | @blockComment body hc htail hbody =>
      subst hc htail
      rw [Lexer.scan, if_neg (by simp), if_pos (by simp)]
      rw [List.cons_append, List.drop_one, List.tail_cons, hbody rest]
      rfl
  | quoted hc hbody =>
      subst hc
      rw [Lexer.scan, if_neg (by simp [quote]), if_neg (by simp [quote]), if_pos rfl,
        hbody rest hrest]
  | backquoted hc hbody =>
      subst hc
      rw [Lexer.scan, if_neg (by simp [backquote]), if_neg (by simp [backquote]),
        if_neg (by decide), if_pos rfl, hbody rest]
  | number hc hall => exact scan_number hc hall hrest
  | word hword => exact scan_word hword hrest
  | mark hmark htail =>
      subst htail
      obtain ⟨_, hslash, hquote, hbackquote, hdigit, hminus, hname⟩ :=
        marks_are_plain c (List.contains_iff_mem.mp hmark)
      simp [Lexer.scan, hslash, hquote, hbackquote, hdigit, hminus, hname, hmark]

/-- What may follow depends on the next character only. -/
theorem follow_of_head (h : Lexeme c tail kind follow) {rest' : List Char}
    (hhead : rest'.head? = rest.head?) (hrest : follow rest) : follow rest' := by
  cases h with
  | lineComment => exact fun d hd => hrest d (hhead ▸ hd)
  | blockComment => trivial
  | quoted => exact fun d hd => hrest d (hhead ▸ hd)
  | backquoted => trivial
  | number => exact fun d hd => hrest d (hhead ▸ hd)
  | word => exact fun d hd => hrest d (hhead ▸ hd)
  | mark => trivial

/-- What breaks may follow everything but a comment up to the end of its line. -/
theorem follow_of_break (h : Lexeme c tail kind follow) (hkind : kind ≠ .lineComment)
    (hrest : Break rest) : follow rest := by
  cases h with
  | lineComment => exact absurd rfl hkind
  | blockComment => trivial
  | quoted => exact fun d hd => (hrest d hd).2.2
  | backquoted => trivial
  | number => exact fun d hd => (hrest d hd).2.1
  | word => exact fun d hd => (hrest d hd).1
  | mark => trivial

/-- Anything may follow marks and comments with an end. -/
theorem follow_of_closed (h : Lexeme c tail kind follow)
    (hkind : kind = .punctuation ∨ kind = .blockComment) : follow rest := by
  cases h with
  | blockComment => trivial
  | backquoted => trivial
  | mark => trivial
  | lineComment => rcases hkind with hkind | hkind <;> cases hkind
  | quoted => rcases hkind with hkind | hkind <;> cases hkind
  | number => rcases hkind with hkind | hkind <;> cases hkind
  | word =>
      unfold wordKind at hkind
      split at hkind <;> rcases hkind with hkind | hkind <;> cases hkind

theorem isBlank_eq_false (h : Lexeme c tail kind follow) : Text.isBlank c = false := by
  cases h with
  | lineComment hc => subst hc; decide
  | blockComment hc => subst hc; decide
  | quoted hc => subst hc; decide
  | backquoted hc => subst hc; decide
  | number hc =>
      rcases hc with hc | ⟨rfl, _⟩
      · exact isBlank_eq_false_of_isDigit hc
      · decide
  | word hword =>
      rw [isWord, Bool.and_eq_true, Bool.and_eq_true] at hword
      exact isBlank_eq_false_of_isNameChar hword.1.1
  | mark hmark => exact (marks_are_plain c (List.contains_iff_mem.mp hmark)).1

theorem eq_slash (h : Lexeme c tail kind follow) (hkind : kind.isComment = true) : c = '/' := by
  cases h with
  | lineComment hc => exact hc
  | blockComment hc => exact hc
  | quoted => cases hkind
  | backquoted => cases hkind
  | number => cases hkind
  | mark => cases hkind
  | word =>
      unfold wordKind at hkind
      split at hkind <;> cases hkind

/-- Only a comment up to the end of its line may end with a blank. -/
theorem isBlank_last (h : Lexeme c tail kind follow) (hkind : kind ≠ .lineComment) {d : Char}
    (hd : (c :: tail).getLast? = some d) : Text.isBlank d = false := by
  have hfirst := h.isBlank_eq_false
  have hcases : d = c ∨ tail.getLast? = some d := by
    cases tail with
    | nil => exact Or.inl (Option.some.inj hd).symm
    | cons e tail =>
        rw [List.getLast?_cons_cons] at hd
        exact Or.inr hd
  rcases hcases with rfl | hd
  · exact hfirst
  · cases h with
    | lineComment => exact absurd rfl hkind
    | @blockComment body _ htail _ hlast =>
        rw [htail, List.getLast?_cons, hlast] at hd
        obtain rfl := Option.some.inj hd
        decide
    | quoted _ _ hlast =>
        rw [hlast] at hd
        obtain rfl := Option.some.inj hd
        decide
    | backquoted _ _ hlast =>
        rw [hlast] at hd
        obtain rfl := Option.some.inj hd
        decide
    | number _ hall =>
        have hnumber := List.all_eq_true.mp hall d (List.mem_of_getLast? hd)
        exact isBlank_eq_false_of_isNumberChar hnumber
    | word hword =>
        rw [isWord, Bool.and_eq_true] at hword
        exact isBlank_eq_false_of_isNameChar
          (List.all_eq_true.mp hword.2 d (List.mem_of_getLast? hd))
    | mark _ htail =>
        rw [htail] at hd
        cases hd

end Lexeme

/-! ## Cuts among characters -/

/-- The characters from the place `i` on and the tokens they are read as. Of a token that is cut
nothing but blanks remains; another one remains as it is, in front of something that may follow
it. -/
inductive Carves (removed : Nat → Bool) (cut : Token → Bool) :
    Nat → List Char → List Token → Prop where
  | nil {i : Nat} : Carves removed cut i [] []
  | blank {i : Nat} {c : Char} {cs : List Char} {ts : List Token} : Text.isBlank c = true →
      Carves removed cut (i + 1) cs ts → Carves removed cut i (c :: cs) ts
  | gone {i : Nat} {cs rest : List Char} {t : Token} {ts : List Token} : cut t = true →
      (∀ d ∈ remain removed i cs, Text.isBlank d = true) →
      Carves removed cut (i + cs.length) rest ts → Carves removed cut i (cs ++ rest) (t :: ts)
  | stays {i : Nat} {c : Char} {tail rest : List Char} {t : Token} {ts : List Token}
      {follow : List Char → Prop} : cut t = false → Lexeme c tail t.kind follow →
      t.text = String.ofList (c :: tail) → t.identifier = none →
      remain removed i (c :: tail) = c :: tail →
      follow (remain removed (i + (c :: tail).length) rest) →
      Carves removed cut (i + (c :: tail).length) rest ts →
      Carves removed cut i ((c :: tail) ++ rest) (t :: ts)

theorem tokenizeFrom_blanks {bs : List Char} (h : ∀ b ∈ bs, Text.isBlank b = true) (p : Position)
    (cs : List Char) : tokenizeFrom p (bs ++ cs) = tokenizeFrom (p.after bs) cs := by
  induction bs generalizing p with
  | nil => rfl
  | cons b bs ih =>
      obtain ⟨hb, hbs⟩ := List.forall_mem_cons.mp h
      rw [List.cons_append, tokenizeFrom_blank hb, ih hbs]
      rfl

namespace Carves

variable {removed : Nat → Bool} {cut : Token → Bool} {i : Nat} {cs : List Char} {ts : List Token}

theorem exists_tokens (h : Carves removed cut i cs ts) : ∀ p, ∃ ts',
    tokenizeFrom p (remain removed i cs) = .ok ts' ∧ Respells ts' (ts.filter fun t => !cut t) := by
  induction h with
  | nil =>
      intro p
      refine ⟨[], ?_, rfl⟩
      rw [remain, tokenizeFrom.eq_def]
  | @blank i c cs ts hc _ ih =>
      intro p
      rw [remain]
      split
      · exact ih p
      · obtain ⟨ts', hts', hrespells⟩ := ih (p.advance c)
        exact ⟨ts', (tokenizeFrom_blank hc p _).trans hts', hrespells⟩
  | @gone i cs rest t ts hcut hblank _ ih =>
      intro p
      obtain ⟨ts', hts', hrespells⟩ := ih (p.after (remain removed i cs))
      refine ⟨ts', ?_, ?_⟩
      · rw [remain_append, tokenizeFrom_blanks hblank, hts']
      · rw [List.filter_cons_of_neg (by rw [hcut]; decide)]
        exact hrespells
  | @stays i c tail rest t ts follow hcut hlexeme htext hidentifier hremain hfollow _ ih =>
      intro p
      obtain ⟨ts', hts', hrespells⟩ := ih (p.after (c :: tail))
      refine ⟨tokenAt p t.kind (c :: tail) :: ts', ?_, ?_⟩
      · rw [remain_append, hremain, List.cons_append,
          tokenizeFrom_scan hlexeme.isBlank_eq_false (hlexeme.scan hfollow), hts']
        rfl
      · rw [List.filter_cons_of_pos (by rw [hcut]; decide)]
        have hbare : (tokenAt p t.kind (c :: tail)).bare = t.bare := by
          rw [tokenAt, Token.bare, Token.bare, htext, hidentifier]
        rw [Respells, List.map_cons, List.map_cons, hbare]
        exact congrArg _ hrespells

/-- What remains starts with a blank or with the first token that is not cut. -/
theorem head_remain (h : Carves removed cut i cs ts) :
    ∀ d ∈ (remain removed i cs).head?, Text.isBlank d = true ∨
      ∃ t, ts.find? (fun t => !cut t) = some t ∧ t.text.toList.head? = some d := by
  induction h with
  | nil => nofun
  | @blank i c cs ts hc _ ih =>
      intro d hd
      rw [remain] at hd
      split at hd
      · exact ih d hd
      · rw [← Option.some.inj hd]
        exact Or.inl hc
  | @gone i cs rest t ts hcut hblank _ ih =>
      intro d hd
      rw [remain_append, List.head?_append] at hd
      rcases Option.or_eq_some_iff.mp hd with hd | ⟨_, hd⟩
      · exact Or.inl (hblank d (List.mem_of_head? hd))
      · rw [List.find?_cons_of_neg (by rw [hcut]; decide)]
        exact ih d hd
  | @stays i c tail rest t ts follow hcut hlexeme htext _ hremain _ _ _ =>
      intro d hd
      rw [remain_append, hremain] at hd
      refine Or.inr ⟨t, List.find?_cons_of_pos (by rw [hcut]; rfl), ?_⟩
      rw [htext, String.toList_ofList]
      exact hd

end Carves

/-! ## Places of tokens -/

/-- The token is read from the characters `c :: tail`, behind `front` and in front of `rest`. -/
structure Placed (front : List Char) (c : Char) (tail rest : List Char) (t : Token) : Prop where
  lexeme : ∃ follow, Lexeme c tail t.kind follow ∧ follow rest
  eq : t = tokenAt (Position.origin.after front) t.kind (c :: tail)

theorem exists_placed : ∀ (n : Nat) {front cs : List Char} {ts : List Token}, cs.length ≤ n →
    tokenizeFrom (Position.origin.after front) cs = .ok ts → ∀ t ∈ ts, ∃ front' c tail rest,
      front ++ cs = front' ++ ((c :: tail) ++ rest) ∧ Placed front' c tail rest t
  | _, front, [], ts, _, h, t, ht => by
      rw [tokenizeFrom.eq_def] at h
      rw [← Except.ok.inj h] at ht
      exact absurd ht List.not_mem_nil
  | 0, _, c :: cs, _, hlen, _, _, _ => absurd hlen (Nat.not_succ_le_zero _)
  | n + 1, front, c :: cs, ts, hlen, h, t, ht => by
      rw [List.length_cons] at hlen
      rcases tokenizeFrom_eq_ok h with ⟨_, hrest⟩ | ⟨kind, tail, rest, ts', hscan, hrest, rfl⟩
      · have hafter : (Position.origin.after front).advance c =
            Position.origin.after (front ++ [c]) := (after_append Position.origin front [c]).symm
        rw [hafter] at hrest
        rw [List.append_cons]
        exact exists_placed n (by omega) hrest t ht
      · obtain rfl := scan_append hscan
        rw [List.length_append] at hlen
        rcases List.mem_cons.mp ht with rfl | ht
        · exact ⟨front, c, tail, rest, rfl, exists_lexeme hscan, rfl⟩
        · rw [← after_append] at hrest
          have hsplit : front ++ c :: (tail ++ rest) = front ++ (c :: tail) ++ rest := by
            rw [List.append_assoc, List.cons_append]
          rw [hsplit]
          exact exists_placed n (by omega) hrest t ht

namespace Placed

variable {front tail rest : List Char} {c : Char} {t : Token}

theorem range_start (h : Placed front c tail rest t) :
    t.range.start = Position.origin.after front := by
  rw [h.eq]
  rfl

theorem range_stop (h : Placed front c tail rest t) :
    t.range.stop = Position.origin.after (front ++ (c :: tail)) := by
  rw [h.eq, after_append]
  rfl

theorem text (h : Placed front c tail rest t) : t.text = String.ofList (c :: tail) := by
  rw [h.eq]
  rfl

theorem first (h : Placed front c tail rest t) : Text.isBlank c = false :=
  h.lexeme.choose_spec.1.isBlank_eq_false

theorem ne_of_isBlank {c d : Char} (hc : Text.isBlank c = false) (hd : Text.isBlank d = true) :
    c ≠ d := by
  rintro rfl
  rw [hc] at hd
  cases hd

theorem index_start (h : Placed front c tail rest t) :
    (Lines.mk (front ++ ((c :: tail) ++ rest))).index t.range.start = front.length := by
  rw [h.range_start]
  exact Lines.index_after (Or.inr ⟨c, tail ++ rest, rfl, ne_of_isBlank h.first (by decide),
    ne_of_isBlank h.first (by decide)⟩)

/-- The end of a token other than a comment up to the end of its line. -/
theorem index_stop (h : Placed front c tail rest t) (hkind : t.kind ≠ .lineComment) :
    (Lines.mk (front ++ ((c :: tail) ++ rest))).index t.range.stop =
      front.length + (c :: tail).length := by
  obtain ⟨follow, hlexeme, _⟩ := h.lexeme
  rw [h.range_stop, ← List.append_assoc, Lines.index_after, List.length_append]
  left
  intro hlast
  rw [List.getLast?_append_of_ne_nil _ (List.cons_ne_nil _ _)] at hlast
  exact absurd (hlexeme.isBlank_last hkind hlast) (by decide)

theorem rest_of_lineComment (h : Placed front c tail rest t) (hkind : t.kind = .lineComment) :
    ∀ d ∈ rest.head?, d = '\n' := by
  obtain ⟨follow, hlexeme, hrest⟩ := h.lexeme
  obtain ⟨_, _, _, rfl⟩ := hlexeme.of_lineComment hkind
  exact hrest

/-- Only blanks of a token are behind its end. -/
theorem lt_index_stop (h : Placed front c tail rest t) {j : Nat} {d : Char}
    (hd : (c :: tail)[j]? = some d) :
    front.length + j < (Lines.mk (front ++ ((c :: tail) ++ rest))).index t.range.stop ∨
      Text.isBlank d = true := by
  have hj := (List.getElem?_eq_some_iff.mp hd).1
  by_cases hkind : t.kind = .lineComment
  · have hget : (front ++ (c :: tail))[front.length + j]? = some d := by
      rw [List.getElem?_append_right (Nat.le_add_right _ _), Nat.add_sub_cancel_left, hd]
    rw [h.range_stop, ← List.append_assoc]
    rcases Lines.lt_index_after (h.rest_of_lineComment hkind) hget with hlt | rfl
    · exact Or.inl hlt
    · exact Or.inr (by decide)
  · rw [h.index_stop hkind]
    exact Or.inl (by omega)

theorem index_lt (h : Placed front c tail rest t) :
    (Lines.mk (front ++ ((c :: tail) ++ rest))).index t.range.start <
      (Lines.mk (front ++ ((c :: tail) ++ rest))).index t.range.stop := by
  rw [h.index_start]
  rcases h.lt_index_stop (j := 0) rfl with hlt | hblank
  · exact hlt
  · rw [h.first] at hblank
    cases hblank

end Placed

end Lexer

/-! ## Clean cuts -/

def TextEdit.cuts (edits : List TextEdit) (t : Token) : Bool :=
  edits.any fun e => e.range.contains t.range

theorem TextEdit.cuts_eq_true {edits : List TextEdit} {t : Token} :
    cuts edits t = true ↔ ∃ e ∈ edits, e.range.contains t.range = true := List.any_eq_true

theorem TextEdit.not_contains_of_cuts {edits : List TextEdit} {t : Token} (h : cuts edits t = false)
    {e : TextEdit} (he : e ∈ edits) : ¬ e.range.contains t.range = true := by
  intro hcontains
  rw [cuts_eq_true.mpr ⟨e, he, hcontains⟩] at h
  cases h

/-- The first character of the token continues nothing. -/
def Token.Breaks (t : Token) : Prop := ∀ c ∈ t.text.toList.head?, Lexer.isBreak c = true

/-- A closing bracket continues nothing. -/
theorem Token.breaks_of_isCloser {t : Token} (h : t.isCloser = true) : t.Breaks := by
  intro c hc
  rw [isCloser, Bool.or_eq_true, Bool.or_eq_true] at h
  simp only [is, Bool.and_eq_true, beq_iff_eq] at h
  rcases h with (⟨_, htext⟩ | ⟨_, htext⟩) | ⟨_, htext⟩ <;> rw [htext] at hc <;>
    obtain rfl := Option.some.inj hc <;> decide

/-- Neither does a comment. -/
theorem Lexer.Placed.breaks_of_isComment {front tail rest : List Char} {c : Char} {t : Token}
    (h : Placed front c tail rest t) (hcomment : t.isComment = true) : t.Breaks := by
  intro d hd
  obtain ⟨follow, hlexeme, _⟩ := h.lexeme
  rw [h.text, String.toList_ofList, hlexeme.eq_slash hcomment] at hd
  obtain rfl := Option.some.inj hd
  decide

/-- The edits take whole tokens, or blanks in front of a token that continues nothing, and no line
feed after a comment. Where a name, a number or a string loses the token behind it, a comment or a
token that continues nothing comes next. -/
structure CleanCut (tokens : List Token) (edits : List TextEdit) : Prop where
  takes : ∀ e ∈ edits, (∃ t ∈ tokens, e.range.contains t.range = true) ∨
    ∃ t ∈ tokens, t.Breaks ∧ t.range.start = e.range.stop
  apart : ∀ e ∈ edits, ∀ t ∈ tokens, e.range.contains t.range = true ∨ e.range.Before t.range ∨
    (t.range.Before e.range ∧
      (t.kind = .lineComment → t.range.stop.line < e.range.start.line))
  ends : ∀ front t u rest, tokens = front ++ t :: u :: rest → TextEdit.cuts edits t = false →
    TextEdit.cuts edits u = true → t.kind = .punctuation ∨ t.isComment = true ∨
      ∀ v, rest.find? (fun v => !TextEdit.cuts edits v) = some v →
        v.isComment = true ∨ v.Breaks

namespace CleanCut

open Lexer (Placed Carves)

variable {tokens : List Token} {edits : List TextEdit} {front tail rest : List Char} {c : Char}
variable {t : Token}

/-- Nothing but blanks remains of a token that is cut. -/
theorem remain_of_cut (hplaced : Placed front c tail rest t)
    (hcut : TextEdit.cuts edits t = true) :
    ∀ d ∈ remain (TextEdit.removes ⟨front ++ ((c :: tail) ++ rest)⟩ edits) front.length (c :: tail),
      Text.isBlank d = true := by
  intro d hd
  obtain ⟨j, hj, hkept⟩ := mem_remain hd
  obtain ⟨e, he, hcontains⟩ := TextEdit.cuts_eq_true.mp hcut
  obtain ⟨hstart, hstop⟩ := Range.contains_iff.mp hcontains
  rcases hplaced.lt_index_stop hj with hlt | hblank
  · have hfirst := Lines.index_mono ⟨front ++ ((c :: tail) ++ rest)⟩ hstart
    have hlast := Lines.index_mono ⟨front ++ ((c :: tail) ++ rest)⟩ hstop
    rw [hplaced.index_start] at hfirst
    rw [TextEdit.removes_eq_true.mpr ⟨e, he, by omega, by omega⟩] at hkept
    cases hkept
  · exact hblank

/-- An edit that takes a character at or behind a token that is not cut starts behind it. -/
theorem before_of_removes (hclean : CleanCut tokens edits) (hplaced : Placed front c tail rest t)
    (ht : t ∈ tokens) (hcut : TextEdit.cuts edits t = false) {e : TextEdit} (he : e ∈ edits)
    {j : Nat} (hj : front.length ≤ j)
    (hlast : j < (Lines.mk (front ++ ((c :: tail) ++ rest))).index e.range.stop) :
    t.range.Before e.range ∧
      (t.kind = .lineComment → t.range.stop.line < e.range.start.line) := by
  rcases hclean.apart e he t ht with hcontains | hbefore | hbehind
  · exact absurd hcontains (TextEdit.not_contains_of_cuts hcut he)
  · have hmono := Lines.index_mono ⟨front ++ ((c :: tail) ++ rest)⟩ hbefore
    rw [hplaced.index_start] at hmono
    omega
  · exact hbehind

theorem remain_of_kept (hclean : CleanCut tokens edits) (hplaced : Placed front c tail rest t)
    (ht : t ∈ tokens) (hcut : TextEdit.cuts edits t = false) :
    remain (TextEdit.removes ⟨front ++ ((c :: tail) ++ rest)⟩ edits) front.length (c :: tail) =
      c :: tail := by
  refine remain_eq_self fun j hj hlt => ?_
  rw [← Bool.not_eq_true, TextEdit.removes_eq_true]
  rintro ⟨e, he, hfirst, hlast⟩
  obtain ⟨hbehind, hline⟩ := hclean.before_of_removes hplaced ht hcut he hj hlast
  by_cases hkind : t.kind = .lineComment
  · have hline := hline hkind
    rw [hplaced.range_stop] at hline
    rw [← List.append_assoc] at hfirst
    have hend : (front ++ (c :: tail)).length ≤
        (Lines.mk ((front ++ (c :: tail)) ++ rest)).index e.range.start :=
      (Lines.length_lt_index hline).1
    rw [List.length_append] at hend
    omega
  · have hmono := Lines.index_mono ⟨front ++ ((c :: tail) ++ rest)⟩ hbehind
    rw [hplaced.index_stop hkind] at hmono
    omega

/-- The line feed after a comment remains. -/
theorem removes_lineFeed (hclean : CleanCut tokens edits) (hplaced : Placed front c tail rest t)
    (ht : t ∈ tokens) (hcut : TextEdit.cuts edits t = false) (hkind : t.kind = .lineComment)
    (hrest : rest ≠ []) :
    TextEdit.removes ⟨front ++ ((c :: tail) ++ rest)⟩ edits
      (front.length + (c :: tail).length) = false := by
  rw [← Bool.not_eq_true, TextEdit.removes_eq_true]
  rintro ⟨e, he, hfirst, hlast⟩
  obtain ⟨_, hline⟩ := hclean.before_of_removes hplaced ht hcut he (Nat.le_add_right _ _) hlast
  have hline := hline hkind
  rw [hplaced.range_stop] at hline
  rw [← List.append_assoc] at hfirst
  have hend : (front ++ (c :: tail)).length <
      (Lines.mk ((front ++ (c :: tail)) ++ rest)).index e.range.start :=
    (Lines.length_lt_index hline).2 hrest
  rw [List.length_append] at hend
  omega

variable {chars : List Char} {N : Nat}

/-- An edit right behind a token that is not cut takes the next token, or that one continues
nothing. -/
theorem exists_next (hclean : CleanCut tokens edits) (hordered : Token.Ordered N tokens)
    (hall : ∀ u ∈ tokens, (Lines.mk chars).index u.range.start < (Lines.mk chars).index u.range.stop)
    (hchars : chars = front ++ ((c :: tail) ++ rest)) (hplaced : Placed front c tail rest t)
    {before ts : List Token} (htokens : tokens = before ++ t :: ts)
    (hcut : TextEdit.cuts edits t = false) (hkind : t.kind ≠ .lineComment)
    (hremoved : TextEdit.removes ⟨chars⟩ edits (front.length + (c :: tail).length) = true) :
    ∃ u us, ts = u :: us ∧ (TextEdit.cuts edits u = true ∨ u.Breaks) := by
  have ht : t ∈ tokens := by
    rw [htokens]
    exact List.mem_append_right before List.mem_cons_self
  subst hchars
  obtain ⟨e, he, hfirst, hlast⟩ := TextEdit.removes_eq_true.mp hremoved
  obtain ⟨hbehind, _⟩ := hclean.before_of_removes hplaced ht hcut he (Nat.le_add_right _ _) hlast
  have hproper := hordered.proper
  have hapart := hordered.apart
  rw [htokens] at hapart
  obtain ⟨_, hsuffix, hbefore⟩ := List.pairwise_append.mp hapart
  obtain ⟨hafter, hrest⟩ := List.pairwise_cons.mp hsuffix
  have hmem : ∀ w ∈ tokens, (Lines.mk (front ++ ((c :: tail) ++ rest))).index t.range.start <
      (Lines.mk (front ++ ((c :: tail) ++ rest))).index w.range.start → w ∈ ts := by
    intro w hw hlt
    rw [htokens] at hw
    rcases List.mem_append.mp hw with hw | hw
    · have hle : w.range.start ≤ t.range.start :=
        le_trans (le_of_lt (hproper w (htokens ▸ List.mem_append_left _ hw)))
          (hbefore w hw t List.mem_cons_self)
      exact absurd hlt (Nat.not_lt.mpr (Lines.index_mono _ hle))
    · rcases List.mem_cons.mp hw with rfl | hw
      · exact absurd hlt (Nat.lt_irrefl _)
      · exact hw
  have hself := hplaced.index_start
  have hnext : ∀ u ∈ ts, e.range.contains u.range = true ∨ e.range.Before u.range := by
    intro u hu
    have hmemU : u ∈ tokens := by
      rw [htokens]
      exact List.mem_append_right before (List.mem_cons_of_mem t hu)
    rcases hclean.apart e he u hmemU with hcontains | hbeforeU | ⟨hbehindU, _⟩
    · exact Or.inl hcontains
    · exact Or.inr hbeforeU
    · have hnext : t.range.stop ≤ u.range.start := hafter u hu
      have hstartU := Lines.index_mono ⟨front ++ ((c :: tail) ++ rest)⟩ hnext
      have hstopU := Lines.index_mono ⟨front ++ ((c :: tail) ++ rest)⟩ hbehindU
      have hlt := hall u hmemU
      rw [hplaced.index_stop hkind] at hstartU
      omega
  have hfirstOf : ∀ w ∈ ts, w.range.start ≤ e.range.stop → ∃ u us, ts = u :: us ∧
      (u = w ∨ TextEdit.cuts edits u = true) := by
    intro w hw hle
    obtain ⟨u, us, rfl⟩ := List.exists_cons_of_ne_nil (List.ne_nil_of_mem hw)
    refine ⟨u, us, rfl, ?_⟩
    rcases List.mem_cons.mp hw with rfl | hw
    · exact Or.inl rfl
    · rcases hnext u List.mem_cons_self with hcontains | hbeforeU
      · exact Or.inr (TextEdit.cuts_eq_true.mpr ⟨e, he, hcontains⟩)
      · have hu := hproper u (htokens ▸ List.mem_append_right before
          (List.mem_cons_of_mem t List.mem_cons_self))
        have hlt := lt_of_lt_of_le hu ((List.pairwise_cons.mp hrest).1 w hw)
        exact absurd (le_trans hle hbeforeU) (not_le_of_gt hlt)
  rcases hclean.takes e he with ⟨w, hw, hcontains⟩ | ⟨w, hw, hbreaks, hstart⟩
  · obtain ⟨hstart, hstop⟩ := Range.contains_iff.mp hcontains
    have hts := hmem w hw (by
      have hmono := Lines.index_mono ⟨front ++ ((c :: tail) ++ rest)⟩ (le_trans hbehind hstart)
      rw [hplaced.index_stop hkind] at hmono
      rw [hself, List.length_cons] at *
      omega)
    obtain ⟨u, us, rfl, rfl | hcutU⟩ := hfirstOf w hts
      (le_trans (le_of_lt (hproper w hw)) hstop)
    · exact ⟨u, us, rfl, Or.inl (TextEdit.cuts_eq_true.mpr ⟨e, he, hcontains⟩)⟩
    · exact ⟨u, us, rfl, Or.inl hcutU⟩
  · have hts := hmem w hw (by
      rw [hself, hstart]
      omega)
    obtain ⟨u, us, rfl, rfl | hcutU⟩ := hfirstOf w hts (le_of_eq hstart)
    · exact ⟨u, us, rfl, Or.inr hbreaks⟩
    · exact ⟨u, us, rfl, Or.inl hcutU⟩

theorem follow_remain (hclean : CleanCut tokens edits) (hordered : Token.Ordered N tokens)
    (hall : ∀ u ∈ tokens, ∃ front c tail rest, chars = front ++ ((c :: tail) ++ rest) ∧
      Placed front c tail rest u)
    (hchars : chars = front ++ ((c :: tail) ++ rest)) (hplaced : Placed front c tail rest t)
    {before ts : List Token} (htokens : tokens = before ++ t :: ts)
    (hcut : TextEdit.cuts edits t = false)
    (hcarves : Carves (TextEdit.removes ⟨chars⟩ edits) (TextEdit.cuts edits)
      (front.length + (c :: tail).length) rest ts)
    {follow : List Char → Prop} (hlexeme : Lexer.Lexeme c tail t.kind follow)
    (hfollow : follow rest) :
    follow (remain (TextEdit.removes ⟨chars⟩ edits) (front.length + (c :: tail).length) rest) := by
  have ht : t ∈ tokens := by
    rw [htokens]
    exact List.mem_append_right before List.mem_cons_self
  have hstays : (rest ≠ [] → TextEdit.removes ⟨chars⟩ edits
      (front.length + (c :: tail).length) = false) → follow (remain
        (TextEdit.removes ⟨chars⟩ edits) (front.length + (c :: tail).length) rest) := by
    intro hnext
    refine hlexeme.follow_of_head ?_ hfollow
    cases rest with
    | nil => rfl
    | cons d rest =>
        rw [remain, if_neg (Bool.eq_false_iff.mp (hnext (List.cons_ne_nil d rest)))]
        rfl
  by_cases hkind : t.kind = .lineComment
  · refine hstays fun hrest => ?_
    rw [hchars]
    exact hclean.removes_lineFeed hplaced ht hcut hkind hrest
  · cases hremoved : TextEdit.removes ⟨chars⟩ edits (front.length + (c :: tail).length) with
    | false => exact hstays fun _ => hremoved
    | true =>
        have hindex : ∀ u ∈ tokens, (Lines.mk chars).index u.range.start <
            (Lines.mk chars).index u.range.stop := by
          intro u hu
          obtain ⟨front, c, tail, rest, rfl, hplaced⟩ := hall u hu
          exact hplaced.index_lt
        -- the token is closed, or the next token that stays continues nothing
        have hnext : (t.kind = .punctuation ∨ t.kind = .blockComment) ∨
            ∀ v, ts.find? (fun v => !TextEdit.cuts edits v) = some v →
              v.isComment = true ∨ v.Breaks := by
          obtain ⟨u, us, rfl, hu⟩ := hclean.exists_next hordered hindex hchars hplaced htokens
            hcut hkind hremoved
          cases hcutU : TextEdit.cuts edits u with
          | true =>
              rcases hclean.ends before t u us htokens hcut hcutU with hmark | hcomment | hnext
              · exact Or.inl (Or.inl hmark)
              · exact Or.inl (Or.inr (TokenKind.eq_blockComment hcomment hkind))
              · refine Or.inr fun v hv => hnext v ?_
                rw [List.find?_cons_of_neg (by rw [hcutU]; decide)] at hv
                exact hv
          | false =>
              refine Or.inr fun v hv => Or.inr ?_
              rw [List.find?_cons_of_pos (by rw [hcutU]; rfl)] at hv
              obtain rfl := Option.some.inj hv
              exact hu.resolve_left fun h => absurd (hcutU.symm.trans h) (by decide)
        rcases hnext with hclosed | hnext
        · exact hlexeme.follow_of_closed hclosed
        · refine hlexeme.follow_of_break hkind ?_
          have hhead := hcarves.head_remain
          cases hremain : remain (TextEdit.removes ⟨chars⟩ edits)
              (front.length + (c :: tail).length) rest with
          | nil => exact Lexer.break_nil
          | cons d ds =>
              rw [hremain] at hhead
              rcases hhead d rfl with hblank | ⟨v, hv, hd⟩
              · exact Lexer.break_of_isBlank hblank
              · have hmem : v ∈ tokens := by
                  rw [htokens]
                  exact List.mem_append_right before (List.mem_cons_of_mem t
                    (List.mem_of_find?_eq_some hv))
                obtain ⟨_, _, _, _, _, hplacedV⟩ := hall v hmem
                have hbreaks : v.Breaks := (hnext v hv).elim hplacedV.breaks_of_isComment id
                exact Lexer.break_cons (hbreaks d hd)

theorem carves (hclean : CleanCut tokens edits) (hordered : Token.Ordered N tokens)
    (hall : ∀ u ∈ tokens, ∃ front c tail rest, chars = front ++ ((c :: tail) ++ rest) ∧
      Placed front c tail rest u) : ∀ (n : Nat) {front cs : List Char} {before ts : List Token},
      cs.length ≤ n → chars = front ++ cs → tokens = before ++ ts →
      Lexer.tokenizeFrom (Position.origin.after front) cs = .ok ts →
      (∀ t ∈ ts, t.identifier = none) →
      Carves (TextEdit.removes ⟨chars⟩ edits) (TextEdit.cuts edits) front.length cs ts
  | _, front, [], _, ts, _, _, _, h, _ => by
      rw [Lexer.tokenizeFrom.eq_def] at h
      obtain rfl := Except.ok.inj h
      exact .nil
  | 0, _, c :: cs, _, _, hlen, _, _, _, _ => absurd hlen (Nat.not_succ_le_zero _)
  | n + 1, front, c :: cs, before, ts, hlen, hchars, htokens, h, hplain => by
      rw [List.length_cons] at hlen
      rcases Lexer.tokenizeFrom_eq_ok h with
        ⟨hblank, hrest⟩ | ⟨kind, tail, rest, ts', hscan, hrest, rfl⟩
      · have hafter : (Position.origin.after front).advance c =
            Position.origin.after (front ++ [c]) :=
          (Lexer.after_append Position.origin front [c]).symm
        rw [hafter] at hrest
        have hcarves := carves hclean hordered hall n (by omega) (by rw [hchars, List.append_cons])
          htokens hrest hplain
        rw [List.length_append, List.length_singleton] at hcarves
        exact .blank hblank hcarves
      · obtain rfl := Lexer.scan_append hscan
        rw [List.length_append] at hlen
        obtain ⟨follow, hlexeme, hfollow⟩ := Lexer.exists_lexeme hscan
        have hplaced : Placed front c tail rest
            (Lexer.tokenAt (Position.origin.after front) kind (c :: tail)) :=
          ⟨⟨follow, hlexeme, hfollow⟩, rfl⟩
        rw [← Lexer.after_append] at hrest
        obtain ⟨_, hplain⟩ := List.forall_mem_cons.mp hplain
        have hcarves := carves hclean hordered hall n (by omega)
          (by rw [hchars, List.append_assoc, List.cons_append])
          (by rw [htokens, List.append_cons]) hrest hplain
        rw [List.length_append] at hcarves
        cases hcut : TextEdit.cuts edits
            (Lexer.tokenAt (Position.origin.after front) kind (c :: tail)) with
        | true =>
            have hblank := remain_of_cut hplaced hcut
            rw [List.cons_append, ← hchars] at hblank
            exact Carves.gone hcut hblank hcarves
        | false =>
            have hmem : Lexer.tokenAt (Position.origin.after front) kind (c :: tail) ∈ tokens := by
              rw [htokens]
              exact List.mem_append_right before List.mem_cons_self
            refine Carves.stays hcut hlexeme rfl rfl ?_ ?_ hcarves
            · rw [hchars]
              exact hclean.remain_of_kept hplaced hmem hcut
            · exact hclean.follow_remain hordered hall hchars hplaced htokens hcut hcarves hlexeme
                hfollow

end CleanCut

/-- The tokens that are not cut are read again from the text that is left. -/
theorem Lexer.tokenize_applyAll {text newText : String} {tokens : List Token}
    {edits : List TextEdit} (h : tokenize text = .ok tokens) (hclean : CleanCut tokens edits)
    (hdeletes : ∀ e ∈ edits, e.newText = "")
    (hsorted : edits.mergeSort TextEdit.comesFirst = edits)
    (happly : TextEdit.applyAll text edits = .ok newText) :
    ∃ tokens', tokenize newText = .ok tokens' ∧
      Respells tokens' (tokens.filter fun t => !TextEdit.cuts edits t) := by
  rw [TextEdit.applyAll, hsorted] at happly
  cases hsplice : TextEdit.splice (Lines.ofString text) 0 edits with
  | error e =>
      rw [hsplice] at happly
      cases happly
  | ok cs =>
      rw [hsplice] at happly
      obtain rfl := Except.ok.inj happly
      have hcs := TextEdit.splice_eq_remain hsplice hdeletes
      have hread : tokenizeFrom (Position.origin.after []) text.toList = .ok tokens := h
      have hall := exists_placed _ (Nat.le_refl _) hread
      rw [List.nil_append] at hall
      have hcarves := hclean.carves (ordered_of_tokenize h) hall _ (Nat.le_refl _)
        (List.nil_append text.toList).symm (List.nil_append tokens).symm hread
        (identifier_of_tokenize h)
      obtain ⟨tokens', htokens', hrespells⟩ := hcarves.exists_tokens Position.origin
      refine ⟨tokens', ?_, hrespells⟩
      rw [tokenize, String.toList_ofList, hcs]
      exact htokens'

end AnnotationEdit

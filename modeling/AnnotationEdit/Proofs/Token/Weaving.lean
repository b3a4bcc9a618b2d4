import AnnotationEdit.Proofs.Text.Weaving
import AnnotationEdit.Proofs.Token.Appending

/-!
# Reading texts that are cut and put together

A batch of edits takes tokens out of a text and puts new ones in. What it leaves is read as the
tokens that stay, with the new ones in between them (`Weaves.codes_splice`). Each text that is put
in has code tokens of its own (`Lexer.Reads`); it may follow the token that it stands behind, and
what comes next may follow it. The new text is gone through character by character, with the texts
that are still to be put in: one is put in where its place is reached, and a token that stays is read
again because what follows it, a character of the old text or of a new one, may follow it.
-/

namespace AnnotationEdit

/-! ## Tokens -/

namespace Lexer

theorem codes_nil : Codes [] [] := by
  intro p
  refine ⟨[], ?_, rfl⟩
  rw [tokenizeFrom.eq_def]

/-- Blanks in front change nothing. -/
theorem Codes.blanks {bs cs : List Char} {code : List Token} (h : Codes cs code)
    (hbs : ∀ b ∈ bs, Text.isBlank b = true) : Codes (bs ++ cs) code := by
  intro p
  obtain ⟨ts, hts, hcode⟩ := h (p.after bs)
  exact ⟨ts, (tokenizeFrom_blanks hbs p cs).trans hts, hcode⟩

theorem Codes.token {c : Char} {tail rest : List Char} {kind : TokenKind}
    {follow : List Char → Prop} {code self : List Token} (h : Codes rest code)
    (hlexeme : Lexeme c tail kind follow) (hfollow : follow rest)
    (hself : ∀ p, Respells ([tokenAt p kind (c :: tail)].filter Token.isCode) self) :
    Codes ((c :: tail) ++ rest) (self ++ code) := by
  intro p
  obtain ⟨ts, hts, hcode⟩ := h (p.after (c :: tail))
  refine ⟨tokenAt p kind (c :: tail) :: ts, ?_, ?_⟩
  · rw [List.cons_append, tokenizeFrom_scan hlexeme.isBlank_eq_false (hlexeme.scan hfollow), hts]
    rfl
  · rw [← List.singleton_append, List.filter_append]
    unfold Respells at hself hcode ⊢
    rw [List.map_append, List.map_append, hself p, hcode]

/-- The characters, with something that satisfies `follow` after them, have these code tokens, and
comments may be among them. -/
def Reads (follow : List Char → Prop) (cs : List Char) (code : List Token) : Prop :=
  ∀ rest after, follow rest → Codes rest after → Codes (cs ++ rest) (code ++ after)

theorem Reads.mono {follow follow' : List Char → Prop} {cs : List Char} {code : List Token}
    (h : Reads follow cs code) (hfollow : ∀ rest, follow' rest → follow rest) :
    Reads follow' cs code :=
  fun rest after hrest => h rest after (hfollow rest hrest)

theorem reads_blanks {bs : List Char} (hbs : ∀ b ∈ bs, Text.isBlank b = true) :
    Reads Anything bs [] :=
  fun _ _ _ h => h.blanks hbs

theorem Reads.append {follow follow' : List Char → Prop} {cs ds : List Char}
    {code code' : List Token} (h : Reads follow cs code) (h' : Reads follow' ds code')
    (hfollow : ∀ rest, follow' rest → follow (ds ++ rest)) :
    Reads follow' (cs ++ ds) (code ++ code') := by
  intro rest after hrest hafter
  rw [List.append_assoc, List.append_assoc]
  exact h _ _ (hfollow rest hrest) (h' rest after hrest hafter)

/-- Characters that are read by themselves are read in front of others, if the last token is no
comment up to the end of its line. -/
theorem reads_of_tokenizeFrom {follow : List Char → Prop} : ∀ (n : Nat) {p : Position}
    {cs : List Char} {ts : List Token}, cs.length ≤ n → tokenizeFrom p cs = .ok ts →
    (∀ t ∈ ts.getLast?, (t.kind = .punctuation ∨ t.kind = .blockComment) ∨
      (t.kind ≠ .lineComment ∧ ∀ rest, follow rest → Break rest)) →
    Reads follow cs (ts.filter Token.isCode)
  | _, _, [], ts, _, h, _ => by
      rw [tokenizeFrom.eq_def] at h
      obtain rfl := Except.ok.inj h
      exact fun _ _ _ hafter => hafter
  | 0, _, c :: cs, _, hlen, _, _ => absurd hlen (Nat.not_succ_le_zero _)
  | n + 1, p, c :: cs, ts, hlen, h, hlast => by
      rw [List.length_cons] at hlen
      rcases tokenizeFrom_eq_ok h with ⟨hblank, hrest⟩ | ⟨kind, tail, rest, us, hscan, hrest, rfl⟩
      · have hreads := reads_of_tokenizeFrom n (by omega) hrest hlast
        exact (reads_blanks (List.forall_mem_singleton.mpr hblank)).append hreads fun _ _ => trivial
      · obtain rfl := scan_append hscan
        rw [List.length_append] at hlen
        obtain ⟨follow', hlexeme, hfollow'⟩ := exists_lexeme hscan
        have hbehind : ∀ u ∈ us.getLast?, (u.kind = .punctuation ∨ u.kind = .blockComment) ∨
            (u.kind ≠ .lineComment ∧ ∀ rest, follow rest → Break rest) := fun u hu =>
          hlast u (by rw [List.getLast?_cons, hu]; rfl)
        have hreads := reads_of_tokenizeFrom n (by omega) hrest hbehind
        intro ds after hds hafter
        have hnext : follow' (rest ++ ds) := by
          cases rest with
          | cons d rest => exact hlexeme.follow_of_head (List.head?_cons.trans rfl) hfollow'
          | nil =>
              rw [tokenizeFrom.eq_def] at hrest
              obtain rfl := Except.ok.inj hrest
              rcases hlast _ rfl with hclosed | ⟨hkind, hbreak⟩
              · exact hlexeme.follow_of_closed hclosed
              · exact hlexeme.follow_of_break hkind (hbreak ds hds)
        have hself : ∀ q, Respells [tokenAt q kind (c :: tail)] [tokenAt p kind (c :: tail)] :=
          fun _ => rfl
        have hcodes := (hreads ds after hds hafter).token hlexeme hnext fun q =>
          (hself q).filter fun _ => rfl
        rw [← List.append_assoc, ← List.append_assoc, ← List.filter_append] at hcodes
        exact hcodes

end Lexer

/-! ## Tokens with others put in -/

/-- A text that is put in at a position, with the code tokens that it has. -/
structure Put where
  place : Position
  text : List Char
  code : List Token

def weave (keep : Token → Bool) : List Put → List Token → List Token
  | [], ts => ts.filter keep
  | p :: puts, ts =>
      (ts.takeWhile fun t => t.range.start < p.place).filter keep ++
        (p.code ++ weave keep puts (ts.dropWhile fun t => t.range.start < p.place))

section

variable {keep : Token → Bool} {p : Put} {puts : List Put} {t : Token} {ts us : List Token}

/-- Tokens in front of all places stay in front. -/
theorem weave_append (h : ∀ p ∈ puts, ∀ t ∈ ts, t.range.start < p.place) :
    weave keep puts (ts ++ us) = ts.filter keep ++ weave keep puts us := by
  cases puts with
  | nil => exact List.filter_append ts us
  | cons p puts =>
      have hts : ∀ t ∈ ts, decide (t.range.start < p.place) = true := fun t ht =>
        decide_eq_true (h p List.mem_cons_self t ht)
      rw [weave, weave, List.takeWhile_append_of_pos hts, List.dropWhile_append_of_pos hts,
        List.filter_append, List.append_assoc]

theorem weave_token (h : ∀ p ∈ puts, t.range.start < p.place) :
    weave keep puts (t :: ts) = [t].filter keep ++ weave keep puts ts := by
  rw [← List.singleton_append]
  exact weave_append fun p hp => List.forall_mem_singleton.mpr (h p hp)

/-- What is put in in front of all tokens comes first. -/
theorem weave_cons (h : ∀ t ∈ ts, p.place ≤ t.range.start) :
    weave keep (p :: puts) ts = p.code ++ weave keep puts ts := by
  have hnone : ∀ t ∈ ts.head?, ¬ decide (t.range.start < p.place) = true := fun t ht =>
    fun hlt => absurd (h t (List.mem_of_head? ht)) (not_le_of_gt (of_decide_eq_true hlt))
  cases ts with
  | nil => rw [weave]; rfl
  | cons t ts =>
      have hfirst := hnone t rfl
      rw [weave, List.takeWhile_cons, if_neg hfirst, List.dropWhile_cons, if_neg hfirst]
      rfl

end

/-- The text may stand behind the token, with nothing but cut tokens between them. -/
def Put.Follows (p : Put) (t : Token) : Prop :=
  (t.kind = .punctuation ∨ t.kind = .blockComment) ∨
    (t.kind ≠ .lineComment ∧ Lexer.Break p.text) ∨
    (t.kind = .lineComment ∧ (t.range.stop.line < p.place.line ∨
      (p.place = t.range.stop ∧ Lexer.StartsLine p.text)))

/-- Tokens of which some are cut, with texts put in between them: each may follow the token that it
stands behind, and what comes next may follow it. -/
structure Weaves (tokens : List Token) (edits : List TextEdit) (puts : List Put) : Prop where
  clean : CleanCut tokens edits
  sorted : puts.Pairwise fun p q => p.place ≤ q.place
  filled : ∀ p ∈ puts, p.text ≠ []
  splits : ∀ p ∈ puts, ∀ t ∈ tokens, t.range.stop ≤ p.place ∨ p.place ≤ t.range.start
  within : ∀ p ∈ puts, ∃ t ∈ tokens, p.place ≤ t.range.stop
  left : ∀ earlier p later, puts = earlier ++ p :: later → ∀ t,
    (tokens.filter fun t => !TextEdit.cuts edits t && decide (t.range.stop ≤ p.place)).getLast? =
      some t → (∀ q ∈ earlier, q.place ≤ t.range.start) → p.Follows t
  right : ∀ earlier p later, puts = earlier ++ p :: later →
    Lexer.Reads Lexer.Anything p.text p.code ∨
      (Lexer.Reads Lexer.Break p.text p.code ∧ (∀ q ∈ later, Lexer.Break q.text) ∧
        ∀ u, (tokens.find? fun t => !TextEdit.cuts edits t && decide (p.place ≤ t.range.start)) =
          some u → u.isComment = true ∨ u.Breaks)

def Put.spot (lines : Lines) (p : Put) : Nat × List Char := (lines.index p.place, p.text)

namespace Weaves

open Lexer (Placed Carves Codes tokenizeFrom)

/-- What breaks starts with something that breaks. -/
theorem break_append {cs ds : List Char} (hne : cs ≠ []) (h : Lexer.Break cs) :
    Lexer.Break (cs ++ ds) := by
  obtain ⟨c, cs, rfl⟩ := List.exists_cons_of_ne_nil hne
  exact fun d hd => h d hd

section

variable {removed : Nat → Bool} {cut : Token → Bool} {i : Nat} {cs : List Char} {ts : List Token}

/-- The characters start with something that breaks, if the texts that are put in do and the first
token that stays does. -/
theorem break_woven (hcarves : Carves removed cut i cs ts) {puts : List (Nat × List Char)}
    (hputs : ∀ p ∈ puts, p.2 ≠ [] ∧ Lexer.Break p.2)
    (hfirst : ∀ u, ts.find? (fun t => !cut t) = some u → u.Breaks) :
    Lexer.Break (woven removed puts i cs) := by
  have hremain : Lexer.Break (remain removed i cs) := by
    have hhead := hcarves.head_remain
    cases hremain : remain removed i cs with
    | nil => exact Lexer.break_nil
    | cons d ds =>
        rw [hremain] at hhead
        rcases hhead d rfl with hblank | ⟨u, hu, hd⟩
        · exact Lexer.break_of_isBlank hblank
        · exact Lexer.break_cons (hfirst u hu d hd)
  cases puts with
  | nil => exact hremain
  | cons p puts =>
      obtain ⟨hne, hbreak⟩ := hputs p List.mem_cons_self
      rw [woven]
      cases hpiece : remain removed i (cs.take (p.1 - i)) with
      | nil =>
          rw [List.nil_append]
          exact break_append hne hbreak
      | cons d ds =>
          have hall : remain removed i cs = (d :: ds) ++
              remain removed (i + (cs.take (p.1 - i)).length) (cs.drop (p.1 - i)) := by
            rw [← hpiece, ← remain_append, List.take_append_drop]
          rw [hall] at hremain
          exact fun e he => hremain e he

end

variable {tokens : List Token} {edits : List TextEdit} {puts : List Put} {chars : List Char}
variable {front cs tail rest : List Char} {c : Char} {t : Token} {N : Nat}

theorem removes_start (hclean : CleanCut tokens edits) (hplaced : Placed front c tail rest t)
    (hchars : chars = front ++ ((c :: tail) ++ rest)) (ht : t ∈ tokens)
    (hcut : TextEdit.cuts edits t = false) :
    TextEdit.removes ⟨chars⟩ edits front.length = false := by
  subst hchars
  rw [← Bool.not_eq_true, TextEdit.removes_eq_true]
  rintro ⟨e, he, hfirst, hlast⟩
  obtain ⟨hbehind, _⟩ := hclean.before_of_removes hplaced ht hcut he (Nat.le_refl _) hlast
  have hmono := Lines.index_mono ⟨front ++ ((c :: tail) ++ rest)⟩ hbehind
  have hlt := hplaced.index_lt
  rw [hplaced.index_start] at hlt
  omega

/-- A place behind the token, in front of which the characters behind the token are gone, is in
front of the next token that is not cut. -/
theorem last_of_remain (hclean : CleanCut tokens edits)
    (hchars : chars = front ++ ((c :: tail) ++ rest)) {before ts : List Token}
    (htokens : tokens = before ++ t :: ts) (hcut : TextEdit.cuts edits t = false)
    (hrest : tokenizeFrom (Position.origin.after (front ++ (c :: tail))) rest = .ok ts)
    {p : Position} (hp : t.range.stop ≤ p)
    (hpiece : remain (TextEdit.removes ⟨chars⟩ edits) (front ++ (c :: tail)).length
      (rest.take ((Lines.mk chars).index p - (front ++ (c :: tail)).length)) = []) :
    (tokens.filter fun t => !TextEdit.cuts edits t && decide (t.range.stop ≤ p)).getLast? =
      some t := by
  have hself : (!TextEdit.cuts edits t && decide (t.range.stop ≤ p)) = true := by
    rw [hcut, decide_eq_true hp]
    rfl
  have hnone : (ts.filter fun t => !TextEdit.cuts edits t && decide (t.range.stop ≤ p)) = [] := by
    refine List.filter_eq_nil_iff.mpr fun u hu hkept => ?_
    rw [Bool.and_eq_true, Bool.not_eq_true', decide_eq_true_eq] at hkept
    obtain ⟨hcutU, hle⟩ := hkept
    have hmem : u ∈ tokens := by
      rw [htokens]
      exact List.mem_append_right before (List.mem_cons_of_mem t hu)
    obtain ⟨b, a, rfl⟩ := List.append_of_mem hu
    obtain ⟨middle, d, tail', rest', rfl, hplaced, _, _, _⟩ :=
      Lexer.exists_front _ (Nat.le_refl _) hrest
    have hsplit : chars = ((front ++ (c :: tail)) ++ middle) ++ ((d :: tail') ++ rest') := by
      rw [hchars]
      simp only [List.append_assoc]
    have hkept := removes_start hclean hplaced hsplit hmem hcutU
    have hlt : ((front ++ (c :: tail)) ++ middle).length < (Lines.mk chars).index p := by
      have hindex := hplaced.index_lt
      have hmono := (Lines.mk chars).index_mono hle
      rw [hplaced.index_start] at hindex
      rw [hsplit] at hmono ⊢
      omega
    rw [List.length_append] at hlt hkept
    have hget : ((middle ++ ((d :: tail') ++ rest')).take
        ((Lines.mk chars).index p - (front ++ (c :: tail)).length))[middle.length]? = some d := by
      rw [List.getElem?_take_of_lt (by omega), List.getElem?_append_right (Nat.le_refl _),
        Nat.sub_self]
      rfl
    have hmem := mem_remain_of hget hkept
    rw [hpiece] at hmem
    exact List.not_mem_nil hmem
  rw [htokens, List.filter_append, List.filter_cons, if_pos hself, hnone, List.getLast?_append]
  rfl

theorem le_of_last (hordered : Token.Ordered N tokens) {before : List Token}
    (htokens : tokens = before ++ [t]) {u : Token} (hu : u ∈ tokens) :
    u.range.stop ≤ t.range.stop := by
  have hapart := hordered.apart
  rw [htokens] at hapart hu
  rcases List.mem_append.mp hu with hu | hu
  · have hbefore := (List.pairwise_append.mp hapart).2.2 u hu t List.mem_cons_self
    have hproper := hordered.proper t (by
      rw [htokens]
      exact List.mem_append_right before List.mem_cons_self)
    exact le_trans hbefore (le_of_lt hproper)
  · rw [List.mem_singleton.mp hu]

theorem follow_woven (h : Weaves tokens edits puts) (hordered : Token.Ordered N tokens)
    (hall : ∀ u ∈ tokens, ∃ front c tail rest, chars = front ++ ((c :: tail) ++ rest) ∧
      Placed front c tail rest u)
    (hchars : chars = front ++ ((c :: tail) ++ rest)) (hplaced : Placed front c tail rest t)
    {before ts : List Token} (htokens : tokens = before ++ t :: ts)
    (hcut : TextEdit.cuts edits t = false)
    (hrest : tokenizeFrom (Position.origin.after (front ++ (c :: tail))) rest = .ok ts)
    (hcarves : Carves (TextEdit.removes ⟨chars⟩ edits) (TextEdit.cuts edits)
      (front ++ (c :: tail)).length rest ts)
    {earlier later : List Put} (hputs : puts = earlier ++ later)
    (hearlier : ∀ q ∈ earlier, q.place ≤ t.range.start)
    (hlater : ∀ p ∈ later, t.range.stop ≤ p.place)
    {follow : List Char → Prop} (hlexeme : Lexer.Lexeme c tail t.kind follow)
    (hfollow : follow rest) :
    follow (woven (TextEdit.removes ⟨chars⟩ edits) (later.map (Put.spot ⟨chars⟩))
      (front ++ (c :: tail)).length rest) := by
  have ht : t ∈ tokens := by
    rw [htokens]
    exact List.mem_append_right before List.mem_cons_self
  have hremain : follow (remain (TextEdit.removes ⟨chars⟩ edits) (front ++ (c :: tail)).length
      rest) := by
    rw [List.length_append] at hcarves ⊢
    exact h.clean.follow_remain hordered hall hchars hplaced htokens hcut hcarves hlexeme hfollow
  cases later with
  | nil => exact hremain
  | cons p later =>
      have hp := hlater p List.mem_cons_self
      rw [List.map_cons, Put.spot, woven]
      cases hpiece : remain (TextEdit.removes ⟨chars⟩ edits) (front ++ (c :: tail)).length
          (rest.take ((Lines.mk chars).index p.place - (front ++ (c :: tail)).length)) with
      | cons d ds =>
          refine hlexeme.follow_of_head ?_ hremain
          rw [← List.take_append_drop ((Lines.mk chars).index p.place -
            (front ++ (c :: tail)).length) rest, remain_append, List.take_append_drop, hpiece]
          rfl
      | nil =>
          have hlast := last_of_remain h.clean hchars htokens hcut hrest hp hpiece
          have hfilled : p.text ≠ [] := h.filled p (by
            rw [hputs]
            exact List.mem_append_right earlier List.mem_cons_self)
          obtain ⟨d, ds, htext⟩ := List.exists_cons_of_ne_nil hfilled
          rw [List.nil_append]
          rcases h.left earlier p later hputs t hlast hearlier with
            hclosed | ⟨hkind, hbreak⟩ | ⟨hkind, hline | ⟨hplace, hstarts⟩⟩
          · exact hlexeme.follow_of_closed hclosed
          · exact hlexeme.follow_of_break hkind (break_append hfilled hbreak)
          · -- the line feed after the comment remains
            exfalso
            have hne : rest ≠ [] := by
              rintro rfl
              rw [Lexer.tokenizeFrom.eq_def] at hrest
              obtain rfl := Except.ok.inj hrest
              obtain ⟨u, hu, hle⟩ := h.within p (by
                rw [hputs]
                exact List.mem_append_right earlier List.mem_cons_self)
              have hle := le_trans hle (le_of_last hordered htokens hu)
              rw [Position.le_def] at hle
              omega
            rw [hplaced.range_stop] at hline
            have hbehind : (front ++ (c :: tail)).length <
                (Lines.mk ((front ++ (c :: tail)) ++ rest)).index p.place :=
              (Lines.length_lt_index hline).2 hne
            rw [List.append_assoc, ← hchars] at hbehind
            obtain ⟨d, ds, rfl⟩ := List.exists_cons_of_ne_nil hne
            have hkept := h.clean.removes_lineFeed hplaced ht hcut hkind hne
            rw [← hchars, ← List.length_append] at hkept
            have hmem := mem_remain_of (j := 0) (List.getElem?_take_of_lt
              (l := d :: ds) (Nat.sub_pos_of_lt hbehind)) hkept
            rw [hpiece] at hmem
            exact List.not_mem_nil hmem
          · obtain ⟨_, _, _, rfl⟩ := hlexeme.of_lineComment hkind
            intro e he
            rw [htext, List.cons_append] at he
            rw [Lexer.StartsLine, htext] at hstarts
            exact Option.some.inj (he.symm.trans hstarts)

section

variable {before ts : List Token} {earlier later : List Put}

/-- Where the first text that is put in stands behind a place, all do. -/
theorem le_index_of_head (h : Weaves tokens edits puts) (hputs : puts = earlier ++ later) {k : Nat}
    (hhead : ∀ p ∈ later.head?, k ≤ (Lines.mk chars).index p.place) :
    ∀ p ∈ later, k ≤ (Lines.mk chars).index p.place := by
  have hsorted := h.sorted
  rw [hputs] at hsorted
  have hplaces := (List.pairwise_append.mp hsorted).2.1
  cases later with
  | nil => exact List.forall_mem_nil _
  | cons q later =>
      have hq := hhead q rfl
      exact List.forall_mem_cons.mpr ⟨hq, fun p hp => Nat.le_trans hq
        ((Lines.mk chars).index_mono ((List.pairwise_cons.mp hplaces).1 p hp))⟩

/-- The characters are gone through up to some place, and so are the tokens and the texts that are put
in up to there. -/
structure Reached (tokens : List Token) (puts : List Put) (chars front cs : List Char)
    (before ts : List Token) (earlier later : List Put) : Prop where
  chars_eq : chars = front ++ cs
  tokens_eq : tokens = before ++ ts
  read : tokenizeFrom (Position.origin.after front) cs = .ok ts
  puts_eq : puts = earlier ++ later
  passed : ∀ q ∈ earlier, ∀ t ∈ ts, q.place ≤ t.range.start
  ahead : ∀ p ∈ later, ∀ t ∈ before, t.range.stop ≤ p.place
  index : ∀ p ∈ later, front.length ≤ (Lines.mk chars).index p.place

/-- A place where the characters stand is in front of all their tokens. -/
theorem Reached.le_start (hr : Reached tokens puts chars front cs before ts earlier later)
    (h : Weaves tokens edits puts) {p : Put} (hp : p ∈ puts)
    (hindex : (Lines.mk chars).index p.place = front.length) : ∀ t ∈ ts, p.place ≤ t.range.start := by
  intro t ht
  refine (h.splits p hp t ?_).resolve_left fun hle => ?_
  · rw [hr.tokens_eq]
    exact List.mem_append_right before ht
  · have hchars := hr.chars_eq
    have hread := hr.read
    obtain ⟨b, a, rfl⟩ := List.append_of_mem ht
    obtain ⟨middle, d, tail, rest, rfl, hplaced, _, _, _⟩ :=
      Lexer.exists_front _ (Nat.le_refl _) hread
    have hmono := (Lines.mk chars).index_mono hle
    have hlt := hplaced.index_lt
    rw [hplaced.index_start, List.length_append, List.append_assoc front, ← hchars] at hlt
    omega

theorem Reached.put {p : Put} (hr : Reached tokens puts chars front cs before ts earlier (p :: later))
    (h : Weaves tokens edits puts) (hplace : (Lines.mk chars).index p.place = front.length) :
    Reached tokens puts chars front cs before ts (earlier ++ [p]) later where
  chars_eq := hr.chars_eq
  tokens_eq := hr.tokens_eq
  read := hr.read
  puts_eq := by rw [hr.puts_eq, List.append_assoc, List.singleton_append]
  passed := by
    have hp : p ∈ puts := by
      rw [hr.puts_eq]
      exact List.mem_append_right earlier List.mem_cons_self
    exact List.forall_mem_append.mpr ⟨hr.passed, List.forall_mem_singleton.mpr
      (hr.le_start h hp hplace)⟩
  ahead := (List.forall_mem_cons.mp hr.ahead).2
  index := (List.forall_mem_cons.mp hr.index).2

/-- If the first text is not put in here, none is. -/
theorem Reached.behind (hr : Reached tokens puts chars front cs before ts earlier later)
    (h : Weaves tokens edits puts)
    (hhere : ¬ ∃ p ∈ later.head?, (Lines.mk chars).index p.place = front.length) :
    ∀ p ∈ later, front.length < (Lines.mk chars).index p.place :=
  h.le_index_of_head hr.puts_eq fun q hq => Nat.lt_of_le_of_ne
    (hr.index q (List.mem_of_mem_head? hq)) fun heq => hhere ⟨q, hq, heq.symm⟩

theorem Reached.blank (hr : Reached tokens puts chars front (c :: cs) before ts earlier later)
    (hbehind : ∀ p ∈ later, front.length < (Lines.mk chars).index p.place)
    (hrest : tokenizeFrom ((Position.origin.after front).advance c) cs = .ok ts) :
    Reached tokens puts chars (front ++ [c]) cs before ts earlier later where
  chars_eq := by rw [hr.chars_eq, List.append_cons]
  tokens_eq := hr.tokens_eq
  read := by
    rw [Lexer.after_append]
    exact hrest
  puts_eq := hr.puts_eq
  passed := hr.passed
  ahead := hr.ahead
  index p hp := by
    rw [List.length_append]
    exact hbehind p hp

theorem Reached.token {xs ys : List Char}
    (hr : Reached tokens puts chars front (xs ++ ys) before (t :: ts) earlier later)
    (hys : tokenizeFrom (Position.origin.after (front ++ xs)) ys = .ok ts)
    (hstops : ∀ p ∈ later, t.range.stop ≤ p.place)
    (hindex : ∀ p ∈ later, (front ++ xs).length ≤ (Lines.mk chars).index p.place) :
    Reached tokens puts chars (front ++ xs) ys (before ++ [t]) ts earlier later where
  chars_eq := by rw [hr.chars_eq, List.append_assoc]
  tokens_eq := by rw [hr.tokens_eq, List.append_cons]
  read := hys
  puts_eq := hr.puts_eq
  passed q hq u hu := hr.passed q hq u (List.mem_cons_of_mem t hu)
  ahead p hp := List.forall_mem_append.mpr
    ⟨hr.ahead p hp, List.forall_mem_singleton.mpr (hstops p hp)⟩
  index := hindex

/-- At the end of the characters nothing is left to be put in. -/
theorem Reached.codes_end (hr : Reached tokens puts chars front [] before ts earlier later)
    (hbehind : ∀ p ∈ later, front.length < (Lines.mk chars).index p.place) :
    Codes (woven (TextEdit.removes ⟨chars⟩ edits) (later.map (Put.spot ⟨chars⟩)) front.length [])
      (weave (fun t => t.isCode && !TextEdit.cuts edits t) later ts) := by
  have hread := hr.read
  rw [Lexer.tokenizeFrom.eq_def] at hread
  obtain rfl := Except.ok.inj hread
  cases later with
  | nil => exact Lexer.codes_nil
  | cons p later =>
      have hlt := hbehind p List.mem_cons_self
      have hle := (Lines.mk chars).index_le_length p.place
      have hlength : (Lines.mk chars).chars.length = front.length := by
        rw [hr.chars_eq, List.append_nil]
      omega

/-- A blank in front changes nothing. -/
theorem codes_blank (hblank : Text.isBlank c = true)
    (hbehind : ∀ p ∈ later, front.length < (Lines.mk chars).index p.place)
    (hcodes : Codes (woven (TextEdit.removes ⟨chars⟩ edits) (later.map (Put.spot ⟨chars⟩))
      (front ++ [c]).length cs) (weave (fun t => t.isCode && !TextEdit.cuts edits t) later ts)) :
    Codes (woven (TextEdit.removes ⟨chars⟩ edits) (later.map (Put.spot ⟨chars⟩)) front.length
      (c :: cs)) (weave (fun t => t.isCode && !TextEdit.cuts edits t) later ts) := by
  have hspots : ∀ q ∈ later.map (Put.spot ⟨chars⟩), front.length + [c].length ≤ q.1 := by
    intro q hq
    obtain ⟨p, hp, rfl⟩ := List.mem_map.mp hq
    exact hbehind p hp
  rw [← List.singleton_append, woven_append hspots]
  rw [List.length_append] at hcodes
  refine hcodes.blanks fun d hd => ?_
  obtain ⟨j, hj, _⟩ := mem_remain hd
  obtain rfl := List.mem_singleton.mp (List.mem_of_getElem? hj)
  exact hblank

theorem find?_eq (hordered : Token.Ordered N tokens)
    (htokens : tokens = before ++ ts) {p : Position} (hbefore : ∀ t ∈ before, t.range.stop ≤ p)
    (hts : ∀ t ∈ ts, p ≤ t.range.start) :
    (tokens.find? fun t => !TextEdit.cuts edits t && decide (p ≤ t.range.start)) =
      ts.find? fun t => !TextEdit.cuts edits t := by
  have hnone : (before.find? fun t => !TextEdit.cuts edits t && decide (p ≤ t.range.start)) =
      none := by
    refine List.find?_eq_none.mpr fun t ht => ?_
    have hproper := hordered.proper t (by
      rw [htokens]
      exact List.mem_append_left ts ht)
    rw [decide_eq_false (not_le_of_gt (lt_of_lt_of_le hproper (hbefore t ht))), Bool.and_false]
    exact Bool.false_ne_true
  rw [htokens, List.find?_append, hnone, Option.none_or]
  rw [← List.head?_filter, ← List.head?_filter]
  refine congrArg List.head? (List.filter_congr fun t ht => ?_)
  rw [decide_eq_true (hts t ht), Bool.and_true]

theorem codes_put (h : Weaves tokens edits puts) (hordered : Token.Ordered N tokens)
    (hall : ∀ u ∈ tokens, ∃ front c tail rest, chars = front ++ ((c :: tail) ++ rest) ∧
      Placed front c tail rest u)
    {p : Put} (hr : Reached tokens puts chars front cs before ts earlier (p :: later))
    (hcarves : Carves (TextEdit.removes ⟨chars⟩ edits) (TextEdit.cuts edits) front.length cs ts)
    (hindex : (Lines.mk chars).index p.place = front.length)
    (hbehind : Codes (woven (TextEdit.removes ⟨chars⟩ edits) (later.map (Put.spot ⟨chars⟩))
      front.length cs) (weave (fun t => t.isCode && !TextEdit.cuts edits t) later ts)) :
    Codes (woven (TextEdit.removes ⟨chars⟩ edits) ((p :: later).map (Put.spot ⟨chars⟩))
      front.length cs) (weave (fun t => t.isCode && !TextEdit.cuts edits t) (p :: later) ts) := by
  have hmem : ∀ q ∈ p :: later, q ∈ puts := by
    rw [hr.puts_eq]
    exact fun q => List.mem_append_right earlier
  have hts := hr.le_start h (hmem p List.mem_cons_self) hindex
  rw [List.map_cons, Put.spot, hindex, woven_here, weave_cons hts]
  rcases h.right earlier p later hr.puts_eq with hreads | ⟨hreads, hlater, hnext⟩
  · exact hreads _ _ trivial hbehind
  · refine hreads _ _ (break_woven hcarves (fun q hq => ?_) fun u hu =>
      (hnext u ((find?_eq hordered hr.tokens_eq (hr.ahead p List.mem_cons_self) hts).trans hu)).elim
        ?_ id) hbehind
    · obtain ⟨r, hr, rfl⟩ := List.mem_map.mp hq
      exact ⟨h.filled r (hmem r (List.mem_cons_of_mem p hr)), hlater r hr⟩
    · have hmemU : u ∈ tokens := by
        rw [hr.tokens_eq]
        exact List.mem_append_right before (List.mem_of_find?_eq_some hu)
      obtain ⟨_, _, _, _, _, hplaced⟩ := hall u hmemU
      exact hplaced.breaks_of_isComment

end

/-- A text in the middle of a token that is not cut stands right behind a comment, in front of the
carriage returns at the end of its line. -/
theorem startsLine_of_lt (h : Weaves tokens edits puts)
    (hchars : chars = front ++ ((c :: tail) ++ rest)) (hplaced : Placed front c tail rest t)
    {before ts : List Token} (htokens : tokens = before ++ t :: ts)
    (hcut : TextEdit.cuts edits t = false)
    (hrest : tokenizeFrom (Position.origin.after (front ++ (c :: tail))) rest = .ok ts)
    {earlier later : List Put} {p : Put} (hputs : puts = earlier ++ p :: later)
    (hearlier : ∀ q ∈ earlier, q.place ≤ t.range.start) (hp : t.range.stop ≤ p.place)
    (hlt : (Lines.mk chars).index p.place < (front ++ (c :: tail)).length) :
    p.place = t.range.stop ∧ Lexer.StartsLine p.text := by
  have hkind : t.kind = .lineComment := by
    refine Decidable.of_not_not fun hkind => ?_
    have hmono := (Lines.mk chars).index_mono hp
    rw [hchars, hplaced.index_stop hkind, ← List.length_append, ← hchars] at hmono
    omega
  have hlast := last_of_remain h.clean hchars htokens hcut hrest hp (by
    rw [Nat.sub_eq_zero_of_le (Nat.le_of_lt hlt), List.take_zero]
    rfl)
  rcases h.left earlier p later hputs t hlast hearlier with
    (hmark | hblock) | ⟨hne, _⟩ | ⟨_, hline | hstarts⟩
  · rw [hkind] at hmark
    cases hmark
  · rw [hkind] at hblock
    cases hblock
  · exact absurd hkind hne
  · rw [hplaced.range_stop] at hline
    have hbehind : (front ++ (c :: tail)).length ≤
        (Lines.mk ((front ++ (c :: tail)) ++ rest)).index p.place := (Lines.length_lt_index hline).1
    rw [List.append_assoc, ← hchars] at hbehind
    omega
  · exact hstarts

theorem codes_piece {later : List Put} {ts : List Token} {xs ys : List Char}
    (hlater : ∀ p ∈ later, t.range.start < p.place)
    (hindex : ∀ p ∈ later, (front ++ xs).length ≤ (Lines.mk chars).index p.place)
    (hblank : TextEdit.cuts edits t = true →
      ∀ d ∈ remain (TextEdit.removes ⟨chars⟩ edits) front.length xs, Text.isBlank d = true)
    (hkept : TextEdit.cuts edits t = false →
      remain (TextEdit.removes ⟨chars⟩ edits) front.length xs = xs ∧ ∀ code,
        Codes (woven (TextEdit.removes ⟨chars⟩ edits) (later.map (Put.spot ⟨chars⟩))
          (front ++ xs).length ys) code →
        Codes (xs ++ woven (TextEdit.removes ⟨chars⟩ edits) (later.map (Put.spot ⟨chars⟩))
          (front ++ xs).length ys) ([t].filter Token.isCode ++ code))
    (hcodes : Codes (woven (TextEdit.removes ⟨chars⟩ edits) (later.map (Put.spot ⟨chars⟩))
      (front ++ xs).length ys) (weave (fun t => t.isCode && !TextEdit.cuts edits t) later ts)) :
    Codes (woven (TextEdit.removes ⟨chars⟩ edits) (later.map (Put.spot ⟨chars⟩)) front.length
      (xs ++ ys)) (weave (fun t => t.isCode && !TextEdit.cuts edits t) later (t :: ts)) := by
  have hlength : (front ++ xs).length = front.length + xs.length := List.length_append
  have hspots : ∀ q ∈ later.map (Put.spot ⟨chars⟩), front.length + xs.length ≤ q.1 := by
    intro q hq
    obtain ⟨p, hp, rfl⟩ := List.mem_map.mp hq
    rw [← hlength]
    exact hindex p hp
  rw [woven_append hspots, ← hlength, weave_token hlater]
  cases hcut : TextEdit.cuts edits t with
  | true =>
      rw [List.filter_cons_of_neg (by rw [hcut]; simp), List.filter_nil, List.nil_append]
      exact hcodes.blanks (hblank hcut)
  | false =>
      obtain ⟨hremain, hstep⟩ := hkept hcut
      have hkeep : ([t].filter fun t => t.isCode && !TextEdit.cuts edits t) =
          [t].filter Token.isCode := by
        rw [List.filter_singleton, List.filter_singleton, hcut, Bool.not_false, Bool.and_true]
      rw [hremain, hkeep]
      exact hstep _ hcodes

section

variable (h : Weaves tokens edits puts) (hchars : chars = front ++ ((c :: tail) ++ rest))
variable (hplaced : Placed front c tail rest t) {before ts : List Token}
variable (htokens : tokens = before ++ t :: ts)
variable (hrest : tokenizeFrom (Position.origin.after (front ++ (c :: tail))) rest = .ok ts)
variable {earlier later : List Put} (hputs : puts = earlier ++ later)
variable (hearlier : ∀ q ∈ earlier, q.place ≤ t.range.start)
variable (hlater : ∀ p ∈ later, t.range.start < p.place ∧ t.range.stop ≤ p.place)

include h hchars hplaced htokens hrest hputs hearlier hlater

theorem codes_whole (hordered : Token.Ordered N tokens)
    (hall : ∀ u ∈ tokens, ∃ front c tail rest, chars = front ++ ((c :: tail) ++ rest) ∧
      Placed front c tail rest u)
    (hcarves : Carves (TextEdit.removes ⟨chars⟩ edits) (TextEdit.cuts edits)
      (front ++ (c :: tail)).length rest ts)
    (hindex : ∀ p ∈ later, (front ++ (c :: tail)).length ≤ (Lines.mk chars).index p.place)
    (hcodes : Codes (woven (TextEdit.removes ⟨chars⟩ edits) (later.map (Put.spot ⟨chars⟩))
      (front ++ (c :: tail)).length rest)
      (weave (fun t => t.isCode && !TextEdit.cuts edits t) later ts)) :
    Codes (woven (TextEdit.removes ⟨chars⟩ edits) (later.map (Put.spot ⟨chars⟩)) front.length
      ((c :: tail) ++ rest))
      (weave (fun t => t.isCode && !TextEdit.cuts edits t) later (t :: ts)) := by
  have ht : t ∈ tokens := by
    rw [htokens]
    exact List.mem_append_right before List.mem_cons_self
  refine codes_piece (fun p hp => (hlater p hp).1) hindex (fun hcut => ?_) (fun hcut => ⟨?_, ?_⟩)
    hcodes
  · rw [hchars]
    exact CleanCut.remain_of_cut hplaced hcut
  · rw [hchars]
    exact h.clean.remain_of_kept hplaced ht hcut
  · obtain ⟨follow, hlexeme, hfollow⟩ := hplaced.lexeme
    have hnext := h.follow_woven hordered hall hchars hplaced htokens hcut hrest hcarves hputs
      hearlier (fun p hp => (hlater p hp).2) hlexeme hfollow
    refine fun code hcode => hcode.token hlexeme hnext fun q => ?_
    have hself : Respells [Lexer.tokenAt q t.kind (c :: tail)] [t] := by
      rw [hplaced.eq]
      rfl
    exact hself.filter fun _ => rfl

/-- A token that the first text is put in behind, in front of the carriage returns that belong to
it. -/
theorem codes_body {rs : List Char} (hbody : t.body ++ rs = c :: tail)
    (hinside : ∃ p ∈ later.head?,
      (Lines.mk chars).index p.place < (front ++ (c :: tail)).length)
    (hcodes : Codes (woven (TextEdit.removes ⟨chars⟩ edits) (later.map (Put.spot ⟨chars⟩))
      (front ++ t.body).length (rs ++ rest))
      (weave (fun t => t.isCode && !TextEdit.cuts edits t) later ts)) :
    Codes (woven (TextEdit.removes ⟨chars⟩ edits) (later.map (Put.spot ⟨chars⟩)) front.length
      (t.body ++ (rs ++ rest)))
      (weave (fun t => t.isCode && !TextEdit.cuts edits t) later (t :: ts)) := by
  have ht : t ∈ tokens := by
    rw [htokens]
    exact List.mem_append_right before List.mem_cons_self
  have hstop : (Lines.mk chars).index t.range.stop = (front ++ t.body).length := by
    rw [hchars, hplaced.index_stop_eq, List.length_append]
  have hindex : ∀ p ∈ later, (front ++ t.body).length ≤ (Lines.mk chars).index p.place := by
    intro p hp
    rw [← hstop]
    exact (Lines.mk chars).index_mono (hlater p hp).2
  refine codes_piece (fun p hp => (hlater p hp).1) hindex (fun hcut d hd => ?_)
    (fun hcut => ⟨?_, fun code hcode => ?_⟩) hcodes
  · have hblank := CleanCut.remain_of_cut hplaced hcut
    rw [← hchars, ← hbody, remain_append] at hblank
    exact hblank d (List.mem_append_left _ hd)
  · have hremain := h.clean.remain_of_kept hplaced ht hcut
    rw [← hchars, ← hbody] at hremain
    exact remain_front hremain
  · obtain ⟨p, hp, hlt⟩ := hinside
    obtain ⟨later, rfl⟩ := List.head?_eq_some_iff.mp hp
    obtain ⟨hplace, hstarts⟩ := h.startsLine_of_lt hchars hplaced htokens hcut hrest hputs
      hearlier (hlater p List.mem_cons_self).2 hlt
    obtain ⟨tail', htail', hread⟩ := hplaced.exists_body
    have hline : Lexer.StartsLine (woven (TextEdit.removes ⟨chars⟩ edits)
        ((p :: later).map (Put.spot ⟨chars⟩)) (front ++ t.body).length (rs ++ rest)) := by
      obtain ⟨ds, htext⟩ := List.head?_eq_some_iff.mp hstarts
      rw [List.map_cons, Put.spot, hplace, hstop, woven_here, htext]
      rfl
    obtain ⟨follow, hlexeme, hfollow⟩ := hread _ (Or.inr hline)
    rw [htail'] at hcode hfollow ⊢
    refine hcode.token hlexeme hfollow fun q => ?_
    rw [← htail']
    exact hplaced.respells_body q

end

section

variable {before ts : List Token} {earlier later : List Put}

theorem codes_token (h : Weaves tokens edits puts) (hordered : Token.Ordered N tokens)
    (hall : ∀ u ∈ tokens, ∃ front c tail rest, chars = front ++ ((c :: tail) ++ rest) ∧
      Placed front c tail rest u) (hplain : ∀ t ∈ tokens, t.identifier = none)
    (hr : Reached tokens puts chars front ((c :: tail) ++ rest) before (t :: ts) earlier later)
    (hplaced : Placed front c tail rest t)
    (hrest : tokenizeFrom (Position.origin.after (front ++ (c :: tail))) rest = .ok ts)
    (hbehind : ∀ p ∈ later, front.length < (Lines.mk chars).index p.place)
    (hcodes : ∀ xs ys, xs ++ ys = (c :: tail) ++ rest → xs ≠ [] →
      Reached tokens puts chars (front ++ xs) ys (before ++ [t]) ts earlier later →
      Codes (woven (TextEdit.removes ⟨chars⟩ edits) (later.map (Put.spot ⟨chars⟩))
        (front ++ xs).length ys) (weave (fun t => t.isCode && !TextEdit.cuts edits t) later ts)) :
    Codes (woven (TextEdit.removes ⟨chars⟩ edits) (later.map (Put.spot ⟨chars⟩)) front.length
      ((c :: tail) ++ rest))
      (weave (fun t => t.isCode && !TextEdit.cuts edits t) later (t :: ts)) := by
  have ht : t ∈ tokens := by
    rw [hr.tokens_eq]
    exact List.mem_append_right before List.mem_cons_self
  have hearlier : ∀ q ∈ earlier, q.place ≤ t.range.start :=
    fun q hq => hr.passed q hq t List.mem_cons_self
  have hlater : ∀ p ∈ later, t.range.start < p.place ∧ t.range.stop ≤ p.place := by
    intro p hp
    have hmem : p ∈ puts := by
      rw [hr.puts_eq]
      exact List.mem_append_right earlier hp
    have hle : t.range.stop ≤ p.place := (h.splits p hmem t ht).resolve_right fun hle => by
      have hmono := (Lines.mk chars).index_mono hle
      rw [hr.chars_eq, hplaced.index_start, ← hr.chars_eq] at hmono
      exact absurd (hbehind p hp) (Nat.not_lt.mpr hmono)
    exact ⟨lt_of_lt_of_le (hordered.proper t ht) hle, hle⟩
  have hstops : ∀ p ∈ later, t.range.stop ≤ p.place := fun p hp => (hlater p hp).2
  by_cases hinside : ∃ p ∈ later.head?,
      (Lines.mk chars).index p.place < (front ++ (c :: tail)).length
  · obtain ⟨rs, hbody, hreturns⟩ := hplaced.body_append
    obtain ⟨tail', htail', _⟩ := hplaced.exists_body
    have hblank : ∀ r ∈ rs, Text.isBlank r = true := by
      intro r hr
      rw [hreturns r hr]
      decide
    have hsplit : (c :: tail) ++ rest = t.body ++ (rs ++ rest) := by
      rw [← hbody, List.append_assoc]
    have hhere := hr
    rw [hsplit] at hhere ⊢
    refine h.codes_body hr.chars_eq hplaced hr.tokens_eq hrest hr.puts_eq hearlier hlater hbody
      hinside (hcodes _ _ hsplit.symm ?_ (hhere.token ?_ hstops fun p hp => ?_))
    · rw [htail']
      exact List.cons_ne_nil c tail'
    · rw [Lexer.tokenizeFrom_blanks hblank, ← Lexer.after_append, List.append_assoc, hbody]
      exact hrest
    · have hmono := (Lines.mk chars).index_mono (hstops p hp)
      rw [hr.chars_eq, hplaced.index_stop_eq, ← List.length_append, ← hr.chars_eq] at hmono
      exact hmono
  · have hindex : ∀ p ∈ later, (front ++ (c :: tail)).length ≤ (Lines.mk chars).index p.place :=
      h.le_index_of_head hr.puts_eq fun q hq => Nat.le_of_not_lt fun hlt => hinside ⟨q, hq, hlt⟩
    have hnext : tokens = (before ++ [t]) ++ ts := by rw [hr.tokens_eq, List.append_cons]
    have hcarves := h.clean.carves hordered hall _ (Nat.le_refl _)
      (by rw [hr.chars_eq, List.append_assoc]) hnext hrest fun u hu => hplain u (by
        rw [hnext]
        exact List.mem_append_right _ hu)
    exact h.codes_whole hr.chars_eq hplaced hr.tokens_eq hrest hr.puts_eq hearlier hlater hordered
      hall hcarves hindex
      (hcodes _ _ rfl (List.cons_ne_nil c tail) (hr.token hrest hstops hindex))

end

theorem codes_from (h : Weaves tokens edits puts) (hordered : Token.Ordered N tokens)
    (hall : ∀ u ∈ tokens, ∃ front c tail rest, chars = front ++ ((c :: tail) ++ rest) ∧
      Placed front c tail rest u) (hplain : ∀ t ∈ tokens, t.identifier = none) :
    ∀ (n : Nat) {front cs : List Char} {before ts : List Token} {earlier later : List Put},
      cs.length + later.length < n →
      Reached tokens puts chars front cs before ts earlier later →
      Codes (woven (TextEdit.removes ⟨chars⟩ edits) (later.map (Put.spot ⟨chars⟩)) front.length cs)
        (weave (fun t => t.isCode && !TextEdit.cuts edits t) later ts) := by
  intro n
  induction n with
  | zero => exact fun hlen => absurd hlen (Nat.not_lt_zero _)
  | succ n ih =>
    intro front cs before ts earlier later hlen hr
    by_cases hhere : ∃ p ∈ later.head?, (Lines.mk chars).index p.place = front.length
    · obtain ⟨p, hp, hplace⟩ := hhere
      obtain ⟨later, rfl⟩ := List.head?_eq_some_iff.mp hp
      have hcarves := h.clean.carves hordered hall _ (Nat.le_refl _) hr.chars_eq hr.tokens_eq hr.read
        fun t ht => hplain t (by rw [hr.tokens_eq]; exact List.mem_append_right before ht)
      refine h.codes_put hordered hall hr hcarves hplace (ih ?_ (hr.put h hplace))
      rw [List.length_cons] at hlen
      omega
    · have hbehind := hr.behind h hhere
      cases cs with
      | nil => exact hr.codes_end hbehind
      | cons c cs =>
          rcases Lexer.tokenizeFrom_eq_ok hr.read with
            ⟨hblank, hrest⟩ | ⟨kind, tail, rest, us, hscan, hrest, rfl⟩
          · refine codes_blank hblank hbehind (ih ?_ (hr.blank hbehind hrest))
            rw [List.length_cons] at hlen
            omega
          · obtain rfl := Lexer.scan_append hscan
            obtain ⟨follow, hlexeme, hfollow⟩ := Lexer.exists_lexeme hscan
            have hplaced : Placed front c tail rest
                (Lexer.tokenAt (Position.origin.after front) kind (c :: tail)) :=
              ⟨⟨follow, hlexeme, hfollow⟩, rfl⟩
            rw [← Lexer.after_append] at hrest
            refine h.codes_token hordered hall hplain hr hplaced hrest hbehind ?_
            intro xs ys hsplit hne hnext
            refine ih ?_ hnext
            have hlength := congrArg List.length hsplit
            have hpos := List.length_pos_iff.mpr hne
            rw [List.cons_append, List.length_append] at hlength
            omega

/-- Edits that are applied leave the tokens that are not cut, with what is put in between them. -/
theorem codes_splice {text : String} {all : List TextEdit} {cs : List Char}
    (h : Weaves tokens edits puts) (hread : Lexer.tokenize text = .ok tokens)
    (hsplice : TextEdit.splice (Lines.ofString text) 0 all = .ok cs)
    (hremoves : TextEdit.removes (Lines.ofString text) all =
      TextEdit.removes (Lines.ofString text) edits)
    (hputs : (all.map (TextEdit.put (Lines.ofString text))).filter (fun p => !p.2.isEmpty) =
      puts.map (Put.spot (Lines.ofString text))) :
    Codes cs (weave (fun t => t.isCode && !TextEdit.cuts edits t) puts tokens) := by
  have hfrom : tokenizeFrom (Position.origin.after []) text.toList = .ok tokens := hread
  have hplaced := Lexer.exists_placed _ (Nat.le_refl _) hfrom
  rw [List.nil_append] at hplaced
  have hstart : Reached tokens puts text.toList [] text.toList [] tokens [] puts :=
    ⟨(List.nil_append _).symm, (List.nil_append _).symm, hfrom, (List.nil_append _).symm,
      List.forall_mem_nil _, fun _ _ => List.forall_mem_nil _, fun _ _ => Nat.zero_le _⟩
  have hcodes := h.codes_from (Lexer.ordered_of_tokenize hread) hplaced
    (Lexer.identifier_of_tokenize hread) _ (Nat.lt_succ_self _) hstart
  have hwoven : cs = woven (TextEdit.removes (Lines.ofString text) edits)
      (puts.map (Put.spot (Lines.ofString text))) 0 text.toList := by
    rw [TextEdit.splice_eq_woven hsplice, hremoves, ← hputs, List.drop_zero]
    refine woven_filter (fun p hp => ?_) (TextEdit.pairwise_of_splice hsplice)
    obtain ⟨e, _, rfl⟩ := List.mem_map.mp hp
    rw [Nat.zero_add]
    exact ⟨Nat.zero_le _, (Lines.ofString text).index_le_length e.range.start⟩
  rw [hwoven]
  exact hcodes

end Weaves

end AnnotationEdit

import AnnotationEdit.Proofs.Token.Relexing

/-!
# Reading a text with other tokens in it

When characters that spell tokens are put right behind a token of a text, they are read there, and
all tokens of the text are read again (`Lexer.exists_insertion`). The new characters have to break
what stands in front of them, and what follows the place has to break them. They may be put in front
of a token as well (`Lexer.exists_insertion_in_front`) or in the place of some of the tokens
(`Lexer.exists_window`): what stood in front of these has to bear the new characters.
-/

namespace AnnotationEdit

namespace Lexer

/-- The same characters elsewhere are read as the same tokens. -/
theorem exists_respelled : ∀ (n : Nat) {cs : List Char} {p : Position} {ts : List Token},
    cs.length ≤ n → tokenizeFrom p cs = .ok ts → ∀ q, ∃ ks, tokenizeFrom q cs = .ok ks ∧
      Respells ks ts
  | _, [], p, ts, _, h, q => by
      rw [tokenizeFrom.eq_def] at h
      refine ⟨[], by rw [tokenizeFrom.eq_def], ?_⟩
      rw [← Except.ok.inj h, Respells]
  | 0, c :: cs, _, _, hlen, _, _ => absurd hlen (Nat.not_succ_le_zero _)
  | n + 1, c :: cs, p, ts, hlen, h, q => by
      rw [List.length_cons] at hlen
      rcases tokenizeFrom_eq_ok h with ⟨hblank, hrest⟩ | ⟨kind, tail, rest, us, hscan, hrest, rfl⟩
      · obtain ⟨ks, hks, hrespells⟩ := exists_respelled n (by omega) hrest (q.advance c)
        exact ⟨ks, (tokenizeFrom_blank hblank q cs).trans hks, hrespells⟩
      · have hshort := congrArg List.length (scan_append hscan)
        rw [List.length_append] at hshort
        obtain ⟨_, hlexeme, _⟩ := exists_lexeme hscan
        obtain ⟨ks, hks, hrespells⟩ := exists_respelled n (by omega) hrest (q.after (c :: tail))
        refine ⟨tokenAt q kind (c :: tail) :: ks, ?_, ?_⟩
        · rw [tokenizeFrom_scan hlexeme.isBlank_eq_false hscan, hks]
          rfl
        · rw [Respells, List.map_cons, List.map_cons]
          exact congrArg _ hrespells

/-- What may stand in front of `cs` may stand in front of `ds`. -/
def Relieves (cs ds : List Char) : Prop :=
  ∀ c tail kind follow, Lexeme c tail kind follow → follow cs → follow ds

theorem relieves_of_head {cs ds : List Char} (h : ds.head? = cs.head?) : Relieves cs ds :=
  fun _ _ _ _ hlexeme hcs => hlexeme.follow_of_head h hcs

theorem Relieves.of_heads {cs ds cs' ds' : List Char} (h : Relieves cs ds)
    (hcs : cs'.head? = cs.head?) (hds : ds'.head? = ds.head?) : Relieves cs' ds' :=
  fun _ _ _ _ hlexeme hcs' => hlexeme.follow_of_head hds
    (h _ _ _ _ hlexeme (hlexeme.follow_of_head hcs.symm hcs'))

/-- The token may stand in front of `ds` if it may stand in front of `cs`. -/
def Bears (u : Token) (cs ds : List Char) : Prop :=
  ∀ c tail follow, u.text.toList = c :: tail → Lexeme c tail u.kind follow → follow cs → follow ds

theorem Relieves.bears {cs ds : List Char} (h : Relieves cs ds) (u : Token) : Bears u cs ds :=
  fun _ _ _ _ hlexeme hcs => h _ _ _ _ hlexeme hcs

/-- A token that goes on up to a character of its own may stand in front of everything. -/
theorem bears_of_closed {u : Token} {cs ds : List Char}
    (hkind : u.kind = .punctuation ∨ u.kind = .blockComment) : Bears u cs ds :=
  fun _ _ _ _ hlexeme _ => hlexeme.follow_of_closed hkind

/-- Nothing stands behind a comment up to the end of its line. -/
theorem bears_of_lineComment {u : Token} {cs ds : List Char} (hkind : u.kind = .lineComment)
    (hcs : ∃ c ∈ cs.head?, c ≠ '\n') : Bears u cs ds := by
  intro c tail follow _ hlexeme hfollow
  obtain ⟨d, hd, hne⟩ := hcs
  obtain ⟨_, _, _, rfl⟩ := hlexeme.of_lineComment hkind
  exact absurd (hfollow d hd) hne

/-- Where a token of a text stands: the tokens in front of it are read again in front of everything
that the last one of them bears, and the tokens behind it are read from what stands behind it. -/
theorem exists_front : ∀ (n : Nat) {front cs : List Char} {before after : List Token} {t : Token},
    cs.length ≤ n → tokenizeFrom (Position.origin.after front) cs = .ok (before ++ t :: after) →
    ∃ middle c tail rest, cs = middle ++ ((c :: tail) ++ rest) ∧
      Placed (front ++ middle) c tail rest t ∧ (middle = [] → before = []) ∧
      tokenizeFrom (Position.origin.after (front ++ (middle ++ (c :: tail)))) rest = .ok after ∧
      ∀ ds us, (∀ u ∈ before.getLast?, Bears u ((c :: tail) ++ rest) ds) →
        tokenizeFrom (Position.origin.after (front ++ middle)) ds = .ok us →
        tokenizeFrom (Position.origin.after front) (middle ++ ds) = .ok (before ++ us)
  | _, _, [], before, _, _, _, h => by
      rw [tokenizeFrom.eq_def] at h
      cases before <;> cases Except.ok.inj h
  | 0, _, c :: cs, _, _, _, hlen, _ => absurd hlen (Nat.not_succ_le_zero _)
  | n + 1, front, d :: cs, before, after, t, hlen, h => by
      rw [List.length_cons] at hlen
      rcases tokenizeFrom_eq_ok h with ⟨hblank, hrest⟩ | ⟨kind, tail, rest, us, hscan, hrest, heq⟩
      · have hadvance : (Position.origin.after front).advance d =
            Position.origin.after (front ++ [d]) := (after_append Position.origin front [d]).symm
        rw [hadvance] at hrest
        obtain ⟨middle, c, tail, rest, rfl, hplaced, _, hafter, hread⟩ :=
          exists_front n (by omega) hrest
        simp only [List.append_assoc, List.singleton_append] at hplaced hafter hread
        refine ⟨d :: middle, c, tail, rest, rfl, hplaced, nofun, hafter, ?_⟩
        intro ds us hds hus
        rw [List.cons_append, tokenizeFrom_blank hblank, hadvance]
        exact hread ds us hds hus
      · obtain rfl := scan_append hscan
        rw [List.length_append] at hlen
        obtain ⟨follow, hlexeme, hfollow⟩ := exists_lexeme hscan
        have hblank := hlexeme.isBlank_eq_false
        have hafterToken : (Position.origin.after front).after (d :: tail) =
            Position.origin.after (front ++ (d :: tail)) :=
          (after_append Position.origin front (d :: tail)).symm
        rw [hafterToken] at hrest
        cases before with
        | nil =>
            obtain ⟨rfl, rfl⟩ := List.cons.inj heq
            refine ⟨[], d, tail, rest, rfl, ?_, fun _ => rfl, hrest, ?_⟩
            · rw [List.append_nil]
              exact ⟨⟨follow, hlexeme, hfollow⟩, rfl⟩
            · intro ds us _ hus
              rw [List.append_nil] at hus
              exact hus
        | cons u before =>
            obtain ⟨rfl, rfl⟩ := List.cons.inj heq
            obtain ⟨middle, c, tail', rest', rfl, hplaced, hnone, hafter, hread⟩ :=
              exists_front n (by omega) hrest
            simp only [List.append_assoc] at hplaced hafter hread
            refine ⟨(d :: tail) ++ middle, c, tail', rest', ?_, hplaced, nofun, ?_, ?_⟩
            · simp only [List.append_assoc, List.cons_append]
            · simp only [List.append_assoc]
              exact hafter
            · intro ds us hds hus
              have htokens := hread ds us (fun v hv => hds v (by
                rw [List.getLast?_cons, hv]
                rfl)) hus
              have hnext : follow (middle ++ ds) := by
                cases middle with
                | nil =>
                    obtain rfl := hnone rfl
                    exact hds _ rfl d tail follow (String.toList_ofList) hlexeme hfollow
                | cons e middle => exact hlexeme.follow_of_head (List.head?_cons.trans rfl) hfollow
              rw [← hafterToken] at htokens
              rw [List.append_assoc, List.cons_append,
                tokenizeFrom_scan hblank (hlexeme.scan hnext), htokens]
              rfl

/-- Tokens in the middle of a text, where its characters from `front` on are read: `old` are those
from the first of the tokens up to the last one, `gap` stand in front of these. -/
structure Window (front cs : List Char) (before after : List Token) (t u : Token)
    (gap old rest : List Char) : Prop where
  split : cs = gap ++ (old ++ rest)
  start : t.range.start = Position.origin.after (front ++ gap)
  stop : u.range.stop = Position.origin.after (front ++ (gap ++ old))
  index_start : (Lines.mk (front ++ cs)).index t.range.start = (front ++ gap).length
  index_stop : (Lines.mk (front ++ cs)).index u.range.stop = (front ++ (gap ++ old)).length
  after : tokenizeFrom (Position.origin.after (front ++ (gap ++ old))) rest = .ok after
  again : ∀ ds us, (∀ v ∈ before.getLast?, ∀ xs, Bears v (t.text.toList ++ xs) ds) →
    tokenizeFrom (Position.origin.after (front ++ gap)) ds = .ok us →
    tokenizeFrom (Position.origin.after front) (gap ++ ds) = .ok (before ++ us)

theorem exists_window {front cs : List Char} {before mid after : List Token} {t u : Token}
    (h : tokenizeFrom (Position.origin.after front) cs = .ok (before ++ (mid ++ after)))
    (hfirst : mid.head? = some t) (hlast : mid.getLast? = some u) (hkind : u.kind ≠ .lineComment) :
    ∃ gap old rest, Window front cs before after t u gap old rest := by
  have hspans : Spans mid ⟨t.range.start, u.range.stop⟩ := ⟨t, u, hfirst, hlast, rfl⟩
  have hsub : mid.Sublist (before ++ (mid ++ after)) :=
    (List.sublist_append_left mid after).trans (List.sublist_append_right before _)
  have hproper := hspans.proper ((ordered_of_tokenizeFrom _ (Nat.le_refl _) h).1.sublist hsub)
  obtain ⟨mid', rfl⟩ := List.head?_eq_some_iff.mp hfirst
  obtain ⟨gap, c, tail, rest, hchars, hplaced, _, _, hagain⟩ := exists_front _ (Nat.le_refl _) h
  obtain ⟨mid'', hmid⟩ := List.getLast?_eq_some_iff.mp hlast
  have hend : tokenizeFrom (Position.origin.after front) cs =
      .ok ((before ++ mid'') ++ u :: after) := by
    rw [h, hmid]
    simp only [List.append_assoc, List.cons_append, List.nil_append]
  obtain ⟨gap', c', tail', rest', hchars', hplaced', _, hrest', _⟩ :=
    exists_front _ (Nat.le_refl _) hend
  have hstart : (Lines.mk (front ++ cs)).index t.range.start = (front ++ gap).length := by
    rw [hchars, ← List.append_assoc, hplaced.index_start]
  have hstop : (Lines.mk (front ++ cs)).index u.range.stop =
      (front ++ (gap' ++ (c' :: tail'))).length := by
    rw [hchars', ← List.append_assoc, hplaced'.index_stop hkind]
    simp only [List.length_append, Nat.add_assoc]
  have hle : gap.length ≤ (gap' ++ (c' :: tail')).length := by
    have hmono := (Lines.mk (front ++ cs)).index_mono (le_of_lt hproper)
    rw [hstart, hstop, List.length_append, List.length_append] at hmono
    omega
  obtain ⟨old, hold⟩ : gap <+: gap' ++ (c' :: tail') := by
    refine List.prefix_of_prefix_length_le ⟨_, hchars.symm⟩ ⟨rest', ?_⟩ hle
    rw [hchars', List.append_assoc]
  refine ⟨gap, old, rest', ?_, ?_, ?_, hstart, ?_, ?_, ?_⟩
  · rw [← List.append_assoc, hold, hchars', List.append_assoc]
  · exact hplaced.range_start
  · rw [hold, ← List.append_assoc]
    exact hplaced'.range_stop
  · rw [hold]
    exact hstop
  · rw [hold]
    exact hrest'
  · intro ds us hbears hus
    refine hagain ds us (fun v hv => ?_) hus
    rw [← String.toList_ofList (l := c :: tail), ← hplaced.text]
    exact hbears v hv rest

/-- What is read as tokens of which the first one breaks starts with something that breaks. -/
theorem break_of_tokenizeFrom {p : Position} {cs : List Char} {ts : List Token}
    (h : tokenizeFrom p cs = .ok ts)
    (hfirst : ∀ t ∈ ts.head?, ∀ c ∈ t.text.toList.head?, isBreak c = true) : Break cs := by
  cases cs with
  | nil => exact break_nil
  | cons c cs =>
      rcases tokenizeFrom_eq_ok h with ⟨hblank, _⟩ | ⟨kind, tail, rest, us, _, _, rfl⟩
      · exact break_of_isBlank hblank
      · refine break_cons (hfirst _ rfl c ?_)
        rw [String.toList_ofList]
        rfl

def inserted (chars : List Char) (p : Position) (cs : List Char) : List Char :=
  chars.take ((Lines.mk chars).index p) ++ (cs ++ chars.drop ((Lines.mk chars).index p))

/-- Characters behind a token other than a comment up to the end of its line are read as what they
spell, and the other tokens are read again. -/
theorem exists_insertion {text : String} {before after : List Token} {t : Token}
    (h : tokenize text = .ok (before ++ t :: after)) (hkind : t.kind ≠ .lineComment)
    (hafter : ∀ u ∈ after.head?, ∀ c ∈ u.text.toList.head?, isBreak c = true)
    {cs : List Char} {read : List Token → Prop} (hcs : Spells Break cs read)
    (hfirst : ∃ c ∈ cs.head?, isBreak c = true) :
    ∃ ts after', read ts ∧ (∀ u ∈ ts, u.isCode = true) ∧ Respells after' after ∧
      tokenize (String.ofList (inserted text.toList t.range.stop cs)) =
        .ok (before ++ t :: (ts.map Token.plain ++ after')) := by
  have hread : tokenizeFrom (Position.origin.after []) text.toList = .ok (before ++ t :: after) := h
  obtain ⟨front, c, tail, rest, hchars, hplaced, _, hrest, hagain⟩ :=
    exists_front _ (Nat.le_refl _) hread
  obtain ⟨follow, hlexeme, _⟩ := hplaced.lexeme
  have hsplit : inserted text.toList t.range.stop cs = front ++ ((c :: tail) ++ (cs ++ rest)) := by
    have hlength : front.length + (c :: tail).length = (front ++ (c :: tail)).length :=
      List.length_append.symm
    have hstop := hplaced.index_stop hkind
    rw [List.nil_append] at hstop
    rw [inserted, hchars, hstop, hlength, ← List.append_assoc front, List.take_left,
      List.drop_left, List.append_assoc]
  obtain ⟨ts, hts, hcode, hspelled⟩ := hcs ((Position.origin.after ([] ++ (front ++ (c :: tail)))))
    rest (break_of_tokenizeFrom hrest hafter)
  obtain ⟨after', hafter', hrespells⟩ := exists_respelled _ (Nat.le_refl _) hrest
    ((Position.origin.after ([] ++ (front ++ (c :: tail)))).after cs)
  refine ⟨ts, after', hts, hcode, hrespells, ?_⟩
  have hfollow : follow (cs ++ rest) := by
    refine hlexeme.follow_of_break hkind ?_
    obtain ⟨d, hd, hbreak⟩ := hfirst
    obtain ⟨cs, rfl⟩ := List.head?_eq_some_iff.mp hd
    exact break_cons hbreak
  rw [tokenize, String.toList_ofList, hsplit]
  have hsame : Relieves ((c :: tail) ++ rest) ((c :: tail) ++ (cs ++ rest)) := relieves_of_head rfl
  refine hagain ((c :: tail) ++ (cs ++ rest)) _ (fun u _ => hsame.bears u) ?_
  rw [List.cons_append, tokenizeFrom_scan hlexeme.isBlank_eq_false (hlexeme.scan hfollow),
    ← after_append, List.append_assoc, hspelled, hafter', hplaced.eq]
  rfl

theorem exists_insertion_in_front {text : String} {before after : List Token} {t : Token}
    (h : tokenize text = .ok (before ++ t :: after)) {cs : List Char} {read : List Token → Prop}
    (hcs : Spells Anything cs read) (hne : cs ≠ []) (hrelieves : Relieves t.text.toList cs) :
    ∃ ts after', read ts ∧ (∀ u ∈ ts, u.isCode = true) ∧ Respells after' (t :: after) ∧
      tokenize (String.ofList (inserted text.toList t.range.start cs)) =
        .ok (before ++ (ts.map Token.plain ++ after')) := by
  have hread : tokenizeFrom (Position.origin.after []) text.toList = .ok (before ++ t :: after) := h
  obtain ⟨front, c, tail, rest, hchars, hplaced, _, hrest, hagain⟩ :=
    exists_front _ (Nat.le_refl _) hread
  rw [List.nil_append] at hplaced hrest
  obtain ⟨follow, hlexeme, hfollow⟩ := hplaced.lexeme
  have hsplit : inserted text.toList t.range.start cs = front ++ (cs ++ ((c :: tail) ++ rest)) := by
    rw [inserted, hchars, hplaced.index_start, List.take_left, List.drop_left]
  have hold : tokenizeFrom (Position.origin.after front) ((c :: tail) ++ rest) =
      .ok (t :: after) := by
    rw [List.cons_append, tokenizeFrom_scan hlexeme.isBlank_eq_false (hlexeme.scan hfollow),
      ← after_append, hrest, hplaced.eq]
    rfl
  obtain ⟨ts, hts, hcode, hspelled⟩ := hcs (Position.origin.after front) ((c :: tail) ++ rest)
    trivial
  obtain ⟨after', hafter', hrespells⟩ := exists_respelled _ (Nat.le_refl _) hold
    ((Position.origin.after front).after cs)
  refine ⟨ts, after', hts, hcode, hrespells, ?_⟩
  rw [tokenize, String.toList_ofList, hsplit]
  refine hagain (cs ++ ((c :: tail) ++ rest)) _
    (fun u _ => (hrelieves.of_heads ?_ ?_).bears u) ?_
  · rw [hplaced.text, String.toList_ofList]
    rfl
  · obtain ⟨d, cs, rfl⟩ := List.exists_cons_of_ne_nil hne
    rfl
  · rw [List.nil_append, hspelled, hafter']
    rfl

theorem applyAll_insert (text : String) (p : Position) (newText : String) :
    TextEdit.applyAll text [.insert p newText] =
      .ok (String.ofList (inserted text.toList p newText.toList)) := by
  have hsplice : TextEdit.splice (Lines.ofString text) 0 [.insert p newText] =
      .ok (inserted text.toList p newText.toList) := by
    let i := (Lines.ofString text).index p
    rw [TextEdit.splice, if_neg (Nat.not_lt_zero _)]
    show Except.ok ((Lines.ofString text).between 0 i ++
      (newText.toList ++ text.toList.drop (Nat.max i i))) = _
    have hmax : Nat.max i i = i := Nat.max_self i
    rw [hmax, Lines.between, List.drop_zero, Nat.sub_zero]
    rfl
  rw [TextEdit.applyAll, List.mergeSort_singleton, hsplice]
  rfl

end Lexer

end AnnotationEdit

import AnnotationEdit.Proofs.Syntax.Growing
import AnnotationEdit.Proofs.Token.Placement

/-!
# Reading texts with characters put in

What the code tokens of some characters are does not depend on where the characters stand
(`Lexer.Codes`). A text is taken apart at the start, behind a mark or behind its last token; what is
put in at these places is read there, and the tokens of the text are read again around it
(`Lexer.exists_codes`). Behind a comment up to the end of its line this takes a line feed in front.
-/

namespace AnnotationEdit.Lexer

/-! ## Code tokens of characters -/

/-- The characters are read, wherever they stand, and their code tokens are these ones in other
places. -/
def Codes (cs : List Char) (code : List Token) : Prop :=
  ∀ p, ∃ ts, tokenizeFrom p cs = .ok ts ∧ Respells (ts.filter Token.isCode) code

theorem codes_of_tokenizeFrom {p : Position} {cs : List Char} {ts code : List Token}
    (h : tokenizeFrom p cs = .ok ts) (hcode : Respells (ts.filter Token.isCode) code) :
    Codes cs code := by
  intro q
  obtain ⟨ks, hks, hrespells⟩ := exists_respelled _ (Nat.le_refl _) h q
  exact ⟨ks, hks, (hrespells.filter fun _ => rfl).trans hcode⟩

theorem Codes.spelled {cs rest : List Char} {read : List Token → Prop} {code : List Token}
    (hrest : Codes rest code) (h : Spells Anything cs read) : ∃ ts, read ts ∧
      (∀ t ∈ ts, t.isCode = true) ∧ Codes (cs ++ rest) (ts.map Token.plain ++ code) := by
  obtain ⟨ts, hts, hcode, hrun⟩ := h Position.origin rest trivial
  obtain ⟨ks, hks, hrespells⟩ := hrest (Position.origin.after cs)
  rw [hks] at hrun
  refine ⟨ts, hts, hcode, codes_of_tokenizeFrom hrun ?_⟩
  have hkept : (ts.map Token.plain).filter Token.isCode = ts.map Token.plain := by
    rw [Document.filter_isCode_plain, List.filter_eq_self.mpr hcode]
  rw [List.filter_append, hkept, Respells, List.map_append, List.map_append]
  exact congrArg _ hrespells

/-- The line feed that a comment up to the end of its line needs behind it. -/
def StartsLine (cs : List Char) : Prop := cs.head? = some '\n'

theorem StartsLine.break {cs : List Char} (h : StartsLine cs) : Break cs := by
  obtain ⟨rest, rfl⟩ := List.head?_eq_some_iff.mp h
  exact break_of_isBlank (by decide)

/-! ## Places -/

/-- What is left of a token without the carriage returns at its end is read as a token of its kind,
in front of a line feed, and a mark in front of everything. -/
theorem Placed.exists_body {front tail rest : List Char} {c : Char} {t : Token}
    (h : Placed front c tail rest t) : ∃ tail', t.body = c :: tail' ∧ ∀ ds,
      (t.kind = .punctuation ∨ StartsLine ds) →
        ∃ follow, Lexeme c tail' t.kind follow ∧ follow ds := by
  obtain ⟨follow, hlexeme, _⟩ := h.lexeme
  by_cases hkind : t.kind = .lineComment
  · obtain ⟨rfl, hhead, hall, _⟩ := hlexeme.of_lineComment hkind
    obtain ⟨tail, rfl⟩ := List.head?_eq_some_iff.mp hhead
    obtain ⟨rs, hbody, hreturns⟩ := h.body_append
    obtain ⟨tail', hslashes, rfl⟩ : ∃ tail', t.body = '/' :: '/' :: tail' ∧ tail = tail' ++ rs := by
      have hslash : '/' ∉ rs := fun hmem => absurd (hreturns _ hmem) (by decide)
      rcases hb : t.body with _ | ⟨d, _ | ⟨e, tail'⟩⟩ <;> rw [hb] at hbody
      · rw [List.nil_append] at hbody
        exact absurd (hbody ▸ List.mem_cons_self) hslash
      · rw [List.singleton_append] at hbody
        obtain ⟨_, rfl⟩ := List.cons.inj hbody
        exact absurd List.mem_cons_self hslash
      · rw [List.cons_append, List.cons_append] at hbody
        obtain ⟨rfl, hrest⟩ := List.cons.inj hbody
        obtain ⟨rfl, hall⟩ := List.cons.inj hrest
        exact ⟨tail', rfl, hall.symm⟩
    refine ⟨'/' :: tail', hslashes, fun ds hds => ?_⟩
    rw [hkind]
    have hline : StartsLine ds := hds.resolve_left (by rw [hkind]; exact nofun)
    refine ⟨_, .lineComment rfl rfl ?_, fun d hd => ?_⟩
    · rw [List.all_cons, List.all_append, ← Bool.and_assoc, Bool.and_eq_true] at hall
      exact hall.1
    · exact Option.some.inj (hd.symm.trans hline)
  · refine ⟨tail, ?_, fun ds hds => ⟨follow, hlexeme, ?_⟩⟩
    · rw [Token.body, if_neg hkind, h.text, String.toList_ofList]
    · rcases hds with hmark | hline
      · exact hlexeme.follow_of_closed (Or.inl hmark)
      · exact hlexeme.follow_of_break hkind hline.break

/-- Only comments lose something. -/
theorem Placed.respells_body {front tail rest : List Char} {c : Char} {t : Token}
    (h : Placed front c tail rest t) (p : Position) :
    Respells ([tokenAt p t.kind t.body].filter Token.isCode) ([t].filter Token.isCode) := by
  by_cases hkind : t.kind = .lineComment
  · have hnone : ∀ u : Token, u.kind = .lineComment → [u].filter Token.isCode = [] := by
      intro u hu
      rw [List.filter_singleton, Token.isCode, Token.isComment, hu]
      rfl
    rw [hnone t hkind, hnone (tokenAt p t.kind t.body) hkind]
    exact rfl
  · have hbare : (tokenAt p t.kind t.body).bare = t.bare := by
      have hidentifier : t.identifier = none := by
        rw [h.eq]
        rfl
      rw [tokenAt, Token.bare, Token.bare, hidentifier, Token.body, if_neg hkind,
        String.ofList_toList]
    have hsame : Respells [tokenAt p t.kind t.body] [t] := congrArg (fun u => [u]) hbare
    exact hsame.filter fun _ => rfl

/-- A place in the characters `cs`, read behind `front`: in front of it `before` is read, behind it
`after`. The tokens in front of it are read again in front of what satisfies `follow`. -/
structure Place (follow : List Char → Prop) (front cs : List Char) (p : Position)
    (before after : List Token) (shown rest : List Char) : Prop where
  split : cs = shown ++ rest
  index : (Lines.mk (front ++ cs)).index p = (front ++ shown).length
  after : tokenizeFrom (Position.origin.after (front ++ shown)) rest = .ok after
  again : ∀ ds code, follow ds → Codes ds code →
    Codes (shown ++ ds) (before.filter Token.isCode ++ code)

variable {follow : List Char → Prop} {front cs : List Char} {p : Position}
variable {before after : List Token} {t : Token}

theorem place_start (h : tokenizeFrom (Position.origin.after front) cs = .ok after)
    (hp : (Lines.mk (front ++ cs)).index p = front.length) :
    Place follow front cs p [] after [] cs :=
  ⟨rfl, by rw [hp, List.append_nil], by rw [List.append_nil]; exact h, fun _ _ _ hds => hds⟩

theorem exists_place
    (h : tokenizeFrom (Position.origin.after front) cs = .ok (before ++ t :: after)) :
    ∃ shown rest, Place (fun ds => t.kind = .punctuation ∨ StartsLine ds) front cs t.range.stop
      (before ++ [t]) after shown rest := by
  obtain ⟨middle, c, tail, rest, rfl, hplaced, _, hafter, hagain⟩ :=
    exists_front _ (Nat.le_refl _) h
  obtain ⟨rs, hbody, hreturns⟩ := hplaced.body_append
  obtain ⟨tail', htail', hread⟩ := hplaced.exists_body
  have hblank : ∀ r ∈ rs, Text.isBlank r = true := by
    intro r hr
    rw [hreturns r hr]
    decide
  refine ⟨middle ++ t.body, rs ++ rest, ?_, ?_, ?_, ?_⟩
  · rw [← hbody, List.append_assoc, List.append_assoc]
  · have hindex := hplaced.index_stop_eq
    rw [List.append_assoc front] at hindex
    rw [hindex, ← List.append_assoc front, ← List.length_append]
  · rw [tokenizeFrom_blanks hblank, ← after_append, List.append_assoc, List.append_assoc, hbody]
    exact hafter
  · intro ds code hfollow hds
    obtain ⟨follow, hlexeme, hfollow⟩ := hread ds hfollow
    obtain ⟨ks, hks, hcode⟩ := hds ((Position.origin.after (front ++ middle)).after (c :: tail'))
    have hshown : tokenizeFrom (Position.origin.after (front ++ middle)) (t.body ++ ds) =
        .ok (tokenAt (Position.origin.after (front ++ middle)) t.kind t.body :: ks) := by
      rw [htail', List.cons_append, tokenizeFrom_scan hlexeme.isBlank_eq_false
        (hlexeme.scan hfollow), hks]
      rfl
    have hbears : ∀ u ∈ before.getLast?, Bears u ((c :: tail) ++ rest) (t.body ++ ds) := by
      have hhead : (t.body ++ ds).head? = ((c :: tail) ++ rest).head? := by
        rw [htail']
        rfl
      exact fun u _ => (relieves_of_head hhead).bears u
    have hall := hagain _ _ hbears hshown
    rw [List.append_assoc middle]
    refine codes_of_tokenizeFrom hall ?_
    have hself := hplaced.respells_body (Position.origin.after (front ++ middle))
    rw [List.filter_append, List.filter_append, ← List.singleton_append, List.filter_append,
      List.append_assoc, Respells, List.map_append, List.map_append, List.map_append,
      List.map_append, hself, hcode]

theorem Place.mono {follow' : List Char → Prop} {shown rest : List Char}
    (h : Place follow front cs p before after shown rest) (hfollow : ∀ ds, follow' ds → follow ds) :
    Place follow' front cs p before after shown rest :=
  ⟨h.split, h.index, h.after, fun ds code hds => h.again ds code (hfollow ds hds)⟩

/-- Characters put in at a place and behind all tokens are read there, and the tokens in front of,
between and behind them are read again. -/
theorem exists_codes {shown rest shown' rest' xs ys : List Char} {q : Position}
    {read read' : List Token → Prop} (hp : Place Anything [] cs p before after shown rest)
    (hq : Place StartsLine shown rest q after [] shown' rest') (hxs : Spells Anything xs read)
    (hys : Spells Anything ys read') (hline : ys ≠ [] → StartsLine ys) :
    ∃ ts us, read ts ∧ read' us ∧ (∀ t ∈ ts ++ us, t.isCode = true) ∧
      Codes (shown ++ (xs ++ (shown' ++ (ys ++ rest')))) (before.filter Token.isCode ++
        (ts.map Token.plain ++ (after.filter Token.isCode ++ us.map Token.plain))) := by
  have hend : Codes rest' [] := codes_of_tokenizeFrom hq.after rfl
  obtain ⟨us, hus, hcode', hlast⟩ := hend.spelled hys
  rw [List.append_nil] at hlast
  have hbehind : Codes (shown' ++ (ys ++ rest'))
      (after.filter Token.isCode ++ us.map Token.plain) := by
    rcases ys with _ | ⟨y, ys⟩
    · -- nothing is put in there, so nothing is read there
      obtain ⟨ks, hks, hnone⟩ := hend Position.origin
      obtain ⟨ls, hls, hsome⟩ := hlast Position.origin
      obtain rfl : ks = ls := Except.ok.inj (hks.symm.trans hls)
      have hus : us.map Token.plain = [] := Respells.nil (hsome.symm.trans hnone)
      rw [hus, List.append_nil, List.nil_append, ← hq.split]
      exact codes_of_tokenizeFrom hp.after rfl
    · refine hq.again _ _ ?_ hlast
      exact hline (List.cons_ne_nil y ys)
  obtain ⟨ts, hts, hcode, hall⟩ := hbehind.spelled hxs
  exact ⟨ts, us, hts, hus, List.forall_mem_append.mpr ⟨hcode, hcode'⟩, hp.again _ _ trivial hall⟩

end AnnotationEdit.Lexer

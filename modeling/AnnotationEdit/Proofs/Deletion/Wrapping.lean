import AnnotationEdit.Proofs.Deletion.Runs
import AnnotationEdit.Proofs.Token.Relexing

/-!
# Edits around tokens

The edit that takes some tokens away takes the blanks around them too, but no other token and not the
line feed after a comment (`wraps_widen`). So the edits for the runs of a batch stand apart
(`pairwise_allEdits`), and what they take are the tokens of the runs and commas next to them
(`cuts_iff`).
-/

namespace AnnotationEdit

/-! ## Tokens on their lines -/

/-- Where the tokens stand: each starts at a character that is no blank and ends at one, unless it
is a comment up to the end of its line, after which no other token stands. -/
structure TokenStream.OnLines (tokens : TokenStream) (lines : Lines) : Prop where
  sorted : tokens.Sorted
  start_nonblank : ∀ {i t}, tokens.get? i = some t → ∃ c, Text.isBlank c = false ∧
    (lines.lineText t.range.start.line)[t.range.start.character]? = some c
  stop_nonblank : ∀ {i t}, tokens.get? i = some t → t.kind ≠ .lineComment →
    ∃ c n, Text.isBlank c = false ∧ t.range.stop.character = n + 1 ∧
      (lines.lineText t.range.stop.line)[n]? = some c
  line_lt : ∀ {i j t u}, tokens.get? i = some t → tokens.get? j = some u → i < j →
    t.kind = .lineComment → t.range.stop.line < u.range.start.line
  line_lt_count : ∀ {i t}, tokens.get? i = some t → t.range.start.line < lines.count

namespace Lexer.Placed

variable {front tail rest : List Char} {c : Char} {t : Token}

theorem start_nonblank (h : Placed front c tail rest t) :
    ∃ d, Text.isBlank d = false ∧ ((Lines.mk (front ++ ((c :: tail) ++ rest))).lineText
      t.range.start.line)[t.range.start.character]? = some d := by
  refine ⟨c, h.first, ?_⟩
  rw [h.range_start]
  exact Lines.lineText_after (ne_of_isBlank h.first (by decide)) (ne_of_isBlank h.first (by decide))

theorem stop_nonblank (h : Placed front c tail rest t) (hkind : t.kind ≠ .lineComment) :
    ∃ d n, Text.isBlank d = false ∧ t.range.stop.character = n + 1 ∧
      ((Lines.mk (front ++ ((c :: tail) ++ rest))).lineText t.range.stop.line)[n]? = some d := by
  obtain ⟨follow, hlexeme, _⟩ := h.lexeme
  obtain ⟨d, hd⟩ : ∃ d, (c :: tail).getLast? = some d := ⟨_, List.getLast?_eq_some_getLast (by simp)⟩
  have hblank := hlexeme.isBlank_last hkind hd
  have hnewline : d ≠ '\n' := ne_of_isBlank hblank (by decide)
  obtain ⟨most, hmost⟩ := List.getLast?_eq_some_iff.mp hd
  have hstop : t.range.stop = ⟨(Position.origin.after (front ++ most)).line,
      (Position.origin.after (front ++ most)).character + 1⟩ := by
    rw [h.range_stop, hmost, ← List.append_assoc, after_append]
    exact if_neg hnewline
  refine ⟨d, (Position.origin.after (front ++ most)).character, hblank, by rw [hstop], ?_⟩
  have htext : front ++ ((c :: tail) ++ rest) = (front ++ most) ++ d :: rest := by
    rw [hmost, List.append_assoc, List.append_assoc]
    rfl
  rw [hstop, htext]
  exact Lines.lineText_after hnewline (ne_of_isBlank hblank (by decide))

theorem line_lt_count (h : Placed front c tail rest t) :
    t.range.start.line < (Lines.mk (front ++ ((c :: tail) ++ rest))).count := by
  rw [h.range_start]
  exact Lines.line_after_lt front _

/-- After a comment up to the end of its line, a token starts on a later line. -/
theorem line_lt (h : Placed front c tail rest t) (hkind : t.kind = .lineComment)
    {front' tail' rest' : List Char} {c' : Char} {u : Token} (h' : Placed front' c' tail' rest' u)
    (htext : front ++ ((c :: tail) ++ rest) = front' ++ ((c' :: tail') ++ rest'))
    (hbefore : t.range.Before u.range) : t.range.stop.line < u.range.start.line := by
  rw [Range.Before, h.range_stop, h'.range_start] at hbefore
  rw [h.range_stop, h'.range_start]
  rw [← List.append_assoc] at htext
  have hhead := h.rest_of_lineComment hkind
  have hne : rest ≠ (c' :: tail') ++ rest' := by
    intro hrest
    rw [hrest] at hhead
    exact absurd (hhead c' rfl) (ne_of_isBlank h'.first (by decide))
  rcases List.append_eq_append_iff.mp htext with ⟨between, rfl, hrest⟩ | ⟨between, hfront, hrest⟩
  · cases between with
    | nil => exact absurd hrest hne
    | cons d between =>
        rw [hrest] at hhead
        obtain rfl : d = '\n' := hhead d rfl
        rw [after_append (Position.origin) (front ++ (c :: tail))]
        have hle := Position.le_after between
          ((Position.origin.after (front ++ (c :: tail))).advance '\n')
        rw [Position.le_def] at hle
        have hnext : ((Position.origin.after (front ++ (c :: tail))).advance '\n').line =
            (Position.origin.after (front ++ (c :: tail))).line + 1 := rfl
        show _ < (((Position.origin.after (front ++ (c :: tail))).advance '\n').after between).line
        omega
  · cases between with
    | nil => exact absurd hrest.symm hne
    | cons d between =>
        rw [hfront, after_append] at hbefore
        exact absurd hbefore (not_le_of_gt (Position.lt_after_cons _ d between))

end Lexer.Placed

/-- The tokens of a text come one after the other, whatever roles they have been given. -/
theorem TokenStream.sorted_of_tokenize {text : String} {s : TokenStream}
    (h : Lexer.tokenize text = .ok (s.tokens.toList.map Token.plain)) : s.Sorted := by
  have hranges : (s.tokens.toList.map Token.plain).map (·.range) =
      s.tokens.toList.map (·.range) := by
    rw [List.map_map]
    rfl
  obtain ⟨_, hproper, hapart⟩ :=
    Token.ordered_of_map_range hranges.symm (Lexer.ordered_of_tokenize h)
  exact ⟨Nat.le_of_eq Array.length_toList, hproper, hapart⟩

theorem TokenStream.exists_placed {text : String} {s : TokenStream}
    (h : Lexer.tokenize text = .ok (s.tokens.toList.map Token.plain)) {i : Nat} {t : Token}
    (ht : s.get? i = some t) : ∃ front c tail rest,
      text.toList = front ++ ((c :: tail) ++ rest) ∧ Lexer.Placed front c tail rest t.plain := by
  have hread : Lexer.tokenizeFrom (Position.origin.after []) text.toList =
    .ok (s.tokens.toList.map Token.plain) := h
  have hmem := List.mem_map_of_mem (f := Token.plain) (mem_of_get? ht)
  exact Lexer.exists_placed _ (Nat.le_refl _) hread _ hmem

theorem TokenStream.onLines_of_tokenize {text : String} {s : TokenStream}
    (h : Lexer.tokenize text = .ok (s.tokens.toList.map Token.plain)) :
    s.OnLines (Lines.ofString text) := by
  have hsorted := sorted_of_tokenize h
  refine ⟨hsorted, ?_, ?_, ?_, ?_⟩
  · intro i t ht
    obtain ⟨front, c, tail, rest, heq, hplaced⟩ := exists_placed h ht
    rw [Lines.ofString, heq]
    exact hplaced.start_nonblank
  · intro i t ht hkind
    obtain ⟨front, c, tail, rest, heq, hplaced⟩ := exists_placed h ht
    rw [Lines.ofString, heq]
    exact hplaced.stop_nonblank hkind
  · intro i j t u ht hu hij hkind
    obtain ⟨front, c, tail, rest, heq, htplaced⟩ := exists_placed h ht
    obtain ⟨front', c', tail', rest', heq', huplaced⟩ := exists_placed h hu
    have hbefore : t.range.Before u.range := hsorted.before ht hu hij
    show t.plain.range.stop.line < u.plain.range.start.line
    exact htplaced.line_lt hkind huplaced (heq.symm.trans heq') hbefore
  · intro i t ht
    obtain ⟨front, c, tail, rest, heq, hplaced⟩ := exists_placed h ht
    rw [Lines.ofString, heq]
    exact hplaced.line_lt_count

theorem Document.onLines_of_parse {uri text : String} {c : Configuration} {d : Document}
    (h : parse uri text c = .ok d) : d.tokens.OnLines d.lines := by
  obtain ⟨tokens, _, htokens, rfl, _, _, hlines, _⟩ := tokens_of_parse h
  rw [hlines]
  exact TokenStream.onLines_of_tokenize htokens

namespace DeletionRange

/-! ## Edits that wrap tokens -/

/-- The range takes the tokens from `first` to `last` and no other ones, and it starts below the
comments in front that end their lines. -/
structure Wraps (tokens : TokenStream) (first last : Nat) (r : Range) : Prop where
  takes : ∀ {i t}, first ≤ i → i ≤ last → tokens.get? i = some t → r.contains t.range = true
  before : ∀ {i t}, i < first → tokens.get? i = some t → t.range.Before r ∧
    (t.kind = .lineComment → t.range.stop.line < r.start.line)
  after : ∀ {i t}, last < i → tokens.get? i = some t → r.Before t.range

variable {tokens : TokenStream} {context : DeletionContext} {lines : Lines} {first last i j : Nat}
variable {r s : Range} {t u : Token}

theorem Wraps.contains_iff (h : Wraps tokens first last r) (hs : tokens.Sorted)
    (hi : tokens.get? i = some t) : r.contains t.range = true ↔ first ≤ i ∧ i ≤ last := by
  refine ⟨fun hcontains => ?_, fun ⟨hfirst, hlast⟩ => h.takes hfirst hlast hi⟩
  obtain ⟨hstart, hstop⟩ := Range.contains_iff.mp hcontains
  have hproper := hs.proper hi
  constructor
  · refine Nat.le_of_not_lt fun hlt => ?_
    exact absurd (le_trans (h.before hlt hi).1 hstart) (not_le_of_gt hproper)
  · refine Nat.le_of_not_lt fun hlt => ?_
    exact absurd (le_trans hstop (h.after hlt hi)) (not_le_of_gt hproper)

/-- A range from the end of the token in front, or from the first token, wraps the tokens in
front of what follows. -/
theorem Wraps.of_start (h : tokens.OnLines lines) (ht : tokens.get? first = some t)
    (hu : tokens.get? last = some u)
    (hstart : r.start = t.range.start ∨ ∃ v, 0 < first ∧ tokens.get? (first - 1) = some v ∧
      v.kind ≠ .lineComment ∧ r.start = v.range.stop)
    (hstop : u.range.stop ≤ r.stop)
    (hafter : ∀ {i v}, last < i → tokens.get? i = some v → r.stop ≤ v.range.start) :
    Wraps tokens first last r := by
  have hle : r.start ≤ t.range.start := by
    rcases hstart with hstart | ⟨v, hpos, hv, _, hstart⟩
    · exact le_of_eq hstart
    · rw [hstart]
      exact h.sorted.before hv ht (by omega)
  refine ⟨?_, ?_, fun hi hv => hafter hi hv⟩
  · intro i v hfirst hlast hv
    rw [Range.contains_iff]
    exact ⟨le_trans hle (h.sorted.start_le ht hv hfirst),
      le_trans (h.sorted.stop_le hv hu hlast) hstop⟩
  · intro i v hi hv
    rcases hstart with hstart | ⟨w, hpos, hw, hkind, hstart⟩
    · rw [Range.Before, hstart]
      exact ⟨h.sorted.before hv ht hi, fun hcomment => h.line_lt hv ht hi hcomment⟩
    · rw [Range.Before, hstart]
      refine ⟨h.sorted.stop_le hv hw (by omega), fun hcomment => ?_⟩
      rcases Nat.lt_or_eq_of_le (Nat.le_sub_one_of_lt hi) with hlt | rfl
      · have hline := h.line_lt hv hw hlt hcomment
        have hproper := h.sorted.proper hw
        rw [Range.Proper, Position.lt_def] at hproper
        omega
      · rw [hw] at hv
        rw [Option.some.inj hv] at hkind
        exact absurd hcomment hkind

theorem not_allBlank {cs : List Char} {n : Nat} {c : Char} (hc : cs[n]? = some c)
    (hblank : Text.isBlank c = false) : Text.allBlank cs = false := by
  rw [← Bool.not_eq_true]
  intro hall
  have := List.all_eq_true.mp hall c (List.mem_of_getElem? hc)
  rw [hblank] at this
  cases this

/-- Tokens in front end on an earlier line than a token with nothing but blanks in front of it. -/
theorem stop_line_lt (h : tokens.OnLines lines) (ht : tokens.get? first = some t)
    (hbefore : Text.allBlank ((lines.lineText t.range.start.line).take t.range.start.character) =
      true) (hi : i < first) (hu : tokens.get? i = some u) :
    u.range.stop.line < t.range.start.line := by
  by_cases hkind : u.kind = .lineComment
  · exact h.line_lt hu ht hi hkind
  · have hle := h.sorted.before hu ht hi
    rw [Range.Before, Position.le_def] at hle
    rcases hle with hlt | ⟨hline, hcharacter⟩
    · exact hlt
    · obtain ⟨c, n, hblank, hstop, hc⟩ := h.stop_nonblank hu hkind
      have htake : ((lines.lineText t.range.start.line).take t.range.start.character)[n]? =
          some c := by
        rw [List.getElem?_take, if_pos (by omega), ← hline, hc]
      rw [not_allBlank htake hblank] at hbefore
      cases hbefore

/-- Tokens behind start on a later line than a token with nothing but blanks behind it. -/
theorem lt_start_line (h : tokens.OnLines lines) (ht : tokens.get? last = some t)
    (hafter : Text.allBlank ((lines.lineText t.range.stop.line).drop t.range.stop.character) =
      true) (hi : last < i) (hu : tokens.get? i = some u) :
    t.range.stop.line < u.range.start.line := by
  have hle := h.sorted.before ht hu hi
  rw [Range.Before, Position.le_def] at hle
  rcases hle with hlt | ⟨hline, hcharacter⟩
  · exact hlt
  · obtain ⟨c, hblank, hc⟩ := h.start_nonblank hu
    have hdrop : ((lines.lineText t.range.stop.line).drop t.range.stop.character)[
        u.range.start.character - t.range.stop.character]? = some c := by
      rw [List.getElem?_drop, Nat.add_sub_cancel' hcharacter, hline, hc]
    rw [not_allBlank hdrop hblank] at hafter
    cases hafter

/-- Whole lines wrap the tokens that stand alone on them. -/
theorem wraps_wholeLines (h : tokens.OnLines lines) (ht : tokens.get? first = some t)
    (hu : tokens.get? last = some u) (hnext : last + 1 < tokens.size)
    (hbefore : Text.allBlank ((lines.lineText t.range.start.line).take t.range.start.character) =
      true)
    (hafter : Text.allBlank ((lines.lineText u.range.stop.line).drop u.range.stop.character) =
      true) :
    Wraps tokens first last (wholeLines lines t.range.start.line u.range.stop.line) := by
  have hcount : u.range.stop.line + 1 < lines.count := by
    obtain ⟨v, hv⟩ : ∃ v, tokens.get? (last + 1) = some v := ⟨_, Array.getElem?_eq_getElem hnext⟩
    have hlt := lt_start_line h hu hafter (Nat.lt_succ_self last) hv
    have hbound := h.line_lt_count hv
    omega
  rw [wholeLines, if_pos hcount]
  refine ⟨?_, ?_, ?_⟩
  · intro i v hfirst hlast hv
    have hstart := h.sorted.start_le ht hv hfirst
    have hstop := h.sorted.stop_le hv hu hlast
    rw [Position.le_def] at hstart hstop
    rw [Range.contains_iff, Position.le_def, Position.le_def]
    dsimp only
    omega
  · intro i v hi hv
    have hlt := stop_line_lt h ht hbefore hi hv
    rw [Range.Before, Position.le_def]
    exact ⟨Or.inl hlt, fun _ => hlt⟩
  · intro i v hi hv
    have hlt := lt_start_line h hu hafter hi hv
    rw [Range.Before, Position.le_def]
    dsimp only
    omega

/-- Tokens alone on their lines go with the lines, others with the blanks on one side of them. -/
theorem widen_cases (h : context.tokens.OnLines context.lines)
    (ht : context.tokens.get? first = some t) (hu : context.tokens.get? last = some u) :
    (Text.allBlank ((context.lines.lineText t.range.start.line).take t.range.start.character) =
        true ∧
      Text.allBlank ((context.lines.lineText u.range.stop.line).drop u.range.stop.character) =
        true ∧
      widen context first last =
        wholeLines context.lines t.range.start.line u.range.stop.line) ∨
    Wraps context.tokens first last (widen context first last) := by
  have hstop : ∀ {i v}, last < i → context.tokens.get? i = some v →
      u.range.stop ≤ v.range.start := fun hi hv => h.sorted.before hu hv hi
  simp only [widen, TokenStream.rangeAt_of_get? ht, TokenStream.rangeAt_of_get? hu]
  split
  · next hblank =>
    rw [Bool.and_eq_true] at hblank
    exact Or.inl ⟨hblank.1, hblank.2, rfl⟩
  · right
    split
    · next next hfilter =>
      obtain ⟨hget, _⟩ := Option.filter_eq_some_iff.mp hfilter
      refine .of_start h ht hu (Or.inl rfl) (hstop (Nat.lt_succ_self last) hget) ?_
      exact fun hi hv => h.sorted.start_le hget hv hi
    · split
      · next hzero =>
        subst hzero
        refine ⟨?_, fun hi _ => absurd hi (Nat.not_lt_zero _), hstop⟩
        intro i v _ hlast hv
        rw [Range.contains_iff, Position.le_def]
        exact ⟨by simp only [Position.origin]; omega, h.sorted.stop_le hv hu hlast⟩
      · next hpos =>
        split
        · next previous hget =>
          split
          · exact .of_start h ht hu (Or.inl rfl) (le_refl _) hstop
          · next hkind =>
            refine .of_start h ht hu (Or.inr ⟨previous, by omega, hget, ?_, rfl⟩) (le_refl _) hstop
            intro hcomment
            have hline := h.line_lt hget ht (by omega) hcomment
            simp [hcomment, hline] at hkind
        · next hnone =>
          have hlt := TokenStream.lt_size_of_get? ht
          rw [TokenStream.get?, Array.getElem?_eq_none_iff] at hnone
          exact absurd hlt (by rw [TokenStream.size]; omega)

/-- Tokens and the blanks around them. -/
theorem wraps_widen (h : context.tokens.OnLines context.lines)
    (ht : context.tokens.get? first = some t) (hu : context.tokens.get? last = some u)
    (hnext : last + 1 < context.tokens.size) :
    Wraps context.tokens first last (widen context first last) := by
  rcases widen_cases h ht hu with ⟨hbefore, hafter, hlines⟩ | hwraps
  · rw [hlines]
    exact wraps_wholeLines h ht hu hnext hbefore hafter
  · exact hwraps

theorem wraps_betweenBrackets? (h : tokens.OnLines lines) (ht : tokens.get? first = some t)
    (hu : tokens.get? last = some u) (hr : betweenBrackets? tokens first last = some r) :
    Wraps tokens first last r := by
  rw [betweenBrackets?] at hr
  split at hr
  · cases hr
  · next hpos =>
    split at hr
    · next opening closing hopening hclosing =>
      split at hr
      · next hbrackets =>
        obtain rfl := Option.some.inj hr
        have hkind : opening.kind ≠ .lineComment := by
          intro hcomment
          simp [Token.is, hcomment] at hbrackets
        refine .of_start h ht hu (Or.inr ⟨opening, by omega, hopening, hkind, rfl⟩)
          (h.sorted.before hu hclosing (Nat.lt_succ_self last)) ?_
        exact fun hi hv => h.sorted.start_le hclosing hv hi
      · cases hr
    · cases hr

theorem wraps_token (h : tokens.OnLines lines) (ht : tokens.get? i = some t) :
    Wraps tokens i i t.range :=
  .of_start h ht ht (Or.inl rfl) (le_refl _) fun hi hv => h.sorted.before ht hv hi

/-! ## The separators next to a range -/

/-- Where the tokens end that go with a range: behind the separator after it and a comment there, or
at the end of the range. -/
theorem lastWithSeparator_cases (tokens : TokenStream) (d : DeletionRange) :
    (∃ next, tokens.nextCode? d.tokens.last = some next ∧
      tokens.test next d.pattern.separates = true ∧
      (d.lastWithSeparator tokens = next ∨ d.lastWithSeparator tokens = next + 1 ∧
        (tokens.trailingComment? next).isSome = true)) ∨
    d.lastWithSeparator tokens = d.tokens.last ∧ ∀ next,
      tokens.nextCode? d.tokens.last = some next →
        tokens.test next d.pattern.separates = false := by
  rw [lastWithSeparator]
  split
  · next next hnext =>
    split
    · next hseparates =>
      refine Or.inl ⟨next, hnext, hseparates, ?_⟩
      split
      · next htrails => exact Or.inr ⟨rfl, htrails⟩
      · exact Or.inl rfl
    · next hother =>
      refine Or.inr ⟨rfl, fun k hk => ?_⟩
      rw [hnext] at hk
      rw [← Option.some.inj hk]
      exact Bool.eq_false_iff.mpr hother
  · next hnone =>
    refine Or.inr ⟨rfl, fun k hk => ?_⟩
    rw [hnone] at hk
    cases hk

theorem test_isComment_of_trailingComment? (h : (tokens.trailingComment? i).isSome = true) :
    tokens.test (i + 1) Token.isComment = true := by
  rw [TokenStream.trailingComment?] at h
  split at h
  · next previous comment _ hcomment =>
    split at h
    · next htrails =>
      rw [Token.trails, Bool.and_eq_true] at htrails
      exact TokenStream.test_eq_true.mpr ⟨comment, hcomment, htrails.1⟩
    · cases h
  · cases h

theorem last_le_lastWithSeparator (tokens : TokenStream) (d : DeletionRange) :
    d.tokens.last ≤ d.lastWithSeparator tokens := by
  rcases lastWithSeparator_cases tokens d with ⟨next, hnext, _, hlast⟩ | ⟨hlast, _⟩
  · have := (TokenStream.nextCode?_bounds hnext).1
    omega
  · exact Nat.le_of_eq hlast.symm

theorem separates_of_le_lastWithSeparator {d : DeletionRange} (hi : tokens.get? i = some t)
    (hcode : t.isCode = true) (hlast : d.tokens.last < i) (hle : i ≤ d.lastWithSeparator tokens) :
    tokens.nextCode? d.tokens.last = some i ∧ d.pattern.separates t = true := by
  have htest := TokenStream.test_eq_true.mpr ⟨t, hi, hcode⟩
  rcases lastWithSeparator_cases tokens d with ⟨next, hnext, hseparates, hend⟩ | ⟨hend, _⟩
  · obtain ⟨_, _, hnone⟩ := TokenStream.nextCode?_eq_some_iff.mp hnext
    obtain rfl : i = next := by
      rcases Nat.lt_trichotomy i next with hlt | heq | hgt
      · rw [hnone i hlast hlt] at htest
        cases htest
      · exact heq
      · -- only a comment stands there
        obtain ⟨hend, htrails⟩ : d.lastWithSeparator tokens = next + 1 ∧
            (tokens.trailingComment? next).isSome = true := by
          rcases hend with hend | hend
          · omega
          · exact hend
        obtain rfl : i = next + 1 := by omega
        have hcomment := test_isComment_of_trailingComment? htrails
        rw [TokenStream.test_of_get? hi] at hcomment
        rw [isCode_eq_false hcomment] at hcode
        cases hcode
    rw [TokenStream.test_of_get? hi] at hseparates
    exact ⟨hnext, hseparates⟩
  · omega

/-- When the separator in front of a range goes: nothing but a closing bracket follows the range. -/
theorem separatorBefore?_eq_some {d : DeletionRange} :
    d.separatorBefore? tokens = some r ↔ ∃ i t, tokens.prevCode? d.tokens.first = some i ∧
      tokens.get? i = some t ∧ d.pattern.separates t = true ∧ r = t.range ∧
      ∀ next, tokens.nextCode? d.tokens.last = some next →
        tokens.test next d.pattern.separates = false ∧
          tokens.test next Token.isCloser = true := by
  rw [separatorBefore?]
  cases hprevious : (tokens.prevCode? d.tokens.first).bind tokens.get? with
  | none =>
      simp only [ite_self]
      constructor
      · intro hr
        cases hr
      · rintro ⟨i, t, hi, ht, _⟩
        rw [hi, Option.bind_some, ht] at hprevious
        cases hprevious
  | some previous =>
      obtain ⟨i, hi, hget⟩ := Option.bind_eq_some_iff.mp hprevious
      have hseparates : ∀ {p : Prop}, (∃ j t, tokens.prevCode? d.tokens.first = some j ∧
          tokens.get? j = some t ∧ d.pattern.separates t = true ∧ r = t.range ∧ p) ↔
            p ∧ d.pattern.separates previous = true ∧ previous.range = r := by
        intro p
        constructor
        · rintro ⟨j, t, hj, ht, his, rfl, hp⟩
          rw [hi, Option.some.injEq] at hj
          rw [← hj, hget, Option.some.injEq] at ht
          exact ⟨hp, ht ▸ his, ht ▸ rfl⟩
        · rintro ⟨hp, his, rfl⟩
          exact ⟨i, previous, hi, hget, his, rfl, hp⟩
      rw [hseparates]
      cases tokens.nextCode? d.tokens.last with
      | none => simp
      | some next => simp

/-! ## The edits of a run -/

variable {flagged : Token → Bool} {d e : DeletionRange}

theorem Run.separates (h : d.Run tokens flagged) : d.pattern.separates = (·.is ",") := by
  rw [h.pattern]
  rfl

theorem comma_of_le_lastWithSeparator (h : d.Run tokens flagged) (hi : tokens.get? i = some t)
    (hcode : t.isCode = true) (hlast : d.tokens.last < i) (hle : i ≤ d.lastWithSeparator tokens) :
    tokens.nextCode? d.tokens.last = some i ∧ t.is "," = true := by
  have hseparates := separates_of_le_lastWithSeparator hi hcode hlast hle
  rwa [h.separates] at hseparates

/-- When the comma in front of a run goes: it is the last one of its list. -/
theorem commaBefore?_eq_some (h : d.Run tokens flagged) :
    d.separatorBefore? tokens = some r ↔ ∃ i t, tokens.prevCode? d.tokens.first = some i ∧
      tokens.get? i = some t ∧ t.is "," = true ∧ r = t.range ∧
      ∀ next, tokens.nextCode? d.tokens.last = some next →
        tokens.test next (·.is ",") = false ∧ tokens.test next Token.isCloser = true := by
  rw [separatorBefore?_eq_some, h.separates]

/-- The tokens that go with a run: its own, the comma behind it with a comment, and the comma in
front of it when it is the last one of its list. -/
def Takes (tokens : TokenStream) (d : DeletionRange) (i : Nat) : Prop :=
  (d.tokens.first ≤ i ∧ i ≤ d.lastWithSeparator tokens) ∨
    (tokens.prevCode? d.tokens.first = some i ∧ (d.separatorBefore? tokens).isSome = true)

theorem takes_of_mem (hfirst : d.tokens.first ≤ i)
    (hlast : i ≤ d.tokens.last) : d.Takes tokens i :=
  Or.inl ⟨hfirst, Nat.le_trans hlast (last_le_lastWithSeparator tokens d)⟩

/-- What goes with a run stands in front of all code behind it that is no comma. -/
theorem Takes.lt_of_last_lt (h : d.Run tokens flagged) (htakes : d.Takes tokens i) {k : Nat}
    (hk : d.tokens.last < k) (ht : tokens.get? k = some t) (hcode : t.isCode = true)
    (hcomma : t.is "," = false) : i < k := by
  have hle := h.first_le_last
  rcases htakes with ⟨_, hlast⟩ | ⟨hprevious, _⟩
  · refine Nat.lt_of_not_le fun hki => ?_
    rw [(comma_of_le_lastWithSeparator h ht hcode hk (Nat.le_trans hki hlast)).2] at hcomma
    cases hcomma
  · have hlt := TokenStream.prevCode?_lt hprevious
    omega

/-- What goes with a run stands behind all code in front of it that is no comma. -/
theorem Takes.gt_of_lt_first (h : d.Run tokens flagged) (htakes : d.Takes tokens i) {k : Nat}
    (hk : k < d.tokens.first) (ht : tokens.get? k = some t) (hcode : t.isCode = true)
    (hcomma : t.is "," = false) : k < i := by
  rcases htakes with ⟨hfirst, _⟩ | ⟨hprevious, hsome⟩
  · exact Nat.lt_of_lt_of_le hk hfirst
  · obtain ⟨r, hr⟩ := Option.isSome_iff_exists.mp hsome
    obtain ⟨j, u, hj, hu, hucomma, _⟩ := (commaBefore?_eq_some h).mp hr
    rw [hprevious] at hj
    obtain rfl := Option.some.inj hj
    obtain ⟨_, _, hnone⟩ := TokenStream.prevCode?_eq_some_iff.mp hprevious
    rcases Nat.lt_trichotomy k i with hlt | rfl | hgt
    · exact hlt
    · rw [ht] at hu
      rw [Option.some.inj hu, hucomma] at hcomma
      cases hcomma
    · have htest := TokenStream.test_eq_true.mpr ⟨t, ht, hcode⟩
      rw [hnone k hgt hk] at htest
      cases htest

/-- The edits of a run: one for the comma in front of it, when that goes, and one for the rest. -/
theorem mem_edits (h : d.Run context.tokens flagged)
    (hlines : context.tokens.OnLines context.lines)
    (hnext : d.lastWithSeparator context.tokens + 1 < context.tokens.size) :
    ∃ main, Wraps context.tokens d.tokens.first (d.lastWithSeparator context.tokens) main ∧
      edits context d = ((d.separatorBefore? context.tokens).toList.map TextEdit.delete) ++
        [TextEdit.delete main] := by
  have hle := h.first_le_last
  have hlast := last_le_lastWithSeparator context.tokens d
  obtain ⟨t, ht⟩ : ∃ t, context.tokens.get? d.tokens.first = some t :=
    ⟨_, Array.getElem?_eq_getElem (Nat.lt_of_le_of_lt hle h.last_lt)⟩
  obtain ⟨u, hu⟩ : ∃ u, context.tokens.get? (d.lastWithSeparator context.tokens) = some u :=
    ⟨_, Array.getElem?_eq_getElem (Nat.lt_of_succ_lt hnext)⟩
  refine ⟨_, ?_, rfl⟩
  cases hbetween : betweenBrackets? context.tokens d.tokens.first
      (d.lastWithSeparator context.tokens) with
  | none => exact wraps_widen hlines ht hu hnext
  | some r => exact wraps_betweenBrackets? hlines ht hu hbetween

theorem exists_wraps (h : d.Run context.tokens flagged)
    (hlines : context.tokens.OnLines context.lines)
    (hnext : d.lastWithSeparator context.tokens + 1 < context.tokens.size) {e : TextEdit}
    (he : e ∈ edits context d) : e.newText = "" ∧ ∃ first last t,
      context.tokens.get? first = some t ∧ first ≤ last ∧
      Wraps context.tokens first last e.range ∧
      ∀ i, first ≤ i → i ≤ last → d.Takes context.tokens i := by
  obtain ⟨main, hmain, hedits⟩ := mem_edits h hlines hnext
  rw [hedits, List.mem_append] at he
  rcases he with he | he
  · obtain ⟨r, hr, rfl⟩ := List.mem_map.mp he
    rw [Option.mem_toList] at hr
    obtain ⟨i, t, hi, ht, _, rfl, _⟩ := (commaBefore?_eq_some h).mp hr
    refine ⟨rfl, i, i, t, ht, Nat.le_refl i, wraps_token hlines ht, fun j hij hji => Or.inr ?_⟩
    obtain rfl := Nat.le_antisymm hji hij
    exact ⟨hi, Option.isSome_iff_exists.mpr ⟨_, hr⟩⟩
  · obtain rfl := List.mem_singleton.mp he
    have hlt : d.tokens.first < context.tokens.size := Nat.lt_of_le_of_lt h.first_le_last h.last_lt
    exact ⟨rfl, _, _, _, Array.getElem?_eq_getElem hlt,
      Nat.le_trans h.first_le_last (last_le_lastWithSeparator context.tokens d), hmain,
      fun i hfirst hlast => Or.inl ⟨hfirst, hlast⟩⟩

/-- Every token that goes with a run is taken by one of its edits. -/
theorem Takes.exists_edit (h : d.Run context.tokens flagged)
    (hlines : context.tokens.OnLines context.lines)
    (hnext : d.lastWithSeparator context.tokens + 1 < context.tokens.size)
    (htakes : d.Takes context.tokens i) (ht : context.tokens.get? i = some t) :
    ∃ e ∈ edits context d, e.range.contains t.range = true := by
  obtain ⟨main, hmain, hedits⟩ := mem_edits h hlines hnext
  rw [hedits]
  rcases htakes with ⟨hfirst, hlast⟩ | ⟨hprevious, hsome⟩
  · exact ⟨_, List.mem_append_right _ List.mem_cons_self, hmain.takes hfirst hlast ht⟩
  · obtain ⟨r, hr⟩ := Option.isSome_iff_exists.mp hsome
    obtain ⟨j, u, hj, hu, _, rfl, _⟩ := (commaBefore?_eq_some h).mp hr
    rw [hprevious] at hj
    obtain rfl := Option.some.inj hj
    rw [ht] at hu
    refine ⟨TextEdit.delete u.range, List.mem_append_left _ (List.mem_map_of_mem ?_), ?_⟩
    · rw [hr]
      exact List.mem_cons_self
    · rw [Option.some.inj hu]
      exact Range.contains_refl _

/-! ## All edits -/

variable {ranges : List DeletionRange}

/-- No edit takes the tokens of another one. -/
theorem pairwise_allEdits (hlines : context.tokens.OnLines context.lines)
    (hruns : Runs context.tokens flagged ranges)
    (hnext : ∀ d ∈ ranges, d.lastWithSeparator context.tokens + 1 < context.tokens.size) :
    (allEdits context ranges).Pairwise fun e f => e.range.Before f.range := by
  refine List.pairwise_flatMap.mpr ⟨?_, hruns.parted.imp_of_mem ?_⟩
  · intro d hd
    have hrun := hruns.run d hd
    obtain ⟨main, hmain, hedits⟩ := mem_edits hrun hlines (hnext d hd)
    rw [hedits]
    cases hseparator : d.separatorBefore? context.tokens with
    | none => exact List.pairwise_singleton _ _
    | some r =>
        obtain ⟨i, t, hi, ht, _, rfl, _⟩ := (commaBefore?_eq_some hrun).mp hseparator
        refine List.pairwise_pair.mpr ?_
        exact (hmain.before (TokenStream.prevCode?_lt hi) ht).1
  · rintro d d' hd hd' ⟨_, k, t, hk, hk', ht, hcode, hcomma⟩ e he f hf
    obtain ⟨_, _, last, _, _, hle, hwraps, htakes⟩ :=
      exists_wraps (hruns.run d hd) hlines (hnext d hd) he
    obtain ⟨_, first, _, _, _, hle', hwraps', htakes'⟩ :=
      exists_wraps (hruns.run d' hd') hlines (hnext d' hd') hf
    have hlt := (htakes last hle (Nat.le_refl _)).lt_of_last_lt (hruns.run d hd) hk ht hcode hcomma
    have hgt := (htakes' first (Nat.le_refl _) hle').gt_of_lt_first (hruns.run d' hd') hk' ht hcode
      hcomma
    have hproper := hlines.sorted.proper ht
    exact le_trans (hwraps.after hlt ht) (le_trans (le_of_lt hproper) (hwraps'.before hgt ht).1)

/-- The edits take what goes with the runs. -/
theorem cuts_iff (hlines : context.tokens.OnLines context.lines)
    (hruns : Runs context.tokens flagged ranges)
    (hnext : ∀ d ∈ ranges, d.lastWithSeparator context.tokens + 1 < context.tokens.size)
    (ht : context.tokens.get? i = some t) :
    TextEdit.cuts (allEdits context ranges) t = true ↔
      ∃ d ∈ ranges, d.Takes context.tokens i := by
  rw [TextEdit.cuts_eq_true]
  constructor
  · rintro ⟨e, he, hcontains⟩
    obtain ⟨d, hd, he⟩ := List.mem_flatMap.mp he
    obtain ⟨_, first, last, _, _, _, hwraps, htakes⟩ :=
      exists_wraps (hruns.run d hd) hlines (hnext d hd) he
    obtain ⟨hfirst, hlast⟩ := (hwraps.contains_iff hlines.sorted ht).mp hcontains
    exact ⟨d, hd, htakes i hfirst hlast⟩
  · rintro ⟨d, hd, htakes⟩
    obtain ⟨e, he, hcontains⟩ := htakes.exists_edit (hruns.run d hd) hlines (hnext d hd) ht
    exact ⟨e, List.mem_flatMap.mpr ⟨d, hd, he⟩, hcontains⟩

end DeletionRange

end AnnotationEdit

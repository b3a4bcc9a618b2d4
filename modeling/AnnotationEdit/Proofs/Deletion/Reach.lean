import AnnotationEdit.Proofs.Deletion.FixedPoints
import AnnotationEdit.Proofs.Deletion.Wrapping

/-!
# What the edits reach

The edits for settled ranges of any kind and pattern, in a text without carriage returns. An edit has
all of some tokens and nothing of the others (`Encloses`), also where it takes the last line of the
text with the line feed in front. Besides the tokens of its range these are one separator and the
comments next to it (`GoesWith`). Between neighbouring ranges stands a code token that does not go
with the first of them (`Parts`), so no two edits overlap (`settled_edits`).
-/

namespace AnnotationEdit

/-- Without a carriage return in front of it, a place is not behind the end of its line. -/
theorem Lines.after_le_lineEnd {front : List Char} (rest : List Char) (h : '\r' ∉ front) :
    Position.origin.after front ≤
      (Lines.mk (front ++ rest)).lineEnd (Position.origin.after front).line := by
  obtain ⟨before, current, r, rs, hfront, hcharacter, _, _, hrow⟩ := exists_row front rest
  have hlength : current.length ≤ (dropReturns (current ++ r)).length := by
    refine length_le_dropReturns fun hlast => h ?_
    rw [hfront]
    exact List.mem_append_right _ (List.mem_of_getLast? hlast)
  refine Position.le_def.mpr (Or.inr ⟨rfl, ?_⟩)
  rw [lineEnd, lineText_eq hrow, ← hcharacter]
  exact hlength

theorem TokenStream.prevCode?_isSome {s : TokenStream} {i j : Nat} (hji : j < i)
    (hj : s.test j Token.isCode = true) : ∃ k, s.prevCode? i = some k ∧ j ≤ k := by
  induction i with
  | zero => omega
  | succ i ih =>
      rw [prevCode?]
      by_cases hi : s.test i Token.isCode = true
      · rw [if_pos hi]
        exact ⟨i, rfl, Nat.le_of_lt_succ hji⟩
      · rw [if_neg hi]
        refine ih (Nat.lt_of_le_of_ne (Nat.le_of_lt_succ hji) ?_)
        rintro rfl
        exact hi hj

/-- The tokens and the lines are those of a text. Identifiers may have been given roles. -/
structure DeletionContext.Reads (context : DeletionContext) (text : String) : Prop where
  tokens : Lexer.tokenize text = .ok (context.tokens.tokens.toList.map Token.plain)
  lines : context.lines = Lines.ofString text

namespace DeletionContext.Reads

variable {context : DeletionContext} {text : String}

theorem onLines (h : context.Reads text) : context.tokens.OnLines context.lines := by
  rw [h.lines]
  exact TokenStream.onLines_of_tokenize h.tokens

theorem stop_le_lineEnd (h : context.Reads text) (hreturn : '\r' ∉ text.toList) {i : Nat}
    {t : Token} (ht : context.tokens.get? i = some t) :
    t.range.stop ≤ context.lines.lineEnd t.range.stop.line := by
  obtain ⟨front, c, tail, rest, heq, hplaced⟩ := TokenStream.exists_placed h.tokens ht
  have hstop : t.range.stop = Position.origin.after (front ++ (c :: tail)) := hplaced.range_stop
  rw [heq, ← List.append_assoc] at hreturn
  rw [h.lines, Lines.ofString, heq, ← List.append_assoc, hstop]
  exact Lines.after_le_lineEnd rest fun hmem => hreturn (List.mem_append_left _ hmem)

end DeletionContext.Reads

namespace DeletionRange

variable {tokens : TokenStream} {context : DeletionContext} {lines : Lines} {text : String}
variable {first last i j k : Nat} {r : Range} {t u : Token} {d e : DeletionRange}

/-! ## What an edit has of the tokens -/

/-- The range has all of the tokens from `first` to `last` and nothing of the other ones. -/
structure Encloses (tokens : TokenStream) (first last : Nat) (r : Range) : Prop where
  takes : ∀ {i t}, first ≤ i → i ≤ last → tokens.get? i = some t → r.contains t.range = true
  before : ∀ {i t}, i < first → tokens.get? i = some t → t.range.Before r
  after : ∀ {i t}, last < i → tokens.get? i = some t → r.Before t.range

theorem Wraps.encloses (h : Wraps tokens first last r) : Encloses tokens first last r :=
  ⟨h.takes, fun hi ht => (h.before hi ht).1, h.after⟩

namespace Encloses

theorem of_overlaps (h : Encloses tokens first last r) (ht : tokens.get? i = some t)
    (hoverlaps : r.overlaps t.range = true) : first ≤ i ∧ i ≤ last := by
  rw [Range.overlaps, Bool.and_eq_true, decide_eq_true_eq, decide_eq_true_eq] at hoverlaps
  constructor
  · refine Nat.le_of_not_lt fun hlt => ?_
    exact absurd (h.before hlt ht) (not_le_of_gt hoverlaps.1)
  · refine Nat.le_of_not_lt fun hlt => ?_
    exact absurd (h.after hlt ht) (not_le_of_gt hoverlaps.2)

theorem isDeletion (h : Encloses tokens first last r) (hs : tokens.Sorted) (hle : first ≤ last)
    (ht : tokens.get? first = some t) : (TextEdit.delete r).isDeletion = true := by
  obtain ⟨hstart, hstop⟩ := Range.contains_iff.mp (h.takes (Nat.le_refl first) hle ht)
  have hlt : r.start < r.stop := lt_of_le_of_lt hstart (lt_of_lt_of_le (hs.proper ht) hstop)
  have hne : r.isEmpty = false := by
    rw [Range.isEmpty, beq_eq_false_iff_ne]
    exact ne_of_lt hlt
  show (!r.isEmpty && true) = true
  rw [hne]
  rfl

end Encloses

/-- Whole lines have all of the tokens that stand alone on them. When the text ends with them, they
start at the end of the line in front. -/
theorem encloses_wholeLines (h : tokens.OnLines lines)
    (hends : ∀ {i t}, tokens.get? i = some t → t.range.stop ≤ lines.lineEnd t.range.stop.line)
    (ht : tokens.get? first = some t) (hu : tokens.get? last = some u)
    (hbefore : Text.allBlank ((lines.lineText t.range.start.line).take t.range.start.character) =
      true)
    (hafter : Text.allBlank ((lines.lineText u.range.stop.line).drop u.range.stop.character) =
      true) :
    Encloses tokens first last (wholeLines lines t.range.start.line u.range.stop.line) := by
  by_cases hnext : last + 1 < tokens.size
  · exact (wraps_wholeLines h ht hu hnext hbefore hafter).encloses
  have hlast : ∀ {i v}, last < i → tokens.get? i = some v → False := by
    intro i v hi hv
    have := TokenStream.lt_size_of_get? hv
    omega
  have hstart : ∀ {i v}, first ≤ i → tokens.get? i = some v →
      t.range.start.line ≤ v.range.start.line := by
    intro i v hi hv
    have hle := h.sorted.start_le ht hv hi
    rw [Position.le_def] at hle
    omega
  have hfront : ∀ {i v}, i < first → tokens.get? i = some v →
      v.range.stop.line < t.range.start.line := fun hi hv => stop_line_lt h ht hbefore hi hv
  have hstop : ∀ {i v}, i ≤ last → tokens.get? i = some v →
      v.range.stop ≤ lines.lineEnd u.range.stop.line :=
    fun hi hv => le_trans (h.sorted.stop_le hv hu hi) (hends hu)
  rw [wholeLines]
  split
  · refine ⟨?_, ?_, fun hi hv => (hlast hi hv).elim⟩
    · intro i v hfirst hi hv
      have hline := hstart hfirst hv
      have hle := h.sorted.stop_le hv hu hi
      rw [Position.le_def] at hle
      rw [Range.contains_iff, Position.le_def, Position.le_def]
      dsimp only
      omega
    · intro i v hi hv
      rw [Range.Before, Position.le_def]
      exact Or.inl (hfront hi hv)
  · split
    · next hpos =>
      refine ⟨?_, ?_, fun hi hv => (hlast hi hv).elim⟩
      · intro i v hfirst hi hv
        have hline := hstart hfirst hv
        refine Range.contains_iff.mpr ⟨Position.le_def.mpr (Or.inl ?_), hstop hi hv⟩
        show t.range.start.line - 1 < v.range.start.line
        omega
      · intro i v hi hv
        have hline := hfront hi hv
        have hend := hends hv
        rw [Range.Before]
        rcases Nat.lt_or_eq_of_le (Nat.le_sub_one_of_lt hline) with hlt | heq
        · exact Position.le_def.mpr (Or.inl hlt)
        · rwa [heq] at hend
    · next hzero =>
      refine ⟨?_, ?_, fun hi hv => (hlast hi hv).elim⟩
      · intro i v hfirst hi hv
        refine Range.contains_iff.mpr ⟨Position.le_def.mpr ?_, hstop hi hv⟩
        show 0 < v.range.start.line ∨ 0 = v.range.start.line ∧ 0 ≤ v.range.start.character
        omega
      · intro i v hi hv
        have hline := hfront hi hv
        omega

theorem encloses_widen (h : context.Reads text) (hreturn : '\r' ∉ text.toList)
    (ht : context.tokens.get? first = some t) (hu : context.tokens.get? last = some u) :
    Encloses context.tokens first last (widen context first last) := by
  rcases widen_cases h.onLines ht hu with ⟨hbefore, hafter, hlines⟩ | hwraps
  · rw [hlines]
    exact encloses_wholeLines h.onLines (h.stop_le_lineEnd hreturn) ht hu hbefore hafter
  · exact hwraps.encloses

/-! ## What goes with a range -/

/-- The tokens that go with a range besides its own: the separator behind it, or the one in front
when a closing bracket follows the range or nothing does; and the comments up to the separator behind
and right behind it on its line. -/
inductive GoesWith (tokens : TokenStream) (d : DeletionRange) (i : Nat) : Prop
  | separatorBehind (hnext : tokens.nextCode? d.tokens.last = some i)
      (hseparates : tokens.test i d.pattern.separates = true)
  | separatorInFront (hprevious : tokens.prevCode? d.tokens.first = some i)
      (hseparates : tokens.test i d.pattern.separates = true)
      (hlast : ∀ next, tokens.nextCode? d.tokens.last = some next →
        tokens.test next d.pattern.separates = false ∧ tokens.test next Token.isCloser = true)
  | commentBetween {next : Nat} (hnext : tokens.nextCode? d.tokens.last = some next)
      (hseparates : tokens.test next d.pattern.separates = true)
      (hcomment : tokens.test i Token.isComment = true) (hlast : d.tokens.last < i) (hlt : i < next)
  | commentBehind {next : Nat} (hnext : tokens.nextCode? d.tokens.last = some next)
      (hseparates : tokens.test next d.pattern.separates = true) (heq : i = next + 1)
      (htrails : (tokens.trailingComment? next).isSome = true)

/-- What is taken behind a range is the separator there and comments next to it. -/
theorem goesWith_of_le_lastWithSeparator (ht : tokens.get? i = some t)
    (hlast : d.tokens.last < i) (hle : i ≤ d.lastWithSeparator tokens) : GoesWith tokens d i := by
  rcases lastWithSeparator_cases tokens d with ⟨next, hnext, hseparates, hend⟩ | ⟨hend, _⟩
  · rcases Nat.lt_trichotomy i next with hlt | rfl | hgt
    · refine .commentBetween hnext hseparates ?_ hlast hlt
      have hcode := (TokenStream.nextCode?_eq_some_iff.mp hnext).2.2 i hlast hlt
      rw [TokenStream.test_of_get? ht, Token.isCode, Bool.not_eq_false'] at hcode
      rwa [TokenStream.test_of_get? ht]
    · exact .separatorBehind hnext hseparates
    · rcases hend with hend | ⟨hend, htrails⟩
      · omega
      · exact .commentBehind hnext hseparates (by omega) htrails
  · omega

/-- The edits of a range: one for the separator in front of it, when that goes, and one that has the
range and what goes with it behind. -/
theorem exists_encloses (h : context.Reads text) (hreturn : '\r' ∉ text.toList)
    (hd : d.InBounds context.tokens) :
    ∃ main, Encloses context.tokens d.tokens.first (d.lastWithSeparator context.tokens) main ∧
      edits context d = ((d.separatorBefore? context.tokens).toList.map TextEdit.delete) ++
        [TextEdit.delete main] := by
  obtain ⟨t, ht⟩ : ∃ t, context.tokens.get? d.tokens.first = some t :=
    ⟨_, Array.getElem?_eq_getElem (Nat.lt_of_le_of_lt hd.first_le_last hd.last_lt)⟩
  obtain ⟨u, hu⟩ : ∃ u, context.tokens.get? (d.lastWithSeparator context.tokens) = some u :=
    ⟨_, Array.getElem?_eq_getElem (lastWithSeparator_lt hd)⟩
  refine ⟨_, ?_, rfl⟩
  cases hbetween : betweenBrackets? context.tokens d.tokens.first
      (d.lastWithSeparator context.tokens) with
  | none => exact encloses_widen h hreturn ht hu
  | some r => exact (wraps_betweenBrackets? h.onLines ht hu hbetween).encloses

/-- Every edit of a range has some tokens as a whole, and these are tokens of the range or go
with it. -/
theorem encloses_of_mem_edits (h : context.Reads text) (hreturn : '\r' ∉ text.toList)
    (hd : d.InBounds context.tokens) {e : TextEdit} (he : e ∈ edits context d) :
    e.isDeletion = true ∧ ∃ first last, Encloses context.tokens first last e.range ∧
      ∀ i t, context.tokens.get? i = some t → first ≤ i → i ≤ last →
        (d.tokens.first ≤ i ∧ i ≤ d.tokens.last) ∨ GoesWith context.tokens d i := by
  obtain ⟨main, hmain, hedits⟩ := exists_encloses h hreturn hd
  have hsorted := h.onLines.sorted
  rw [hedits, List.mem_append] at he
  rcases he with he | he
  · obtain ⟨r, hr, rfl⟩ := List.mem_map.mp he
    obtain ⟨i, t, hi, ht, hseparates, rfl, hlast⟩ :=
      separatorBefore?_eq_some.mp (Option.mem_toList.mp hr)
    have hencloses := (wraps_token h.onLines ht).encloses
    refine ⟨hencloses.isDeletion hsorted (Nat.le_refl i) ht, i, i, hencloses, ?_⟩
    intro j u _ hij hji
    obtain rfl := Nat.le_antisymm hji hij
    rw [← TokenStream.test_of_get? (p := d.pattern.separates) ht] at hseparates
    exact Or.inr (.separatorInFront hi hseparates hlast)
  · obtain rfl := List.mem_singleton.mp he
    have hfirst : d.tokens.first < context.tokens.size :=
      Nat.lt_of_le_of_lt hd.first_le_last hd.last_lt
    have hle := Nat.le_trans hd.first_le_last (last_le_lastWithSeparator context.tokens d)
    refine ⟨hmain.isDeletion hsorted hle (Array.getElem?_eq_getElem hfirst), _, _, hmain, ?_⟩
    intro i t ht hi hend
    rcases Nat.lt_or_ge d.tokens.last i with hlast | hlast
    · exact Or.inr (goesWith_of_le_lastWithSeparator ht hlast hend)
    · exact Or.inl ⟨hi, hlast⟩

/-! ## Edits of different ranges -/

/-- The code token in front of the second range does not go with the first one. -/
def Parts (tokens : TokenStream) (d e : DeletionRange) : Prop :=
  ∃ k, tokens.prevCode? e.tokens.first = some k ∧ d.lastWithSeparator tokens < k

theorem parts_of_adjacent (h : adjacent tokens d e = false) : Parts tokens d e := by
  rw [adjacent] at h
  split at h
  · cases h
  next hlt =>
  have hbetween : codeBetween tokens d e =
    tokens.codeIn (d.tokens.last + 1) e.tokens.first := rfl
  rw [hbetween] at h
  obtain ⟨j, hdj, hje, hcode⟩ : ∃ j, d.tokens.last + 1 ≤ j ∧ j < e.tokens.first ∧
      tokens.test j Token.isCode = true := by
    by_contra hnone
    rw [TokenStream.codeIn_eq_nil.mpr fun j hdj hje => Bool.eq_false_iff.mpr fun hcode =>
      hnone ⟨j, hdj, hje, hcode⟩] at h
    cases h
  obtain ⟨k, hk, hjk⟩ := TokenStream.prevCode?_isSome hje hcode
  refine ⟨k, hk, Nat.lt_of_not_le fun hle => ?_⟩
  obtain ⟨hke, hkcode, hafter⟩ := TokenStream.prevCode?_eq_some_iff.mp hk
  obtain ⟨t, ht, htcode⟩ := TokenStream.test_eq_true.mp hkcode
  obtain ⟨hnext, hseparates⟩ := separates_of_le_lastWithSeparator ht htcode (by omega) hle
  obtain ⟨_, _, hbefore⟩ := TokenStream.nextCode?_eq_some_iff.mp hnext
  have hsingle : tokens.codeIn (d.tokens.last + 1) e.tokens.first = [t] := by
    rw [← TokenStream.codeIn_append (k := k) (by omega) (Nat.le_of_lt hke),
      TokenStream.codeIn_eq_cons ht htcode hke,
      TokenStream.codeIn_eq_nil.mpr fun m hm hmk => hbefore m (by omega) hmk,
      TokenStream.codeIn_eq_nil.mpr fun m hm hme => hafter m (by omega) hme]
    rfl
  rw [hsingle] at h
  simp only [hseparates, Bool.true_or] at h
  cases h

theorem Parts.trans {f : DeletionRange} (hde : Parts tokens d e) (he : e.InBounds tokens)
    (hef : Parts tokens e f) : Parts tokens d f := by
  obtain ⟨k, hk, hdk⟩ := hde
  obtain ⟨m, hm, hem⟩ := hef
  refine ⟨m, hm, ?_⟩
  have hke := TokenStream.prevCode?_lt hk
  have hrange := he.first_le_last
  have hle := last_le_lastWithSeparator tokens e
  omega

theorem pairwise_parts {ranges : List DeletionRange} (hbounds : ∀ d ∈ ranges, d.InBounds tokens)
    (hchain : ranges.IsChain fun d e => adjacent tokens d e = false) :
    ranges.Pairwise (Parts tokens) := by
  let R (d e : DeletionRange) : Prop := Parts tokens d e ∧ e.InBounds tokens
  have : Trans R R R := ⟨fun hde hef => ⟨hde.1.trans hde.2 hef.1, hef.2⟩⟩
  refine (List.isChain_iff_pairwise.mp (hchain.imp_of_mem_imp (S := R) ?_)).imp And.left
  intro d e _ he hadjacent
  exact ⟨parts_of_adjacent hadjacent, hbounds e he⟩

theorem Parts.before (h : context.Reads text) (hreturn : '\r' ∉ text.toList)
    (hd : d.InBounds context.tokens) (he : e.InBounds context.tokens)
    (hparts : Parts context.tokens d e) {a b : TextEdit} (ha : a ∈ edits context d)
    (hb : b ∈ edits context e) : a.range.Before b.range := by
  have hsorted := h.onLines.sorted
  obtain ⟨k, hk, hdk⟩ := hparts
  obtain ⟨hke, hkcode, _⟩ := TokenStream.prevCode?_eq_some_iff.mp hk
  obtain ⟨t, ht, _⟩ := TokenStream.test_eq_true.mp hkcode
  have hbefore : a.range.Before t.range := by
    obtain ⟨main, hmain, hedits⟩ := exists_encloses h hreturn hd
    rw [hedits, List.mem_append] at ha
    rcases ha with ha | ha
    · obtain ⟨r, hr, rfl⟩ := List.mem_map.mp ha
      obtain ⟨i, u, hi, hu, _, rfl, _⟩ := separatorBefore?_eq_some.mp (Option.mem_toList.mp hr)
      have hi := TokenStream.prevCode?_lt hi
      have hrange := hd.first_le_last
      have hle := last_le_lastWithSeparator context.tokens d
      exact hsorted.before hu ht (by omega)
    · obtain rfl := List.mem_singleton.mp ha
      exact hmain.after hdk ht
  obtain ⟨main, hmain, hedits⟩ := exists_encloses h hreturn he
  rw [hedits, List.mem_append] at hb
  rcases hb with hb | hb
  · -- the separator in front of the second range is that token
    obtain ⟨r, hr, rfl⟩ := List.mem_map.mp hb
    obtain ⟨i, u, hi, hu, _, rfl, _⟩ := separatorBefore?_eq_some.mp (Option.mem_toList.mp hr)
    rw [hk] at hi
    obtain rfl := Option.some.inj hi
    rw [ht] at hu
    obtain rfl := Option.some.inj hu
    exact hbefore
  · obtain rfl := List.mem_singleton.mp hb
    exact le_trans hbefore (le_trans (le_of_lt (hsorted.proper ht)) (hmain.before hke ht))

/-! ## All edits of settled ranges -/

/-- The tokens of settled ranges are taken by the edits of all ranges. -/
theorem exists_takes (h : context.Reads text) (hreturn : '\r' ∉ text.toList)
    {ranges : List DeletionRange} (hbounds : ∀ d ∈ ranges, d.InBounds context.tokens)
    (hd : d ∈ ranges) (ht : context.tokens.get? i = some t) (hfirst : d.tokens.first ≤ i)
    (hlast : i ≤ d.tokens.last) :
    ∃ e ∈ allEdits context ranges, e.range.contains t.range = true := by
  obtain ⟨main, hmain, hedits⟩ := exists_encloses h hreturn (hbounds d hd)
  have hend := Nat.le_trans hlast (last_le_lastWithSeparator context.tokens d)
  refine ⟨TextEdit.delete main, List.mem_flatMap.mpr ⟨d, hd, ?_⟩, hmain.takes hfirst hend ht⟩
  rw [hedits]
  exact List.mem_append_right _ List.mem_cons_self

theorem pairwise_allEdits_of_chain (h : context.Reads text) (hreturn : '\r' ∉ text.toList)
    {ranges : List DeletionRange} (hbounds : ∀ d ∈ ranges, d.InBounds context.tokens)
    (hchain : ranges.IsChain fun d e => adjacent context.tokens d e = false) :
    (allEdits context ranges).Pairwise fun e f => e.range.Before f.range := by
  refine List.pairwise_flatMap.mpr ⟨fun d hd => ?_, ?_⟩
  · obtain ⟨main, hmain, hedits⟩ := exists_encloses h hreturn (hbounds d hd)
    rw [hedits]
    cases hseparator : d.separatorBefore? context.tokens with
    | none => exact List.pairwise_singleton _ _
    | some r =>
        obtain ⟨i, t, hi, ht, _, rfl, _⟩ := separatorBefore?_eq_some.mp hseparator
        exact List.pairwise_pair.mpr (hmain.before (TokenStream.prevCode?_lt hi) ht)
  · refine (pairwise_parts hbounds hchain).imp_of_mem ?_
    intro d e hd he hparts a ha b hb
    exact hparts.before h hreturn (hbounds d hd) (hbounds e he) ha hb

/-- What the edits for settled ranges do to a text without carriage returns: they delete, each ends
in front of the next one, they take the tokens of all ranges, and each edit is that of a range, of
which it takes nothing else but what goes with it. -/
theorem settled_edits {ranges : List DeletionRange} (h : context.Reads text)
    (hreturn : '\r' ∉ text.toList) (hbounds : ∀ d ∈ ranges, d.InBounds context.tokens) :
    (∀ e ∈ allEdits context (settle context ranges), e.isDeletion = true) ∧
    ((allEdits context (settle context ranges)).Pairwise fun e f => e.range.Before f.range) ∧
    (∀ d ∈ settle context ranges, ∀ i t, context.tokens.get? i = some t →
      d.tokens.first ≤ i → i ≤ d.tokens.last →
        ∃ e ∈ allEdits context (settle context ranges), e.range.contains t.range = true) ∧
    ∀ e ∈ allEdits context (settle context ranges), ∃ d ∈ settle context ranges,
      e ∈ edits context d ∧ ∀ i t, context.tokens.get? i = some t →
        e.range.overlaps t.range = true →
          (d.tokens.first ≤ i ∧ i ≤ d.tokens.last) ∨ GoesWith context.tokens d i := by
  obtain ⟨_, hsettled⟩ := settled_settle context ranges hbounds
  have hresult := hsettled.inBounds
  refine ⟨fun e he => ?_, pairwise_allEdits_of_chain h hreturn hresult hsettled.isChain_adjacent,
    fun d hd i t ht hfirst hlast => exists_takes h hreturn hresult hd ht hfirst hlast,
    fun e he => ?_⟩
  · obtain ⟨d, hd, he⟩ := List.mem_flatMap.mp he
    exact (encloses_of_mem_edits h hreturn (hresult d hd) he).1
  · obtain ⟨d, hd, he⟩ := List.mem_flatMap.mp he
    obtain ⟨_, first, last, hencloses, htakes⟩ := encloses_of_mem_edits h hreturn (hresult d hd) he
    refine ⟨d, hd, he, fun i t ht hoverlaps => ?_⟩
    obtain ⟨hi, hi'⟩ := hencloses.of_overlaps ht hoverlaps
    exact htakes i t ht hi hi'

/-- The last two of three items; the comma in front of them is on the line above. -/
theorem settled_edits_items :
    ∃ context : DeletionContext, ∃ ranges : List DeletionRange,
      context.Reads "@A : [1,\n2 /* two */, 3]" ∧
      ranges.map (·.tokens) = [⟨6, 6⟩, ⟨9, 9⟩] ∧
      (∀ d ∈ ranges, d.InBounds context.tokens) ∧
      (∀ e ∈ allEdits context (settle context ranges), e.isDeletion = true) ∧
      ((allEdits context (settle context ranges)).Pairwise fun e f => e.range.Before f.range) ∧
      (∀ d ∈ settle context ranges, ∀ i t, context.tokens.get? i = some t →
        d.tokens.first ≤ i → i ≤ d.tokens.last →
          ∃ e ∈ allEdits context (settle context ranges), e.range.contains t.range = true) ∧
      ∀ e ∈ allEdits context (settle context ranges), ∃ d ∈ settle context ranges,
        e ∈ edits context d ∧ ∀ i t, context.tokens.get? i = some t →
          e.range.overlaps t.range = true →
            (d.tokens.first ≤ i ∧ i ≤ d.tokens.last) ∨ GoesWith context.tokens d i := by
  let text := "@A : [1,\n2 /* two */, 3]"
  let context : DeletionContext :=
    ⟨⟨((Lexer.tokenize text).toOption.getD []).toArray⟩, .ofString text, ⟨#[]⟩, []⟩
  let item (i : Nat) : DeletionRange := ⟨.term, .commaList, ⟨i, i⟩, ⟨i, i⟩, false, false⟩
  have hreads : context.Reads text := ⟨by decide +kernel, rfl⟩
  have hbounds : ∀ d ∈ [item 6, item 9], d.InBounds context.tokens := by
    have hsize : context.tokens.size = 11 := by decide +kernel
    intro d hd
    simp only [List.mem_cons, List.not_mem_nil, or_false] at hd
    rcases hd with rfl | rfl
    all_goals exact ⟨Nat.le_refl _, by rw [hsize]; decide⟩
  exact ⟨context, [item 6, item 9], hreads, rfl, hbounds,
    settled_edits hreads (by decide) hbounds⟩

end DeletionRange

end AnnotationEdit

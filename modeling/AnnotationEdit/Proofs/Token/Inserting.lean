import AnnotationEdit.Proofs.Token.Weaving
import AnnotationEdit.Proofs.Writer.Arranging

/-!
# Reading texts that edits leave

Edits that stand apart cut tokens and put texts in. Each text that they put in has code tokens of its
own (`Lexer.codeOf`). Where every text stands in front of a token that a mark precedes, or behind a
token or what is cut behind it (`Put.Fits`), what the edits leave is read as the tokens that stay with
those of the texts in between (`TextEdit.StandApart.exists_codes`).
-/

namespace AnnotationEdit

/-! ## The code tokens of a text -/

namespace Lexer

variable {follow follow' : List Char → Prop} {cs : List Char} {code : List Token}

def codeOf (cs : List Char) : List Token :=
  match tokenizeFrom .origin cs with
  | .ok ts => (ts.filter Token.isCode).map Token.bare
  | .error _ => []

theorem codeOf_eq (h : Codes cs code) : codeOf cs = code.map Token.bare := by
  obtain ⟨ts, hts, hcode⟩ := h .origin
  rw [codeOf, hts]
  exact hcode

theorem codeOf_nil : codeOf [] = [] := codeOf_eq codes_nil

/-- Blanks in front change nothing. -/
theorem codeOf_blanks {bs : List Char} (h : Codes cs code)
    (hbs : ∀ b ∈ bs, Text.isBlank b = true) : codeOf (bs ++ cs) = codeOf cs := by
  rw [codeOf_eq h, codeOf_eq (h.blanks hbs)]

theorem Reads.codes (h : Reads follow cs code) (hnil : follow []) : Codes cs code := by
  have hcodes := h [] [] hnil codes_nil
  rwa [List.append_nil, List.append_nil] at hcodes

theorem Reads.bare (h : Reads follow cs code) : Reads follow cs (code.map Token.bare) := by
  intro rest after hrest hafter p
  obtain ⟨ts, hts, hcode⟩ := h rest after hrest hafter p
  refine ⟨ts, hts, hcode.trans ?_⟩
  rw [List.map_append, List.map_append, List.map_map]
  rfl

theorem Spells.exists_reads {read : List Token → Prop} (h : Spells follow cs read)
    (hnil : follow []) (hlast : ∀ ts, read ts → ∀ t ∈ ts.getLast?, t.kind = .punctuation ∨
      ∀ rest, follow' rest → Break rest) :
    ∃ ts, read ts ∧ Reads follow' cs (ts.map Token.plain) := by
  obtain ⟨ts, hts, hcode, hrun⟩ := h .origin [] hnil
  have hread : tokenizeFrom .origin cs = .ok (ts.map Token.plain) := by
    rw [List.append_nil, tokenizeFrom.eq_def _ []] at hrun
    rw [hrun]
    exact congrArg Except.ok (List.append_nil _)
  refine ⟨ts, hts, ?_⟩
  have hplain : (ts.map Token.plain).filter Token.isCode = ts.map Token.plain := by
    rw [Document.filter_isCode_plain, List.filter_eq_self.mpr hcode]
  rw [← hplain]
  refine reads_of_tokenizeFrom cs.length (Nat.le_refl _) hread fun t ht => ?_
  rw [List.getLast?_map, Option.mem_map] at ht
  obtain ⟨u, hu, rfl⟩ := ht
  rcases hlast ts hts u hu with hmark | hbreak
  · exact Or.inl (Or.inl hmark)
  · refine Or.inr ⟨fun hline => ?_, hbreak⟩
    have hiscode := hcode u (List.mem_of_getLast? hu)
    have hline : u.kind = .lineComment := hline
    rw [Token.isCode, Token.isComment, hline] at hiscode
    cases hiscode

end Lexer

theorem Position.line_le_of_le {p q : Position} (h : p ≤ q) : p.line ≤ q.line := by
  refine Nat.le_of_not_lt fun hlt => ?_
  exact absurd h (not_le_of_gt (Or.inl hlt))

/-! ## Places that fit -/

open Lexer (Anything Break StartsLine Reads)

variable {tokens : List Token} {edits : List TextEdit} {p : Put}

def keptCode (edits : List TextEdit) (tokens : List Token) : List Token :=
  tokens.filter fun t => t.isCode && !TextEdit.cuts edits t

/-- The text may stand in front of a token that a mark precedes, or behind a token or what is cut
behind it. -/
inductive Put.Fits (tokens : List Token) (edits : List TextEdit) (p : Put) : Prop
  | inFront (front : List Token) (mark u : Token) (back : List Token) :
      keptCode edits tokens = front ++ mark :: u :: back → mark.kind = .punctuation →
      p.place = u.range.start → Reads Anything p.text p.code → Fits tokens edits p
  | behind : Break p.text →
      ((∃ u ∈ tokens, p.place = u.range.stop) ∨ ∃ e ∈ edits, p.place = e.range.start) →
      (Reads Anything p.text p.code ∨ Reads Break p.text p.code ∧ ∃ front u back,
        keptCode edits tokens = front ++ u :: back ∧ u.Breaks ∧
        (∀ t ∈ front, t.range.stop ≤ p.place) ∧ p.place ≤ u.range.start) → Fits tokens edits p

/-- Tokens one after the other, where nothing stands behind a comment up to the end of its line. -/
structure Token.InLines (tokens : List Token) : Prop where
  proper : ∀ t ∈ tokens, t.range.Proper
  apart : tokens.Pairwise fun t u => t.range.Before u.range ∧
    (t.kind = .lineComment → t.range.stop.line < u.range.start.line)

namespace Token.InLines

variable {t u : Token}

theorem cases (h : InLines tokens) (ht : t ∈ tokens) (hu : u ∈ tokens) :
    t = u ∨ (t.range.Before u.range ∧
      (t.kind = .lineComment → t.range.stop.line < u.range.start.line)) ∨
      u.range.Before t.range := by
  obtain ⟨i, hi⟩ := List.mem_iff_getElem?.mp ht
  obtain ⟨j, hj⟩ := List.mem_iff_getElem?.mp hu
  rcases eq_or_rel_of_getElem? h.apart hi hj with rfl | htu | hut
  · exact Or.inl (Option.some.inj (hi.symm.trans hj))
  · exact Or.inr (Or.inl htu)
  · exact Or.inr (Or.inr hut.1)

/-- A token that ends where another one starts, or earlier, stands in front of it. -/
theorem line_lt (h : InLines tokens) (ht : t ∈ tokens) (hu : u ∈ tokens)
    (hle : t.range.stop ≤ u.range.start) (hkind : t.kind = .lineComment) :
    t.range.stop.line < u.range.start.line := by
  rcases h.cases ht hu with rfl | ⟨_, hline⟩ | hut
  · exact absurd hle (not_le_of_gt (h.proper t ht))
  · exact hline hkind
  · exact absurd (hle.trans (le_of_lt (h.proper u hu)))
      (not_le_of_gt (lt_of_le_of_lt hut (h.proper t ht)))

theorem ordered (h : InLines tokens) : Token.Ordered tokens.length tokens :=
  ⟨Nat.le_refl _, h.proper, h.apart.imp And.left⟩

end Token.InLines

theorem mem_keptCode {t : Token} : t ∈ keptCode edits tokens ↔
    t ∈ tokens ∧ t.isCode = true ∧ TextEdit.cuts edits t = false := by
  rw [keptCode, List.mem_filter, Bool.and_eq_true, Bool.not_eq_true']

theorem mem_of_keptCode {mark u : Token} {front back : List Token}
    (hkept : keptCode edits tokens = front ++ mark :: u :: back) : u ∈ tokens := by
  have hu : u ∈ keptCode edits tokens := by
    rw [hkept]
    exact List.mem_append_right _ (List.mem_cons_of_mem _ List.mem_cons_self)
  exact (mem_keptCode.mp hu).1

namespace Put.Fits

variable {t u : Token} {front back : List Token}

theorem eq_of_last (hlines : Token.InLines tokens) {mark : Token}
    (hkept : keptCode edits tokens = front ++ mark :: u :: back)
    (hlast : (tokens.filter fun t =>
      !TextEdit.cuts edits t && decide (t.range.stop ≤ u.range.start)).getLast? = some t)
    (hcode : t.isCode = true) : t = mark := by
  have hordered : Token.Ordered _ (keptCode edits tokens) :=
    hlines.ordered.sublist List.filter_sublist
  rw [hkept, List.append_cons] at hordered
  have hapart := List.pairwise_append.mp hordered.apart
  have hfront : (keptCode edits tokens).filter (fun t => decide (t.range.stop ≤ u.range.start)) =
      front ++ [mark] := by
    have hstops : ∀ v ∈ front ++ [mark], v.range.stop ≤ u.range.start := fun v hv =>
      hapart.2.2 v hv u List.mem_cons_self
    rw [hkept, List.append_cons, List.filter_append,
      List.filter_eq_self.mpr fun v hv => decide_eq_true (hstops v hv),
      List.filter_eq_nil_iff.mpr, List.append_nil]
    intro v hv hle
    have hproper := hordered.proper v (List.mem_append_right _ hv)
    rcases List.mem_cons.mp hv with rfl | hv
    · exact absurd (of_decide_eq_true hle) (not_le_of_gt hproper)
    · have hproperU := hordered.proper u (List.mem_append_right _ List.mem_cons_self)
      have hbefore := (List.pairwise_cons.mp hapart.2.1).1 v hv
      exact absurd (of_decide_eq_true hle)
        (not_le_of_gt (lt_trans (lt_of_lt_of_le hproperU hbefore) hproper))
  have hsame : ((tokens.filter fun t => !TextEdit.cuts edits t &&
      decide (t.range.stop ≤ u.range.start)).filter Token.isCode) = front ++ [mark] := by
    rw [← hfront, keptCode, List.filter_filter, List.filter_filter]
    refine List.filter_congr fun v _ => ?_
    rw [← Bool.and_assoc, Bool.and_comm (decide _)]
  have hfiltered : ((tokens.filter fun t => !TextEdit.cuts edits t &&
      decide (t.range.stop ≤ u.range.start)).filter Token.isCode).getLast? = some t := by
    obtain ⟨ts, hts⟩ := List.getLast?_eq_some_iff.mp hlast
    rw [hts, List.filter_append, List.filter_cons_of_pos hcode, List.filter_nil,
      List.getLast?_concat]
  rw [hsame, List.getLast?_concat] at hfiltered
  exact (Option.some.inj hfiltered).symm

theorem eq_of_first (hlines : Token.InLines tokens) {x : Position}
    (hkept : keptCode edits tokens = front ++ u :: back)
    (hfront : ∀ t ∈ front, t.range.stop ≤ x) (hx : x ≤ u.range.start)
    (hfirst : (tokens.find? fun t => !TextEdit.cuts edits t && decide (x ≤ t.range.start)) =
      some t) (hcode : t.isCode = true) : t = u := by
  obtain ⟨hkeeps, as, bs, rfl, has⟩ := List.find?_eq_some_iff_append.mp hfirst
  rw [Bool.and_eq_true, Bool.not_eq_true', decide_eq_true_eq] at hkeeps
  obtain ⟨hcut, hle⟩ := hkeeps
  have hmemU : u ∈ keptCode edits (as ++ t :: bs) := by
    rw [hkept]
    exact List.mem_append_right _ List.mem_cons_self
  obtain ⟨hu, _, hcutU⟩ := mem_keptCode.mp hmemU
  have hmem : t ∈ keptCode edits (as ++ t :: bs) :=
    mem_keptCode.mpr ⟨List.mem_append_right _ List.mem_cons_self, hcode, hcut⟩
  have hordered : Token.Ordered _ (keptCode edits (as ++ t :: bs)) :=
    hlines.ordered.sublist List.filter_sublist
  have hproper := hordered.proper t hmem
  rw [hkept] at hmem hordered
  rcases List.mem_append.mp hmem with hmem | hmem
  · exact absurd (hfront t hmem) (not_le_of_gt (lt_of_le_of_lt hle hproper))
  rcases List.mem_cons.mp hmem with rfl | hmem
  · rfl
  · -- the code behind the place would come first
    have hbefore := (List.pairwise_cons.mp (List.pairwise_append.mp hordered.apart).2.1).1 t hmem
    have hproperU := hordered.proper u (List.mem_append_right _ List.mem_cons_self)
    rcases List.mem_append.mp hu with hu | hu
    · have hnot := has u hu
      rw [hcutU, decide_eq_true hx] at hnot
      cases hnot
    · rcases List.mem_cons.mp hu with rfl | hu
      · rfl
      · have hother := (List.pairwise_cons.mp (List.pairwise_append.mp hlines.apart).2.1).1 u hu
        exact absurd (le_trans (le_of_lt hproper) hother.1)
          (not_le_of_gt (lt_of_lt_of_le hproperU hbefore))

theorem follows_behind (hlines : Token.InLines tokens) (hclean : CleanCut tokens edits)
    (hbreak : Break p.text)
    (hplace : (∃ u ∈ tokens, p.place = u.range.stop) ∨ ∃ e ∈ edits, p.place = e.range.start)
    (ht : t ∈ tokens) (hcut : TextEdit.cuts edits t = false) (hle : t.range.stop ≤ p.place)
    (hline : t.kind = .lineComment → p.place = t.range.stop → StartsLine p.text)
    (hproper : ∀ e ∈ edits, e.range.start ≤ e.range.stop) : p.Follows t := by
  by_cases hkind : t.kind = .lineComment
  · refine Or.inr (Or.inr ⟨hkind, ?_⟩)
    rcases hplace with ⟨u, hu, heq⟩ | ⟨e, he, heq⟩
    · rcases hlines.cases ht hu with rfl | ⟨_, hlt⟩ | hut
      · exact Or.inr ⟨heq, hline hkind heq⟩
      · refine Or.inl (lt_of_lt_of_le (hlt hkind) ?_)
        rw [heq]
        exact Position.line_le_of_le (le_of_lt (hlines.proper u hu))
      · rw [heq] at hle
        exact absurd hle (not_le_of_gt (lt_of_le_of_lt hut (hlines.proper t ht)))
    · rw [heq] at hle ⊢
      rcases hclean.apart e he t ht with hcontains | hbefore | ⟨_, hlt⟩
      · rw [TextEdit.cuts_eq_true.mpr ⟨e, he, hcontains⟩] at hcut
        cases hcut
      · have hempty := (hproper e he).trans hbefore
        exact absurd hle (not_le_of_gt (lt_of_le_of_lt hempty (hlines.proper t ht)))
      · exact Or.inl (hlt hkind)
  · exact Or.inr (Or.inl ⟨hkind, hbreak⟩)

/-- A text that fits is put in beside each token. -/
theorem splits (h : p.Fits tokens edits) (hlines : Token.InLines tokens)
    (hclean : CleanCut tokens edits) (hproper : ∀ e ∈ edits, e.range.start ≤ e.range.stop)
    (ht : t ∈ tokens) : t.range.stop ≤ p.place ∨ p.place ≤ t.range.start := by
  cases h with
  | inFront front mark u back hkept _ heq _ =>
      have hu := mem_of_keptCode hkept
      rw [heq]
      rcases hlines.cases ht hu with rfl | ⟨htu, _⟩ | hut
      · exact Or.inr (le_refl _)
      · exact Or.inl htu
      · exact Or.inr ((le_of_lt (hlines.proper u hu)).trans hut)
  | behind _ hplace _ =>
      rcases hplace with ⟨u, hu, heq⟩ | ⟨e, he, heq⟩
      · rw [heq]
        rcases hlines.cases ht hu with rfl | ⟨htu, _⟩ | hut
        · exact Or.inl (le_refl _)
        · exact Or.inl (htu.trans (le_of_lt (hlines.proper u hu)))
        · exact Or.inr hut
      · rw [heq]
        rcases hclean.apart e he t ht with hcontains | hbefore | ⟨hbehind, _⟩
        · exact Or.inr (Range.contains_iff.mp hcontains).1
        · exact Or.inr ((hproper e he).trans hbefore)
        · exact Or.inl hbehind

/-- A text that fits is not put in behind all tokens. -/
theorem within (h : p.Fits tokens edits) (hlines : Token.InLines tokens)
    (hclean : CleanCut tokens edits) (hproper : ∀ e ∈ edits, e.range.start ≤ e.range.stop) :
    ∃ t ∈ tokens, p.place ≤ t.range.stop := by
  cases h with
  | inFront front mark u back hkept _ heq _ =>
      have hu := mem_of_keptCode hkept
      exact ⟨u, hu, heq ▸ le_of_lt (hlines.proper u hu)⟩
  | behind _ hplace _ =>
      rcases hplace with ⟨u, hu, heq⟩ | ⟨e, he, heq⟩
      · exact ⟨u, hu, le_of_eq heq⟩
      · rw [heq]
        rcases hclean.takes e he with ⟨t, ht, hcontains⟩ | ⟨t, ht, _, hstart⟩
        · exact ⟨t, ht, (Range.contains_iff.mp hcontains).1.trans (le_of_lt (hlines.proper t ht))⟩
        · exact ⟨t, ht, (hproper e he).trans
            ((le_of_eq hstart.symm).trans (le_of_lt (hlines.proper t ht)))⟩

theorem follows (h : p.Fits tokens edits) (hlines : Token.InLines tokens)
    (hclean : CleanCut tokens edits) (hproper : ∀ e ∈ edits, e.range.start ≤ e.range.stop)
    (hlast : (tokens.filter fun t =>
      !TextEdit.cuts edits t && decide (t.range.stop ≤ p.place)).getLast? = some t)
    (hstarts : TextEdit.cuts edits t = false → t.kind = .lineComment → p.place = t.range.stop →
      StartsLine p.text) : p.Follows t := by
  obtain ⟨ht, hkeeps⟩ := List.mem_filter.mp (List.mem_of_getLast? hlast)
  rw [Bool.and_eq_true, Bool.not_eq_true', decide_eq_true_eq] at hkeeps
  obtain ⟨hcut, hle⟩ := hkeeps
  cases h with
  | inFront front mark u back hkept hmark heq _ =>
      rw [heq] at hlast hle
      by_cases hcode : t.isCode = true
      · rw [eq_of_last hlines hkept hlast hcode]
        exact Or.inl (Or.inl hmark)
      · rw [Token.isCode, Bool.not_eq_true', Bool.not_eq_false] at hcode
        by_cases hkind : t.kind = .lineComment
        · refine Or.inr (Or.inr ⟨hkind, Or.inl ?_⟩)
          rw [heq]
          exact hlines.line_lt ht (mem_of_keptCode hkept) hle hkind
        · exact Or.inl (Or.inr (TokenKind.eq_blockComment hcode hkind))
  | behind hbreak hplace _ =>
      exact follows_behind hlines hclean hbreak hplace ht hcut hle (hstarts hcut) hproper

/-- What comes behind a text that fits may follow it, if the texts that are put in there may. -/
theorem reads (h : p.Fits tokens edits) (hlines : Token.InLines tokens) {later : List Put}
    (hlater : ∀ q ∈ later, Reads Anything p.text p.code ∨ Break q.text) :
    Reads Anything p.text p.code ∨
      (Reads Break p.text p.code ∧ (∀ q ∈ later, Break q.text) ∧
        ∀ u, (tokens.find? fun t => !TextEdit.cuts edits t && decide (p.place ≤ t.range.start)) =
          some u → u.isComment = true ∨ u.Breaks) := by
  by_cases hanything : Reads Anything p.text p.code
  · exact Or.inl hanything
  · refine Or.inr ?_
    cases h with
    | inFront _ _ _ _ _ _ _ hreads => exact absurd hreads hanything
    | behind _ _ hreads =>
        obtain ⟨hreads, front, u, back, hkept, hu, hfront, hx⟩ := hreads.resolve_left hanything
        refine ⟨hreads, fun q hq => (hlater q hq).resolve_left hanything, fun t hfirst => ?_⟩
        by_cases hcode : t.isCode = true
        · rw [eq_of_first hlines hkept hfront hx hfirst hcode]
          exact Or.inr hu
        · rw [Token.isCode, Bool.not_eq_true', Bool.not_eq_false] at hcode
          exact Or.inl hcode

end Put.Fits

theorem head?_of_earlier {earlier later : List Put} {x : Position}
    (hearlier : ∀ q ∈ earlier, q.place < x) (hp : p.place = x) :
    ((earlier ++ p :: later).filter fun p => decide (p.place = x)).head? = some p := by
  have hnone : earlier.filter (fun q => decide (q.place = x)) = [] :=
    List.filter_eq_nil_iff.mpr fun q hq hplace =>
      absurd (of_decide_eq_true hplace) (ne_of_lt (hearlier q hq))
  rw [List.filter_append, hnone, List.nil_append, List.filter_cons, if_pos (decide_eq_true hp)]
  rfl

theorem weaves_of_fits {puts : List Put} (hlines : Token.InLines tokens) (hclean : CleanCut tokens edits)
    (hproper : ∀ e ∈ edits, e.range.start ≤ e.range.stop)
    (hsorted : puts.Pairwise fun p q => p.place ≤ q.place) (hfilled : ∀ p ∈ puts, p.text ≠ [])
    (hfits : ∀ p ∈ puts, p.Fits tokens edits)
    (hstarts : ∀ t ∈ tokens, TextEdit.cuts edits t = false → t.kind = .lineComment →
      ∀ p ∈ (puts.filter fun p => decide (p.place = t.range.stop)).head?, StartsLine p.text)
    (hbreaks : puts.Pairwise fun p q => Reads Anything p.text p.code ∨ Break q.text) :
    Weaves tokens edits puts where
  clean := hclean
  sorted := hsorted
  filled := hfilled
  splits p hp t ht := (hfits p hp).splits hlines hclean hproper ht
  within p hp := (hfits p hp).within hlines hclean hproper
  left earlier p later hsplit t hlast hearlier := by
    have hp : p ∈ puts := by
      rw [hsplit]
      exact List.mem_append_right _ List.mem_cons_self
    have ht := (List.mem_filter.mp (List.mem_of_getLast? hlast)).1
    refine (hfits p hp).follows hlines hclean hproper hlast fun hcut hkind hplace => ?_
    refine hstarts t ht hcut hkind p ?_
    rw [hsplit]
    exact head?_of_earlier (fun q hq => lt_of_le_of_lt (hearlier q hq) (hlines.proper t ht)) hplace
  right earlier p later hsplit := by
    have hp : p ∈ puts := by
      rw [hsplit]
      exact List.mem_append_right _ List.mem_cons_self
    rw [hsplit] at hbreaks
    exact (hfits p hp).reads hlines
      (List.pairwise_cons.mp (List.pairwise_append.mp hbreaks).2.1).1

/-! ## Edits that stand apart -/

def Put.ofEdit (e : TextEdit) : Put :=
  ⟨e.range.start, e.newText.toList, Lexer.codeOf e.newText.toList⟩

namespace TextEdit

def puts (edits : List TextEdit) : List Put :=
  ((edits.mergeSort comesFirst).filter (!·.newText.isEmpty)).map Put.ofEdit

def takers (edits : List TextEdit) : List TextEdit := edits.filter (!·.range.isEmpty)

theorem pairwise_puts (edits : List TextEdit) :
    (puts edits).Pairwise fun p q => p.place ≤ q.place := by
  refine List.pairwise_map.mpr (((pairwise_mergeSort edits).sublist List.filter_sublist).imp ?_)
  intro e f hfirst
  rcases Prod.Lex.le_iff.mp (comesFirst_iff.mp hfirst) with hlt | ⟨heq, _⟩
  · exact le_of_lt hlt
  · exact le_of_eq heq

theorem text_of_mem_puts {edits : List TextEdit} {p : Put} (hp : p ∈ puts edits) : p.text ≠ [] := by
  obtain ⟨e, he, rfl⟩ := List.mem_map.mp hp
  have hfilled := (List.mem_filter.mp he).2
  intro hnil
  have hempty : e.newText = "" := String.toList_eq_nil_iff.mp hnil
  rw [hempty] at hfilled
  cases hfilled

/-- An edit without characters removes none. -/
theorem removes_takers (lines : Lines) (edits : List TextEdit) :
    removes lines (takers edits) = removes lines edits := by
  funext j
  rw [Bool.eq_iff_iff, removes_eq_true, removes_eq_true]
  constructor
  · rintro ⟨e, he, hj⟩
    exact ⟨e, (List.mem_filter.mp he).1, hj⟩
  · rintro ⟨e, he, hj⟩
    refine ⟨e, List.mem_filter.mpr ⟨he, ?_⟩, hj⟩
    rw [Bool.not_eq_true', Range.isEmpty, beq_eq_false_iff_ne]
    intro heq
    rw [heq] at hj
    omega

/-- Edits that stand apart can be applied, and the tokens that they do not cut are read again, with
those that are put in between them. -/
theorem StandApart.exists_codes {text : String} {edits : List TextEdit} (h : StandApart edits)
    (hread : Lexer.tokenize text = .ok tokens) (hweaves : Weaves tokens (takers edits) (puts edits)) :
    ∃ newText, applyAll text (edits.mergeSort comesFirst) = .ok newText ∧
      Lexer.Codes newText.toList
        (weave (fun t => t.isCode && !cuts (takers edits) t) (puts edits) tokens) := by
  obtain ⟨cs, hsplice, happly⟩ := h.exists_splice text
  refine ⟨_, happly, ?_⟩
  rw [String.toList_ofList]
  refine hweaves.codes_splice hread hsplice ?_ ?_
  · rw [removes_takers]
    funext j
    rw [Bool.eq_iff_iff, removes_eq_true, removes_eq_true]
    simp only [List.mem_mergeSort]
  · rw [puts, List.map_map, List.filter_map]
    refine congrArg (List.map _) (List.filter_congr fun e _ => ?_)
    show (!(e.newText.toList).isEmpty) = !e.newText.isEmpty
    rw [Bool.eq_iff_iff, Bool.not_eq_true', Bool.not_eq_true', Bool.eq_false_iff,
      Bool.eq_false_iff, Ne, Ne, List.isEmpty_iff, String.isEmpty_iff, String.toList_eq_nil_iff]

end TextEdit

end AnnotationEdit

import AnnotationEdit.Proofs.Writer.Listing
import AnnotationEdit.Proofs.Writer.Members
import AnnotationEdit.Proofs.Writer.Moving
import Mathlib.Data.List.Find

/-!
# Lists that are edited
-/

namespace AnnotationEdit

open Lexer (Anything Break Reads StartsLine codeOf)
open Syntax (Node Bracketed Spelled commaEnded commaLed)
open TextEdit (StandApart)
open RankedEdit (relocate movedPlace)

/-! ## The code between the tokens -/

namespace TextEdit

variable {α : Type} {edits deletions : List TextEdit} {P Q : Position → Bool} {lines : Lines}

/-- Edits without code add none. -/
theorem flatMap_filter_hasCode (edits : List TextEdit) :
    edits.flatMap (fun e => codeOf e.newText.toList) =
      (edits.filter hasCode).flatMap fun e => codeOf e.newText.toList := by
  induction edits with
  | nil => rfl
  | cons e edits ih =>
      rw [List.flatMap_cons, ih, List.filter_cons]
      split
      · rfl
      · next hcode =>
        rw [hasCode, Bool.not_eq_true', Bool.not_eq_false, List.isEmpty_iff] at hcode
        rw [hcode, List.nil_append]

theorem codesAt_eq_filter : codesAt P edits =
    (edits.filter fun e => P e.range.start && e.hasCode).flatMap
      fun e => codeOf e.newText.toList := by
  rw [codesAt, flatMap_filter_hasCode, List.filter_filter]
  exact congrArg _ (List.filter_congr fun e _ => Bool.and_comm _ _)

/-- The code that edits put in at some places, in the order of the text, when they come in this order
already. -/
theorem flatMap_puts (hordered : (edits.filter fun e => P e.range.start && e.hasCode).Pairwise
      fun e f => e.comesFirst f = true) :
    ((puts edits).filter fun p => P p.place).flatMap Put.code = codesAt P edits := by
  have hfilled : ∀ e : TextEdit, e.hasCode = true → (!e.newText.isEmpty) = true := by
    intro e he
    rw [Bool.not_eq_true', Bool.eq_false_iff]
    intro hempty
    rw [hasCode, String.isEmpty_iff.mp hempty, String.toList_empty, Lexer.codeOf_nil] at he
    cases he
  have hsame : ∀ e : TextEdit, (e.hasCode && (P e.range.start && !e.newText.isEmpty)) =
      (P e.range.start && e.hasCode) := by
    intro e
    cases hcode : e.hasCode with
    | true => rw [hfilled e hcode, Bool.true_and]
    | false => rw [Bool.false_and, Bool.and_false]
  have hmerge := filter_mergeSort_of_pairwise comesFirst_trans comesFirst_total hordered
  rw [puts, List.filter_map, List.flatMap_map, codesAt_eq_filter, List.filter_filter, ← hmerge,
    ← List.filter_congr fun e _ => hsame e]
  refine (flatMap_filter_hasCode _).trans ?_
  rw [List.filter_filter]
  rfl

theorem comesFirst_insert {p q : Position} {text text' : String} (h : p ≤ q) :
    (TextEdit.insert p text).comesFirst (.insert q text') = true := by
  refine comesFirst_iff.mpr (Prod.Lex.le_iff.mpr ?_)
  rcases lt_or_eq_of_le h with hlt | heq
  · exact Or.inl hlt
  · exact Or.inr ⟨heq, h⟩

theorem flatMap_puts_moved (hdeletions : StandApart deletions)
    (htexts : ∀ e ∈ deletions, e.newText = "")
    (hinserts : ∀ e ∈ edits, e.hasCode = true → e.isInsertion = true)
    (hcodes : ∀ e ∈ edits, ∃ code, Lexer.Codes e.newText.toList code)
    (hplaces : ∀ e ∈ edits, e.isInsertion = true →
      P (movedPlace (deletions.map (·.range)) e.range.start) = Q e.range.start)
    (hordered : (edits.filter fun e => Q e.range.start && e.hasCode).Pairwise
      fun e f => e.range.start ≤ f.range.start) :
    ((puts (edits.map (relocate lines (deletions.map (·.range))) ++ deletions)).filter
      fun p => P p.place).flatMap Put.code = codesAt Q edits := by
  have hmoved : ∀ e ∈ edits, e.isInsertion = true →
      ∃ text, relocate lines (deletions.map (·.range)) e =
        .insert (movedPlace (deletions.map (·.range)) e.range.start) text ∧
        codeOf text.toList = codeOf e.newText.toList := by
    intro e he hinsert
    obtain ⟨bs, hbs, heq⟩ := @RankedEdit.exists_relocate (deletions.map (·.range)) lines e hinsert
    obtain ⟨code, hcode⟩ := hcodes e he
    refine ⟨_, heq, ?_⟩
    rw [String.toList_append, String.toList_ofList]
    exact Lexer.codeOf_blanks hcode (List.all_eq_true.mp hbs)
  have hsame : ∀ e ∈ edits, (P (relocate lines (deletions.map (·.range)) e).range.start &&
      (relocate lines (deletions.map (·.range)) e).hasCode) =
        (Q e.range.start && e.hasCode) := by
    intro e he
    cases hinsert : e.isInsertion with
    | true =>
        obtain ⟨text, heq, hcode⟩ := hmoved e he hinsert
        rw [heq, hasCode, hasCode]
        show (P (movedPlace _ _) && !(codeOf text.toList).isEmpty) = _
        rw [hcode, hplaces e he hinsert]
    | false =>
        have hnone : e.hasCode = false := by
          rw [← Bool.not_eq_true]
          intro hcode
          rw [hinserts e he hcode] at hinsert
          cases hinsert
        rw [RankedEdit.relocate_eq_self hinsert, hnone, Bool.and_false, Bool.and_false]
  have hfilter : ((edits.map (relocate lines (deletions.map (·.range))) ++ deletions).filter
      fun e => P e.range.start && e.hasCode) =
        (edits.filter fun e => Q e.range.start && e.hasCode).map
          (relocate lines (deletions.map (·.range))) := by
    have hnone : (deletions.filter fun e => P e.range.start && e.hasCode) = [] := by
      refine List.filter_eq_nil_iff.mpr fun e he htest => ?_
      rw [hasCode, htexts e he, String.toList_empty, Lexer.codeOf_nil] at htest
      rw [List.isEmpty_nil, Bool.not_true, Bool.and_false] at htest
      cases htest
    rw [List.filter_append, hnone, List.append_nil, List.filter_map]
    exact congrArg _ (List.filter_congr hsame)
  have hinsert : ∀ e ∈ edits.filter fun e => Q e.range.start && e.hasCode,
      e ∈ edits ∧ e.isInsertion = true := by
    intro e he
    obtain ⟨he, htest⟩ := List.mem_filter.mp he
    exact ⟨he, hinserts e he (Bool.and_eq_true_iff.mp htest).2⟩
  rw [flatMap_puts, codesAt_eq_filter, hfilter, List.flatMap_map, codesAt_eq_filter]
  · refine List.flatMap_congr fun e he => ?_
    obtain ⟨he, hinsert⟩ := hinsert e he
    obtain ⟨text, heq, hcode⟩ := hmoved e he hinsert
    rw [heq]
    exact hcode
  · rw [hfilter]
    refine List.pairwise_map.mpr (hordered.imp_of_mem fun {e f} he hf hle => ?_)
    obtain ⟨he, hinsert_e⟩ := hinsert e he
    obtain ⟨hf, hinsert_f⟩ := hinsert f hf
    obtain ⟨_, heq, _⟩ := hmoved e he hinsert_e
    obtain ⟨_, heq', _⟩ := hmoved f hf hinsert_f
    rw [heq, heq']
    exact comesFirst_insert
      (RankedEdit.movedPlace_mono hdeletions.pairwise_ranges hdeletions.proper_ranges hle)

end TextEdit

/-! ## Gaps -/

/-- The edit takes blanks in front of a token that continues nothing, with no comment up to the end of
its line in front of them. -/
def TextEdit.IsGap (tokens : List Token) (e : TextEdit) : Prop :=
  (∃ u ∈ tokens, u.Breaks ∧ u.range.start = e.range.stop) ∧ ∀ t ∈ tokens,
    t.range.Before e.range ∧ (t.kind = .lineComment → t.range.stop.line < e.range.start.line) ∨
      e.range.Before t.range

section

variable {tokens : List Token} {gaps deletions : List TextEdit} {t : Token}
  (hlines : Token.InLines tokens) (hgaps : ∀ e ∈ gaps, e.IsGap tokens)

include hlines hgaps

theorem TextEdit.cuts_gaps_append (ht : t ∈ tokens) :
    cuts (gaps ++ deletions) t = cuts deletions t := by
  have hnone : cuts gaps t = false := by
    rw [← Bool.not_eq_true, cuts_eq_true]
    rintro ⟨e, he, hcontains⟩
    obtain ⟨hstart, hstop⟩ := Range.contains_iff.mp hcontains
    have hproper := hlines.proper t ht
    rcases (hgaps e he).2 t ht with ⟨hbefore, _⟩ | hbehind
    · exact absurd (hbefore.trans hstart) (not_le_of_gt hproper)
    · exact absurd (hstop.trans hbehind) (not_le_of_gt hproper)
  rw [cuts, List.any_append]
  exact (congrArg (· || cuts deletions t) hnone).trans (Bool.false_or _)

/-- Gaps can go with whole tokens. -/
theorem CleanCut.gaps_append (h : CleanCut tokens deletions) :
    CleanCut tokens (gaps ++ deletions) where
  takes := List.forall_mem_append.mpr ⟨fun e he => Or.inr (hgaps e he).1, h.takes⟩
  apart := by
    refine List.forall_mem_append.mpr ⟨fun e he t ht => ?_, h.apart⟩
    exact Or.inr (((hgaps e he).2 t ht).symm)
  ends front t u rest htokens hkeeps hcut := by
    have hmem : ∀ v ∈ t :: u :: rest, v ∈ tokens := fun v hv =>
      htokens ▸ List.mem_append_right front hv
    have hrest : ∀ v ∈ rest, v ∈ tokens := fun v hv =>
      hmem v (List.mem_cons_of_mem _ (List.mem_cons_of_mem _ hv))
    rw [TextEdit.cuts_gaps_append hlines hgaps (hmem t List.mem_cons_self)] at hkeeps
    rw [TextEdit.cuts_gaps_append hlines hgaps
      (hmem u (List.mem_cons_of_mem _ List.mem_cons_self))] at hcut
    refine (h.ends front t u rest htokens hkeeps hcut).imp_right (Or.imp_right fun hnext v hv => ?_)
    refine hnext v ?_
    rw [← hv]
    exact List.find?_congr fun w hw => by
      rw [TextEdit.cuts_gaps_append hlines hgaps (hrest w hw)]

end

/-! ## What becomes of a list -/

/-- The tokens of a text stand in its lines. -/
theorem TokenStream.OnLines.inLines {tokens : TokenStream} {lines : Lines}
    (h : tokens.OnLines lines) : Token.InLines (tokens.tokens.toList.map Token.plain) where
  proper := by
    refine List.forall_mem_map.mpr fun t ht => ?_
    obtain ⟨i, hi⟩ := TokenStream.exists_get? ht
    exact show t.range.Proper from h.sorted.proper hi
  apart := by
    refine List.pairwise_map.mpr (List.pairwise_iff_getElem.mpr fun i j hi hj hij => ?_)
    have hget : ∀ {k : Nat} (hk : k < tokens.tokens.toList.length),
        tokens.get? k = some tokens.tokens.toList[k] := by
      intro k hk
      rw [TokenStream.get?_eq, List.getElem?_eq_getElem hk]
    have hline := h.line_lt (hget hi) (hget hj) hij
    have hbefore := h.sorted.before (hget hi) (hget hj) hij
    exact ⟨hbefore, hline⟩

/-- Deletions of members of a list in brackets: what they cut from the code, and how they lie between
the tokens. Nothing of them is between the closing bracket and a token in front of it on its line. -/
structure ListCut (s : Scene) (list : BracketedList) (n : Node) (front : List Token) (opening : Token)
    (us : List Token) (closing : Token) (back : List Token) (flagged : Token → Bool)
    (gone : Nat → Bool) (deletions : List TextEdit) : Prop where
  onLines : s.tokens.OnLines s.document.lines
  code_eq : s.code = front ++ opening :: (us ++ closing :: back)
  bracketed : Bracketed n opening closing us
  closing_eq : list.closing = closing.range
  members_eq : list.members = n.members.map Node.range
  tame : Tame s.code
  clean : CleanCut (s.tokens.tokens.toList.map Token.plain) deletions
  apart : StandApart deletions
  deletes : ∀ e ∈ deletions, e.newText = "" ∧ e.range.Proper
  cuts : CutsMembers flagged (TextEdit.cuts deletions) s.code
  marks : Syntax.Marks flagged (fun p => gone p.2) (fun p => p.1.range) n.members.zipIdx s.code
  gap : ∀ i t, s.tokens.startingAt? closing.range.start = some (i + 1) → s.tokens.get? i = some t →
    s.tokens.isFirstOnLine (i + 1) = false → ∀ e ∈ deletions,
      e.range.stop ≤ t.range.stop ∨ closing.range.start ≤ e.range.start

def relocated (s : Scene) (edits deletions : List TextEdit) : List TextEdit :=
  edits.map (relocate s.document.lines (deletions.map (·.range))) ++ deletions

namespace ListCut

variable {s : Scene} {list : BracketedList} {n : Node} {front us back : List Token}
  {opening closing : Token} {flagged : Token → Bool} {gone : Nat → Bool}
  {edits deletions : List TextEdit} {last : Range} {tail : Tail} {x y : Position}
  {added : Nat → List Node} {fs : List Node} {e : TextEdit} {t : Token}
  (h : ListCut s list n front opening us closing back flagged gone deletions)

include h

theorem sorted : s.tokens.Sorted := h.onLines.sorted

theorem ordered : Token.Ordered s.tokens.size s.code := h.sorted.sublist List.filter_sublist

theorem closing_mem : closing ∈ s.code := by
  rw [h.code_eq]
  simp

/-- Around the members everything is kept. -/
theorem kept_eq : kept (TextEdit.cuts deletions) s.code =
    (front ++ [opening]) ++ (kept (TextEdit.cuts deletions) us ++ closing :: back) :=
  (h.bracketed.kept_cases h.code_eq h.tame h.ordered h.cuts h.marks).1

omit h in
theorem keptCode_eq : keptCode deletions (s.tokens.tokens.toList.map Token.plain) =
    (kept (TextEdit.cuts deletions) s.code).map Token.plain := by
  rw [keptCode, kept, Scene.code, List.filter_map, List.filter_filter]
  exact congrArg _ (List.filter_congr fun t _ => Bool.and_comm _ _)

omit h in
theorem mem_kept {u : Token} : u ∈ kept (TextEdit.cuts deletions) s.code ↔
    u ∈ s.code ∧ TextEdit.cuts deletions u = false := by
  rw [kept, List.mem_filter, Bool.not_eq_true']

omit h in
theorem mem_plain {u : Token} (hu : u ∈ s.code) : u.plain ∈ s.tokens.tokens.toList.map Token.plain :=
  List.mem_map_of_mem (List.mem_of_mem_filter hu)

/-- A place behind code that stays moves up to it at most. -/
theorem le_movedPlace {u : Token} {p : Position} (hu : u ∈ kept (TextEdit.cuts deletions) s.code)
    (hle : u.range.stop ≤ p) : u.range.stop ≤ movedPlace (deletions.map (·.range)) p := by
  obtain ⟨hu, hcut⟩ := mem_kept.mp hu
  have hstop := h.clean.stop_le_movedPlace (mem_plain hu) hcut h.onLines.inLines hle
  exact hstop.1

/-- The start of code that stays does not move. -/
theorem movedPlace_start {u : Token} (hu : u ∈ kept (TextEdit.cuts deletions) s.code) :
    movedPlace (deletions.map (·.range)) u.range.start = u.range.start := by
  obtain ⟨hu, hcut⟩ := mem_kept.mp hu
  rcases RankedEdit.movedPlace_cases (deletions.map (·.range)) u.range.start with
    ⟨heq, _⟩ | ⟨r, hr, hstart, hstop, _⟩
  · exact heq
  · exact absurd ⟨hstart, hstop⟩
      (h.clean.not_around_start (mem_plain hu) hcut h.onLines.inLines hr)

theorem exists_start {i : Nat} {m : Node} (hm : n.members[i]? = some m) (hgone : gone i = false) :
    ∃ front' mark u back', kept (TextEdit.cuts deletions) s.code = front' ++ mark :: u :: back' ∧
      mark.kind = .punctuation ∧ m.range.start = u.range.start :=
  h.bracketed.exists_kept_mark h.code_eq h.tame h.ordered h.cuts h.marks
    (p := (m, i)) (Node.mem_staying.mpr ⟨hm, hgone⟩)

theorem movedPlace_member {i : Nat} {m : Node} (hm : n.members[i]? = some m)
    (hgone : gone i = false) :
    movedPlace (deletions.map (·.range)) m.range.start = m.range.start := by
  obtain ⟨front', mark, u, back', hkept, _, hstart⟩ := h.exists_start hm hgone
  rw [hstart]
  exact h.movedPlace_start (by rw [hkept]; simp)

variable (hends : s.Ends list last tail x y)

include hends

theorem member_lt {i : Nat} {m : Node} (hm : n.members[i]? = some m) (hgone : gone i = false) :
    m.range.start < movedPlace (deletions.map (·.range)) x := by
  obtain ⟨front', mark, u, back', hkept, _, hstart⟩ := h.exists_start hm hgone
  have hmem : u ∈ kept (TextEdit.cuts deletions) s.code := by
    rw [hkept]
    simp
  have hu := List.mem_of_mem_filter (mem_kept.mp hmem).1
  obtain ⟨i', hu'⟩ := TokenStream.exists_get? hu
  have hproper := h.sorted.proper hu'
  obtain ⟨t, ht, rfl⟩ := hends.token
  have hlt : u.range.start < t.range.stop := by
    rw [← hstart]
    refine hends.inFront m.range ?_
    rw [h.members_eq]
    exact List.mem_map_of_mem (List.mem_of_getElem? hm)
  rcases h.sorted.splits_stop ht u hu with hle | hle
  · rw [hstart]
    exact lt_of_lt_of_le hproper (h.le_movedPlace hmem hle)
  · exact absurd hlt (not_lt_of_ge hle)

omit hends in
theorem get?_closing {i : Nat} (hclosing : s.tokens.startingAt? list.closing.start = some i) :
    s.tokens.get? i = some closing := by
  obtain ⟨k, hk⟩ := TokenStream.exists_get? (List.mem_of_mem_filter h.closing_mem)
  rw [h.closing_eq, TokenStream.startingAt?_eq_some h.sorted hk] at hclosing
  rwa [← Option.some.inj hclosing]

omit hends in
/-- An edit for the closing bracket takes blanks in front of it. -/
theorem isGap {i : Nat} {text : String}
    (hclosing : s.tokens.startingAt? list.closing.start = some (i + 1))
    (ht : s.tokens.get? i = some t) (hfirst : s.tokens.isFirstOnLine (i + 1) = false) :
    TextEdit.IsGap (s.tokens.tokens.toList.map Token.plain)
      ⟨⟨t.range.stop, list.closing.start⟩, text⟩ := by
  have hget := h.get?_closing hclosing
  have hline : ¬ t.range.stop.line < closing.range.start.line := by
    intro hlt
    rw [TokenStream.isFirstOnLine, hget] at hfirst
    exact Bool.eq_false_iff.mp (Bool.or_eq_false_iff.mp hfirst).2
      (TokenStream.test_eq_true.mpr ⟨t, ht, decide_eq_true hlt⟩)
  refine ⟨⟨closing.plain, mem_plain h.closing_mem,
    Token.breaks_of_isCloser h.bracketed.isCloser, by rw [h.closing_eq]; rfl⟩,
    List.forall_mem_map.mpr fun u hu => ?_⟩
  obtain ⟨k, hk⟩ := TokenStream.exists_get? hu
  rcases Nat.lt_or_ge i k with hik | hki
  · have hle := h.sorted.start_le hget hk hik
    rw [← h.closing_eq] at hle
    exact Or.inr hle
  · have hle := h.sorted.stop_le hk ht hki
    refine Or.inl ⟨hle, fun hkind => ?_⟩
    rcases Nat.lt_or_eq_of_le hki with hki | rfl
    · have hlt := h.onLines.line_lt hk ht hki hkind
      exact lt_of_lt_of_le hlt (Position.line_le_of_le (le_of_lt (h.sorted.proper ht)))
    · obtain rfl := Option.some.inj (hk.symm.trans ht)
      exact absurd (h.onLines.line_lt hk hget (Nat.lt_succ_self k) hkind) hline

end ListCut

namespace Anchored

variable {s : Scene} {list : BracketedList} {gone : Nat → Bool} {x y : Position} {e : TextEdit}

theorem isInsertion_insert {p : Position} {text : String} (h : text ≠ "") :
    (TextEdit.insert p text).isInsertion = true := by
  have hempty : text.isEmpty = false := by
    rw [← Bool.not_eq_true, String.isEmpty_iff]
    exact h
  show (Range.isEmpty ⟨p, p⟩ && !text.isEmpty) = true
  rw [Range.isEmpty, beq_self_eq_true, hempty]
  rfl

theorem newText_ne (h : Anchored s list gone x y e) : e.newText ≠ "" := by
  cases h with
  | inFront _ _ _ _ _ hne => exact hne
  | behind _ _ _ hne => exact hne
  | bracket =>
      intro hempty
      have hnil := congrArg String.toList hempty
      rw [String.toList_append] at hnil
      cases hnil

variable (hblank : Text.allBlank s.printer.indentUnit.toList = true)

include hblank

theorem reads_bracket (level : Nat) :
    Reads Anything ("\n" ++ s.indent level).toList (codeOf ("\n" ++ s.indent level).toList) := by
  rw [codeOf_bracket hblank, String.toList_append]
  refine Lexer.reads_blanks (List.forall_mem_cons.mpr ⟨by decide, ?_⟩)
  exact List.all_eq_true.mp (allBlank_indent hblank level)

theorem reads (h : Anchored s list gone x y e) :
    Reads Break e.newText.toList (codeOf e.newText.toList) := by
  cases h with
  | inFront _ _ _ _ _ _ hreads => exact hreads.mono fun _ _ => trivial
  | behind _ _ _ _ _ hreads => exact hreads
  | bracket => exact (reads_bracket hblank _).mono fun _ _ => trivial

theorem isInsertion_of_hasCode (h : Anchored s list gone x y e) (hcode : e.hasCode = true) :
    e.isInsertion = true := by
  cases h with
  | inFront _ _ _ _ _ hne => exact isInsertion_insert hne
  | behind _ _ _ hne => exact isInsertion_insert hne
  | bracket =>
      rw [TextEdit.hasCode, codeOf_bracket hblank] at hcode
      cases hcode

end Anchored

namespace ListCut

variable {s : Scene} {list : BracketedList} {n : Node} {front us back : List Token}
  {opening closing : Token} {flagged : Token → Bool} {gone : Nat → Bool}
  {edits deletions : List TextEdit} {last : Range} {tail : Tail} {x y : Position}
  {added : Nat → List Node} {fs : List Node} {e : TextEdit} {t : Token} {p : Put}
  (h : ListCut s list n front opening us closing back flagged gone deletions)
  (hends : s.Ends list last tail x y)
  (hblank : Text.allBlank s.printer.indentUnit.toList = true)
  (hanchored : ∀ e ∈ edits, Anchored s list gone x y e)

include h hends hblank hanchored

omit hends hblank in
theorem standApart (hapart : StandApart edits) : StandApart (relocated s edits deletions) := by
  refine hapart.map_relocate h.apart fun e he => ?_
  cases hanchored e he with
  | inFront _ _ _ _ _ hne => exact Or.inl (Anchored.isInsertion_insert hne)
  | behind _ _ _ hne => exact Or.inl (Anchored.isInsertion_insert hne)
  | bracket i t hclosing ht hfirst hle =>
      rw [h.closing_eq] at hclosing ⊢
      exact Or.inr fun f hf => (h.gap i t hclosing ht hfirst f hf).symm

omit h hends hblank hanchored in
theorem movedPlace_stop {z : Position} (hz : ∃ u ∈ s.tokens.tokens.toList, u.range.stop = z) :
    (∃ u ∈ s.tokens.tokens.toList, movedPlace (deletions.map (·.range)) z = u.range.stop) ∨
      ∃ e ∈ deletions, movedPlace (deletions.map (·.range)) z = e.range.start := by
  obtain ⟨u, hu, rfl⟩ := hz
  rcases RankedEdit.movedPlace_cases (deletions.map (·.range)) u.range.stop with
    ⟨heq, _⟩ | ⟨r, hr, _, _, heq⟩
  · exact Or.inl ⟨u, hu, heq⟩
  · obtain ⟨e, he, rfl⟩ := List.mem_map.mp hr
    exact Or.inr ⟨e, he, heq⟩

omit hends hblank hanchored in
/-- A text that is put in comes from one of the edits, perhaps with blanks in front of it. -/
theorem exists_edit (hp : p ∈ TextEdit.puts (relocated s edits deletions)) : ∃ e ∈ edits,
    ∃ bs, Text.allBlank bs = true ∧ p.text = bs ++ e.newText.toList ∧ p.code = codeOf p.text ∧
      (e.isInsertion = true ∧
          p.place = movedPlace (deletions.map (·.range)) e.range.start ∨
        e.isInsertion = false ∧ p.place = e.range.start) := by
  obtain ⟨e', he', rfl⟩ := List.mem_map.mp hp
  obtain ⟨he', hfilled⟩ := List.mem_filter.mp he'
  rcases List.mem_append.mp (List.mem_mergeSort.mp he') with he' | he'
  · obtain ⟨e, he, rfl⟩ := List.mem_map.mp he'
    refine ⟨e, he, ?_⟩
    cases hinsert : e.isInsertion with
    | true =>
        obtain ⟨bs, hbs, heq⟩ := @RankedEdit.exists_relocate (deletions.map (·.range))
          s.document.lines e hinsert
        rw [heq]
        refine ⟨bs, hbs, ?_, rfl, Or.inl ⟨rfl, rfl⟩⟩
        show (String.ofList bs ++ e.newText).toList = _
        rw [String.toList_append, String.toList_ofList]
    | false =>
        rw [RankedEdit.relocate_eq_self hinsert]
        exact ⟨[], rfl, rfl, rfl, Or.inr ⟨rfl, rfl⟩⟩
  · rw [(h.deletes e' he').1] at hfilled
    cases hfilled

/-- What is put in stands in front of a member that stays, or behind the last one. -/
theorem put_cases (hp : p ∈ TextEdit.puts (relocated s edits deletions)) :
    (∃ i m, n.members[i]? = some m ∧ gone i = false ∧ p.place = m.range.start ∧
        Reads Anything p.text p.code) ∨
      movedPlace (deletions.map (·.range)) x ≤ p.place ∧ p.place ≤ closing.range.start ∧
        Break p.text ∧ (Reads Anything p.text p.code ∨ Reads Break p.text p.code) ∧
        ((∃ u ∈ s.tokens.tokens.toList, p.place = u.range.stop) ∨
          ∃ e ∈ deletions, p.place = e.range.start) := by
  obtain ⟨e, he, bs, hbs, htext, hcode, hplace⟩ := h.exists_edit hp
  have hreads : ∀ {follow : List Char → Prop},
      Reads follow e.newText.toList (codeOf e.newText.toList) → Reads follow p.text p.code := by
    intro follow hreads
    obtain ⟨code, hcodes⟩ : ∃ code, Lexer.Codes e.newText.toList code :=
      ⟨_, ((hanchored e he).reads hblank).codes Lexer.break_nil⟩
    rw [hcode, htext, Lexer.codeOf_blanks hcodes (List.all_eq_true.mp hbs)]
    exact (Lexer.reads_blanks (List.all_eq_true.mp hbs)).append hreads fun _ _ => trivial
  have hbreak : Break e.newText.toList → Break p.text := by
    intro hbreak
    rw [htext]
    cases bs with
    | nil => exact hbreak
    | cons b bs => exact Lexer.break_of_isBlank (List.all_eq_true.mp hbs b List.mem_cons_self)
  cases hanchored e he with
  | inFront i r text hr hgone hne hanything =>
      rw [h.members_eq, List.getElem?_map, Option.map_eq_some_iff] at hr
      obtain ⟨m, hm, rfl⟩ := hr
      refine Or.inl ⟨i, m, hm, hgone, ?_, hreads hanything⟩
      rcases hplace with ⟨_, heq⟩ | ⟨_, heq⟩
      · exact heq.trans (h.movedPlace_member hm hgone)
      · exact heq
  | behind z text hz hne hstart hread =>
      obtain ⟨hinsert, heq⟩ := hplace.resolve_right fun hnot => by
        rw [Anchored.isInsertion_insert hne] at hnot
        cases hnot.1
      have hbounds : x ≤ z ∧ z ≤ y := by
        rcases hz with rfl | rfl
        · exact ⟨le_refl _, hends.le⟩
        · exact ⟨hends.le, le_refl _⟩
      have htoken : ∃ u ∈ s.tokens.tokens.toList, u.range.stop = z := by
        rcases hz with rfl | rfl
        · exact hends.token
        · exact hends.token'
      refine Or.inr ⟨?_, ?_, hbreak hstart, Or.inr (hreads hread), ?_⟩
      · rw [heq]
        exact RankedEdit.movedPlace_mono h.apart.pairwise_ranges h.apart.proper_ranges hbounds.1
      · rw [heq, ← h.closing_eq]
        exact (RankedEdit.movedPlace_le _ _).trans (hbounds.2.trans hends.le_closing)
      · rw [heq]
        exact movedPlace_stop htoken
  | bracket i t hclosing ht hfirst hle =>
      have hx := hends.le.trans (hends.le_gap i t hclosing ht)
      have htoken : t ∈ s.tokens.tokens.toList := TokenStream.mem_of_get? ht
      have hmoved := RankedEdit.movedPlace_le (deletions.map (·.range)) x
      refine Or.inr ⟨?_, ?_, hbreak ?_, Or.inl (hreads (Anchored.reads_bracket hblank _)), ?_⟩
      · rcases hplace with ⟨_, heq⟩ | ⟨_, heq⟩
        · rw [heq]
          exact RankedEdit.movedPlace_mono h.apart.pairwise_ranges h.apart.proper_ranges hx
        · rw [heq]
          exact hmoved.trans hx
      · rw [← h.closing_eq]
        rcases hplace with ⟨_, heq⟩ | ⟨_, heq⟩
        · rw [heq]
          exact (RankedEdit.movedPlace_le _ _).trans hle
        · rw [heq]
          exact hle
      · rw [String.toList_append]
        exact Lexer.break_of_isBlank (by decide)
      · rcases hplace with ⟨_, heq⟩ | ⟨_, heq⟩
        · rw [heq]
          exact movedPlace_stop ⟨t, htoken, rfl⟩
        · exact Or.inl ⟨t, htoken, heq⟩

omit hends hblank in
/-- Besides the deletions, only blanks in front of the closing bracket go. -/
theorem exists_gaps : ∃ gaps, TextEdit.takers (relocated s edits deletions) = gaps ++ deletions ∧
    ∀ e ∈ gaps, e.IsGap (s.tokens.tokens.toList.map Token.plain) := by
  have hall : TextEdit.takers deletions = deletions := by
    refine List.filter_eq_self.mpr fun e he => ?_
    rw [Range.isEmpty, beq_eq_false_iff_ne.mpr (ne_of_lt (h.deletes e he).2)]
    rfl
  refine ⟨TextEdit.takers (edits.map (relocate s.document.lines (deletions.map (·.range)))), ?_,
    fun e' he' => ?_⟩
  · rw [relocated, TextEdit.takers, List.filter_append]
    exact congrArg _ hall
  · obtain ⟨he', hfilled⟩ := List.mem_filter.mp he'
    obtain ⟨e, he, rfl⟩ := List.mem_map.mp he'
    rcases StandApart.relocate_cases e with ⟨heq, hnot⟩ | ⟨_, text, heq⟩
    · rw [heq]
      cases hanchored e he with
      | inFront _ _ _ _ _ hne =>
          rw [Anchored.isInsertion_insert hne] at hnot
          cases hnot
      | behind _ _ _ hne =>
          rw [Anchored.isInsertion_insert hne] at hnot
          cases hnot
      | bracket i t hclosing ht hfirst => exact h.isGap hclosing ht hfirst
    · -- an insertion takes nothing
      rw [heq] at hfilled
      rw [show (TextEdit.insert _ text).range.isEmpty = true from beq_self_eq_true _] at hfilled
      cases hfilled

omit hends hblank in
theorem cleanCut_takers : CleanCut (s.tokens.tokens.toList.map Token.plain)
    (TextEdit.takers (relocated s edits deletions)) := by
  obtain ⟨gaps, heq, hgaps⟩ := h.exists_gaps hanchored
  rw [heq]
  exact h.clean.gaps_append h.onLines.inLines hgaps

omit hends hblank in
theorem cuts_takers {u : Token} (hu : u ∈ s.tokens.tokens.toList.map Token.plain) :
    TextEdit.cuts (TextEdit.takers (relocated s edits deletions)) u =
      TextEdit.cuts deletions u := by
  obtain ⟨gaps, heq, hgaps⟩ := h.exists_gaps hanchored
  rw [heq]
  exact TextEdit.cuts_gaps_append h.onLines.inLines hgaps hu

omit hends hblank in
theorem keptCode_takers :
    keptCode (TextEdit.takers (relocated s edits deletions))
      (s.tokens.tokens.toList.map Token.plain) =
        (kept (TextEdit.cuts deletions) s.code).map Token.plain := by
  rw [← keptCode_eq, keptCode, keptCode]
  exact List.filter_congr fun u hu => by rw [h.cuts_takers hanchored hu]

variable (hstops : ∀ t ∈ us, t.range.stop ≤ x) (hus : us ≠ [])

include hstops hus

omit hends hblank hanchored in
/-- What is kept in front of the closing bracket is in front of the places behind the last member. -/
theorem stop_le_moved {u : Token}
    (hu : u ∈ (front ++ [opening]) ++ kept (TextEdit.cuts deletions) us) :
    u.range.stop ≤ movedPlace (deletions.map (·.range)) x := by
  have hkept : u ∈ kept (TextEdit.cuts deletions) s.code := by
    rw [h.kept_eq, ← List.append_assoc]
    exact List.mem_append_left _ hu
  refine h.le_movedPlace hkept ?_
  rcases List.mem_append.mp hu with hleft | hright
  · -- it is in front of all members
    obtain ⟨w, ws, rfl⟩ := List.exists_cons_of_ne_nil hus
    have hordered := h.ordered
    rw [h.code_eq, List.append_cons, List.cons_append] at hordered
    have hbefore := (List.pairwise_append.mp hordered.apart).2.2 u hleft w List.mem_cons_self
    have hproper := hordered.proper w (List.mem_append_right _ List.mem_cons_self)
    exact (hbefore.trans (le_of_lt hproper)).trans (hstops w List.mem_cons_self)
  · exact hstops u (List.mem_of_mem_filter hright)

theorem fits (hp : p ∈ TextEdit.puts (relocated s edits deletions)) :
    p.Fits (s.tokens.tokens.toList.map Token.plain)
      (TextEdit.takers (relocated s edits deletions)) := by
  rcases h.put_cases hends hblank hanchored hp with ⟨i, m, hm, hgone, hplace, hreads⟩ |
    ⟨hx, hclosing, hbreak, hreads, hplace⟩
  · obtain ⟨front', mark, u, back', hkept, hmark, hstart⟩ := h.exists_start hm hgone
    refine .inFront (front'.map Token.plain) mark.plain u.plain (back'.map Token.plain) ?_ hmark
      (hplace.trans hstart) hreads
    rw [h.keptCode_takers hanchored, hkept, List.map_append]
    rfl
  · refine .behind hbreak (hplace.imp ?_ ?_) (hreads.imp_right fun hreads => ⟨hreads, ?_⟩)
    · rintro ⟨u, hu, heq⟩
      exact ⟨u.plain, List.mem_map_of_mem hu, heq⟩
    · rintro ⟨e, he, heq⟩
      obtain ⟨gaps, hgaps, _⟩ := h.exists_gaps hanchored
      exact ⟨e, by rw [hgaps]; exact List.mem_append_right _ he, heq⟩
    · refine ⟨((front ++ [opening]) ++ kept (TextEdit.cuts deletions) us).map Token.plain,
        closing.plain, back.map Token.plain, ?_,
        Token.breaks_of_isCloser h.bracketed.isCloser, List.forall_mem_map.mpr fun u hu => ?_,
        hclosing⟩
      · rw [h.keptCode_takers hanchored, h.kept_eq, ← List.append_assoc, List.map_append,
          List.map_cons]
      · exact (h.stop_le_moved hstops hus hu).trans hx

section

variable {u : Token} (hu : u ∈ s.tokens.tokens.toList) (hkind : u.kind = .lineComment)
  (hcut : TextEdit.cuts deletions u = false)

include hu hkind hcut

omit hends hblank hanchored hstops hus in
/-- At the end of a comment that stays nothing is moved. -/
theorem relocate_at_comment (e : TextEdit) :
    ((relocate s.document.lines (deletions.map (·.range)) e).range.start = u.range.stop ↔
      e.range.start = u.range.stop) ∧
    (e.range.start = u.range.stop →
      relocate s.document.lines (deletions.map (·.range)) e = e) := by
  have hmem : u.plain ∈ s.tokens.tokens.toList.map Token.plain := List.mem_map_of_mem hu
  have hproper : u.plain.range.Proper := h.onLines.inLines.proper _ hmem
  replace hproper : u.range.start < u.range.stop := hproper
  have hsides := fun r (hr : r ∈ deletions.map (·.range)) =>
    h.clean.before_or_behind hmem (show TextEdit.cuts deletions u.plain = false from hcut) hr
  have hstays : e.range.start = u.range.stop →
      relocate s.document.lines (deletions.map (·.range)) e = e := by
    refine fun heq => RankedEdit.relocate_of_movedPlace fun r hr hinside => ?_
    rw [heq] at hinside
    rcases hsides r hr with hbefore | ⟨hbehind, _⟩
    · exact absurd (lt_trans hproper hinside.2) (not_lt_of_ge hbefore)
    · exact absurd hinside.1 (not_lt_of_ge hbehind)
  refine ⟨⟨fun heq => ?_, fun heq => by rw [hstays heq, heq]⟩, hstays⟩
  rcases StandApart.relocate_cases e with ⟨hsame, _⟩ | ⟨_, text, hsame⟩
  · rwa [hsame] at heq
  · rw [hsame] at heq
    rcases RankedEdit.movedPlace_cases (deletions.map (·.range)) e.range.start with
      ⟨hplace, _⟩ | ⟨r, hr, hstart, hstop, hplace⟩
    · exact hplace.symm.trans heq
    · have heq : r.start = u.range.stop := hplace.symm.trans heq
      rcases hsides r hr with hbefore | ⟨_, hline⟩
      · exact absurd (heq.symm.le.trans_lt (lt_trans hstart hstop))
          (not_lt_of_ge (hbefore.trans (le_of_lt hproper)))
      · have hline := hline hkind
        rw [heq] at hline
        exact absurd hline (Nat.lt_irrefl _)

omit hcut hblank hstops hus in
/-- What is put in at the end of a comment stands behind the last member, on a line of its own. -/
theorem eq_insert_at_comment (he : e ∈ edits) (hstart : e.range.start = u.range.stop) :
    (tail = .lineEnded ∨ tail = .lineParted) ∧ u.range.stop = y ∧
      e = TextEdit.insert y e.newText := by
  have hmem : u.plain ∈ s.tokens.tokens.toList.map Token.plain := List.mem_map_of_mem hu
  have hproper : u.plain.range.Proper := h.onLines.inLines.proper _ hmem
  replace hproper : u.range.start < u.range.stop := hproper
  cases hanchored e he with
  | inFront i r text hr hgone =>
      rw [h.members_eq, List.getElem?_map, Option.map_eq_some_iff] at hr
      obtain ⟨m, hm, rfl⟩ := hr
      obtain ⟨front', mark, w, back', hkept, _, hw⟩ := h.exists_start hm hgone
      have hstart : w.range.start = u.range.stop := hw.symm.trans hstart
      have hw : w ∈ kept (TextEdit.cuts deletions) s.code := by
        rw [hkept]
        simp
      have hlt := h.onLines.inLines.line_lt hmem (mem_plain (mem_kept.mp hw).1)
        (le_of_eq hstart.symm) hkind
      exact absurd (congrArg Position.line hstart) (ne_of_gt hlt)
  | behind z text hz =>
      obtain ⟨hy, hx⟩ := hends.comment u hu hkind
      have hstart : z = u.range.stop := hstart
      obtain rfl : z = y := by
        rcases hz with rfl | rfl
        · exact hx hstart.symm
        · rfl
      exact ⟨hy hstart.symm, hstart.symm, rfl⟩
  | bracket i t hclosing ht hfirst hle =>
      exfalso
      rcases (h.isGap hclosing ht hfirst : TextEdit.IsGap _ ⟨_, ""⟩).2 _ hmem with ⟨_, hline⟩ | hbefore
      · have hline := hline hkind
        rw [hstart] at hline
        exact absurd hline (Nat.lt_irrefl _)
      · exact absurd (lt_of_lt_of_le hproper (hstart ▸ hle)) (not_lt_of_ge hbefore)

end

omit hblank hstops hus in
/-- What is put in at the end of a comment that stays, in the order of the text. -/
theorem puts_at_comment {u : Token} (hu : u ∈ s.tokens.tokens.toList)
    (hkind : u.kind = .lineComment) (hcut : TextEdit.cuts deletions u = false) :
    (TextEdit.puts (relocated s edits deletions)).filter
        (fun p => decide (p.place = u.range.stop)) =
      (edits.filter fun e => decide (e.range.start = u.range.stop)).map Put.ofEdit := by
  have hall : (relocated s edits deletions).filter (fun e =>
      decide (e.range.start = u.range.stop) && !e.newText.isEmpty) =
        edits.filter fun e => decide (e.range.start = u.range.stop) := by
    have hnone : deletions.filter (fun e =>
        decide (e.range.start = u.range.stop) && !e.newText.isEmpty) = [] := by
      refine List.filter_eq_nil_iff.mpr fun e he htest => ?_
      rw [(h.deletes e he).1] at htest
      exact absurd (Bool.and_eq_true_iff.mp htest).2 (by decide)
    have hsame : ∀ e ∈ edits,
        ((fun e : TextEdit => decide (e.range.start = u.range.stop) && !e.newText.isEmpty) ∘
          relocate s.document.lines (deletions.map (·.range))) e =
            decide (e.range.start = u.range.stop) := by
      intro e he
      obtain ⟨hiff, hstays⟩ := h.relocate_at_comment hu hkind hcut e
      rw [Function.comp_apply, decide_eq_decide.mpr hiff]
      by_cases hstart : e.range.start = u.range.stop
      · have hne : e.newText.isEmpty = false := by
          rw [← Bool.not_eq_true, String.isEmpty_iff]
          exact (hanchored e he).newText_ne
        rw [hstays hstart, hne, Bool.not_false, Bool.and_true]
      · rw [decide_eq_false hstart, Bool.false_and]
    rw [relocated, List.filter_append, hnone, List.append_nil, List.filter_map,
      List.filter_congr hsame]
    refine (List.map_congr_left fun e he => ?_).trans (List.map_id _)
    exact (h.relocate_at_comment hu hkind hcut e).2 (of_decide_eq_true (List.mem_filter.mp he).2)
  have hinserts : ∀ e ∈ edits.filter (fun e => decide (e.range.start = u.range.stop)),
      e = TextEdit.insert y e.newText := by
    intro e he
    obtain ⟨he, hstart⟩ := List.mem_filter.mp he
    exact (h.eq_insert_at_comment hends hanchored hu hkind he (of_decide_eq_true hstart)).2.2
  have hpairwise : ((relocated s edits deletions).filter (fun e =>
      decide (e.range.start = u.range.stop) && !e.newText.isEmpty)).Pairwise
        fun e f => e.comesFirst f = true := by
    rw [hall]
    refine List.pairwise_of_forall_mem_list fun e he f hf => ?_
    rw [hinserts e he, hinserts f hf]
    exact TextEdit.comesFirst_insert (le_refl _)
  rw [TextEdit.puts, List.filter_map, List.filter_filter, ← hall,
    ← filter_mergeSort_of_pairwise TextEdit.comesFirst_trans TextEdit.comesFirst_total hpairwise]
  rfl

/-- What is put in can be read between the tokens that stay. -/
theorem weaves (hapart : StandApart edits) (hstarts : tail = .lineEnded ∨ tail = .lineParted →
    ∀ e ∈ (edits.filter fun e => decide (e.range.start = y)).head?,
      StartsLine e.newText.toList) :
    Weaves (s.tokens.tokens.toList.map Token.plain)
      (TextEdit.takers (relocated s edits deletions))
      (TextEdit.puts (relocated s edits deletions)) := by
  refine weaves_of_fits h.onLines.inLines (h.cleanCut_takers hanchored) (fun e he => ?_)
    (TextEdit.pairwise_puts _) (fun p hp => TextEdit.text_of_mem_puts hp)
    (fun p hp => h.fits hends hblank hanchored hstops hus hp) (List.forall_mem_map.mpr ?_) ?_
  · exact (h.standApart hanchored hapart).proper e (List.mem_filter.mp he).1
  · intro u hu hcut hkind p hp
    rw [h.cuts_takers hanchored (List.mem_map_of_mem hu)] at hcut
    have hkind : u.kind = .lineComment := hkind
    have hcut : TextEdit.cuts deletions u = false := hcut
    have hputs := h.puts_at_comment hends hanchored hu hkind hcut
    rw [show u.plain.range = u.range from rfl, hputs, List.head?_map] at hp
    obtain ⟨e, hfirst, rfl⟩ := Option.mem_map.mp hp
    obtain ⟨he, hstart⟩ := List.mem_filter.mp (List.mem_of_mem_head? hfirst)
    obtain ⟨htail, hy, _⟩ := h.eq_insert_at_comment hends hanchored hu hkind he
      (of_decide_eq_true hstart)
    rw [hy] at hfirst
    exact hstarts htail e hfirst
  · refine (TextEdit.pairwise_puts _).imp_of_mem fun {p q} hp hq hle => ?_
    rcases h.put_cases hends hblank hanchored hp with ⟨_, _, _, _, _, hreads⟩ | ⟨hx, _⟩
    · exact Or.inl hreads
    · rcases h.put_cases hends hblank hanchored hq with
        ⟨i, m, hm, hgone, hplace, _⟩ | ⟨_, _, hbreak, _⟩
      · -- what is put in behind the last member comes behind what is put in in front of one
        rw [hplace] at hle
        exact absurd (hx.trans hle) (not_le_of_gt (h.member_lt hends hm hgone))
      · exact Or.inr hbreak

omit hends hstops hus in
theorem codes_puts {P Q : Position → Bool}
    (hplaces : ∀ e ∈ edits, e.isInsertion = true →
      P (movedPlace (deletions.map (·.range)) e.range.start) = Q e.range.start)
    (hordered : (edits.filter fun e => Q e.range.start && e.hasCode).Pairwise
      fun e f => e.range.start ≤ f.range.start) :
    ((TextEdit.puts (relocated s edits deletions)).filter fun p => P p.place).flatMap Put.code =
      TextEdit.codesAt Q edits :=
  TextEdit.flatMap_puts_moved h.apart (fun e he => (h.deletes e he).1)
    (fun e he => (hanchored e he).isInsertion_of_hasCode hblank)
    (fun e he => ⟨_, ((hanchored e he).reads hblank).codes Lexer.break_nil⟩) hplaces hordered

omit hblank hstops hus in
/-- An edit starts in front of a member that stays, and there it does not move, or behind the last
one. -/
theorem start_cases (he : e ∈ edits) :
    (∃ i m, n.members[i]? = some m ∧ gone i = false ∧ e.range.start = m.range.start ∧
        e.range.start < x) ∨ x ≤ e.range.start := by
  cases hanchored e he with
  | inFront i r text hr hgone =>
      have hlt := hends.inFront r (List.mem_of_getElem? hr)
      rw [h.members_eq, List.getElem?_map, Option.map_eq_some_iff] at hr
      obtain ⟨m, hm, rfl⟩ := hr
      exact Or.inl ⟨i, m, hm, hgone, rfl, hlt⟩
  | behind z text hz =>
      refine Or.inr ?_
      rcases hz with rfl | rfl
      · exact le_refl _
      · exact hends.le
  | bracket i t hclosing ht => exact Or.inr (hends.le.trans (hends.le_gap i t hclosing ht))

omit hanchored in
theorem exists_codes {text : String}
    (hread : Lexer.tokenize text = .ok (s.tokens.tokens.toList.map Token.plain))
    (hlisted : Listed s list n gone tail x y added fs edits)
    (hstarts : tail = .lineEnded ∨ tail = .lineParted →
      ∀ e ∈ (edits.filter fun e => decide (e.range.start = y)).head?,
        StartsLine e.newText.toList)
    (hcomma : ∃ t ∈ us.getLast?, t.is "," = !tail.leads) (hsome : n.staying gone ≠ []) :
    ∃ newText vs ks, TextEdit.applyAll text
        ((relocated s edits deletions).mergeSort TextEdit.comesFirst) = .ok newText ∧
      Lexer.Codes newText.toList ks ∧
      Syntax.commaSeparated n.Lists (Node.refilled n.members gone added fs) vs ∧
      Respells ks ((front ++ opening :: (vs ++ closing :: back)).map Token.plain) := by
  have hanchored := hlisted.anchored
  have hmono := fun {p q : Position} (hle : p ≤ q) =>
    RankedEdit.movedPlace_mono h.apart.pairwise_ranges h.apart.proper_ranges hle
  obtain ⟨newText, happly, hcodes⟩ := (h.standApart hanchored hlisted.apart).exists_codes hread
    (h.weaves hends hblank hanchored hstops hus hlisted.apart hstarts)
  rw [weave_filter h.onLines.inLines.ordered] at hcodes
  have hkept := h.keptCode_takers hanchored
  rw [keptCode] at hkept
  rw [hkept] at hcodes
  have hbehind : ((TextEdit.puts (relocated s edits deletions)).filter fun p =>
      decide (movedPlace (deletions.map (·.range)) x ≤ p.place)).flatMap Put.code =
        TextEdit.codesAt (fun p => decide (x ≤ p)) edits := by
    refine h.codes_puts (P := fun p => decide (movedPlace (deletions.map (·.range)) x ≤ p))
      hblank hanchored (fun e he _ => ?_) hlisted.ordered
    rw [decide_eq_decide]
    rcases h.start_cases hends hanchored he with
      ⟨i, m, hm, hgone, heq, hlt⟩ | hle
    · rw [heq, h.movedPlace_member hm hgone]
      exact iff_of_false (not_le_of_gt (h.member_lt hends hm hgone)) (not_le_of_gt (heq ▸ hlt))
    · exact iff_of_true (hmono hle) hle
  have hadded : ∀ i m, n.members[i]? = some m → gone i = false →
      commaEnded (Spelled n.Lists) (added i)
        (((TextEdit.puts (relocated s edits deletions)).filter
          fun p => decide (p.place = m.range.start)).flatMap Put.code) := by
    intro i m hm hgone
    have hr : list.members[i]? = some m.range := by
      rw [h.members_eq, List.getElem?_map, hm]
      rfl
    have hin := hlisted.inFront i m.range hr
    rw [← h.codes_puts (P := fun p => decide (p = m.range.start)) hblank hanchored] at hin
    · exact hin
    · intro e he _
      rw [decide_eq_decide]
      rcases h.start_cases hends hanchored he with ⟨j, k, hk, hstays, heq, hlt⟩ | hle
      · rw [heq, h.movedPlace_member hk hstays]
      · have hlt := h.member_lt hends hm hgone
        refine iff_of_false (ne_of_gt (lt_of_lt_of_le hlt (hmono hle))) (ne_of_gt ?_)
        exact lt_of_lt_of_le (hends.inFront m.range (List.mem_of_getElem? hr)) hle
    · refine List.pairwise_of_forall_mem_list fun e he f hf => le_of_eq ?_
      have hstart := (Bool.and_eq_true_iff.mp (List.mem_filter.mp he).2).1
      have hstart' := (Bool.and_eq_true_iff.mp (List.mem_filter.mp hf).2).1
      exact (of_decide_eq_true hstart).trans (of_decide_eq_true hstart').symm
  obtain ⟨mark, hmark, htoken⟩ := hcomma
  have hplaces : ∀ p ∈ TextEdit.puts (relocated s edits deletions),
      (∃ i m, n.members[i]? = some m ∧ gone i = false ∧ p.place = m.range.start) ∨
        movedPlace (deletions.map (·.range)) x ≤ p.place ∧ p.place ≤ closing.range.start := by
    intro p hp
    rcases h.put_cases hends hblank hanchored hp with ⟨i, m, hm, hgone, hplace, _⟩ | ⟨hx, hle, _⟩
    · exact Or.inl ⟨i, m, hm, hgone, hplace⟩
    · exact Or.inr ⟨hx, hle⟩
  obtain ⟨vs, hvs, hrespells⟩ := h.bracketed.exists_refilled h.code_eq h.tame h.ordered h.cuts
    h.marks (TextEdit.pairwise_puts (relocated s edits deletions))
    (h.stop_le_moved hstops hus (List.mem_append_left _ List.mem_concat_self))
    (fun t ht => h.stop_le_moved hstops hus (List.mem_append_right _ ht)) hplaces hadded
    (fun hended => by
      rw [hbehind]
      have hleads := htoken.symm.trans (hended mark hmark)
      exact hlisted.ended (by rwa [Bool.not_eq_true'] at hleads))
    (fun hnot => by
      obtain ⟨t, ht, hnot⟩ := hnot
      rw [hbehind]
      obtain rfl := Option.some.inj (ht.symm.trans hmark)
      have hleads := htoken.symm.trans hnot
      exact ⟨hsome, hlisted.led (by rwa [Bool.not_eq_false'] at hleads)⟩)
  exact ⟨newText, vs, _, happly, hcodes, hvs, hrespells⟩

end ListCut

end AnnotationEdit

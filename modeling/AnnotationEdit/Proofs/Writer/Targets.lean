import AnnotationEdit.Proofs.Batch.Insertions
import AnnotationEdit.Proofs.Writer.Hosting

/-!
# Where annotations of targets and targets are written

Annotations of a target are written on its plot, between its assignments: bare ones in front of the
sign of another or behind the last one, others between the parentheses, which are put around the
only one of a target where it has none (`Scene.writesAt_insertAnnotation`,
`Scene.convertToCompound_eq`).
New targets and references are written between plots (`Scene.writesAt_insertTarget`,
`Scene.writesAt_insertReference`).
-/

namespace AnnotationEdit

open Syntax (Node)

namespace Scene

variable {s : Scene} {p : Pointer} {t : Syntax.Target} {us ws vs : List Token} {mark : Token}
  {index : Option Nat} {e : Tree.Element}

/-- Tokens of the document that are the plot of a target. -/
structure Plot (s : Scene) (t : Syntax.Target) (us ws vs : List Token) (mark : Token) : Prop where
  plotted : ∃ vocabulary, t.PlottedAs vocabulary us ws vs mark
  sublist : (us ++ (ws ++ (vs ++ [mark]))).Sublist s.code

/-- The place is on a plot with this mark. -/
def OnPlot (t : Syntax.Target) (mark : Token) (x : Position) : Prop :=
  t.range.start < x ∧ x ≤ mark.range.start

namespace Plot

theorem vs_sublist : vs.Sublist (us ++ (ws ++ (vs ++ [mark]))) :=
  ((List.sublist_append_left vs _).trans (List.sublist_append_right ws _)).trans
    (List.sublist_append_right us _)

theorem ordered (h : s.Plot t us ws vs mark) (hs : s.Parsed) :
    Token.Ordered s.tokens.size (us ++ (ws ++ (vs ++ [mark]))) :=
  hs.sorted.sublist (h.sublist.trans List.filter_sublist)

theorem mark_mem (h : s.Plot t us ws vs mark) : mark ∈ s.code := h.sublist.subset (by simp)

theorem exists_mark (h : s.Plot t us ws vs mark) :
    ∃ m, s.tokens.get? m = some mark ∧ mark.isCode = true := by
  obtain ⟨hmem, hcode⟩ := List.mem_filter.mp h.mark_mem
  obtain ⟨m, hm⟩ := TokenStream.exists_get? hmem
  exact ⟨m, hm, hcode⟩

theorem kind_mark (h : s.Plot t us ws vs mark) : mark.kind = .punctuation := by
  obtain ⟨vocabulary, hplotted⟩ := h.plotted
  rcases hplotted.mark with hmark | hmark
  · exact Token.kind_of_is hmark.1
  · exact Token.kind_of_is hmark.1

theorem noComma (h : s.Plot t us ws vs mark) : mark.is "," = false := by
  obtain ⟨vocabulary, hplotted⟩ := h.plotted
  rcases hplotted.mark with hmark | hmark
  · exact Token.is_eq_false_of_is hmark.1 (by decide)
  · exact Token.is_eq_false_of_is hmark.1 (by decide)

theorem start_eq (h : s.Plot t us ws vs mark) : t.range.start = t.nameRange.start := by
  obtain ⟨vocabulary, hplotted⟩ := h.plotted
  rw [hplotted.range, Syntax.Parser.targetOf]

theorem name_proper (h : s.Plot t us ws vs mark) (hs : s.Parsed) : t.nameRange.Proper := by
  obtain ⟨vocabulary, hplotted⟩ := h.plotted
  exact hplotted.name.proper ((h.ordered hs).sublist (List.sublist_append_left us _))

/-- What is written by tokens of the assignments stands between the name and the mark. -/
theorem inside (h : s.Plot t us ws vs mark) (hs : s.Parsed) {r : Range} (hr : Within vs r) :
    t.nameRange.Before r ∧ r.Before mark.range ∧ r.Proper ∧ Within s.code r := by
  obtain ⟨vocabulary, hplotted⟩ := h.plotted
  have hordered := h.ordered hs
  have hvs : vs.Sublist (ws ++ (vs ++ [mark])) :=
    (List.sublist_append_left vs _).trans (List.sublist_append_right ws _)
  refine ⟨?_, ?_, ?_, hr.weaken (vs_sublist.trans h.sublist)⟩
  · exact (Within.of_spans hplotted.name).before hr (hordered.sublist (hvs.append_left us))
  · refine hr.before (.of_spans (.singleton mark)) (hordered.sublist ?_)
    exact (List.sublist_append_right ws _).trans (List.sublist_append_right us _)
  · obtain ⟨ts, hts, hspans⟩ := hr
    exact hspans.proper (hordered.sublist (hts.trans vs_sublist))

theorem name_before (h : s.Plot t us ws vs mark) (hs : s.Parsed) :
    t.nameRange.Before mark.range := by
  obtain ⟨vocabulary, hplotted⟩ := h.plotted
  refine (Within.of_spans hplotted.name).before (.of_spans (.singleton mark))
    ((h.ordered hs).sublist ?_)
  exact
    ((List.sublist_append_right vs [mark]).trans (List.sublist_append_right ws _)).append_left us

theorem onPlot (h : s.Plot t us ws vs mark) (hs : s.Parsed) {x : Position}
    (hstart : t.nameRange.stop ≤ x) (hstop : x ≤ mark.range.start) : OnPlot t mark x :=
  ⟨h.start_eq ▸ lt_of_lt_of_le (h.name_proper hs) hstart, hstop⟩

/-- The assignments of a target stand on its plot. -/
theorem assignment (h : s.Plot t us ws vs mark) (hs : s.Parsed) :
    ∀ r ∈ t.assignments.map (·.range), t.nameRange.Before r ∧ r.Before mark.range ∧ r.Proper ∧
      Within s.code r := by
  obtain ⟨vocabulary, hplotted⟩ := h.plotted
  refine List.forall_mem_map.mpr fun a ha => ?_
  obtain ⟨ts, hts, hwritten⟩ := (Syntax.laid_assignments hplotted.assignments).exists_written a ha
  exact h.inside hs ⟨ts, hts, Syntax.spans_assignment hwritten.choose_spec⟩

theorem apart (h : s.Plot t us ws vs mark) (hs : s.Parsed) :
    (t.assignments.map (·.range)).Pairwise Range.Before := by
  obtain ⟨vocabulary, hplotted⟩ := h.plotted
  exact List.pairwise_map.mpr ((Syntax.laid_assignments hplotted.assignments).pairwise
    (fun a ts ha => .of_spans (Syntax.spans_assignment ha.choose_spec))
    ((h.ordered hs).sublist vs_sublist))

theorem stop_le (h : s.Plot t us ws vs mark) (hs : s.Parsed) :
    t.range.stop ≤ mark.range.start := by
  obtain ⟨vocabulary, hplotted⟩ := h.plotted
  rw [hplotted.range, Syntax.Parser.targetOf]
  cases hlast : t.assignments.getLast? with
  | none => exact h.name_before hs
  | some a =>
      exact (h.assignment hs a.range (List.mem_map_of_mem (List.mem_of_getLast? hlast))).2.1

end Plot

def HostsAssignment (t : Syntax.Target) (mark : Token) (index : Option Nat) (x : Position) : Prop :=
  OnPlot t mark x ∧ (Node.target t).Clear index x

/-! ## Bare annotations -/

/-- Without parentheses every assignment has a sign of its own on the plot. -/
theorem Plot.laid_signed (h : s.Plot t us ws vs mark) (hs : s.Parsed) (hnone : t.compound = none) :
    Laid Syntax.Assignment.Signed t.assignments vs := by
  obtain ⟨vocabulary, hplotted⟩ := h.plotted
  exact hplotted.assignments.laid_signed ((h.ordered hs).sublist vs_sublist) hnone

theorem Plot.signed (h : s.Plot t us ws vs mark) (hs : s.Parsed) (hnone : t.compound = none)
    {a : Syntax.Assignment} (ha : a ∈ t.assignments) :
    Within vs a.fullRange ∧ a.fullRange.stop = a.range.stop ∧
      ∃ sign, a.atSign = some sign ∧ sign.start = a.fullRange.start ∧ sign.Proper ∧
        sign.Before a.range := by
  obtain ⟨ts, hts, hsigned⟩ := (h.laid_signed hs hnone).exists_written a ha
  exact ⟨⟨ts, hts, hsigned.spans⟩, hsigned.stop, hsigned.sign⟩

theorem Plot.host_sign (h : s.Plot t us ws vs mark) (hs : s.Parsed) (hnone : t.compound = none)
    {k : Nat} {a : Syntax.Assignment} (hindex : index = some k) (ha : t.assignments[k]? = some a) :
    HostsAssignment t mark index a.fullRange.start := by
  have hapart : t.assignments.Pairwise fun a b => a.fullRange.Before b.fullRange :=
    (h.laid_signed hs hnone).pairwise (fun a ts ha => .of_spans ha.spans)
      ((h.ordered hs).sublist vs_sublist)
  obtain ⟨hwithin, _, sign, _, hsign, hproper, hbefore⟩ :=
    h.signed hs hnone (List.mem_of_getElem? ha)
  obtain ⟨hname, hmark, hfull, _⟩ := h.inside hs hwithin
  refine ⟨h.onPlot hs hname (le_trans (le_of_lt hfull) hmark), Node.clear_of_list rfl ?_⟩
  have hk : (t.assignments.map (·.range))[k]? = some a.range := by
    rw [List.getElem?_map, ha]
    rfl
  refine between_before (fun r hr => (h.assignment hs r hr).2.2.1) (h.apart hs) hk hindex
    (hsign ▸ le_trans (le_of_lt hproper) hbefore) fun i r hik hr => ?_
  obtain ⟨b, hb, rfl⟩ := Option.map_eq_some_iff.mp (List.getElem?_map ▸ hr)
  have hearlier := rel_of_getElem? hapart hb ha hik
  rw [← (h.signed hs hnone (List.mem_of_getElem? hb)).2.1]
  exact hearlier

theorem Plot.host_behind (h : s.Plot t us ws vs mark) (hs : s.Parsed) {last : Syntax.Assignment}
    (hlast : t.assignments.getLast? = some last) (hindex : index.bind (t.assignments[·]?) = none)
    {x : Position} (hx : last.range.stop ≤ x) (hle : x ≤ mark.range.start) :
    HostsAssignment t mark index x := by
  have hlast' : (t.assignments.map (·.range)).getLast? = some last.range := by
    rw [List.getLast?_map, hlast]
    rfl
  have hindex' : index.bind ((t.assignments.map (·.range))[·]?) = none := by
    cases index with
    | none => rfl
    | some k =>
        rw [Option.bind_some] at hindex ⊢
        rw [List.getElem?_map, hindex]
        rfl
  obtain ⟨hname, _, hproper, _⟩ := h.assignment hs _ (List.mem_of_getLast? hlast')
  have hname' := le_trans hname (le_trans (le_of_lt hproper) hx)
  refine ⟨h.onPlot hs hname' hle, Node.clear_of_list rfl ?_⟩
  exact between_behind (fun r hr => (h.assignment hs r hr).2.2.1) (h.apart hs) hlast' hindex' hx

theorem Plot.host_word (h : s.Plot t us ws vs mark) (hs : s.Parsed) (hnil : t.assignments = [])
    {i : Nat} {next : Token} (hi : s.tokens.codeAfter? t.nameRange.stop = some i)
    (hnext : s.tokens.get? i = some next) (hword : next.isWord "with" = true) :
    HostsAssignment t mark index next.range.stop := by
  obtain ⟨vocabulary, hplotted⟩ := h.plotted
  have hname : Within s.code t.nameRange :=
    ⟨us, (List.sublist_append_left us _).trans h.sublist, hplotted.name⟩
  obtain ⟨_, j, _, u, _, hu, _, _, _, hrange⟩ := hs.sorted.exists_bounds hname
  have hstop : t.nameRange.stop = u.range.stop := by rw [hrange]
  obtain ⟨m, hm, hcode⟩ := h.exists_mark
  have hjm : j < m := by
    refine (hs.sorted.stop_lt_iff hu hm).mp (lt_of_le_of_lt ?_ (hs.sorted.proper hm))
    exact hstop ▸ h.name_before hs
  have hafter : s.tokens.atOrAfter t.nameRange.stop = j + 1 := by
    refine TokenStream.partitionPoint_tokens (TokenStream.lt_size_of_get? hu) fun k v hk => ?_
    rw [decide_eq_true_iff, hstop]
    constructor
    · intro hlt
      refine Nat.lt_of_not_le fun hjk => ?_
      exact absurd (hs.sorted.before hu hk hjk) (not_le_of_gt hlt)
    · intro hkj
      exact lt_of_le_of_lt (hs.sorted.start_le hk hu (Nat.le_of_lt_succ hkj)) (hs.sorted.proper hu)
  rw [TokenStream.codeAfter?, hafter] at hi
  obtain ⟨hji, _, _, hbetween⟩ := TokenStream.firstCode?_eq_some_iff.mp hi
  have him : i < m := by
    rcases Nat.lt_trichotomy i m with hlt | rfl | hgt
    · exact hlt
    · -- the mark is no word
      obtain rfl := Option.some.inj (hnext.symm.trans hm)
      rw [Token.isWord, h.kind_mark] at hword
      cases hword
    · have hno := hbetween m hjm hgt
      rw [TokenStream.test, hm] at hno
      exact absurd hno (by rw [Option.any_some, hcode]; decide)
  refine ⟨h.onPlot hs ?_ (hs.sorted.before hnext hm him), ?_⟩
  · exact hstop ▸ hs.sorted.stop_le hu hnext (Nat.le_of_lt hji)
  · intro path c hc
    rw [Node.children, hnil] at hc
    cases hc

/-- The first annotation goes behind the name, or behind the word that follows it. -/
theorem writesAt_insertFirst (h : s.Plot t us ws vs mark) (hs : s.Parsed)
    (hnil : t.assignments = []) :
    WritesAt (HostsAssignment t mark index) p fun d => .ok (s.insertBare d t index e) := by
  have hlast : t.assignments.getLast? = none := List.getLast?_eq_none_iff.mpr hnil
  have hname : HostsAssignment t mark index t.nameRange.stop := by
    refine ⟨h.onPlot hs (le_refl _) (h.name_before hs), fun path c hc => ?_⟩
    rw [Node.children, hnil] at hc
    cases hc
  cases hnext : (s.tokens.codeAfter? t.nameRange.stop).bind s.tokens.get? with
  | none =>
      apply writesAt_insert hname
      intro d
      simp only [insertBare, hlast, hnext]
      rfl
  | some next =>
      obtain ⟨i, hi, hget⟩ := Option.bind_eq_some_iff.mp hnext
      by_cases hword : next.isWord "with" = true
      · apply writesAt_insert (h.host_word hs hnil hi hget hword)
        intro d
        simp only [insertBare, hlast, hnext, if_pos hword]
        rfl
      · apply writesAt_insert hname
        intro d
        simp only [insertBare, hlast, hnext, if_neg hword]
        rfl

theorem Plot.host_comment (h : s.Plot t us ws vs mark) (hs : s.Parsed) (hnone : t.compound = none)
    {last : Syntax.Assignment} (hlast : t.assignments.getLast? = some last)
    (hindex : index.bind (t.assignments[·]?) = none) {i : Nat} {comment : Token}
    (hi : s.tokens.endingAt? last.fullRange.stop = some i)
    (hcomment : s.tokens.trailingComment? i = some comment) :
    HostsAssignment t mark index comment.range.stop := by
  obtain ⟨hwithin, hstop, _⟩ := h.signed hs hnone (List.mem_of_getLast? hlast)
  obtain ⟨_, hmark, _, hcode⟩ := h.inside hs hwithin
  obtain ⟨_, j, _, u, _, hu, _, _, _, hrange⟩ := hs.sorted.exists_bounds hcode
  have hend : last.fullRange.stop = u.range.stop := by rw [hrange]
  rw [hend, TokenStream.endingAt?_eq_some hs.sorted hu] at hi
  obtain rfl := Option.some.inj hi
  obtain ⟨m, hm, hmarkCode⟩ := h.exists_mark
  have htrails : s.tokens.Trails j (j + 1) :=
    Or.inr (Or.inr ⟨j, Or.inl rfl, rfl, by rw [hcomment]; rfl⟩)
  obtain ⟨hle, hbefore⟩ := hs.sorted.stop_of_trails hu hm (hend ▸ hmark) hmarkCode h.noComma
    htrails (TokenStream.trailingComment?_eq_some hcomment).1
  rw [← hend, hstop] at hle
  exact h.host_behind hs hlast hindex hle hbefore

theorem writesAt_insertBare (h : s.Plot t us ws vs mark) (hs : s.Parsed)
    (hnone : t.compound = none) :
    WritesAt (HostsAssignment t mark index) p fun d => .ok (s.insertBare d t index e) := by
  cases hlast : t.assignments.getLast? with
  | none => exact writesAt_insertFirst h hs (List.getLast?_eq_none_iff.mp hlast)
  | some last =>
      cases hplace : index.bind (t.assignments[·]?) with
      | some neighbour =>
          obtain ⟨k, hk, hneighbour⟩ := Option.bind_eq_some_iff.mp hplace
          apply writesAt_insert (h.host_sign hs hnone hk hneighbour)
          intro d
          simp only [insertBare, hlast, hplace]
          rfl
      | none =>
          obtain ⟨hwithin, hstop, _⟩ := h.signed hs hnone (List.mem_of_getLast? hlast)
          have hend := h.host_behind hs hlast hplace (le_of_eq hstop.symm)
            (h.inside hs hwithin).2.1
          by_cases hline : (last.fullRange.start.line == t.nameRange.start.line ||
              !s.tokens.startsLine last.fullRange.start) = true
          · apply writesAt_insert hend
            intro d
            simp only [insertBare, hlast, hplace, if_pos hline]
            rfl
          · -- on a line of its own, behind a comment
            cases hcomment : (s.tokens.endingAt? last.fullRange.stop).bind
                s.tokens.trailingComment? with
            | none =>
                apply writesAt_insert hend
                intro d
                simp only [insertBare, hlast, hplace, if_neg hline, hcomment]
                rfl
            | some comment =>
                obtain ⟨i, hi, hcomment'⟩ := Option.bind_eq_some_iff.mp hcomment
                apply writesAt_insert (h.host_comment hs hnone hlast hplace hi hcomment')
                intro d
                simp only [insertBare, hlast, hplace, if_neg hline, hcomment]
                rfl

/-! ## Parentheses -/

/-- Beside the only assignment of a target. -/
theorem writesAt_insertConverting (h : s.Plot t us ws vs mark) (hs : s.Parsed)
    {first : Syntax.Assignment} (hfirst : t.assignments = [first]) :
    WritesAt (HostsAssignment t mark index) p fun d => s.insertConverting d t index e := by
  obtain ⟨hname, hmark, hproper, _⟩ := h.assignment hs first.range (by rw [hfirst]; simp)
  by_cases hindex : (index == some 0) = true
  · have hhost : HostsAssignment t mark index first.range.start := by
      refine ⟨h.onPlot hs hname (le_trans (le_of_lt hproper) hmark), Node.clear_of_list rfl ?_⟩
      have hk : (t.assignments.map (·.range))[0]? = some first.range := by rw [hfirst]; rfl
      exact between_before (fun r hr => (h.assignment hs r hr).2.2.1) (h.apart hs) hk
        (beq_iff_eq.mp hindex) (le_refl _) fun i r hi => absurd hi (Nat.not_lt_zero i)
    apply writesAt_insert hhost
    intro d
    simp only [insertConverting, hfirst, List.head?_cons, if_pos hindex]
    rfl
  · have hplace : index.bind (t.assignments[·]?) = none := by
      rw [hfirst]
      cases index with
      | none => rfl
      | some k =>
          cases k with
          | zero => exact absurd rfl hindex
          | succ k => rfl
    have hlast : t.assignments.getLast? = some first := by rw [hfirst]; rfl
    apply writesAt_insert (h.host_behind hs hlast hplace (le_refl _) hmark)
    intro d
    simp only [insertConverting, hfirst, List.head?_cons, if_neg hindex]
    rfl

theorem Plot.exists_compoundList (h : s.Plot t us ws vs mark) (hs : s.Parsed) {r : Range}
    (hr : t.compound = some r) : ∃ list opening closing, s.compoundList p t r = .ok list ∧
      list.pointer = p ∧ list.opening = opening.range ∧ list.closing = closing.range ∧
      list.members = t.assignments.map (·.range) ∧ r.stop = closing.range.stop ∧
      Enclosed s.tokens (t.assignments.map (·.range)) t.range.start opening closing mark := by
  obtain ⟨vocabulary, hplotted⟩ := h.plotted
  obtain ⟨sign, paren, closing, hsub, rfl, hsplits⟩ :=
    hplotted.assignments.exists_parenthesized ((h.ordered hs).sublist vs_sublist) hr
  have hcode := hsub.trans (vs_sublist.trans h.sublist)
  obtain ⟨i, m, opening, hi, hm, hopening, hopeningCode, hle, hbrackets⟩ :=
    exists_opening hs hcode
  have hinside : ∀ u ∈ [sign, paren, closing], t.nameRange.Before u.range ∧
      u.range.Before mark.range ∧ u.range.Proper ∧ Within s.code u.range := fun u hu =>
    h.inside hs ⟨[u], List.singleton_sublist.mpr (hsub.subset hu), .singleton u⟩
  have hclosingCode : closing ∈ s.code := hcode.subset (by simp)
  have hstart : ∀ {x : Position}, t.nameRange.stop ≤ x → t.range.start < x := fun hx =>
    h.start_eq ▸ lt_of_lt_of_le (h.name_proper hs) hx
  refine ⟨⟨p, opening.range, closing.range, t.assignments.map (·.range),
    s.level sign.range.start.line⟩, opening, closing, ?_, rfl, rfl, rfl, rfl, rfl, ?_⟩
  · have hlist := bracketed_eq (p := p) hs hopeningCode hclosingCode (t.assignments.map (·.range))
    rw [compoundList, hi, Option.bind_some, hm]
    simp only [TokenStream.rangeAt_of_get? hopening, hlist]
    rfl
  · refine ⟨hs.sorted, fun r hr => (h.assignment hs r hr).2.2.2, h.apart hs, ?_, ?_, ?_, hbrackets,
      List.forall_mem_map.mpr hsplits, ?_, fun r hr => (h.assignment hs r hr).2.1, h.noComma⟩
    · simp only [List.forall_mem_cons]
      exact ⟨hopeningCode, hclosingCode, h.mark_mem, fun _ hnil => absurd hnil List.not_mem_nil⟩
    · exact fun r hr => hstart (h.assignment hs r hr).1
    · exact le_trans (le_of_lt (hstart (hinside sign (by simp)).1)) hle
    · obtain ⟨_, hmark, hproper, _⟩ := hinside closing (by simp)
      exact le_trans (le_of_lt hproper) hmark

theorem writesAt_insertCompound (h : s.Plot t us ws vs mark) (hs : s.Parsed) {r : Range}
    (hr : t.compound = some r) (fragment : Nat → String) :
    WritesAt (HostsAssignment t mark index) p (fun d => do
      let list ← s.compoundList p t r
      s.insertMember d list index fragment) := by
  obtain ⟨list, opening, closing, hlist, hpointer, hopening, hclosing, hmembers, hstop,
    henclosed⟩ := h.exists_compoundList (p := p) hs hr
  have hend : (Node.target t).listEnd = closing.range.stop := by
    rw [Node.listEnd, hr, ← hstop]
    rfl
  have hwrites : WritesAt (Enclosed.Place (t.assignments.map (·.range)) t.range.start closing mark
      index) list.pointer fun d => s.insertMember d list index fragment :=
    writesAt_enclosed list henclosed hopening hclosing hmembers
  rw [hpointer] at hwrites
  refine (hwrites.imp fun x hx => ?_).congr fun d => ?_
  · obtain ⟨hstart, hle, hbetween⟩ := hx
    refine ⟨⟨hstart, hle⟩, Node.clear_of_list rfl ?_⟩
    rw [hend]
    exact hbetween
  · rw [hlist]
    rfl

theorem writesAt_insertAnnotation (h : s.Plot t us ws vs mark) (hs : s.Parsed)
    (hn : s.document.syntaxTree.resolve? p = some (.target t))
    (hconverting : s.isConverting p = true → t.compound = none ∧ t.assignments.length = 1) :
    WritesAt (HostsAssignment t mark index) p fun d => s.insertAnnotation d p index e := by
  by_cases hconv : s.isConverting p = true
  · obtain ⟨first, hfirst⟩ := List.length_eq_one_iff.mp (hconverting hconv).2
    refine (writesAt_insertConverting (e := e) h hs hfirst).congr fun d => ?_
    rw [ insertAnnotation, node_eq hn]
    exact if_pos hconv
  · cases hcompound : t.compound with
    | none =>
        refine (writesAt_insertBare (e := e) h hs hcompound).congr fun d => ?_
        rw [ insertAnnotation, node_eq hn]
        simp only [bind, Except.bind, if_neg hconv, hcompound]
        rfl
    | some r =>
        refine (writesAt_insertCompound h hs hcompound
          (s.printer.annotation .compound e)).congr fun d => ?_
        rw [ insertAnnotation, node_eq hn]
        simp only [bind, Except.bind, if_neg hconv, hcompound]

/-- Parentheses around the only assignment of a target are written on its plot, behind its sign and
behind its end. -/
theorem convertToCompound_eq (h : s.Plot t us ws vs mark) (hs : s.Parsed)
    (hn : s.document.syntaxTree.resolve? p = some (.target t)) (hnone : t.compound = none)
    (hlength : t.assignments.length = 1) (hreplaced : s.replaced = []) :
    ∃ c : Draft, c.OnlyAt p ∧ (∀ x ∈ c.spots, x.2 ≠ .normal ∧ OnPlot t mark x.1) ∧
      ∀ d, s.convertToCompound d p false = .ok (d.append c) := by
  obtain ⟨first, hfirst⟩ := List.length_eq_one_iff.mp hlength
  have hmem : first ∈ t.assignments := hfirst ▸ List.mem_singleton_self first
  obtain ⟨hwithin, hstop, sign, hsign, hstart, hproper, hbefore⟩ := h.signed hs hnone hmem
  obtain ⟨hname, hmark, hfull, _⟩ := h.inside hs hwithin
  let level := s.level sign.start.line
  let lines := (List.range (first.range.stop.line - first.range.start.line)).map
    (first.range.start.line + 1 + ·)
  let opening : RankedEdit := (.insert sign.stop ("(\n" ++ s.indent (level + 1)), .opening)
  let closing : RankedEdit := (.insert first.range.stop ("\n" ++ s.indent level ++ ")"), .closing)
  have hfirstProper : first.range.Proper :=
    (h.assignment hs _ (List.mem_map_of_mem hmem)).2.2.1
  have hopeningPlot : OnPlot t mark sign.stop := by
    refine h.onPlot hs (le_trans hname (hstart ▸ le_of_lt hproper)) ?_
    exact le_trans hbefore (le_trans (le_of_lt hfirstProper) (hstop ▸ hmark))
  have hclosingPlot : OnPlot t mark first.range.stop :=
    h.onPlot hs (le_trans hname (le_trans (le_of_lt hfull) (le_of_eq hstop))) (hstop ▸ hmark)
  refine ⟨⟨[opening, closing], [], [], [], [], lines, [], []⟩, ⟨rfl, ?_, ?_, ?_, ?_, ?_⟩, ?_,
    fun d => ?_⟩
  · exact List.forall_mem_cons.mpr ⟨TextEdit.isDeletion_insert _ _,
      List.forall_mem_singleton.mpr (TextEdit.isDeletion_insert _ _)⟩
  · exact fun _ h => absurd h List.not_mem_nil
  · exact fun _ h => absurd h List.not_mem_nil
  · exact fun _ h => absurd h List.not_mem_nil
  · exact fun _ h => absurd h List.not_mem_nil
  · exact List.forall_mem_cons.mpr ⟨⟨EditPriority.noConfusion, hopeningPlot⟩,
      List.forall_mem_singleton.mpr ⟨EditPriority.noConfusion, hclosingPlot⟩⟩
  · rw [convertToCompound, node_eq hn]
    simp only [bind, Except.bind, hfirst, List.head?_cons, hsign, Bool.false_eq_true, if_false,
      hreplaced, List.contains_nil, Draft.push, Draft.append, List.append_nil, List.nil_append,
      List.append_assoc, List.cons_append]
    rfl

/-! ## Between plots -/

def OffPlots (s : Scene) (x : Position) : Prop :=
  ∀ t us ws vs mark front back, s.Plot t us ws vs mark →
    s.code = front ++ ((us ++ (ws ++ (vs ++ [mark]))) ++ back) →
    x ≤ t.range.start ∨ mark.range.start < x

theorem Plot.cases (h : s.Plot t us ws vs mark) (hs : s.Parsed) {front back : List Token}
    (hcode : s.code = front ++ ((us ++ (ws ++ (vs ++ [mark]))) ++ back)) {u : Token}
    (hu : u ∈ s.code) : u.range.stop ≤ t.range.start ∨ u ∈ us ++ (ws ++ (vs ++ [mark])) ∨
      mark.range.Before u.range := by
  obtain ⟨vocabulary, hplotted⟩ := h.plotted
  have happart := (hs.sorted.sublist (show s.code.Sublist _ from List.filter_sublist)).apart
  rw [hcode] at happart hu
  obtain ⟨_, hplot, hfront⟩ := List.pairwise_append.mp happart
  rcases List.mem_append.mp hu with hu | hu
  · left
    obtain ⟨⟨v, hv, hstart⟩, _⟩ := hplotted.name.exists_mem
    rw [h.start_eq, hstart]
    exact hfront u hu v (List.mem_append_left _ (List.mem_append_left _ hv))
  · rcases List.mem_append.mp hu with hu | hu
    · exact Or.inr (Or.inl hu)
    · exact Or.inr (Or.inr ((List.pairwise_append.mp hplot).2.2 mark (by simp) u hu))

theorem offPlots_origin : OffPlots s .origin := by
  intro t us ws vs mark front back _ _
  refine Or.inl (Position.le_def.mpr ?_)
  show 0 < t.range.start.line ∨ 0 = t.range.start.line ∧ 0 ≤ t.range.start.character
  omega

theorem offPlots_annotate (hs : s.Parsed) {u : Token} (hu : u ∈ s.code)
    (hword : u.isKeyword "annotate" = true) : OffPlots s u.range.start := by
  intro t us ws vs mark front back h hcode
  obtain ⟨i, hi⟩ := TokenStream.exists_get? (List.mem_filter.mp hu).1
  rcases h.cases hs hcode hu with hbefore | hplot | hbehind
  · exact Or.inl (le_trans (le_of_lt (hs.sorted.proper hi)) hbefore)
  · obtain ⟨vocabulary, hplotted⟩ := h.plotted
    rw [(hplotted.inner u hplot).1] at hword
    cases hword
  · obtain ⟨m, hm, _⟩ := h.exists_mark
    exact Or.inr (lt_of_lt_of_le (hs.sorted.proper hm) hbehind)

theorem offPlots_semicolon (hs : s.Parsed) {u : Token} (hu : u ∈ s.code)
    (hmark : u.is ";" = true) : OffPlots s u.range.stop := by
  intro t us ws vs mark front back h hcode
  obtain ⟨i, hi⟩ := TokenStream.exists_get? (List.mem_filter.mp hu).1
  obtain ⟨m, hm, _⟩ := h.exists_mark
  rcases h.cases hs hcode hu with hbefore | hplot | hbehind
  · exact Or.inl hbefore
  · obtain ⟨vocabulary, hplotted⟩ := h.plotted
    obtain rfl := (hplotted.inner u hplot).2 hmark
    exact Or.inr (hs.sorted.proper hm)
  · exact Or.inr (lt_trans (lt_of_lt_of_le (hs.sorted.proper hm) hbehind) (hs.sorted.proper hi))

theorem offPlots_last (hs : s.Parsed) {last : Token} (hlast : s.tokens.tokens.back? = some last) :
    OffPlots s last.range.stop := by
  intro t us ws vs mark front back h _
  obtain ⟨m, hm, _⟩ := h.exists_mark
  have hget : s.tokens.get? (s.tokens.size - 1) = some last := by
    rw [TokenStream.get?, TokenStream.size, ← hlast, Array.back?]
  have hlt := TokenStream.lt_size_of_get? hm
  exact Or.inr (lt_of_lt_of_le (hs.sorted.proper hm) (hs.sorted.stop_le hm hget (by omega)))

theorem Parsed.isKeyword (hs : s.Parsed) {u : Token} (hu : u ∈ s.tokens.tokens.toList)
    (hword : u.isWord "annotate" = true) : u ∈ s.code ∧ u.isKeyword "annotate" = true := by
  obtain ⟨uri, text, config, hparse, _⟩ := hs
  obtain ⟨tokens, _, htokens, hplain, _⟩ := Document.tokens_of_parse hparse
  rw [Token.isWord, Bool.and_eq_true, Bool.or_eq_true, beq_iff_eq, beq_iff_eq, beq_iff_eq] at hword
  obtain ⟨hkind, htext⟩ := hword
  have hkeyword : u.kind = .keyword := by
    rcases hkind with hkind | hkind
    · exact hkind
    · have hno := Lexer.not_keyword_of_tokenize htokens u.plain
        (hplain ▸ List.mem_map_of_mem hu) hkind
      rw [show u.plain.text = "annotate" from htext] at hno
      exact absurd hno (by decide)
  refine ⟨List.mem_filter.mpr ⟨hu, ?_⟩, ?_⟩
  · rw [Token.isCode, Token.isComment, hkeyword]
    rfl
  · rw [Token.isKeyword, hkeyword, htext]
    rfl

theorem writesAt_insertTarget (hs : s.Parsed) (target : Tree.Target) :
    WritesAt (OffPlots s) p fun d => .ok (s.insertTarget d index target) := by
  cases hplace : index.bind (s.document.syntaxTree.targets[·]?) with
  | some neighbour =>
      cases hfind : s.tokens.tokens.toList.reverse.find? fun token =>
          token.range.start ≤ neighbour.range.start && token.isWord "annotate" with
      | some token =>
          have hmem := List.mem_reverse.mp (List.mem_of_find?_eq_some hfind)
          have hword : token.isWord "annotate" = true := by
            have htest := List.find?_some hfind
            exact (Bool.and_eq_true_iff.mp htest).2
          obtain ⟨hcode, hkeyword⟩ := hs.isKeyword hmem hword
          apply writesAt_insert (offPlots_annotate hs hcode hkeyword)
          intro d
          simp only [insertTarget, hplace, hfind]
          rfl
      | none =>
          obtain ⟨k, _, hneighbour⟩ := Option.bind_eq_some_iff.mp hplace
          obtain ⟨uri, text, config, hparse, _⟩ := id hs
          obtain ⟨items, hitems, _, htargets⟩ := Document.written_file hparse
          have hordered := hs.sorted.sublist
            (show s.code.Sublist s.tokens.tokens.toList from List.filter_sublist)
          have hmem : neighbour ∈ Syntax.targetsOf items :=
            htargets ▸ List.mem_of_getElem? hneighbour
          obtain ⟨u, hu, hkeyword, hle⟩ := Syntax.exists_annotate hitems hordered hmem
          have hno := List.find?_eq_none.mp hfind u (List.mem_reverse.mpr (List.mem_filter.mp hu).1)
          refine absurd (Bool.and_eq_true_iff.mpr ⟨decide_eq_true hle, ?_⟩) hno
          rw [Token.isKeyword, Bool.and_eq_true] at hkeyword
          rw [Token.isWord, hkeyword.1, hkeyword.2]
          rfl
  | none =>
      cases hlast : s.tokens.tokens.back? with
      | some last =>
          apply writesAt_insert (offPlots_last hs hlast)
          intro d
          simp only [insertTarget, hplace, hlast]
          rfl
      | none =>
          apply writesAt_insert offPlots_origin
          intro d
          simp only [insertTarget, hplace, hlast]
          rfl

theorem writesAt_insertReference (hs : s.Parsed) (reference : Tree.Reference) :
    WritesAt (OffPlots s) p fun d => .ok (s.insertReference d reference) := by
  cases hlast : s.document.syntaxTree.declarations.getLast? with
  | some last =>
      obtain ⟨uri, text, config, hparse, _⟩ := id hs
      obtain ⟨items, hitems, hdeclarations, _⟩ := Document.written_file hparse
      obtain ⟨us, hus, hwritten⟩ := (Node.laid_declarations hitems).exists_written last
        (hdeclarations ▸ List.mem_of_getLast? hlast)
      obtain ⟨first, as, bs, cs, closing, rfl, _, _, _, _, hclosing, hrange⟩ := hwritten
      have hoff := offPlots_semicolon hs (hus.subset (by simp)) hclosing.1
      rw [show closing.range.stop = last.range.stop by rw [hrange]] at hoff
      apply writesAt_insert hoff
      intro d
      simp only [insertReference, hlast]
      rfl
  | none =>
      apply writesAt_insert offPlots_origin
      intro d
      simp only [insertReference, hlast]
      rfl

end Scene

end AnnotationEdit

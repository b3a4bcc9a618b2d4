import AnnotationEdit.Proofs.Syntax.Filling
import AnnotationEdit.Proofs.Syntax.Pruning

/-!
# Members that survive

Some members of one list go, with commas. What is kept of the tokens of the list are the tokens of
the other members as they are: each with its comma if all members had one (`kept_commaEnded`), else
the last one without (`kept_cases`). Around the list everything is kept (`CutsMembers.kept_eq_of_tame`).
-/

namespace AnnotationEdit

open Syntax

/-- Without a flagged token there, and with no comma at the ends, everything is kept. -/
theorem CutsMembers.kept_eq_of_tame {flagged cut : Token → Bool} {us code : List Token}
    (h : CutsMembers flagged cut code) (hcode : Stands us code) (htame : Tame us)
    (hstays : ∀ t ∈ us, flagged t = false) : kept cut us = us := by
  refine kept_eq_self fun t ht => ?_
  rw [← Bool.not_eq_true]
  intro hcut
  rcases h.comma_of_cut t (hcode.mem ht) hcut with hflagged | hcomma
  · rw [hstays t ht] at hflagged
    cases hflagged
  -- a comma stands between two other tokens, of which the second one would be flagged
  obtain ⟨as, bs, rfl⟩ := List.append_of_mem ht
  obtain ⟨front, rest, hcode⟩ := hcode
  obtain rfl | ⟨as, s, rfl⟩ := List.eq_nil_or_concat' as
  · rw [htame.head t rfl] at hcomma
    cases hcomma
  cases bs with
  | nil =>
      rw [htame.last t List.getLast?_concat] at hcomma
      cases hcomma
  | cons u bs =>
      have happart : Apart s t :=
        (List.isChain_append.mp htame.chain).2.2 s List.getLast?_concat t rfl
      have hs : s.is "," = false := by
        rw [← Bool.not_eq_true]
        intro hs
        rw [happart hs] at hcomma
        cases hcomma
      have hmem : ∀ v, v ∈ [s, t, u] → flagged v = false := fun v hv => hstays v <| by
        simp only [List.mem_cons, List.not_mem_nil, or_false] at hv
        rcases hv with rfl | rfl | rfl
        · exact List.mem_append_left _ List.mem_concat_self
        · exact ht
        · exact List.mem_append_right _ (List.mem_cons_of_mem _ List.mem_cons_self)
      have hrun := h.open_of_cut (front ++ as) s t (u :: (bs ++ rest)) (by
        rw [hcode]
        simp only [List.append_assoc, List.cons_append, List.nil_append])
        (hmem s (by simp)) hs (hmem t (by simp)) hcut
      obtain ⟨v, vs, heq, hv⟩ := hrun.head
      rw [← (List.cons.inj heq).1, hmem u (by simp)] at hv
      cases hv

namespace OpenRun

variable {flagged : Token → Bool} {us ws : List Token} {closing comma : Token}

/-- Flagged tokens in front of the end of a list. -/
theorem of_flagged (hus : ∀ t ∈ us, flagged t = true) (hne : us ≠ [])
    (hcloser : closing.isCloser = true) (hclosing : flagged closing = false) :
    OpenRun flagged (us ++ closing :: ws) :=
  ⟨us, closing, ws, rfl, hcloser, hclosing, fun t ht => hus t (List.mem_of_head? ht),
    ⟨us.getLast hne, List.getLast?_eq_some_getLast hne, hus _ (List.getLast_mem hne)⟩,
    fun t ht => Or.inl (hus t ht)⟩

theorem cons (hus : ∀ t ∈ us, flagged t = true) (hne : us ≠ []) (hcomma : comma.is "," = true)
    (h : OpenRun flagged ws) : OpenRun flagged (us ++ comma :: ws) := by
  obtain ⟨run, closing, rest, rfl, hcloser, hclosing, _, ⟨last, hlast, hflagged⟩, hall⟩ := h
  refine ⟨us ++ comma :: run, closing, rest, ?_, hcloser, hclosing, ?_, ⟨last, ?_, hflagged⟩, ?_⟩
  · rw [List.append_assoc, List.cons_append]
  · intro t ht
    rw [List.head?_append_of_ne_nil _ hne] at ht
    exact hus t (List.mem_of_head? ht)
  · cases run with
    | nil => cases hlast
    | cons a run =>
        rw [List.getLast?_append_of_ne_nil _ (List.cons_ne_nil _ _), List.getLast?_cons_cons]
        exact hlast
  · refine List.forall_mem_append.mpr ⟨fun t ht => Or.inl (hus t ht), ?_⟩
    exact List.forall_mem_cons.mpr ⟨Or.inr hcomma, hall⟩

end OpenRun

namespace Syntax

variable {α : Type} {flagged cut : Token → Bool} {written : α → List Token → Prop}
  {range : α → Range} {gone : α → Bool} {es : List α} {e : α} {us vs ts code : List Token}
  {closing : Token} {N : Nat}

/-- Exactly the tokens of the members that go are flagged. -/
def Marks (flagged : Token → Bool) (gone : α → Bool) (range : α → Range) (es : List α)
    (ts : List Token) : Prop :=
  ∀ t ∈ ts, flagged t = true ↔ ∃ e ∈ es, gone e = true ∧ (range e).contains t.range = true

theorem Marks.cons (hordered : Token.Ordered N (us ++ vs)) (he : Spans us (range e))
    (hes : ∀ f ∈ es, Within vs (range f)) (h : Marks flagged gone range (e :: es) (us ++ vs)) :
    (∀ t ∈ us, flagged t = gone e) ∧ Marks flagged gone range es vs := by
  constructor
  · intro t ht
    have hinside := he.contains (Spans.singleton t)
      (hordered.sublist (List.sublist_append_left us vs)) (List.singleton_sublist.mpr ht)
    rw [Bool.eq_iff_iff, h t (List.mem_append_left vs ht)]
    constructor
    · rintro ⟨f, hf, hgone, hcontains⟩
      rcases List.mem_cons.mp hf with rfl | hf
      · exact hgone
      · rw [(not_contains_of_within hordered).1 ht (hes f hf)] at hcontains
        cases hcontains
    · exact fun hgone => ⟨e, List.mem_cons_self, hgone, hinside⟩
  · intro t ht
    rw [h t (List.mem_append_right us ht)]
    constructor
    · rintro ⟨f, hf, hgone, hcontains⟩
      rcases List.mem_cons.mp hf with rfl | hf
      · rw [(not_contains_of_within hordered).2 ht (.of_spans he)] at hcontains
        cases hcontains
      · exact ⟨f, hf, hgone, hcontains⟩
    · rintro ⟨f, hf, h⟩
      exact ⟨f, List.mem_cons_of_mem e hf, h⟩

theorem Marks.skip (hordered : Token.Ordered N (us ++ vs)) (hes : ∀ f ∈ es, Within vs (range f))
    (h : Marks flagged gone range es (us ++ vs)) :
    (∀ t ∈ us, flagged t = false) ∧ Marks flagged gone range es vs := by
  refine ⟨fun t ht => ?_, fun t ht => h t (List.mem_append_right us ht)⟩
  rw [← Bool.not_eq_true, h t (List.mem_append_left vs ht)]
  rintro ⟨f, hf, _, hcontains⟩
  rw [(not_contains_of_within hordered).1 ht (hes f hf)] at hcontains
  cases hcontains

theorem Marks.drop (hordered : Token.Ordered N (us ++ vs)) (hes : ∀ f ∈ es, Within us (range f))
    (h : Marks flagged gone range es (us ++ vs)) :
    Marks flagged gone range es us ∧ ∀ t ∈ vs, flagged t = false := by
  refine ⟨fun t ht => h t (List.mem_append_left vs ht), fun t ht => ?_⟩
  rw [← Bool.not_eq_true, h t (List.mem_append_right us ht)]
  rintro ⟨f, hf, _, hcontains⟩
  rw [(not_contains_of_within hordered).2 ht (hes f hf)] at hcontains
  cases hcontains

/-- How members are written of which some can go. -/
structure Members.Written (range : α → Range) (written : α → List Token → Prop) : Prop where
  spans : ∀ e us, written e us → Spans us (range e)
  tame : ∀ e us, written e us → Tame us

namespace Members.Written

variable (h : Members.Written range written)

include h

theorem within {es : List α} {ts : List Token} (hes : commaSeparated written es ts) :
    ∀ e ∈ es, Within ts (range e) := by
  intro e he
  obtain ⟨us, hus, hwritten⟩ := (laid_of_commaSeparated hes).exists_written e he
  exact ⟨us, hus, h.spans e us hwritten⟩

/-- Members do not start with a comma. -/
theorem head (hclosing : closing.is "," = false) (hes : commaSeparated written es ts)
    (rest : List Token) : ∀ t ∈ (ts ++ closing :: rest).head?, t.is "," = false := by
  intro t ht
  cases es with
  | nil =>
      rw [commaSeparated] at hes
      rw [hes] at ht
      rw [← Option.some.inj ht]
      exact hclosing
  | cons e es =>
      have hhead : ∀ {us ws : List Token}, written e us → t ∈ (us ++ ws).head? →
          t.is "," = false := by
        intro us ws he ht
        rw [List.head?_append_of_ne_nil _ (h.spans e us he).ne_nil] at ht
        exact (h.tame e us he).head t ht
      rcases hes with ⟨he, _⟩ | ⟨us, comma, vs, rfl, he, _⟩
      · exact hhead he ht
      · rw [List.append_assoc] at ht
        exact hhead he ht

theorem marks_cons {comma : Token} (he : written e us) (hes : commaSeparated written es vs)
    (hordered : Token.Ordered N (us ++ comma :: vs))
    (hmarks : Marks flagged gone range (e :: es) (us ++ comma :: vs)) :
    (∀ t ∈ us, flagged t = gone e) ∧ flagged comma = false ∧ Marks flagged gone range es vs ∧
      Token.Ordered N vs := by
  have hrest := hordered.sublist (List.sublist_append_right us (comma :: vs))
  obtain ⟨hus, hvs⟩ := hmarks.cons hordered (h.spans e us he) fun f hf => by
    obtain ⟨ws, hws, hspans⟩ := h.within hes f hf
    exact ⟨ws, hws.cons comma, hspans⟩
  rw [← List.singleton_append] at hvs hrest
  obtain ⟨hcomma, hvs⟩ := hvs.skip hrest (h.within hes)
  exact ⟨hus, hcomma comma (List.mem_singleton_self comma), hvs,
    hrest.sublist (List.sublist_append_right [comma] vs)⟩

/-- In front of the end of a list stand members that go only. -/
theorem gone_of_openRun (hclosing : closing.is "," = false) : ∀ {es : List α} {ts rest : List Token},
    commaSeparated written es ts → Token.Ordered N ts → Marks flagged gone range es ts →
    OpenRun flagged (ts ++ closing :: rest) → ∀ e ∈ es, gone e = true
  | [], _, _, _, _, _, _ => nofun
  | e :: es, ts, rest, hes, hordered, hmarks, hrun => by
      have hfirst : ∀ {us ws : List Token}, written e us → (∀ t ∈ us, flagged t = gone e) →
          OpenRun flagged (us ++ ws) → gone e = true := by
        intro us ws he hus hrun
        obtain ⟨u, us, rfl⟩ := List.exists_cons_of_ne_nil (h.spans e us he).ne_nil
        obtain ⟨t, ts, heq, ht⟩ := hrun.head
        rw [← hus u List.mem_cons_self, (List.cons.inj heq).1]
        exact ht
      rcases hes with ⟨he, rfl⟩ | ⟨us, comma, vs, rfl, he, hcomma, hes⟩
      · rw [← List.append_nil ts] at hordered hmarks
        obtain ⟨hus, _⟩ := hmarks.cons hordered (h.spans e ts he)
          fun _ hf => absurd hf List.not_mem_nil
        exact List.forall_mem_singleton.mpr (hfirst he hus hrun)
      · obtain ⟨hus, hfree, hvs, hrest⟩ := h.marks_cons he hes hordered hmarks
        rw [List.append_assoc, List.cons_append] at hrun
        have hgone := hfirst he hus hrun
        have htail := hrun.tail (fun t ht => (hus t ht).trans hgone) hcomma.1 hfree
          (h.head hclosing hes rest)
        exact List.forall_mem_cons.mpr ⟨hgone, gone_of_openRun hclosing hes hrest hvs htail⟩

theorem not_openRun (hclosing : closing.is "," = false) (hstays : flagged closing = false) :
    ∀ {es : List α} {ts rest : List Token}, commaEnded written es ts → Token.Ordered N ts →
      Marks flagged gone range es ts → ¬ OpenRun flagged (ts ++ closing :: rest)
  | [], ts, rest, hes, _, _, hrun => by
      rw [commaEnded] at hes
      rw [hes] at hrun
      obtain ⟨t, us, heq, ht⟩ := hrun.head
      rw [← (List.cons.inj heq).1, hstays] at ht
      cases ht
  | e :: es, ts, rest, hes, hordered, hmarks, hrun => by
      have hgone := h.gone_of_openRun hclosing (commaSeparated_of_commaEnded hes) hordered hmarks
        hrun e List.mem_cons_self
      obtain ⟨us, comma, vs, rfl, he, hcomma, hes⟩ := hes
      have hseparated := commaSeparated_of_commaEnded hes
      obtain ⟨hus, hfree, hvs, hrest⟩ := h.marks_cons he hseparated hordered hmarks
      rw [List.append_assoc, List.cons_append] at hrun
      exact not_openRun hclosing hstays hes hrest hvs
        (hrun.tail (fun t ht => (hus t ht).trans hgone) hcomma.1 hfree
          (h.head hclosing hseparated rest))

variable (hcuts : CutsMembers flagged cut code)

include hcuts

theorem kept_member (he : written e us) (hcode : Stands us code)
    (hus : ∀ t ∈ us, flagged t = gone e) : kept cut us = if gone e then [] else us := by
  cases hgone : gone e with
  | true =>
      rw [if_pos rfl]
      exact kept_eq_nil fun t ht => hcuts.cut_of_flagged t (hcode.mem ht) ((hus t ht).trans hgone)
  | false =>
      rw [if_neg Bool.false_ne_true]
      exact hcuts.kept_eq_of_tame hcode (h.tame e us he) fun t ht => (hus t ht).trans hgone

/-- The comma behind a member goes with it. -/
theorem cut_comma {comma : Token} (he : written e us) (hcode : Stands (us ++ comma :: vs) code)
    (hcomma : comma.IsMark ",") (hus : ∀ t ∈ us, flagged t = gone e) (hgone : gone e = true) :
    cut comma = true := by
  obtain ⟨u, hu⟩ :=
    Option.isSome_iff_exists.mp (List.getLast?_isSome.mpr (h.spans e us he).ne_nil)
  exact hcuts.cut_after_last hcode hu ((hus u (List.mem_of_getLast? hu)).trans hgone) hcomma.1

/-- The comma behind a member that stays is cut in front of a run only. -/
theorem openRun_of_cut {comma : Token} (he : written e us)
    (hcode : Stands (us ++ comma :: (vs ++ [closing])) code)
    (hus : ∀ t ∈ us, flagged t = gone e) (hgone : gone e = false) (hfree : flagged comma = false)
    (hcut : cut comma = true) : ∃ rest, OpenRun flagged (vs ++ closing :: rest) := by
  obtain ⟨u, hu⟩ :=
    Option.isSome_iff_exists.mp (List.getLast?_isSome.mpr (h.spans e us he).ne_nil)
  obtain ⟨rest, hrun⟩ := hcuts.open_of_cut_last hcode hu
    ((hus u (List.mem_of_getLast? hu)).trans hgone) ((h.tame e us he).last u hu) hfree hcut
  rw [List.append_assoc] at hrun
  exact ⟨rest, hrun⟩

/-- Of members with a comma behind each those that stay keep theirs. -/
theorem kept_commaEnded (hclosing : closing.is "," = false) (hstays : flagged closing = false) :
    ∀ {es : List α} {ts : List Token},
    commaEnded written es ts → Token.Ordered N ts → Stands (ts ++ [closing]) code →
    Marks flagged gone range es ts →
    commaEnded written (es.filter fun e => !gone e) (kept cut ts)
  | [], ts, hes, _, _, _ => by
      rw [commaEnded] at hes
      rw [hes]
      rfl
  | e :: es, ts, hes, hordered, hcode, hmarks => by
      obtain ⟨us, comma, vs, rfl, he, hcomma, hes⟩ := hes
      obtain ⟨hus, hfree, hvs, hrest⟩ :=
        h.marks_cons he (commaSeparated_of_commaEnded hes) hordered hmarks
      rw [List.append_assoc, List.cons_append] at hcode
      have hmember := h.kept_member hcuts he hcode.left hus
      have hothers := kept_commaEnded hclosing hstays hes hrest hcode.right.tail hvs
      cases hgone : gone e with
      | true =>
          rw [hgone, if_pos rfl] at hmember
          rw [kept_append, hmember, kept_cons_of_cut (h.cut_comma hcuts he hcode hcomma hus
            hgone), List.filter_cons_of_neg (by rw [hgone]; decide)]
          exact hothers
      | false =>
          rw [hgone, if_neg Bool.false_ne_true] at hmember
          have hcut : cut comma = false := by
            rw [← Bool.not_eq_true]
            intro hcut
            obtain ⟨rest, hrun⟩ := h.openRun_of_cut hcuts he hcode hus hgone hfree hcut
            exact h.not_openRun hclosing hstays hes hrest hvs hrun
          rw [kept_append, hmember, kept_cons_of_not_cut hcut,
            List.filter_cons_of_pos (by rw [hgone]; rfl)]
          have hall : commaEnded written (e :: es.filter fun e => !gone e)
              (us ++ comma :: kept cut vs) := ⟨us, comma, _, rfl, he, hcomma, hothers⟩
          exact hall

/-- Of a list of which the last member has no comma no member stays, or the last one of those that
stay has no comma. -/
theorem kept_cases (hclosing : closing.is "," = false) (hcloser : closing.isCloser = true)
    (hstays : flagged closing = false) {last : α} :
    ∀ {es : List α} {us vs : List Token}, commaEnded written es us → written last vs →
      Token.Ordered N (us ++ vs) → Stands (us ++ (vs ++ [closing])) code →
      Marks flagged gone range (es ++ [last]) (us ++ vs) →
      (((es ++ [last]).filter fun e => !gone e) = [] ∧ kept cut (us ++ vs) = [] ∧
        ∀ rest, OpenRun flagged (us ++ (vs ++ closing :: rest))) ∨
      ∃ es' last' us' vs', ((es ++ [last]).filter fun e => !gone e) = es' ++ [last'] ∧
        kept cut (us ++ vs) = us' ++ vs' ∧ commaEnded written es' us' ∧ written last' vs'
  | [], us, vs, hes, hlast, hordered, hcode, hmarks => by
      rw [commaEnded] at hes
      rw [hes, List.nil_append] at hordered hmarks hcode ⊢
      have hvs : ∀ t ∈ vs, flagged t = gone last := by
        rw [← List.append_nil vs] at hordered hmarks
        exact (Marks.cons hordered (h.spans last vs hlast)
          (fun _ hf => absurd hf List.not_mem_nil) hmarks).1
      have hmember := h.kept_member hcuts hlast hcode.left hvs
      cases hgone : gone last with
      | true =>
          rw [hgone, if_pos rfl] at hmember
          refine Or.inl ⟨List.filter_cons_of_neg (by rw [hgone]; decide), hmember, fun rest => ?_⟩
          exact .of_flagged (fun t ht => (hvs t ht).trans hgone) (h.spans last vs hlast).ne_nil
            hcloser hstays
      | false =>
          rw [hgone, if_neg Bool.false_ne_true] at hmember
          exact Or.inr ⟨[], last, [], vs, List.filter_cons_of_pos (by rw [hgone]; rfl), hmember,
            rfl, hlast⟩
  | e :: es, us, vs, hes, hlast, hordered, hcode, hmarks => by
      obtain ⟨us, comma, ws, rfl, he, hcomma, hes⟩ := hes
      rw [List.append_assoc, List.cons_append] at hordered hmarks hcode ⊢
      have hseparated := commaSeparated_append (commaSeparated_singleton hlast) hes
      obtain ⟨hus, hfree, hvs, hrest⟩ := h.marks_cons he hseparated hordered hmarks
      have hmember := h.kept_member hcuts he hcode.left hus
      rw [List.cons_append]
      have hothers := kept_cases hclosing hcloser hstays hes hlast hrest hcode.right.tail hvs
      cases hgone : gone e with
      | true =>
          rw [hgone, if_pos rfl] at hmember
          rw [kept_append, hmember, kept_cons_of_cut (h.cut_comma hcuts he hcode hcomma hus
            hgone), List.filter_cons_of_neg (by rw [hgone]; decide), List.nil_append]
          refine hothers.imp_left fun hnone => ⟨hnone.1, hnone.2.1, fun rest => ?_⟩
          rw [List.append_assoc, List.cons_append]
          exact .cons (fun t ht => (hus t ht).trans hgone) (h.spans e us he).ne_nil hcomma.1
            (hnone.2.2 rest)
      | false =>
          rw [hgone, if_neg Bool.false_ne_true] at hmember
          rw [List.filter_cons_of_pos (by rw [hgone]; rfl), kept_append, hmember]
          refine Or.inr ?_
          cases hcut : cut comma with
          | true =>
              have hstands : Stands (us ++ comma :: ((ws ++ vs) ++ [closing])) code := by
                rwa [List.append_assoc ws]
              obtain ⟨rest, hrun⟩ := h.openRun_of_cut hcuts he hstands hus hgone hfree hcut
              have hnone : ((es ++ [last]).filter fun e => !gone e) = [] := by
                refine List.filter_eq_nil_iff.mpr fun f hf => ?_
                rw [h.gone_of_openRun hclosing hseparated hrest hvs hrun f hf]
                decide
              rcases hothers with ⟨_, hnil, _⟩ | ⟨es', last', _, _, hsome, _⟩
              · rw [kept_cons_of_cut hcut, hnone, hnil]
                exact ⟨[], e, [], us, rfl, List.append_nil us, rfl, he⟩
              · rw [hnone] at hsome
                exact absurd (congrArg List.length hsome) (by simp)
          | false =>
              rcases hothers with ⟨_, _, hrun⟩ | ⟨es', last', us', vs', hsome, hkept, hes', hlast'⟩
              · obtain ⟨front, rest, hcode⟩ := hcode
                have hcut' := hcuts.cut_of_open (front ++ us) comma (ws ++ (vs ++ closing :: rest))
                  (by rw [hcode]; simp only [List.append_assoc, List.cons_append, List.nil_append])
                  hcomma.1 (hrun rest)
                rw [hcut] at hcut'
                cases hcut'
              · have hall : commaEnded written (e :: es') (us ++ comma :: us') :=
                  ⟨us, comma, us', rfl, he, hcomma, hes'⟩
                refine ⟨e :: es', last', us ++ comma :: us', vs', ?_, ?_, hall, hlast'⟩
                · rw [hsome, List.cons_append]
                · rw [kept_cons_of_not_cut hcut, hkept, List.append_assoc, List.cons_append]

end Members.Written

/-- In front of every member of a list stands a mark. -/
theorem exists_mark (hspans : ∀ e us, written e us → Spans us (range e)) :
    ∀ {es : List α} {ts : List Token} {opening : Token}, opening.kind = .punctuation →
      commaSeparated written es ts → ∀ e ∈ es, ∃ front mark u back,
        opening :: ts = front ++ mark :: u :: back ∧ mark.kind = .punctuation ∧
        (range e).start = u.range.start
  | [], _, _, _, _ => nofun
  | f :: es, ts, opening, hopening, h => by
      have hfirst : ∀ {us ws : List Token}, written f us → ∃ front mark u back,
          opening :: (us ++ ws) = front ++ mark :: u :: back ∧ mark.kind = .punctuation ∧
          (range f).start = u.range.start := by
        intro us ws hf
        obtain ⟨t, _, hhead, _, hrange⟩ := hspans f us hf
        obtain ⟨us, rfl⟩ := List.head?_eq_some_iff.mp hhead
        exact ⟨[], opening, t, us ++ ws, rfl, hopening, by rw [hrange]⟩
      rcases h with ⟨hf, rfl⟩ | ⟨us, comma, vs, rfl, hf, hcomma, hes⟩
      · refine List.forall_mem_singleton.mpr ?_
        have hall := @hfirst _ [] hf
        rwa [List.append_nil] at hall
      · refine List.forall_mem_cons.mpr ⟨hfirst hf, fun e he => ?_⟩
        obtain ⟨front, mark, u, back, heq, hmark, hstart⟩ :=
          exists_mark hspans (Token.kind_of_is hcomma.1) hes e he
        refine ⟨opening :: us ++ front, mark, u, back, ?_, hmark, hstart⟩
        rw [heq, List.append_assoc, List.cons_append]

end Syntax

end AnnotationEdit

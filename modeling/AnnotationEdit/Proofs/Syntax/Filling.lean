import AnnotationEdit.Proofs.Sorting
import AnnotationEdit.Proofs.Syntax.Layout
import AnnotationEdit.Proofs.Token.Weaving

/-!
# Lists with members put in

Members with a comma behind each, members of which the last one has none, and members with a comma
in front of each: a list is put together from these. Where texts for members are put in in front of
members and behind all of them, the tokens of the list with the texts between them write the list
with these members among the old ones (`weave_list`).
-/

namespace AnnotationEdit

namespace Syntax

variable {α : Type} {written : α → List Token → Prop}

def commaEnded (written : α → List Token → Prop) : List α → List Token → Prop
  | [], ts => ts = []
  | e :: es, ts => ∃ us comma vs, ts = us ++ comma :: vs ∧ written e us ∧ comma.IsMark "," ∧
      commaEnded written es vs

def commaLed (written : α → List Token → Prop) : List α → List Token → Prop
  | [], ts => ts = []
  | e :: es, ts => ∃ comma us vs, ts = comma :: (us ++ vs) ∧ comma.IsMark "," ∧ written e us ∧
      commaLed written es vs

theorem commaEnded_append {fs : List α} {vs : List Token} (hvs : commaEnded written fs vs) :
    ∀ {es : List α} {us : List Token}, commaEnded written es us →
      commaEnded written (es ++ fs) (us ++ vs)
  | [], us, h => by
      rw [commaEnded] at h
      rw [h]
      exact hvs
  | e :: es, us, h => by
      obtain ⟨ws, comma, xs, rfl, he, hcomma, hes⟩ := h
      exact ⟨ws, comma, xs ++ vs, by rw [List.append_assoc, List.cons_append], he, hcomma,
        commaEnded_append hvs hes⟩

theorem commaLed_append {fs : List α} {vs : List Token} (hvs : commaLed written fs vs) :
    ∀ {es : List α} {us : List Token}, commaLed written es us →
      commaLed written (es ++ fs) (us ++ vs)
  | [], us, h => by
      rw [commaLed] at h
      rw [h]
      exact hvs
  | e :: es, us, h => by
      obtain ⟨comma, ws, xs, rfl, hcomma, he, hes⟩ := h
      exact ⟨comma, ws, xs ++ vs, by rw [List.cons_append, List.append_assoc], hcomma, he,
        commaLed_append hvs hes⟩

/-- Behind members with commas others can follow. -/
theorem commaSeparated_append {fs : List α} {vs : List Token}
    (hvs : commaSeparated written fs vs) : ∀ {es : List α} {us : List Token},
      commaEnded written es us → commaSeparated written (es ++ fs) (us ++ vs)
  | [], us, h => by
      rw [commaEnded] at h
      rw [h]
      exact hvs
  | e :: es, us, h => by
      obtain ⟨ws, comma, xs, rfl, he, hcomma, hes⟩ := h
      exact Or.inr ⟨ws, comma, xs ++ vs, by rw [List.append_assoc, List.cons_append], he, hcomma,
        commaSeparated_append hvs hes⟩

theorem commaSeparated_of_commaEnded {es : List α} {ts : List Token}
    (h : commaEnded written es ts) : commaSeparated written es ts := by
  have hnil : commaSeparated written [] [] := rfl
  have hall := commaSeparated_append hnil h
  rwa [List.append_nil, List.append_nil] at hall

theorem commaSeparated_singleton {e : α} {us : List Token} (h : written e us) :
    commaSeparated written [e] us := Or.inl ⟨h, rfl⟩

/-- Behind a member without a comma others can follow that have one in front of them. -/
theorem commaSeparated_of_commaLed : ∀ {es : List α} {e : α} {us vs : List Token}, written e us →
    commaLed written es vs → commaSeparated written (e :: es) (us ++ vs)
  | [], e, us, vs, he, hvs => by
      rw [commaLed] at hvs
      rw [hvs, List.append_nil]
      exact Or.inl ⟨he, rfl⟩
  | f :: es, e, us, vs, he, hvs => by
      obtain ⟨comma, ws, xs, rfl, hcomma, hf, hes⟩ := hvs
      exact Or.inr ⟨us, comma, ws ++ xs, rfl, he, hcomma, commaSeparated_of_commaLed hf hes⟩

theorem comma_of_commaEnded : ∀ {es : List α} {ts : List Token}, commaEnded written es ts →
    ∀ t ∈ ts.getLast?, t.is "," = true
  | [], ts, h => by
      rw [commaEnded] at h
      rw [h]
      nofun
  | e :: es, ts, h => by
      obtain ⟨us, comma, vs, rfl, _, hcomma, hes⟩ := h
      have hvs := comma_of_commaEnded hes
      intro t ht
      rw [List.getLast?_append_of_ne_nil _ (List.cons_ne_nil comma vs)] at ht
      cases vs with
      | nil =>
          rw [← Option.some.inj ht]
          exact hcomma.1
      | cons v vs => exact hvs t ht

theorem commaSeparated_cases : ∀ {es : List α} {ts : List Token}, commaSeparated written es ts →
    commaEnded written es ts ∨ ∃ front last us vs, es = front ++ [last] ∧ ts = us ++ vs ∧
      commaEnded written front us ∧ written last vs
  | [], ts, h => Or.inl h
  | e :: es, ts, h => by
      rcases h with ⟨he, rfl⟩ | ⟨us, comma, vs, rfl, he, hcomma, hes⟩
      · exact Or.inr ⟨[], e, [], ts, rfl, rfl, rfl, he⟩
      · rcases commaSeparated_cases hes with hended | ⟨front, last, ws, xs, rfl, rfl, hws, hlast⟩
        · exact Or.inl ⟨us, comma, vs, rfl, he, hcomma, hended⟩
        · exact Or.inr ⟨e :: front, last, us ++ comma :: ws, xs, rfl,
            by rw [List.append_assoc, List.cons_append], ⟨us, comma, ws, rfl, he, hcomma, hws⟩,
            hlast⟩

end Syntax

/-! ## Weaving -/

theorem Spans.start_lt {us vs : List Token} {r : Range} {n : Nat} (h : Spans us r)
    (hordered : Token.Ordered n (us ++ vs)) : ∀ t ∈ vs, r.start < t.range.start := by
  intro t ht
  obtain ⟨u, hu, heq⟩ := h.exists_mem.1
  rw [heq]
  exact lt_of_lt_of_le (hordered.proper u (List.mem_append_left _ hu))
    ((List.pairwise_append.mp hordered.apart).2.2 u hu t ht)

section

variable {keep : Token → Bool} {puts early late : List Put} {ts us vs : List Token} {n : Nat}

theorem takeWhile_filter {α : Type} {p q : α → Bool} : ∀ {l : List α},
    (l.Pairwise fun a b => p b = true → p a = true) →
    (l.takeWhile p).filter q = (l.filter q).takeWhile p ∧
      (l.dropWhile p).filter q = (l.filter q).dropWhile p
  | [], _ => ⟨rfl, rfl⟩
  | a :: l, h => by
      obtain ⟨ha, hl⟩ := List.pairwise_cons.mp h
      obtain ⟨htake, hdrop⟩ := takeWhile_filter (q := q) hl
      cases hpa : p a with
      | true =>
          rw [List.takeWhile_cons_of_pos hpa, List.dropWhile_cons_of_pos hpa, hdrop]
          by_cases hqa : q a = true
          · rw [List.filter_cons_of_pos hqa, List.filter_cons_of_pos hqa,
              List.takeWhile_cons_of_pos hpa, List.dropWhile_cons_of_pos hpa, htake]
            exact ⟨rfl, rfl⟩
          · rw [List.filter_cons_of_neg hqa, List.filter_cons_of_neg hqa, htake]
            exact ⟨rfl, rfl⟩
      | false =>
          have hnone : ∀ b ∈ (a :: l).filter q, p b = false := by
            intro b hb
            rw [← Bool.not_eq_true]
            intro hpb
            rcases List.mem_cons.mp (List.mem_filter.mp hb).1 with rfl | hb
            · rw [hpa] at hpb
              cases hpb
            · rw [ha b hb hpb] at hpa
              cases hpa
          have hfalse : ¬ p a = true := by rw [hpa]; exact Bool.false_ne_true
          rw [List.takeWhile_cons_of_neg hfalse, List.dropWhile_cons_of_neg hfalse]
          cases hfilter : (a :: l).filter q with
          | nil => exact ⟨rfl, rfl⟩
          | cons b bs =>
              rw [hfilter] at hnone
              have hb : ¬ p b = true := by
                rw [hnone b List.mem_cons_self]
                exact Bool.false_ne_true
              rw [List.takeWhile_cons_of_neg hb, List.dropWhile_cons_of_neg hb]
              exact ⟨rfl, rfl⟩

/-- Only the tokens that stay matter. -/
theorem weave_filter : ∀ {puts : List Put} {ts : List Token}, Token.Ordered n ts →
    weave keep puts ts = weave (fun _ => true) puts (ts.filter keep)
  | [], ts, _ => (List.filter_true _).symm
  | p :: puts, ts, h => by
      have hfront : ts.Pairwise fun t u => decide (u.range.start < p.place) = true →
          decide (t.range.start < p.place) = true := by
        refine h.apart.imp_of_mem fun ht _ hbefore hlt => decide_eq_true ?_
        exact lt_trans (lt_of_lt_of_le (h.proper _ ht) hbefore) (of_decide_eq_true hlt)
      obtain ⟨htake, hdrop⟩ := takeWhile_filter (q := keep) hfront
      rw [weave, weave, List.filter_true, htake, weave_filter (h.sublist (List.dropWhile_sublist _)),
        hdrop]

/-- What is put in in front of all tokens comes first. -/
theorem weave_early : ∀ {early : List Put}, (∀ p ∈ early, ∀ t ∈ ts, p.place ≤ t.range.start) →
    weave keep (early ++ late) ts = early.flatMap Put.code ++ weave keep late ts
  | [], _ => rfl
  | p :: early, h => by
      obtain ⟨hp, hearly⟩ := List.forall_mem_cons.mp h
      rw [List.cons_append, weave_cons hp, weave_early hearly, List.flatMap_cons, List.append_assoc]

/-- Texts at places that come one after the other, cut in two by a place. -/
theorem eq_append_of_sorted (h : puts.Pairwise fun p q => p.place ≤ q.place) (x : Position) :
    puts = puts.filter (fun p => decide (p.place ≤ x)) ++
      puts.filter fun p => decide (x < p.place) := by
  have hsplit := eq_filter_append (f := fun p : Put => decide (p.place ≤ x)) (h.imp fun hle => by
    rw [Bool.or_eq_true, Bool.not_eq_true', decide_eq_true_eq, decide_eq_false_iff_not]
    exact (em _).imp_right fun hnot hx => hnot (hle.trans hx))
  refine hsplit.trans (congrArg _ (List.filter_congr fun p _ => ?_))
  rw [Bool.eq_iff_iff, Bool.not_eq_true', decide_eq_false_iff_not, decide_eq_true_eq, not_le]

/-- What is put in in front of some tokens that stand next to each other, and what further behind
them. -/
theorem weave_member (hsorted : puts.Pairwise fun p q => p.place ≤ q.place)
    (hordered : Token.Ordered n (us ++ vs)) {x : Position} (hx : ∀ t ∈ us ++ vs, x ≤ t.range.start)
    (hplaces : ∀ p ∈ puts, p.place = x ∨ ∀ t ∈ us, t.range.stop ≤ p.place) (hne : us ≠ []) :
    weave (fun _ => true) puts (us ++ vs) =
      (puts.filter fun p => decide (p.place = x)).flatMap Put.code ++ (us ++
        weave (fun _ => true) (puts.filter fun p => decide (x < p.place)) vs) := by
  obtain ⟨first, rest, rfl⟩ := List.exists_cons_of_ne_nil hne
  have hfirst := hordered.proper first List.mem_cons_self
  have hpast : ∀ p ∈ puts, (∀ t ∈ first :: rest, t.range.stop ≤ p.place) → x < p.place :=
    fun p _ hstops => lt_of_le_of_lt (hx first List.mem_cons_self)
      (lt_of_lt_of_le hfirst (hstops first List.mem_cons_self))
  have hhere : puts.filter (fun p => decide (p.place ≤ x)) =
      puts.filter fun p => decide (p.place = x) := by
    refine List.filter_congr fun p hp => ?_
    rw [Bool.eq_iff_iff, decide_eq_true_eq, decide_eq_true_eq]
    refine ⟨fun hle => ?_, le_of_eq⟩
    rcases hplaces p hp with heq | hstops
    · exact heq
    · exact absurd hle (not_le_of_gt (hpast p hp hstops))
  have hsplit := eq_append_of_sorted hsorted x
  rw [hhere] at hsplit
  conv_lhs => rw [hsplit]
  rw [weave_early, weave_append, List.filter_true]
  · intro p hp t ht
    obtain ⟨hp, hlt⟩ := List.mem_filter.mp hp
    rcases hplaces p hp with heq | hstops
    · rw [heq, decide_eq_true_eq] at hlt
      exact absurd hlt (lt_irrefl x)
    · exact lt_of_lt_of_le (hordered.proper t (List.mem_append_left _ ht)) (hstops t ht)
  · intro p hp t ht
    rw [of_decide_eq_true (List.mem_filter.mp hp).2]
    exact hx t ht

end

namespace Syntax

variable {α β : Type} {written : α → List Token → Prop} {written' : β → List Token → Prop}
  {range : α → Range} {lift : α → β} {added : α → List β} {puts : List Put} {back : List Token}
  {x : Position} {N : Nat}

/-- A stronger test decides. -/
theorem filter_filter_of_imp {p q : Put → Bool} (h : ∀ a, q a = true → p a = true) :
    (puts.filter p).filter q = puts.filter q := by
  rw [List.filter_filter]
  exact List.filter_congr fun a _ => Bool.and_eq_left_iff_imp.mpr (h a)

theorem exists_start (hspans : ∀ e us, written e us → Spans us (range e)) {es : List α}
    {ts : List Token} (h : commaSeparated written es ts) {e : α} (he : e ∈ es) :
    ∃ t ∈ ts, (range e).start = t.range.start := by
  obtain ⟨us, hus, hwritten⟩ := (laid_of_commaSeparated h).exists_written e he
  obtain ⟨t, ht, heq⟩ := (hspans e us hwritten).exists_mem.1
  exact ⟨t, hus.subset ht, heq⟩

theorem weave_late {late : List Put} (h : ∀ p ∈ late, ∀ t ∈ back, p.place ≤ t.range.start) :
    weave (fun _ => true) late back = late.flatMap Put.code ++ back := by
  have hweave := @weave_early (fun _ => true) [] _ _ h
  rwa [List.append_nil, weave, List.filter_true] at hweave

/-- Texts for members with commas, put in in front of members with commas. By induction along the
members: what is put in in front of the first one, then the rest. -/
theorem weave_commaEnded (hspans : ∀ e us, written e us → Spans us (range e))
    (hlift : ∀ e us, written e us → written' (lift e) us) : ∀ {es : List α} {ts : List Token}
    {puts : List Put}, commaEnded written es ts → Token.Ordered N (ts ++ back) →
    (∀ t ∈ ts, t.range.stop ≤ x) → puts.Pairwise (fun p q => p.place ≤ q.place) →
    (∀ p ∈ puts, (∃ e ∈ es, p.place = (range e).start) ∨ x ≤ p.place) →
    (∀ e ∈ es, commaEnded written' (added e)
      ((puts.filter fun p => decide (p.place = (range e).start)).flatMap Put.code)) →
    ∃ ts', commaEnded written' (es.flatMap fun e => added e ++ [lift e]) ts' ∧
      weave (fun _ => true) puts (ts ++ back) =
        ts' ++ weave (fun _ => true) (puts.filter fun p => decide (x ≤ p.place)) back
  | [], ts, puts, h, _, _, _, hplaces, _ => by
      rw [commaEnded] at h
      refine ⟨[], rfl, ?_⟩
      have hall : puts.filter (fun p => decide (x ≤ p.place)) = puts :=
        List.filter_eq_self.mpr fun p hp =>
          decide_eq_true ((hplaces p hp).resolve_left nofun)
      rw [h, hall]
      rfl
  | e :: es, ts, puts, h, hordered, hstops, hsorted, hplaces, hadded => by
      obtain ⟨us, comma, vs, rfl, he, hcomma, hes⟩ := h
      obtain ⟨hfirst, hadded⟩ := List.forall_mem_cons.mp hadded
      have hspan := hspans e us he
      have hcommas : us ++ comma :: vs ++ back = (us ++ [comma]) ++ (vs ++ back) := by
        simp only [List.append_assoc, List.cons_append, List.nil_append]
      rw [hcommas] at hordered
      have hrest := hordered.sublist (List.sublist_append_right (us ++ [comma]) (vs ++ back))
      have hbound : (range e).start < x := by
        obtain ⟨u, hu, heq⟩ := hspan.exists_mem.1
        have hmem := List.mem_append_left (comma :: vs) hu
        rw [heq]
        exact lt_of_lt_of_le (hordered.proper u (List.mem_append_left _
          (List.mem_append_left _ hu))) (hstops u hmem)
      have hall : ∀ t ∈ (us ++ [comma]) ++ (vs ++ back), (range e).start ≤ t.range.start := by
        rw [List.append_assoc] at hordered ⊢
        exact List.forall_mem_append.mpr
          ⟨hspan.start_le (hordered.sublist (List.sublist_append_left us _)),
            fun t ht => le_of_lt (hspan.start_lt hordered t ht)⟩
      have hmembers : ∀ f ∈ es, ∀ t ∈ us ++ [comma], t.range.stop ≤ (range f).start := by
        intro f hf t ht
        obtain ⟨u, hu, heq⟩ := exists_start hspans (commaSeparated_of_commaEnded hes) hf
        rw [heq]
        exact (List.pairwise_append.mp hordered.apart).2.2 t ht u (List.mem_append_left back hu)
      have hbefore : ∀ p ∈ puts,
          p.place = (range e).start ∨ ∀ t ∈ us ++ [comma], t.range.stop ≤ p.place := by
        intro p hp
        rcases hplaces p hp with ⟨f, hf, heq⟩ | hle
        · rcases List.mem_cons.mp hf with rfl | hf
          · exact Or.inl heq
          · exact Or.inr fun t ht => heq ▸ hmembers f hf t ht
        · refine Or.inr fun t ht => (hstops t ?_).trans hle
          rw [List.append_cons]
          exact List.mem_append_left vs ht
      have hweave := weave_member hsorted hordered hall hbefore
        (List.append_ne_nil_of_left_ne_nil hspan.ne_nil [comma])
      have hlt : ∀ f ∈ es, (range e).start < (range f).start := fun f hf =>
        lt_of_le_of_lt (hall comma (List.mem_append_left _ List.mem_concat_self))
          (lt_of_lt_of_le (hordered.proper comma (List.mem_append_left _ List.mem_concat_self))
            (hmembers f hf comma List.mem_concat_self))
      have hpast : (puts.filter fun p => decide ((range e).start < p.place)).Pairwise
          fun p q => p.place ≤ q.place := hsorted.sublist List.filter_sublist
      obtain ⟨ts', hts', hlater⟩ := weave_commaEnded hspans hlift hes hrest
        (fun t ht => hstops t (List.mem_append_right _ (List.mem_cons_of_mem _ ht))) hpast
        (fun p hp => by
          obtain ⟨hp, hpast⟩ := List.mem_filter.mp hp
          rcases hplaces p hp with ⟨f, hf, heq⟩ | hle
          · rcases List.mem_cons.mp hf with rfl | hf
            · rw [heq, decide_eq_true_eq] at hpast
              exact absurd hpast (lt_irrefl _)
            · exact Or.inl ⟨f, hf, heq⟩
          · exact Or.inr hle)
        fun f hf => by
          rw [filter_filter_of_imp fun p hp => ?_]
          · exact hadded f hf
          · rw [of_decide_eq_true hp]
            exact decide_eq_true (hlt f hf)
      have hmember : commaEnded written' (lift e :: es.flatMap fun e => added e ++ [lift e])
          (us ++ comma :: ts') := ⟨us, comma, ts', rfl, hlift e us he, hcomma, hts'⟩
      refine ⟨(puts.filter fun p => decide (p.place = (range e).start)).flatMap Put.code ++
        (us ++ comma :: ts'), ?_, ?_⟩
      · rw [List.flatMap_cons, List.append_assoc]
        exact commaEnded_append hmember hfirst
      · rw [hcommas, hweave, hlater, filter_filter_of_imp fun p hp =>
          decide_eq_true (lt_of_lt_of_le hbound (of_decide_eq_true hp))]
        simp only [List.append_assoc, List.cons_append, List.nil_append]

theorem weave_last {us : List Token} {r : Range} (hspan : Spans us r)
    (hordered : Token.Ordered N (us ++ back)) (hstops : ∀ t ∈ us, t.range.stop ≤ x)
    (hsorted : puts.Pairwise fun p q => p.place ≤ q.place)
    (hplaces : ∀ p ∈ puts, p.place = r.start ∨ x ≤ p.place) :
    weave (fun _ => true) puts (us ++ back) =
      (puts.filter fun p => decide (p.place = r.start)).flatMap Put.code ++
        (us ++ weave (fun _ => true) (puts.filter fun p => decide (x ≤ p.place)) back) := by
  have hbound : r.start < x := by
    obtain ⟨first, hfirst, hstart⟩ := hspan.exists_mem.1
    rw [hstart]
    exact lt_of_lt_of_le (hordered.proper first (List.mem_append_left _ hfirst))
      (hstops first hfirst)
  have hall : ∀ t ∈ us ++ back, r.start ≤ t.range.start := List.forall_mem_append.mpr
    ⟨hspan.start_le (hordered.sublist (List.sublist_append_left us back)),
      fun t ht => le_of_lt (hspan.start_lt hordered t ht)⟩
  have hlater : puts.filter (fun p => decide (r.start < p.place)) =
      puts.filter fun p => decide (x ≤ p.place) := by
    refine List.filter_congr fun p hp => ?_
    rw [Bool.eq_iff_iff, decide_eq_true_eq, decide_eq_true_eq]
    refine ⟨fun hlt => (hplaces p hp).resolve_left fun heq => ?_, lt_of_lt_of_le hbound⟩
    rw [heq] at hlt
    exact lt_irrefl _ hlt
  rw [weave_member hsorted hordered hall
    (fun p hp => (hplaces p hp).imp_right fun hle t ht => (hstops t ht).trans hle) hspan.ne_nil,
    hlater]

/-- A list with texts put in in front of its members and behind all of them. What is put in behind
them has its commas in front or behind, depending on whether the list ends in one. -/
theorem weave_list {front ts : List Token} {es : List α} {fs : List β}
    (hspans : ∀ e us, written e us → Spans us (range e))
    (hlift : ∀ e us, written e us → written' (lift e) us)
    (hordered : Token.Ordered N (front ++ (ts ++ back)))
    (hsorted : puts.Pairwise fun p q => p.place ≤ q.place)
    (hfront : ∀ p ∈ puts, ∀ t ∈ front, t.range.start < p.place)
    (hstops : ∀ t ∈ ts, t.range.stop ≤ x)
    (hplaces : ∀ p ∈ puts, (∃ e ∈ es, p.place = (range e).start) ∨
      (x ≤ p.place ∧ ∀ t ∈ back, p.place ≤ t.range.start))
    (hadded : ∀ e ∈ es, commaEnded written' (added e)
      ((puts.filter fun p => decide (p.place = (range e).start)).flatMap Put.code))
    (hlast : (commaEnded written es ts ∧ commaEnded written' fs
        ((puts.filter fun p => decide (x ≤ p.place)).flatMap Put.code)) ∨
      ∃ es' e us vs, es = es' ++ [e] ∧ ts = us ++ vs ∧ commaEnded written es' us ∧ written e vs ∧
        commaLed written' fs
          ((puts.filter fun p => decide (x ≤ p.place)).flatMap Put.code)) :
    ∃ ts', commaSeparated written' ((es.flatMap fun e => added e ++ [lift e]) ++ fs) ts' ∧
      weave (fun _ => true) puts (front ++ (ts ++ back)) = front ++ (ts' ++ back) := by
  rw [weave_append hfront, List.filter_true]
  replace hordered := hordered.sublist (List.sublist_append_right front (ts ++ back))
  have hbehind : weave (fun _ => true) (puts.filter fun p => decide (x ≤ p.place)) back =
      (puts.filter fun p => decide (x ≤ p.place)).flatMap Put.code ++ back := by
    refine weave_late fun p hp t ht => ?_
    obtain ⟨hp, hle⟩ := List.mem_filter.mp hp
    rcases hplaces p hp with ⟨e, he, heq⟩ | ⟨_, hback⟩
    · -- the place in front of a member is none behind all of them
      exfalso
      have hes : commaSeparated written es ts := by
        rcases hlast with ⟨hes, _⟩ | ⟨es', e', us, vs, rfl, rfl, hes, he', _⟩
        · exact commaSeparated_of_commaEnded hes
        · exact commaSeparated_append (commaSeparated_singleton he') hes
      obtain ⟨u, hu, hstart⟩ := exists_start hspans hes he
      rw [heq, hstart, decide_eq_true_eq] at hle
      exact absurd ((hstops u hu).trans hle)
        (not_le_of_gt (hordered.proper u (List.mem_append_left _ hu)))
    · exact hback t ht
  rcases hlast with ⟨hes, hfs⟩ | ⟨es', e, us, vs, rfl, rfl, hes, he, hfs⟩
  · obtain ⟨ts', hts', hweave⟩ := weave_commaEnded hspans hlift hes hordered hstops hsorted
      (fun p hp => (hplaces p hp).imp_right And.left) hadded
    refine ⟨ts' ++ (puts.filter fun p => decide (x ≤ p.place)).flatMap Put.code, ?_, ?_⟩
    · exact commaSeparated_append (commaSeparated_of_commaEnded hfs) hts'
    · rw [hweave, hbehind, List.append_assoc]
  · have hspan := hspans e vs he
    rw [List.append_assoc] at hordered ⊢
    have hapart := (List.pairwise_append.mp hordered.apart).2.2
    obtain ⟨first, hfirst, hstart⟩ := hspan.exists_mem.1
    have hlasts := hordered.sublist (List.sublist_append_right us (vs ++ back))
    have hbound : (range e).start ≤ x := by
      rw [hstart]
      exact (le_of_lt (hlasts.proper first (List.mem_append_left _ hfirst))).trans
        (hstops first (List.mem_append_right _ hfirst))
    have hlt : ∀ f ∈ es', (range f).start < (range e).start := by
      intro f hf
      obtain ⟨u, hu, heq⟩ := exists_start hspans (commaSeparated_of_commaEnded hes) hf
      rw [heq, hstart]
      exact lt_of_lt_of_le (hordered.proper u (List.mem_append_left _ hu))
        (hapart u hu first (List.mem_append_left _ hfirst))
    obtain ⟨us', hus', hweave⟩ := weave_commaEnded (x := (range e).start) hspans hlift hes hordered
      (fun t ht => hstart ▸ hapart t ht first (List.mem_append_left _ hfirst)) hsorted
      (fun p hp => by
        rcases hplaces p hp with ⟨f, hf, heq⟩ | ⟨hle, _⟩
        · rcases List.mem_append.mp hf with hf | hf
          · exact Or.inl ⟨f, hf, heq⟩
          · rw [heq, List.mem_singleton.mp hf]
            exact Or.inr (le_refl _)
        · exact Or.inr (hbound.trans hle))
      fun f hf => hadded f (List.mem_append_left _ hf)
    have hmember := weave_last hspan hlasts
      (fun t ht => hstops t (List.mem_append_right _ ht))
      (hsorted.sublist (List.filter_sublist (p := fun p => decide ((range e).start ≤ p.place))))
      fun p hp => by
        obtain ⟨hp, hle⟩ := List.mem_filter.mp hp
        rcases hplaces p hp with ⟨f, hf, heq⟩ | ⟨hle, _⟩
        · rcases List.mem_append.mp hf with hf | hf
          · exact absurd (of_decide_eq_true hle) (not_le_of_gt (heq ▸ hlt f hf))
          · exact Or.inl (heq.trans (congrArg _ (congrArg _ (List.mem_singleton.mp hf))))
        · exact Or.inr hle
    have hadd := hadded e List.mem_concat_self
    refine ⟨us' ++ ((puts.filter fun p => decide (p.place = (range e).start)).flatMap Put.code ++
      (vs ++ (puts.filter fun p => decide (x ≤ p.place)).flatMap Put.code)), ?_, ?_⟩
    · rw [List.flatMap_append, List.flatMap_singleton, List.append_assoc, List.append_assoc]
      exact commaSeparated_append (commaSeparated_append (commaSeparated_of_commaLed
        (hlift e vs he) hfs) hadd) hus'
    · rw [filter_filter_of_imp fun p hp => decide_eq_true (le_of_eq (of_decide_eq_true hp).symm),
        filter_filter_of_imp fun p hp => decide_eq_true (hbound.trans (of_decide_eq_true hp)),
        hbehind] at hmember
      rw [hweave, hmember]
      simp only [List.append_assoc]

end Syntax

end AnnotationEdit

import AnnotationEdit.Proofs.Document
import Mathlib.Order.Basic

/-!
# Layout

Where the parts of a file stand. The tokens of a text come one after the other and none is empty,
so a part that spans some of them has characters, parts of one list lie apart, and whatever is
written inside a part lies in its range.
-/

namespace AnnotationEdit

instance Position.preorder : Preorder Position where
  le_refl a := Position.le_def.mpr (by omega)
  le_trans a b c hab hbc := by
    rw [Position.le_def] at hab hbc ⊢
    omega
  lt_iff_le_not_ge a b := by
    rw [Position.lt_def, Position.le_def, Position.le_def]
    omega

namespace Range

theorem contains_iff {r s : Range} : r.contains s = true ↔ r.start ≤ s.start ∧ s.stop ≤ r.stop := by
  rw [contains, Bool.and_eq_true, decide_eq_true_iff, decide_eq_true_iff]

theorem contains_refl (r : Range) : r.contains r = true :=
  contains_iff.mpr ⟨le_refl _, le_refl _⟩

theorem contains_trans {r s t : Range} (hrs : r.contains s = true) (hst : s.contains t = true) :
    r.contains t = true := by
  rw [contains_iff] at hrs hst ⊢
  exact ⟨le_trans hrs.1 hst.1, le_trans hst.2 hrs.2⟩

/-- The range has characters. -/
def Proper (r : Range) : Prop := r.start < r.stop

/-- `r` ends where `s` starts, or earlier. -/
def Before (r s : Range) : Prop := r.stop ≤ s.start

/-- Two ranges of which one comes before the other have no characters in common. -/
theorem Before.not_contains {r s t : Range} (h : r.Before s) (ht : t.Proper)
    (hr : r.contains t = true) (hs : s.contains t = true) : False := by
  rw [contains_iff] at hr hs
  have hle : t.stop ≤ t.start := le_trans hr.2 (le_trans h hs.1)
  exact absurd hle (not_le_of_gt ht)

end Range

namespace Position

theorem lt_advance (p : Position) (c : Char) : p < p.advance c := by
  rw [lt_def, advance]
  split
  · exact Or.inl (Nat.lt_succ_self _)
  · exact Or.inr ⟨rfl, Nat.lt_succ_self _⟩

theorem origin_le (p : Position) : origin ≤ p := by
  show 0 < p.line ∨ (0 = p.line ∧ 0 ≤ p.character)
  omega

theorem le_after : ∀ (cs : List Char) (p : Position), p ≤ p.after cs
  | [], p => le_refl p
  | c :: cs, p => le_trans (le_of_lt (lt_advance p c)) (le_after cs (p.advance c))

theorem lt_after_cons (p : Position) (c : Char) (cs : List Char) : p < p.after (c :: cs) :=
  lt_of_lt_of_le (lt_advance p c) (le_after cs (p.advance c))

end Position

/-! ## Members in order -/

section Pairwise

variable {α : Type} {R : α → α → Prop} {l : List α} {i j : Nat} {a b : α}

theorem rel_of_getElem? (h : l.Pairwise R) (ha : l[i]? = some a) (hb : l[j]? = some b)
    (hij : i < j) : R a b := by
  obtain ⟨hi, rfl⟩ := List.getElem?_eq_some_iff.mp ha
  obtain ⟨hj, rfl⟩ := List.getElem?_eq_some_iff.mp hb
  exact List.pairwise_iff_getElem.mp h i j hi hj hij

/-- Members at different places are related one way or the other. -/
theorem eq_or_rel_of_getElem? (h : l.Pairwise R) (ha : l[i]? = some a) (hb : l[j]? = some b) :
    i = j ∨ R a b ∨ R b a := by
  rcases Nat.lt_trichotomy i j with hij | hij | hji
  · exact Or.inr (Or.inl (rel_of_getElem? h ha hb hij))
  · exact Or.inl hij
  · exact Or.inr (Or.inr (rel_of_getElem? h hb ha hji))

end Pairwise

/-! ## Tokens in order -/

namespace Token

/-- At most `n` tokens, which have characters and come one after the other. -/
structure Ordered (n : Nat) (ts : List Token) : Prop where
  few : ts.length ≤ n
  proper : ∀ t ∈ ts, t.range.Proper
  apart : ts.Pairwise fun t u => t.range.Before u.range

theorem Ordered.sublist {n : Nat} {us ts : List Token} (h : Ordered n ts)
    (hsub : us.Sublist ts) : Ordered n us :=
  ⟨Nat.le_trans hsub.length_le h.few, fun t ht => h.proper t (hsub.subset ht), h.apart.sublist hsub⟩

theorem Ordered.cons {n : Nat} {t : Token} {ts : List Token} (hproper : t.range.Proper)
    (hbefore : ∀ u ∈ ts, t.range.Before u.range) (h : Ordered n ts) : Ordered (n + 1) (t :: ts) :=
  ⟨Nat.succ_le_succ h.few, List.forall_mem_cons.mpr ⟨hproper, h.proper⟩,
    List.pairwise_cons.mpr ⟨hbefore, h.apart⟩⟩

theorem Ordered.mono {m n : Nat} {ts : List Token} (h : Ordered m ts) (hmn : m ≤ n) :
    Ordered n ts :=
  ⟨Nat.le_trans h.few hmn, h.proper, h.apart⟩

theorem ordered_of_map_range {n : Nat} {us ts : List Token}
    (h : us.map (·.range) = ts.map (·.range)) (hts : Ordered n ts) : Ordered n us := by
  have hfew : (ts.map (·.range)).length ≤ n := by
    rw [List.length_map]
    exact hts.few
  have hproper : ∀ r ∈ ts.map (·.range), r.Proper := List.forall_mem_map.mpr hts.proper
  have hbefore : (ts.map (·.range)).Pairwise Range.Before := List.pairwise_map.mpr hts.apart
  rw [← h] at hfew hproper hbefore
  rw [List.length_map] at hfew
  exact ⟨hfew, List.forall_mem_map.mp hproper, List.pairwise_map.mp hbefore⟩

end Token

namespace Lexer

theorem ordered_of_tokenizeFrom : ∀ (n : Nat) {cs : List Char} {p : Position}
    {tokens : List Token}, cs.length ≤ n → tokenizeFrom p cs = .ok tokens →
      Token.Ordered cs.length tokens ∧ ∀ t ∈ tokens, p ≤ t.range.start
  | _, [], p, tokens, _, h => by
      rw [tokenizeFrom.eq_def] at h
      obtain rfl := Except.ok.inj h
      exact ⟨⟨Nat.le_refl 0, fun t ht => absurd ht List.not_mem_nil, .nil⟩,
        fun t ht => absurd ht List.not_mem_nil⟩
  | 0, c :: cs, _, _, hlen, _ => absurd hlen (Nat.not_succ_le_zero _)
  | n + 1, c :: cs, p, tokens, hlen, h => by
      rw [List.length_cons] at hlen ⊢
      rcases tokenizeFrom_eq_ok h with ⟨_, hrest⟩ | ⟨kind, tail, rest, tokens', hscan, hrest, rfl⟩
      · obtain ⟨hordered, hafter⟩ := ordered_of_tokenizeFrom n (by omega) hrest
        exact ⟨hordered.mono (Nat.le_succ _),
          fun t ht => le_trans (le_of_lt (Position.lt_advance p c)) (hafter t ht)⟩
      · have hshort := congrArg List.length (scan_append hscan)
        rw [List.length_append] at hshort
        obtain ⟨hordered, hafter⟩ := ordered_of_tokenizeFrom n (by omega) hrest
        have hstep := Position.lt_after_cons p c tail
        refine ⟨(hordered.mono (by omega)).cons hstep hafter, ?_⟩
        intro t ht
        rcases List.mem_cons.mp ht with rfl | ht
        · exact le_refl p
        · exact le_trans (le_of_lt hstep) (hafter t ht)

theorem ordered_of_tokenize {text : String} {tokens : List Token}
    (h : tokenize text = .ok tokens) : Token.Ordered text.length tokens :=
  (ordered_of_tokenizeFrom _ (Nat.le_refl _) h).1

end Lexer

/-! ## What tokens span -/

variable {n : Nat}

def Spans (ts : List Token) (r : Range) : Prop :=
  ∃ t u, ts.head? = some t ∧ ts.getLast? = some u ∧ r = ⟨t.range.start, u.range.stop⟩

namespace Spans

theorem singleton (t : Token) : Spans [t] t.range := ⟨t, t, rfl, rfl, rfl⟩

theorem append {us vs : List Token} {r s : Range} (hr : Spans us r) (hs : Spans vs s) :
    Spans (us ++ vs) ⟨r.start, s.stop⟩ := by
  obtain ⟨t, _, ht, _, rfl⟩ := hr
  obtain ⟨_, u, _, hu, rfl⟩ := hs
  refine ⟨t, u, ?_, ?_, rfl⟩
  · rw [List.head?_append, ht, Option.some_or]
  · rw [List.getLast?_append, hu, Option.some_or]

theorem cons (t : Token) {us : List Token} {r : Range} (h : Spans us r) :
    Spans (t :: us) ⟨t.range.start, r.stop⟩ := (singleton t).append h

theorem bracketed (opening closing : Token) (us : List Token) :
    Spans (opening :: (us ++ [closing])) ⟨opening.range.start, closing.range.stop⟩ :=
  ⟨opening, closing, rfl, by rw [List.getLast?_cons, List.getLast?_concat, Option.getD_some], rfl⟩

theorem start_le {ts : List Token} {r : Range} (h : Spans ts r) (hts : Token.Ordered n ts) :
    ∀ t ∈ ts, r.start ≤ t.range.start := by
  obtain ⟨first, last, hfirst, _, rfl⟩ := h
  obtain ⟨us, rfl⟩ := List.head?_eq_some_iff.mp hfirst
  intro t ht
  rcases List.mem_cons.mp ht with rfl | ht
  · exact le_refl _
  · exact le_trans (le_of_lt (hts.proper first List.mem_cons_self))
      ((List.pairwise_cons.mp hts.apart).1 t ht)

theorem le_stop {ts : List Token} {r : Range} (h : Spans ts r) (hts : Token.Ordered n ts) :
    ∀ t ∈ ts, t.range.stop ≤ r.stop := by
  obtain ⟨first, last, _, hlast, rfl⟩ := h
  obtain ⟨us, rfl⟩ := List.getLast?_eq_some_iff.mp hlast
  intro t ht
  rcases List.mem_append.mp ht with ht | ht
  · have hbefore := (List.pairwise_append.mp hts.apart).2.2 t ht last List.mem_cons_self
    exact le_trans hbefore (le_of_lt (hts.proper last (List.mem_append_right _ List.mem_cons_self)))
  · rw [List.mem_singleton.mp ht]

theorem exists_mem {ts : List Token} {r : Range} (h : Spans ts r) :
    (∃ t ∈ ts, r.start = t.range.start) ∧ ∃ u ∈ ts, r.stop = u.range.stop := by
  obtain ⟨t, u, ht, hu, rfl⟩ := h
  exact ⟨⟨t, List.mem_of_head? ht, rfl⟩, ⟨u, List.mem_of_getLast? hu, rfl⟩⟩

theorem ne_nil {ts : List Token} {r : Range} (h : Spans ts r) : ts ≠ [] :=
  List.ne_nil_of_mem h.exists_mem.1.choose_spec.1

theorem proper {ts : List Token} {r : Range} (h : Spans ts r) (hts : Token.Ordered n ts) :
    r.Proper := by
  obtain ⟨t, ht, hstart⟩ := h.exists_mem.1
  have hstop := h.le_stop hts t ht
  exact lt_of_lt_of_le (hstart ▸ hts.proper t ht) hstop

theorem contains {us ts : List Token} {r s : Range} (hr : Spans ts r) (hs : Spans us s)
    (hts : Token.Ordered n ts) (hsub : us.Sublist ts) : r.contains s = true := by
  obtain ⟨⟨t, ht, hstart⟩, u, hu, hstop⟩ := hs.exists_mem
  rw [Range.contains_iff, hstart, hstop]
  exact ⟨hr.start_le hts t (hsub.subset ht), hr.le_stop hts u (hsub.subset hu)⟩

end Spans

def Within (ts : List Token) (r : Range) : Prop := ∃ us : List Token, us.Sublist ts ∧ Spans us r

namespace Within

theorem of_spans {ts : List Token} {r : Range} (h : Spans ts r) : Within ts r :=
  ⟨ts, List.Sublist.refl ts, h⟩

theorem before {us vs : List Token} {r s : Range} (hr : Within us r) (hs : Within vs s)
    (h : Token.Ordered n (us ++ vs)) : r.Before s := by
  obtain ⟨us', hus, hr⟩ := hr
  obtain ⟨vs', hvs, hs⟩ := hs
  obtain ⟨_, u, hu, hstop⟩ := hr.exists_mem
  obtain ⟨⟨t, ht, hstart⟩, _⟩ := hs.exists_mem
  rw [Range.Before, hstop, hstart]
  exact (List.pairwise_append.mp h.apart).2.2 u (hus.subset hu) t (hvs.subset ht)

end Within

/-! ## Lists -/

def Laid {α : Type} (written : α → List Token → Prop) : List α → List Token → Prop
  | [], _ => True
  | e :: es, ts => ∃ us vs, (us ++ vs).Sublist ts ∧ written e us ∧ Laid written es vs

namespace Laid

variable {α β : Type} {written : α → List Token → Prop}

theorem weaken : ∀ {es : List α} {us ts : List Token}, Laid written es us → us.Sublist ts →
    Laid written es ts
  | [], _, _, _, _ => trivial
  | _ :: _, _, _, ⟨vs, ws, hsub, he, hes⟩, hts => ⟨vs, ws, hsub.trans hts, he, hes⟩

theorem append : ∀ {es fs : List α} {us vs ts : List Token}, Laid written es us →
    Laid written fs vs → (us ++ vs).Sublist ts → Laid written (es ++ fs) ts
  | [], _, _, _, _, _, hfs, hsub => hfs.weaken ((List.sublist_append_right _ _).trans hsub)
  | e :: es, fs, us, vs, ts, ⟨us₁, us₂, hus, he, hes⟩, hfs, hsub => by
      refine ⟨us₁, us₂ ++ vs, ?_, he, hes.append hfs (List.Sublist.refl _)⟩
      rw [← List.append_assoc]
      exact (hus.append_right vs).trans hsub

theorem singleton {e : α} {us ts : List Token} (h : written e us) (hsub : us.Sublist ts) :
    Laid written [e] ts := ⟨us, [], by rwa [List.append_nil], h, trivial⟩

/-- Every member is replaced by a list. -/
theorem flatMap {written' : β → List Token → Prop} {f : α → List β}
    (hf : ∀ e us, written e us → Laid written' (f e) us) :
    ∀ {es : List α} {ts : List Token}, Laid written es ts → Laid written' (es.flatMap f) ts
  | [], _, _ => trivial
  | e :: es, ts, ⟨us, vs, hsub, he, hes⟩ => by
      rw [List.flatMap_cons]
      exact (hf e us he).append (hes.flatMap hf) hsub

theorem imp {written' : α → List Token → Prop} (hf : ∀ e us, written e us → written' e us) :
    ∀ {es : List α} {ts : List Token}, Laid written es ts → Laid written' es ts
  | [], _, _ => trivial
  | _ :: _, _, ⟨us, vs, hsub, he, hes⟩ => ⟨us, vs, hsub, hf _ _ he, hes.imp hf⟩

theorem exists_written : ∀ {es : List α} {ts : List Token}, Laid written es ts → ∀ e ∈ es,
    ∃ us : List Token, us.Sublist ts ∧ written e us
  | _ :: _, ts, ⟨us, vs, hsub, he, hes⟩, e, hmem => by
      rcases List.mem_cons.mp hmem with rfl | hmem
      · exact ⟨us, (List.sublist_append_left us vs).trans hsub, he⟩
      · obtain ⟨ws, hws, hwritten⟩ := hes.exists_written e hmem
        exact ⟨ws, hws.trans ((List.sublist_append_right us vs).trans hsub), hwritten⟩

theorem length_le (hwritten : ∀ e us, written e us → us ≠ []) :
    ∀ {es : List α} {ts : List Token}, Laid written es ts → es.length ≤ ts.length
  | [], _, _ => Nat.zero_le _
  | e :: es, ts, ⟨us, vs, hsub, he, hes⟩ => by
      have hlength := hsub.length_le
      have hfirst := List.length_pos_iff.mpr (hwritten e us he)
      have hrest := hes.length_le hwritten
      rw [List.length_append] at hlength
      rw [List.length_cons]
      omega

/-- Members whose ranges lie within their tokens come one before the other. -/
theorem pairwise {range : α → Range} (hrange : ∀ e us, written e us → Within us (range e)) :
    ∀ {es : List α} {ts : List Token}, Laid written es ts → Token.Ordered n ts →
      es.Pairwise fun a b => (range a).Before (range b)
  | [], _, _, _ => .nil
  | e :: es, ts, ⟨us, vs, hsub, he, hes⟩, hts => by
      have hboth := hts.sublist hsub
      refine List.pairwise_cons.mpr ⟨?_, hes.pairwise hrange
        (hboth.sublist (List.sublist_append_right us vs))⟩
      intro b hb
      obtain ⟨ws, hws, hwritten⟩ := hes.exists_written b hb
      exact (hrange e us he).before (hrange b ws hwritten)
        (hboth.sublist (hws.append_left us))

end Laid

namespace Syntax

theorem laid_of_commaSeparated {α : Type} {written : α → List Token → Prop} :
    ∀ {es : List α} {ts : List Token}, commaSeparated written es ts → Laid written es ts
  | [], _, _ => trivial
  | e :: es, ts, h => by
      rw [commaSeparated] at h
      rcases h with ⟨he, rfl⟩ | ⟨us, comma, vs, rfl, he, _, hes⟩
      · exact .singleton he (List.Sublist.refl ts)
      · exact ⟨us, vs, (List.sublist_cons_self comma vs).append_left us, he,
          laid_of_commaSeparated hes⟩

theorem laid_of_consecutive {α : Type} {written : α → List Token → Prop} :
    ∀ {es : List α} {ts : List Token}, consecutive written es ts → Laid written es ts
  | [], _, _ => trivial
  | _ :: _, _, ⟨us, vs, hts, he, hes⟩ =>
      ⟨us, vs, hts ▸ List.Sublist.refl _, he, laid_of_consecutive hes⟩

/-! ## Names and values -/

theorem spans_segments {role : IdentifierKind} : ∀ {is : List Identifier} {i : Identifier}
    {t : Token} {us : List Token}, i.WrittenAs role t → segmentsWrittenAs role is us →
      Spans (t :: us) ⟨i.range.start, (is.getLast?.getD i).range.stop⟩
  | [], i, t, us, hi, his => by
      obtain rfl : us = [] := his
      rw [hi.2]
      exact .singleton t
  | j :: js, i, t, us, hi, his => by
      obtain ⟨dot, u, vs, rfl, _, hj, hjs⟩ := his
      rw [List.getLast?_cons, Option.getD_some, hi.2]
      exact ((spans_segments hj hjs).cons dot).cons t

theorem Path.WrittenAs.spans {role : IdentifierKind} {p : Path} {ts : List Token}
    (h : p.WrittenAs role ts) : Spans ts p.range := by
  obtain ⟨i, is, t, us, rfl, rfl, hi, his⟩ := h
  exact spans_segments hi his

theorem Path.WrittenAs.segments_ne_nil {role : IdentifierKind} {p : Path} {ts : List Token}
    (h : p.WrittenAs role ts) : p.segments ≠ [] := by
  obtain ⟨i, is, t, us, rfl, _⟩ := h
  exact List.cons_ne_nil i is

theorem Primitive.WrittenAs.spans {p : Primitive} {ts : List Token} (h : p.WrittenAs ts) :
    Spans ts p.range := by
  rcases h with ⟨t, rfl, _, rfl⟩ | ⟨t, rfl, _, rfl⟩ | ⟨hash, t, rfl, _, _, rfl⟩ |
    ⟨name, hname, rfl⟩
  · exact .singleton t
  · exact .singleton t
  · exact (Spans.singleton t).cons hash
  · exact hname.spans

theorem spans_value : ∀ {v : Value} {ts : List Token}, v.WrittenAs ts → Spans ts v.range
  | .record ⟨range, entries⟩, ts, h => by
      rw [Value.WrittenAs] at h
      obtain ⟨opening, closing, us, rfl, _, _, rfl, _⟩ := h
      exact .bracketed opening closing us
  | .collection ⟨range, items⟩, ts, h => by
      rw [Value.WrittenAs] at h
      obtain ⟨opening, closing, us, rfl, _, _, rfl, _⟩ := h
      exact .bracketed opening closing us
  | .primitive p, ts, h => by
      rw [Value.WrittenAs] at h
      exact h.spans

theorem spans_afterColon {colon : Option Range} : ∀ {value : Option Value} {us vs : List Token}
    {r : Range}, Spans us r → valueAfterColon colon value vs →
      Spans (us ++ vs) ⟨r.start, Parser.endOf value r.stop⟩
  | none, us, vs, r, hus, hvs => by
      rw [valueAfterColon] at hvs
      rw [hvs.2, List.append_nil]
      exact hus
  | some v, us, vs, r, hus, hvs => by
      rw [valueAfterColon] at hvs
      obtain ⟨c, ws, rfl, _, _, hv⟩ := hvs
      have h := hus.append ((spans_value hv).cons c)
      exact h

theorem spans_entry : ∀ {e : Entry} {ts : List Token}, e.WrittenAs ts → Spans ts e.range
  | .property ⟨range, name, colon, value⟩, ts, h => by
      rw [Entry.WrittenAs] at h
      obtain ⟨us, vs, rfl, hname, hvalue, rfl⟩ := h
      exact spans_afterColon hname.spans hvalue
  | .embedded ⟨range, atSign, term, qualifier, colon, value, embedded⟩, ts, h => by
      rw [Entry.WrittenAs] at h
      obtain ⟨mark, opening, sign, us, qs, closing, vs, rfl, _, _, _, _, _, _, hvalue, rfl, _⟩ := h
      have hhead := Spans.bracketed mark closing (opening :: sign :: (us ++ qs))
      have h := spans_afterColon hhead hvalue
      simp only [List.cons_append, List.append_assoc, List.nil_append] at h
      exact h

theorem spans_qualified {a : Annotation} {us qs : List Token} (hterm : a.term.WrittenAs .term us)
    (hqualifier : qualifierWrittenAs a.qualifier qs) :
    Spans (us ++ qs) ⟨a.term.range.start, a.headEnd⟩ := by
  unfold Annotation.headEnd
  cases hq : a.qualifier with
  | none =>
      rw [hq] at hqualifier
      obtain rfl : qs = [] := hqualifier
      rw [List.append_nil]
      exact hterm.spans
  | some q =>
      rw [hq] at hqualifier
      obtain ⟨hash, t, rfl, _, _, rfl⟩ := hqualifier
      exact hterm.spans.append ((Spans.singleton t).cons hash)

theorem Annotation.WrittenAs.spans {a : Annotation} {ts : List Token} (h : a.WrittenAs ts) :
    Spans ts a.range := by
  obtain ⟨us, qs, vs, rfl, hterm, hqualifier, hvalue, hrange, _⟩ := h
  rw [hrange, ← List.append_assoc]
  exact spans_afterColon (spans_qualified hterm hqualifier) hvalue

theorem spans_assignment {vocabulary : Vocabulary} {atSign : Option Range} :
    ∀ {a : Assignment} {ts : List Token}, a.WrittenAs vocabulary atSign ts → Spans ts a.range
  | .single a, ts, h => h.1.spans
  | .group g, ts, h => by
      obtain ⟨term, us, colon, opening, vs, closing, rfl, hterm, _, _, _, _, _, _, hg⟩ := h
      rw [Assignment.range, hg]
      have h := hterm.spans.append ((Spans.bracketed opening closing vs).cons colon)
      exact h

/-! ## Parts inside parts -/

/-- The value is written by at most `n` tokens in order. -/
def Value.Tidy (n : Nat) (v : Value) : Prop := ∃ ts, Token.Ordered n ts ∧ v.WrittenAs ts

def Entry.Tidy (n : Nat) (e : Entry) : Prop := ∃ ts, Token.Ordered n ts ∧ e.WrittenAs ts

theorem Value.Tidy.proper {v : Value} (h : v.Tidy n) : v.range.Proper := by
  obtain ⟨ts, hts, hv⟩ := h
  exact (spans_value hv).proper hts

/-- A range with characters, and inside it the value, if there is one. -/
structure Holds (n : Nat) (range : Range) (value : Option Value) : Prop where
  proper : range.Proper
  tidy : ∀ v, value = some v → v.Tidy n
  inside : ∀ v, value = some v → range.contains v.range = true

/-- At most `n` members of a list, which lie in its range, after its start and one before the
other. -/
structure Lists {α : Type} (n : Nat) (range : Range) (ranges : α → Range) (es : List α) :
    Prop where
  few : es.length ≤ n
  inside : ∀ e ∈ es, range.contains (ranges e) = true
  after : ∀ e ∈ es, range.start < (ranges e).start
  apart : es.Pairwise fun a b => (ranges a).Before (ranges b)

theorem lists_of_laid {α : Type} {written : α → List Token → Prop} {ranges : α → Range}
    (hspans : ∀ e us, written e us → Spans us (ranges e)) {es : List α}
    {opening closing : Token} {us : List Token}
    (hts : Token.Ordered n (opening :: (us ++ [closing]))) (h : Laid written es us) :
    Lists n ⟨opening.range.start, closing.range.stop⟩ ranges es := by
  have hsub : us.Sublist (opening :: (us ++ [closing])) :=
    (List.sublist_append_left us _).cons opening
  have hfew := h.length_le fun e ws hw => (hspans e ws hw).ne_nil
  have hapart := h.pairwise (fun e ws hw => .of_spans (hspans e ws hw)) (hts.sublist hsub)
  refine ⟨Nat.le_trans hfew (hts.sublist hsub).few, ?_, ?_, hapart⟩
  · intro e he
    obtain ⟨ws, hws, hwritten⟩ := h.exists_written e he
    exact (Spans.bracketed opening closing us).contains (hspans e ws hwritten) hts
      (hws.trans hsub)
  · intro e he
    obtain ⟨ws, hws, hwritten⟩ := h.exists_written e he
    obtain ⟨⟨t, ht, hstart⟩, _⟩ := (hspans e ws hwritten).exists_mem
    have hbefore := (List.pairwise_cons.mp hts.apart).1 t (List.mem_append_left _ (hws.subset ht))
    rw [hstart]
    exact lt_of_lt_of_le (hts.proper opening List.mem_cons_self) hbefore

theorem tidy_record {range : Range} {entries : List Entry}
    (h : (Value.record ⟨range, entries⟩).Tidy n) :
    Lists n range Entry.range entries ∧ ∀ e ∈ entries, e.Tidy n := by
  obtain ⟨ts, hts, hv⟩ := h
  rw [Value.WrittenAs] at hv
  obtain ⟨opening, closing, us, rfl, _, _, rfl, hentries⟩ := hv
  have hlaid := laid_of_commaSeparated ((entriesWrittenAs_iff entries us).mp hentries)
  refine ⟨lists_of_laid (fun e ws he => spans_entry he) hts hlaid, ?_⟩
  intro e he
  obtain ⟨ws, hws, hwritten⟩ := hlaid.exists_written e he
  exact ⟨ws, hts.sublist (hws.trans ((List.sublist_append_left us _).cons opening)), hwritten⟩

theorem tidy_collection {range : Range} {items : List Value}
    (h : (Value.collection ⟨range, items⟩).Tidy n) :
    Lists n range Value.range items ∧ ∀ v ∈ items, v.Tidy n := by
  obtain ⟨ts, hts, hv⟩ := h
  rw [Value.WrittenAs] at hv
  obtain ⟨opening, closing, us, rfl, _, _, rfl, hitems⟩ := hv
  have hlaid := laid_of_commaSeparated ((valuesWrittenAs_iff items us).mp hitems)
  refine ⟨lists_of_laid (fun v ws hv => spans_value hv) hts hlaid, ?_⟩
  intro v hv
  obtain ⟨ws, hws, hwritten⟩ := hlaid.exists_written v hv
  exact ⟨ws, hts.sublist (hws.trans ((List.sublist_append_left us _).cons opening)), hwritten⟩

theorem holds_afterColon {colon : Option Range} {value : Option Value} {us vs : List Token}
    {range : Range} (hts : Token.Ordered n (us ++ vs)) (hspans : Spans (us ++ vs) range)
    (hvalue : valueAfterColon colon value vs) : Holds n range value := by
  have hwritten : ∀ v, value = some v →
      ∃ ws : List Token, ws.Sublist (us ++ vs) ∧ v.WrittenAs ws := by
    rintro v rfl
    rw [valueAfterColon] at hvalue
    obtain ⟨c, ws, rfl, _, _, hv⟩ := hvalue
    exact ⟨ws, (List.sublist_cons_self c ws).trans (List.sublist_append_right us _), hv⟩
  refine ⟨hspans.proper hts, ?_, ?_⟩
  · intro v hv
    obtain ⟨ws, hws, hwritten⟩ := hwritten v hv
    exact ⟨ws, hts.sublist hws, hwritten⟩
  · intro v hv
    obtain ⟨ws, hws, hwritten⟩ := hwritten v hv
    exact hspans.contains (spans_value hwritten) hts hws

theorem holds_property {p : Property} (h : (Entry.property p).Tidy n) :
    Holds n p.range p.value ∧ p.name.segments ≠ [] := by
  obtain ⟨ts, hts, he⟩ := h
  have hspans := spans_entry he
  obtain ⟨range, name, colon, value⟩ := p
  rw [Entry.WrittenAs] at he
  obtain ⟨us, vs, rfl, hname, hvalue, _⟩ := he
  exact ⟨holds_afterColon hts hspans hvalue, hname.segments_ne_nil⟩

theorem holds_embedded {a : Annotation} (h : (Entry.embedded a).Tidy n) :
    Holds n a.range a.value ∧ a.embedded = true := by
  obtain ⟨ts, hts, he⟩ := h
  have hspans := spans_entry he
  obtain ⟨range, atSign, term, qualifier, colon, value, embedded⟩ := a
  rw [Entry.WrittenAs] at he
  obtain ⟨mark, opening, sign, us, qs, closing, vs, rfl, _, _, _, _, _, _, hvalue, _, _,
    hembedded⟩ := he
  have hsplit : mark :: opening :: sign :: (us ++ (qs ++ closing :: vs)) =
      (mark :: opening :: sign :: (us ++ (qs ++ [closing]))) ++ vs := by
    simp only [List.cons_append, List.append_assoc, List.nil_append]
  rw [hsplit] at hts hspans
  exact ⟨holds_afterColon hts hspans hvalue, hembedded⟩

theorem Annotation.WrittenAs.holds {a : Annotation} {ts : List Token} (h : a.WrittenAs ts)
    (hts : Token.Ordered n ts) : Holds n a.range a.value := by
  have hspans := h.spans
  obtain ⟨us, qs, vs, rfl, _, _, hvalue, _, _⟩ := h
  rw [← List.append_assoc] at hts hspans
  exact holds_afterColon hts hspans hvalue

/-! ## Assignments, targets and files -/

/-- The annotations of an assignment hold their values, those of a group apart from each other. -/
def Assignment.Tidy (n : Nat) : Assignment → Prop
  | .single a => Holds n a.range a.value
  | .group g => g.range.contains g.items.range = true ∧
      Lists n g.items.range Annotation.range g.items.items ∧
      ∀ a ∈ g.items.items, Holds n a.range a.value ∧ a.term.segments ≠ []

theorem tidy_assignment {vocabulary : Vocabulary} {atSign : Option Range} :
    ∀ {a : Assignment} {ts : List Token}, a.WrittenAs vocabulary atSign ts → Token.Ordered n ts →
      a.Tidy n
  | .single _, _, h, hts => h.1.holds hts
  | .group g, ts, h, hts => by
      have hspans := spans_assignment h
      obtain ⟨term, us, colon, opening, vs, closing, rfl, hterm, _, _, _, _, _, hitems, hg⟩ := h
      have hlaid := laid_of_commaSeparated hitems
      have hsub : (opening :: (vs ++ [closing])).Sublist
          (us ++ colon :: opening :: (vs ++ [closing])) :=
        (List.sublist_cons_self colon _).trans (List.sublist_append_right us _)
      have hrange : g.items.range = ⟨opening.range.start, closing.range.stop⟩ := by rw [hg]
      have hbrackets := hts.sublist hsub
      refine ⟨?_, ?_, ?_⟩
      · rw [hrange]
        exact hspans.contains (.bracketed opening closing vs) hts hsub
      · rw [hrange]
        exact lists_of_laid (fun a ws h => h.1.spans) hbrackets hlaid
      · intro a ha
        obtain ⟨ws, hws, hwritten⟩ := hlaid.exists_written a ha
        refine ⟨hwritten.1.holds
          (hbrackets.sublist (hws.trans ((List.sublist_append_left vs _).cons opening))), ?_⟩
        obtain ⟨_, _, _, _, hitem, _⟩ := hwritten.1
        exact hitem.segments_ne_nil

/-- The annotation, or those of the group. -/
def Assignment.annotations : Assignment → List Annotation
  | .single a => [a]
  | .group g => g.items.items

def Assignment.Written (vocabulary : Vocabulary) (a : Assignment) (ts : List Token) : Prop :=
  ∃ atSign, a.WrittenAs vocabulary atSign ts

theorem laid_assignments {vocabulary : Vocabulary} {as : List Assignment}
    {compound : Option Range} {ts : List Token}
    (h : AssignmentsWrittenAs vocabulary as compound ts) :
    Laid (Assignment.Written vocabulary) as ts := by
  induction h with
  | nil => trivial
  | @bare sign a as compound us vs _ ha _ ih =>
      exact ⟨us, vs, List.sublist_cons_self sign _, ⟨_, ha⟩, ih⟩
  | @compound sign opening closing items as more us vs _ _ hitems _ _ ih =>
      have hlaid : Laid (Assignment.Written vocabulary) items us :=
        (laid_of_commaSeparated hitems).imp fun a ws hw => ⟨none, hw⟩
      refine hlaid.append ih ?_
      have hsub : (us ++ vs).Sublist (us ++ closing :: vs) :=
        (List.sublist_cons_self closing vs).append_left us
      exact (hsub.cons opening).cons sign

theorem laid_annotations {vocabulary : Vocabulary} : ∀ {a : Assignment} {ts : List Token},
    a.Written vocabulary ts → Laid (fun (a : Annotation) us => a.WrittenAs us) a.annotations ts
  | .single _, ts, ⟨_, h⟩ => .singleton h.1 (List.Sublist.refl ts)
  | .group g, ts, ⟨_, h⟩ => by
      obtain ⟨term, us, colon, opening, vs, closing, rfl, _, _, _, _, _, _, hitems, _⟩ := h
      refine ((laid_of_commaSeparated hitems).imp fun a ws h => h.1).weaken ?_
      have hsub : vs.Sublist (colon :: opening :: (vs ++ [closing])) :=
        ((List.sublist_append_left vs _).cons opening).cons colon
      exact hsub.trans (List.sublist_append_right us _)

def Target.Written (vocabulary : Vocabulary) (t : Target) (ts : List Token) : Prop :=
  ∃ us vs, (us ++ vs).Sublist ts ∧ Spans us t.nameRange ∧
    AssignmentsWrittenAs vocabulary t.assignments t.compound vs ∧
    t.range = (Parser.targetOf t.kind t.name t.nameRange (t.assignments, t.compound)).range

structure Target.Tidy (n : Nat) (t : Target) : Prop where
  proper : t.range.Proper
  lists : Lists n t.range Assignment.range t.assignments
  assignments : ∀ a ∈ t.assignments, a.Tidy n
  few : (t.assignments.flatMap Assignment.annotations).length ≤ n

theorem Target.Written.within {vocabulary : Vocabulary} {t : Target} {ts : List Token}
    (h : t.Written vocabulary ts) : Within ts t.range := by
  obtain ⟨us, vs, hsub, hname, has, hrange⟩ := h
  rw [hrange, Parser.targetOf]
  cases hlast : t.assignments.getLast? with
  | none => exact ⟨us, (List.sublist_append_left us vs).trans hsub, hname⟩
  | some a =>
      obtain ⟨ws, hws, _, hwritten⟩ :=
        (laid_assignments has).exists_written a (List.mem_of_getLast? hlast)
      exact ⟨us ++ ws, (hws.append_left us).trans hsub, hname.append (spans_assignment hwritten)⟩

theorem Target.Written.ne_nil {vocabulary : Vocabulary} {t : Target} {ts : List Token}
    (h : t.Written vocabulary ts) : ts ≠ [] := by
  obtain ⟨us, vs, hsub, hname, _⟩ := h
  obtain ⟨⟨u, hu, _⟩, _⟩ := hname.exists_mem
  exact List.ne_nil_of_mem (hsub.subset (List.mem_append_left vs hu))

/-- The last of some ranges that come one before the other ends last. -/
theorem stop_le_last {α : Type} {ranges : α → Range} {es : List α} {last : α}
    (hproper : ∀ e ∈ es, (ranges e).Proper)
    (h : es.Pairwise fun a b => (ranges a).Before (ranges b)) (hlast : es.getLast? = some last) :
    ∀ e ∈ es, (ranges e).stop ≤ (ranges last).stop := by
  obtain ⟨front, rfl⟩ := List.getLast?_eq_some_iff.mp hlast
  intro e he
  rcases List.mem_append.mp he with hfront | he
  · have hbefore := (List.pairwise_append.mp h).2.2 e hfront last List.mem_cons_self
    exact le_trans hbefore
      (le_of_lt (hproper last (List.mem_append_right _ List.mem_cons_self)))
  · rw [List.mem_singleton.mp he]

theorem Target.Written.tidy {vocabulary : Vocabulary} {t : Target} {ts : List Token}
    (h : t.Written vocabulary ts) (hts : Token.Ordered n ts) : t.Tidy n := by
  obtain ⟨tokens, htokens, hspans⟩ := h.within
  have hproper := hspans.proper (hts.sublist htokens)
  obtain ⟨us, vs, hsub, hname, has, hrange⟩ := h
  have hlaid := laid_assignments has
  have hboth := hts.sublist hsub
  have hvs := hboth.sublist (List.sublist_append_right us vs)
  have hwritten : ∀ a ∈ t.assignments, a.range.Proper ∧ t.nameRange.Before a.range ∧ a.Tidy n := by
    intro a ha
    obtain ⟨ws, hws, _, hwritten⟩ := hlaid.exists_written a ha
    have hbefore : t.nameRange.Before a.range :=
      (Within.of_spans hname).before ⟨ws, hws, spans_assignment hwritten⟩ hboth
    exact ⟨(spans_assignment hwritten).proper (hvs.sublist hws), hbefore,
      tidy_assignment hwritten (hvs.sublist hws)⟩
  have hapart : t.assignments.Pairwise fun a b => a.range.Before b.range :=
    hlaid.pairwise (fun a ws h => .of_spans (spans_assignment h.choose_spec)) hvs
  have hnameProper := hname.proper (hboth.sublist (List.sublist_append_left us vs))
  have hstart : t.range.start = t.nameRange.start := by rw [hrange, Parser.targetOf]
  have hfew : t.assignments.length ≤ n :=
    Nat.le_trans (hlaid.length_le fun a ws h => (spans_assignment h.choose_spec).ne_nil) hvs.few
  have hfewTerms : (t.assignments.flatMap Assignment.annotations).length ≤ n :=
    Nat.le_trans ((hlaid.flatMap fun a ws h => laid_annotations h).length_le
      fun a ws h => h.spans.ne_nil) hvs.few
  refine ⟨hproper, ⟨hfew, ?_, ?_, hapart⟩, fun a ha => (hwritten a ha).2.2, hfewTerms⟩
  · intro a ha
    rw [Range.contains_iff, hstart]
    refine ⟨le_trans (le_of_lt hnameProper) (hwritten a ha).2.1, ?_⟩
    obtain ⟨last, hlast⟩ : ∃ last, t.assignments.getLast? = some last :=
      ⟨_, List.getLast?_eq_some_getLast (List.ne_nil_of_mem ha)⟩
    have hstop : t.range.stop = last.range.stop := by rw [hrange, Parser.targetOf, hlast]
    rw [hstop]
    exact stop_le_last (fun e he => (hwritten e he).1) hapart hlast a ha
  · intro a ha
    rw [hstart]
    exact lt_of_lt_of_le hnameProper (hwritten a ha).2.1

theorem written_targetOf {vocabulary : Vocabulary} {kind : TargetKind} {name : String}
    {nameRange : Range} {as : List Assignment} {compound : Option Range}
    {us vs ts : List Token} (hname : Spans us nameRange)
    (has : AssignmentsWrittenAs vocabulary as compound vs) (hsub : (us ++ vs).Sublist ts) :
    (Parser.targetOf kind name nameRange (as, compound)).Written vocabulary ts :=
  ⟨us, vs, hsub, hname, has, rfl⟩

theorem laid_members {vocabulary : Vocabulary} {entity : String} {members : List Target}
    {ts : List Token} (h : consecutive (memberWrittenAs vocabulary entity) members ts) :
    Laid (Target.Written vocabulary) members ts := by
  refine (laid_of_consecutive h).imp ?_
  rintro m ws ⟨i, t, us, closing, as, compound, rfl, hi, has, _, rfl⟩
  have hname : Spans [t] i.range := by
    rw [hi.2]
    exact .singleton t
  exact written_targetOf hname has ((List.sublist_append_left us [closing]).cons_cons t)

theorem laid_entityTargets {vocabulary : Vocabulary} {s : Statement} {us vs ts : List Token}
    (hentity : s.entity.WrittenAs .entity us)
    (has : AssignmentsWrittenAs vocabulary s.assignments s.compound vs)
    (hsub : (us ++ vs).Sublist ts) : Laid (Target.Written vocabulary) s.entityTargets ts := by
  rw [Statement.entityTargets]
  split
  · exact .singleton (written_targetOf hentity.spans has (List.Sublist.refl _)) hsub
  · trivial

theorem laid_block {vocabulary : Vocabulary} {entity : String} {members : Option (List Target)}
    {ts : List Token} (h : blockWrittenAs vocabulary entity members ts) :
    Laid (Target.Written vocabulary) (members.getD []) ts := by
  cases members with
  | none => trivial
  | some members =>
      obtain ⟨opening, vs, closing, rfl, _, _, hvs⟩ := h
      exact (laid_members hvs).weaken ((List.sublist_append_left vs _).cons opening)

theorem laid_statement {vocabulary : Vocabulary} {s : Statement} {ts : List Token}
    (h : s.WrittenAs vocabulary ts) : Laid (Target.Written vocabulary) s.targets ts := by
  obtain ⟨first, us, ws, as, bs, closing, rfl, _, hentity, _, has, hblock, _⟩ := h
  have hhead : Laid (Target.Written vocabulary) s.entityTargets (us ++ (ws ++ as)) :=
    laid_entityTargets hentity has ((List.sublist_append_right ws as).append_left us)
  refine hhead.append (laid_block hblock) ?_
  simp only [List.append_assoc]
  have hsub : (us ++ (ws ++ (as ++ bs))).Sublist (us ++ (ws ++ (as ++ (bs ++ [closing])))) :=
    (((List.sublist_append_left bs _).append_left as).append_left ws).append_left us
  exact hsub.cons first

/-- The targets of a file lie apart, and each is laid out well. -/
structure File.Tidy (n : Nat) (f : File) : Prop where
  targets : ∀ t ∈ f.targets, t.Tidy n
  targetsApart : f.targets.Pairwise fun a b => a.range.Before b.range
  few : f.targets.length ≤ n

end Syntax

/-- A file that is read from a text is laid out well. -/
theorem Document.tidy_of_parse {uri text : String} {c : Configuration} {d : Document}
    (h : parse uri text c = .ok d) : d.syntaxTree.Tidy text.length := by
  obtain ⟨tokens, items, code, htokens, hitems, hcode, rfl⟩ := parse_eq_ok_iff.mp h
  have hcodeRanges : code.map (·.range) = (tokens.filter Token.isCode).map (·.range) := by
    rw [← hcode, List.map_map]
    rfl
  have hordered : Token.Ordered text.length code := Token.ordered_of_map_range hcodeRanges
    ((Lexer.ordered_of_tokenize htokens).sublist List.filter_sublist)
  have hlaid := Syntax.laid_of_consecutive hitems
  have htargets : Laid (Syntax.Target.Written c.aliases) (Syntax.targetsOf items) code := by
    refine hlaid.flatMap ?_
    rintro (d | s) us hwritten
    · trivial
    · exact Syntax.laid_statement hwritten
  refine ⟨?_, ?_, ?_⟩
  · intro t ht
    obtain ⟨us, hus, hwritten⟩ := htargets.exists_written t ht
    exact hwritten.tidy (hordered.sublist hus)
  · exact htargets.pairwise (fun t us ht => ht.within) hordered
  · exact Nat.le_trans (htargets.length_le fun t us ht => ht.ne_nil) hordered.few

end AnnotationEdit

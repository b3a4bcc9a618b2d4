import AnnotationEdit.Proofs.Syntax.Nodes
import AnnotationEdit.Proofs.Token.Relexing

/-!
# Plots

A target stands on a plot of its own: its name, perhaps `with`, its assignments, and the mark that
ends them, a semicolon or the brace of a block. The plots of a file come one after the other
(`plots_of_consecutive`). No keyword but `with` and no semicolon but the last token stands on a plot
(`Target.PlottedAs.inner`), since names are never keywords (`Lexer.not_keyword_of_tokenize`).
-/

namespace AnnotationEdit

/-! ## Words -/

theorem Lexer.not_keyword_of_tokenize {text : String} {tokens : List Token}
    (h : tokenize text = .ok tokens) :
    ∀ t ∈ tokens, t.kind = .identifier → keywords.contains t.text = false := by
  intro t ht hkind
  obtain ⟨front, c, tail, rest, _, hplaced⟩ := @exists_placed _ [] _ _ (Nat.le_refl _) h t ht
  obtain ⟨follow, hlexeme, _⟩ := hplaced.lexeme
  rw [hkind] at hlexeme
  rw [hplaced.text]
  generalize hword : TokenKind.identifier = kind at hlexeme
  cases hlexeme with
  | word _ =>
      rw [wordKind] at hword
      split at hword
      · cases hword
      · next hno => exact Bool.eq_false_iff.mpr hno
  | _ => cases hword

theorem Range.union_of_le {r s : Range} (hstart : r.start ≤ s.start) (hstop : r.stop ≤ s.stop) :
    r.union s = ⟨r.start, s.stop⟩ := by
  rw [Range.union, Position.min, Position.max, if_pos hstart, if_pos hstop]

/-- Neither a keyword nor a semicolon. -/
def Token.Inner (t : Token) : Prop := t.kind ≠ .keyword ∧ t.is ";" = false

def Token.Inmost (t : Token) : Prop := t.Inner ∧ t.is "(" = false ∧ t.is ")" = false

namespace Syntax

theorem inner_of_isMark {t : Token} {mark : String} (h : t.IsMark mark) (hmark : mark ≠ ";") :
    t.Inner := by
  refine ⟨?_, Token.is_eq_false_of_is h.1 hmark⟩
  rw [Token.kind_of_is h.1]
  decide

theorem inmost_of_isMark {t : Token} {mark : String} (h : t.IsMark mark)
    (hmark : mark ∉ [";", "(", ")"]) : t.Inmost := by
  have hne : ∀ other ∈ [";", "(", ")"], mark ≠ other := fun other hother heq =>
    hmark (heq ▸ hother)
  exact ⟨inner_of_isMark h (hne ";" (by decide)), Token.is_eq_false_of_is h.1 (hne "(" (by decide)),
    Token.is_eq_false_of_is h.1 (hne ")" (by decide))⟩

theorem inmost_of_kind {t : Token} {kind : TokenKind} (h : t.kind = kind)
    (hkind : kind ≠ .keyword ∧ kind ≠ .punctuation) : t.Inmost := by
  rw [← h] at hkind
  exact ⟨⟨hkind.1, Token.is_eq_false_of_kind hkind.2⟩, Token.is_eq_false_of_kind hkind.2,
    Token.is_eq_false_of_kind hkind.2⟩

theorem inmost_of_isName {t : Token} {role : IdentifierKind} (h : t.IsName role) : t.Inmost :=
  inmost_of_kind h.1 (by decide)

theorem inmost_segments {role : IdentifierKind} : ∀ {is : List Identifier} {ts : List Token},
    segmentsWrittenAs role is ts → ∀ t ∈ ts, t.Inmost
  | [], ts, h => by
      rw [segmentsWrittenAs] at h
      rw [h]
      exact fun t ht => absurd ht List.not_mem_nil
  | i :: is, ts, h => by
      obtain ⟨dot, t, us, rfl, hdot, hi, his⟩ := h
      refine List.forall_mem_cons.mpr ⟨inmost_of_isMark hdot (by decide), ?_⟩
      exact List.forall_mem_cons.mpr ⟨inmost_of_isName hi.1, inmost_segments his⟩

theorem inmost_path {role : IdentifierKind} {p : Path} {ts : List Token} (h : p.WrittenAs role ts) :
    ∀ t ∈ ts, t.Inmost := by
  obtain ⟨i, is, t, us, _, rfl, hi, his⟩ := h
  exact List.forall_mem_cons.mpr ⟨inmost_of_isName hi.1, inmost_segments his⟩

theorem inmost_qualifier {q : Option Identifier} {ts : List Token} (h : qualifierWrittenAs q ts) :
    ∀ t ∈ ts, t.Inmost := by
  cases q with
  | none =>
      rw [qualifierWrittenAs] at h
      rw [h]
      exact fun t ht => absurd ht List.not_mem_nil
  | some q =>
      obtain ⟨hash, t, rfl, hhash, ht, _⟩ := h
      refine List.forall_mem_cons.mpr ⟨inmost_of_isMark hhash (by decide), ?_⟩
      exact List.forall_mem_singleton.mpr (inmost_of_isName ht)

theorem inmost_primitive {p : Primitive} {ts : List Token} (h : p.WrittenAs ts) :
    ∀ t ∈ ts, t.Inmost := by
  rcases h with ⟨t, rfl, ht, _⟩ | ⟨t, rfl, ht, _⟩ | ⟨hash, t, rfl, hhash, ht, _⟩ | ⟨name, hname, _⟩
  · exact List.forall_mem_singleton.mpr (inmost_of_kind ht.1 (by decide))
  · exact List.forall_mem_singleton.mpr (inmost_of_kind ht.1 (by decide))
  · refine List.forall_mem_cons.mpr ⟨inmost_of_isMark hhash (by decide), ?_⟩
    exact List.forall_mem_singleton.mpr (inmost_of_isName ht)
  · exact inmost_path hname

/-! ## Values and assignments -/

theorem inmost_commaSeparated {α : Type} {written : α → List Token → Prop} :
    ∀ {es : List α} {ts : List Token}, commaSeparated written es ts →
      (∀ e us, us.Sublist ts → written e us → ∀ t ∈ us, t.Inmost) → ∀ t ∈ ts, t.Inmost
  | [], ts, h, _ => by
      rw [commaSeparated] at h
      rw [h]
      exact fun t ht => absurd ht List.not_mem_nil
  | e :: es, ts, h, hinner => by
      rcases h with ⟨he, _⟩ | ⟨us, comma, vs, rfl, he, hcomma, hes⟩
      · exact hinner e ts (List.Sublist.refl ts) he
      · have hvs : vs.Sublist (us ++ comma :: vs) :=
          (List.sublist_cons_self comma vs).trans (List.sublist_append_right us _)
        refine List.forall_mem_append.mpr ⟨hinner e us (List.sublist_append_left us _) he, ?_⟩
        refine List.forall_mem_cons.mpr ⟨inmost_of_isMark hcomma (by decide), ?_⟩
        exact inmost_commaSeparated hes fun e ws hws => hinner e ws (hws.trans hvs)

theorem inmost_bracketed {left right : String} {opening closing : Token} {us : List Token}
    (hopening : opening.IsMark left) (hclosing : closing.IsMark right)
    (hmarks : left ∉ [";", "(", ")"] ∧ right ∉ [";", "(", ")"]) (hus : ∀ t ∈ us, t.Inmost) :
    ∀ t ∈ opening :: (us ++ [closing]), t.Inmost := by
  refine List.forall_mem_cons.mpr ⟨inmost_of_isMark hopening hmarks.1, ?_⟩
  exact List.forall_mem_append.mpr
    ⟨hus, List.forall_mem_singleton.mpr (inmost_of_isMark hclosing hmarks.2)⟩

theorem inmost_afterColon {colon : Option Range} {value : Option Value} {ts : List Token}
    (h : valueAfterColon colon value ts)
    (hvalue : ∀ v us, us.length < ts.length → Value.WrittenAs v us → ∀ t ∈ us, t.Inmost) :
    ∀ t ∈ ts, t.Inmost := by
  cases value with
  | none =>
      rw [valueAfterColon] at h
      rw [h.2]
      exact fun t ht => absurd ht List.not_mem_nil
  | some v =>
      rw [valueAfterColon] at h
      obtain ⟨c, us, rfl, hc, _, hv⟩ := h
      exact List.forall_mem_cons.mpr
        ⟨inmost_of_isMark hc (by decide), hvalue v us (Nat.lt_succ_self _) hv⟩

mutual

theorem inmost_value : ∀ (n : Nat) {v : Value} {ts : List Token}, ts.length < n →
    v.WrittenAs ts → ∀ t ∈ ts, t.Inmost
  | n + 1, .record ⟨range, entries⟩, ts, hlen, h => by
      rw [Value.WrittenAs] at h
      obtain ⟨opening, closing, us, rfl, ho, hc, _, hentries⟩ := h
      rw [List.length_cons, List.length_append, List.length_singleton] at hlen
      refine inmost_bracketed ho hc (by decide) (inmost_commaSeparated
        ((entriesWrittenAs_iff entries us).mp hentries) fun e ws hws he => ?_)
      have hshort := hws.length_le
      exact inmost_entry n (by omega) he
  | n + 1, .collection ⟨range, items⟩, ts, hlen, h => by
      rw [Value.WrittenAs] at h
      obtain ⟨opening, closing, us, rfl, ho, hc, _, hitems⟩ := h
      rw [List.length_cons, List.length_append, List.length_singleton] at hlen
      refine inmost_bracketed ho hc (by decide) (inmost_commaSeparated
        ((valuesWrittenAs_iff items us).mp hitems) fun v ws hws hv => ?_)
      have hshort := hws.length_le
      exact inmost_value n (by omega) hv
  | n + 1, .primitive p, ts, _, h => by
      rw [Value.WrittenAs] at h
      exact inmost_primitive h

theorem inmost_entry : ∀ (n : Nat) {e : Entry} {ts : List Token}, ts.length < n →
    e.WrittenAs ts → ∀ t ∈ ts, t.Inmost
  | n + 1, .property ⟨range, name, colon, value⟩, ts, hlen, h => by
      rw [Entry.WrittenAs] at h
      obtain ⟨us, vs, rfl, hname, hvalue, _⟩ := h
      rw [List.length_append] at hlen
      refine List.forall_mem_append.mpr ⟨inmost_path hname, inmost_afterColon hvalue ?_⟩
      exact fun v ws hws hv => inmost_value n (by omega) hv
  | n + 1, .embedded ⟨range, atSign, term, qualifier, colon, value, embedded⟩, ts, hlen, h => by
      rw [Entry.WrittenAs] at h
      obtain ⟨mark, opening, sign, us, qs, closing, vs, rfl, hmark, hopening, hsign, hterm,
        hqualifier, hclosing, hvalue, _⟩ := h
      simp only [List.length_append, List.length_cons] at hlen
      have hvs : ∀ t ∈ vs, t.Inmost :=
        inmost_afterColon hvalue fun v ws hws hv => inmost_value n (by omega) hv
      refine List.forall_mem_cons.mpr ⟨inmost_of_isMark hmark (by decide), ?_⟩
      refine List.forall_mem_cons.mpr ⟨inmost_of_isMark hopening (by decide), ?_⟩
      refine List.forall_mem_cons.mpr ⟨inmost_of_isMark hsign (by decide), ?_⟩
      refine List.forall_mem_append.mpr ⟨inmost_path hterm, ?_⟩
      refine List.forall_mem_append.mpr ⟨inmost_qualifier hqualifier, ?_⟩
      exact List.forall_mem_cons.mpr ⟨inmost_of_isMark hclosing (by decide), hvs⟩

end

theorem Annotation.WrittenAs.inmost {a : Annotation} {ts : List Token} (h : a.WrittenAs ts) :
    ∀ t ∈ ts, t.Inmost := by
  obtain ⟨us, qs, vs, rfl, hterm, hqualifier, hvalue, _⟩ := h
  refine List.forall_mem_append.mpr ⟨inmost_path hterm, ?_⟩
  refine List.forall_mem_append.mpr ⟨inmost_qualifier hqualifier, inmost_afterColon hvalue ?_⟩
  exact fun v ws _ hv => inmost_value _ (Nat.lt_succ_self _) hv

theorem Assignment.WrittenAs.inmost {vocabulary : Vocabulary} {atSign : Option Range}
    {a : Assignment} {ts : List Token} (h : a.WrittenAs vocabulary atSign ts) :
    ∀ t ∈ ts, t.Inmost := by
  cases a with
  | single a => exact h.1.inmost
  | group g =>
      obtain ⟨term, us, colon, opening, vs, closing, rfl, hterm, _, _, hcolon, hopening, hclosing,
        hitems, _⟩ := h
      refine List.forall_mem_append.mpr ⟨inmost_path hterm, ?_⟩
      refine List.forall_mem_cons.mpr ⟨inmost_of_isMark hcolon (by decide), ?_⟩
      exact inmost_bracketed hopening hclosing (by decide)
        (inmost_commaSeparated hitems fun a ws _ ha => ha.1.inmost)

/-- The members of a list of assignments hold no parentheses. -/
theorem inmost_assignments {vocabulary : Vocabulary} {items : List Assignment} {ts : List Token}
    (h : commaSeparated (Assignment.WrittenAs vocabulary none) items ts) : ∀ t ∈ ts, t.Inmost :=
  inmost_commaSeparated h fun _ _ _ ha => ha.inmost

theorem AssignmentsWrittenAs.inner {vocabulary : Vocabulary} {as : List Assignment}
    {compound : Option Range} {ts : List Token}
    (h : AssignmentsWrittenAs vocabulary as compound ts) : ∀ t ∈ ts, t.Inner := by
  induction h with
  | nil => exact fun t ht => absurd ht List.not_mem_nil
  | bare hsign ha _ ih =>
      refine List.forall_mem_cons.mpr ⟨inner_of_isMark hsign (by decide), ?_⟩
      exact List.forall_mem_append.mpr ⟨fun t ht => (ha.inmost t ht).1, ih⟩
  | @compound sign opening closing items as more us vs hsign hopening hitems hclosing _ ih =>
      refine List.forall_mem_cons.mpr ⟨inner_of_isMark hsign (by decide), ?_⟩
      refine List.forall_mem_cons.mpr ⟨inner_of_isMark hopening (by decide), ?_⟩
      refine List.forall_mem_append.mpr ⟨fun t ht => (inmost_assignments hitems t ht).1, ?_⟩
      exact List.forall_mem_cons.mpr ⟨inner_of_isMark hclosing (by decide), ih⟩

/-! ## Signs and parentheses -/

/-- The tokens are those of an assignment and of the sign in front of it. -/
structure Assignment.Signed (a : Assignment) (ts : List Token) : Prop where
  spans : Spans ts a.fullRange
  sign : ∃ sign, a.atSign = some sign ∧ sign.start = a.fullRange.start ∧ sign.Proper ∧
    sign.Before a.range
  stop : a.fullRange.stop = a.range.stop

theorem Assignment.WrittenAs.atSign {vocabulary : Vocabulary} {atSign : Option Range}
    {a : Assignment} {ts : List Token} (h : a.WrittenAs vocabulary atSign ts) :
    a.atSign = atSign := by
  cases a with
  | single a => exact h.2.1
  | group g =>
      obtain ⟨_, _, _, _, _, _, _, _, _, _, _, _, _, _, hg⟩ := h
      rw [Assignment.atSign, hg]

theorem Assignment.WrittenAs.signed {vocabulary : Vocabulary} {sign : Token} {a : Assignment}
    {ts : List Token} {n : Nat} (h : a.WrittenAs vocabulary (some sign.range) ts)
    (hts : Token.Ordered n (sign :: ts)) : a.Signed (sign :: ts) := by
  have hspans := spans_assignment h
  have hbefore : sign.range.Before a.range :=
    (Within.of_spans (.singleton sign)).before (.of_spans hspans) hts
  have hproper := hts.proper sign List.mem_cons_self
  have hend : a.range.start ≤ a.range.stop :=
    le_of_lt (hspans.proper (hts.sublist (List.sublist_cons_self sign ts)))
  have hfull : a.fullRange = ⟨sign.range.start, a.range.stop⟩ := by
    rw [Assignment.fullRange, h.atSign]
    exact Range.union_of_le (le_trans (le_of_lt hproper) hbefore) (le_trans hbefore hend)
  refine ⟨?_, ⟨sign.range, h.atSign, ?_, hproper, hbefore⟩, ?_⟩
  · rw [hfull]
    exact hspans.cons sign
  · rw [hfull]
  · rw [hfull]

theorem AssignmentsWrittenAs.laid_signed {vocabulary : Vocabulary} {as : List Assignment}
    {compound : Option Range} {ts : List Token} {n : Nat}
    (h : AssignmentsWrittenAs vocabulary as compound ts) (hts : Token.Ordered n ts)
    (hnone : compound = none) : Laid Assignment.Signed as ts := by
  induction h with
  | nil => trivial
  | @bare sign a as compound us vs _ ha _ ih =>
      have hus : (sign :: us).Sublist (sign :: (us ++ vs)) :=
        (List.sublist_append_left us vs).cons_cons sign
      have hvs : vs.Sublist (sign :: (us ++ vs)) := (List.sublist_append_right us vs).cons sign
      exact ⟨sign :: us, vs, List.Sublist.refl _, ha.signed (hts.sublist hus),
        ih (hts.sublist hvs) hnone⟩
  | compound => cases hnone

/-- The last list in parentheses among assignments, with what stands in front of it and behind it. The
range goes from the first sign with such a list to its end. Other assignments may stand in it. -/
structure LastList (vocabulary : Vocabulary) (before items after : List Assignment) (r : Range)
    (front us back : List Token) (opening closing : Token) : Prop where
  opens : opening.IsMark "("
  closes : closing.IsMark ")"
  listed : commaSeparated (Assignment.WrittenAs vocabulary none) items us
  inFront : Laid (Assignment.Written vocabulary) before front
  behind : Laid (Assignment.Written vocabulary) after back
  signed : ∀ a ∈ after, a.atSign.isSome = true
  range : ∃ outer sign paren inner, front ++ [opening] = outer ++ sign :: paren :: inner ∧
    sign.IsMark "@" ∧ paren.IsMark "(" ∧ r = ⟨sign.range.start, closing.range.stop⟩
  refills : ∀ others vs, commaSeparated (Assignment.WrittenAs vocabulary none) others vs →
    AssignmentsWrittenAs vocabulary (before ++ (others ++ after)) (some r)
      (front ++ opening :: (vs ++ closing :: back))

namespace LastList

variable {vocabulary : Vocabulary} {before items after : List Assignment} {r : Range}
  {front us back : List Token} {opening closing : Token}

theorem bare (h : LastList vocabulary before items after r front us back opening closing)
    {sign : Token} {a : Assignment} {ws : List Token} (hsign : sign.IsMark "@")
    (ha : a.WrittenAs vocabulary (some sign.range) ws) :
    LastList vocabulary (a :: before) items after r (sign :: (ws ++ front)) us back opening
      closing where
  opens := h.opens
  closes := h.closes
  listed := h.listed
  inFront := ⟨ws, front, List.sublist_cons_self sign _, ⟨_, ha⟩, h.inFront⟩
  behind := h.behind
  signed := h.signed
  range := by
    obtain ⟨outer, first, paren, inner, hsplit, hr⟩ := h.range
    refine ⟨sign :: (ws ++ outer), first, paren, inner, ?_, hr⟩
    simp only [List.cons_append, List.append_assoc, hsplit]
  refills others vs hothers := by
    have hwritten := AssignmentsWrittenAs.bare hsign ha (h.refills others vs hothers)
    simp only [List.cons_append, List.append_assoc] at hwritten ⊢
    exact hwritten

/-- Another list in parentheses in front of everything. -/
theorem compound (h : LastList vocabulary before items after r front us back opening closing)
    {n : Nat} {sign paren final : Token} {as : List Assignment} {ws : List Token}
    (hsign : sign.IsMark "@") (hparen : paren.IsMark "(")
    (has : commaSeparated (Assignment.WrittenAs vocabulary none) as ws) (hfinal : final.IsMark ")")
    (hts : Token.Ordered n
      (sign :: paren :: (ws ++ final :: (front ++ opening :: (us ++ closing :: back))))) :
    LastList vocabulary (as ++ before) items after
      (Range.union ⟨sign.range.start, final.range.stop⟩ r)
      (sign :: paren :: (ws ++ final :: front)) us back opening closing := by
  have hlaid : Laid (Assignment.Written vocabulary) as ws :=
    (laid_of_commaSeparated has).imp fun a ws hw => ⟨none, hw⟩
  refine ⟨h.opens, h.closes, h.listed, hlaid.append h.inFront ?_, h.behind, h.signed, ?_,
    fun others vs hothers => ?_⟩
  · exact (((List.sublist_cons_self final front).append_left ws).cons paren).cons sign
  · obtain ⟨outer, first, paren', inner, hsplit, _, _, rfl⟩ := h.range
    refine ⟨[], sign, paren, ws ++ final :: (front ++ [opening]), ?_, hsign, hparen, ?_⟩
    · simp only [List.cons_append, List.append_assoc, List.nil_append]
    have hfirst : first ∈ front ++ [opening] := by
      rw [hsplit]
      exact List.mem_append_right outer List.mem_cons_self
    have happart := hts.apart
    simp only [List.pairwise_cons, List.pairwise_append] at happart
    have hmem : first ∈ paren :: (ws ++ final :: (front ++ opening :: (us ++ closing :: back))) := by
      simp only [List.mem_cons, List.mem_append] at hfirst ⊢
      tauto
    refine Range.union_of_le ?_ ?_
    · exact le_trans (le_of_lt (hts.proper sign List.mem_cons_self)) (happart.1 first hmem)
    · exact le_trans (happart.2.2.2.1.1 closing (by simp)) (le_of_lt (hts.proper closing (by simp)))
  · have hwritten := AssignmentsWrittenAs.compound hsign hparen has hfinal (h.refills others vs hothers)
    simp only [List.cons_append, List.append_assoc] at hwritten ⊢
    exact hwritten

end LastList

theorem AssignmentsWrittenAs.exists_lastList {vocabulary : Vocabulary} {as : List Assignment}
    {compound : Option Range} {ts : List Token} {n : Nat}
    (h : AssignmentsWrittenAs vocabulary as compound ts) (hts : Token.Ordered n ts) {r : Range}
    (hr : compound = some r) :
    ∃ before items after front us back opening closing, as = before ++ (items ++ after) ∧
      ts = front ++ opening :: (us ++ closing :: back) ∧
      LastList vocabulary before items after r front us back opening closing := by
  induction h generalizing r with
  | nil => cases hr
  | @bare sign a as compound us vs hsign ha _ ih =>
      have hvs : vs.Sublist (sign :: (us ++ vs)) :=
        (List.sublist_append_right us vs).trans (List.sublist_cons_self sign _)
      obtain ⟨before, items, after, front, ws, back, opening, closing, rfl, rfl, hlast⟩ :=
        ih (hts.sublist hvs) hr
      refine ⟨a :: before, items, after, sign :: (us ++ front), ws, back, opening, closing, rfl, ?_,
        hlast.bare hsign ha⟩
      simp only [List.cons_append, List.append_assoc]
  | @compound sign opening closing items as more us vs hsign hopening hitems hclosing has ih =>
      have hvs : vs.Sublist (sign :: opening :: (us ++ closing :: vs)) :=
        (((List.sublist_cons_self closing vs).trans (List.sublist_append_right us _)).cons
          opening).cons sign
      obtain rfl := Option.some.inj hr
      cases more with
      | none =>
          refine ⟨[], items, as, [sign], us, vs, opening, closing, rfl, rfl, hopening, hclosing,
            hitems, trivial, laid_assignments has, fun a ha => ?_,
            ⟨[], sign, opening, [], rfl, hsign, hopening, rfl⟩,
            fun others ws hothers => .compound hsign hopening hothers hclosing has⟩
          obtain ⟨_, _, hsigned⟩ := (has.laid_signed (hts.sublist hvs) rfl).exists_written a ha
          obtain ⟨sign', hsome, _⟩ := hsigned.sign
          rw [hsome]
          rfl
      | some r' =>
          obtain ⟨before, others, after, front, ws, back, opening', closing', rfl, rfl, hlast⟩ :=
            ih (hts.sublist hvs) rfl
          refine ⟨items ++ before, others, after, sign :: opening :: (us ++ closing :: front), ws, back,
            opening', closing', (List.append_assoc _ _ _).symm, ?_,
            hlast.compound hsign hopening hitems hclosing hts⟩
          simp only [List.cons_append, List.append_assoc]

/-- The sign, the parentheses and the assignments of a list with parentheses. -/
structure Parenthesized (as : List Assignment) (r : Range) (ts : List Token)
    (sign opening closing : Token) : Prop where
  sublist : [sign, opening, closing].Sublist ts
  range : r = ⟨sign.range.start, closing.range.stop⟩
  splits : ∀ a ∈ as, a.range.Before closing.range ∨ closing.range.Before a.range

theorem AssignmentsWrittenAs.exists_parenthesized {vocabulary : Vocabulary} {as : List Assignment}
    {compound : Option Range} {ts : List Token} {n : Nat}
    (h : AssignmentsWrittenAs vocabulary as compound ts) (hts : Token.Ordered n ts) {r : Range}
    (hr : compound = some r) :
    ∃ sign opening closing, Parenthesized as r ts sign opening closing := by
  obtain ⟨before, items, after, front, us, back, opening, closing, rfl, rfl, hlast⟩ :=
    h.exists_lastList hts hr
  obtain ⟨outer, sign, paren, inner, hopens, _, _, hrange⟩ := hlast.range
  have hsub : [sign, paren].Sublist (front ++ [opening]) := by
    rw [hopens]
    exact (((List.nil_sublist inner).cons_cons paren).cons_cons sign).trans
      (List.sublist_append_right outer _)
  have hfront : Laid (Assignment.Written vocabulary) (before ++ items) (front ++ opening :: us) :=
    hlast.inFront.append ((laid_of_commaSeparated hlast.listed).imp fun a ws hw => ⟨none, hw⟩)
      ((List.sublist_cons_self opening us).append_left front)
  have hsplit : front ++ opening :: (us ++ closing :: back) =
      (front ++ opening :: us) ++ closing :: back := by
    simp only [List.append_assoc, List.cons_append]
  rw [hsplit] at hts ⊢
  obtain ⟨_, hrest, hacross⟩ := List.pairwise_append.mp hts.apart
  refine ⟨sign, paren, closing, ?_, hrange, ?_⟩
  · refine (hsub.trans ?_).append ((List.nil_sublist back).cons_cons closing)
    exact ((List.nil_sublist us).cons_cons opening).append_left front
  rw [← List.append_assoc]
  refine List.forall_mem_append.mpr ⟨?_, ?_⟩
  · intro a ha
    obtain ⟨ws, hws, hwritten⟩ := hfront.exists_written a ha
    obtain ⟨_, u, hu, hstop⟩ := (spans_assignment hwritten.choose_spec).exists_mem
    left
    rw [Range.Before, hstop]
    exact hacross u (hws.subset hu) closing List.mem_cons_self
  · intro a ha
    obtain ⟨ws, hws, hwritten⟩ := hlast.behind.exists_written a ha
    obtain ⟨⟨u, hu, hstart⟩, _⟩ := (spans_assignment hwritten.choose_spec).exists_mem
    right
    rw [Range.Before, hstart]
    exact (List.pairwise_cons.mp hrest).1 u (hws.subset hu)

/-! ## Plots -/

/-- The name of a target, perhaps `with`, its assignments, and the mark after them. -/
structure Target.PlottedAs (vocabulary : Vocabulary) (t : Target) (us ws vs : List Token)
    (mark : Token) : Prop where
  name : Spans us t.nameRange
  nameInner : ∀ u ∈ us, u.Inner
  word : ws = [] ∨ ∃ w, ws = [w] ∧ w.IsWord "with"
  assignments : AssignmentsWrittenAs vocabulary t.assignments t.compound vs
  mark : mark.IsMark ";" ∨ mark.IsMark Token.openBrace
  range : t.range = (Parser.targetOf t.kind t.name t.nameRange (t.assignments, t.compound)).range

def Target.Plotted (vocabulary : Vocabulary) (t : Target) (ts : List Token) : Prop :=
  ∃ us ws vs mark, ts = us ++ (ws ++ (vs ++ [mark])) ∧ t.PlottedAs vocabulary us ws vs mark

/-- The members of a list are written one after the other, each by tokens without gaps. -/
def Sited {α : Type} (written : α → List Token → Prop) : List α → List Token → Prop
  | [], _ => True
  | e :: es, ts => ∃ front us vs, ts = front ++ (us ++ vs) ∧ written e us ∧ Sited written es vs

namespace Sited

variable {α β : Type} {written : α → List Token → Prop}

theorem prepend (us : List Token) : ∀ {es : List α} {ts : List Token}, Sited written es ts →
    Sited written es (us ++ ts)
  | [], _, _ => trivial
  | _ :: _, _, ⟨front, vs, ws, hts, he, hes⟩ =>
      ⟨us ++ front, vs, ws, by rw [hts, List.append_assoc], he, hes⟩

theorem append : ∀ {es fs : List α} {us vs : List Token}, Sited written es us →
    Sited written fs vs → Sited written (es ++ fs) (us ++ vs)
  | [], _, us, _, _, hfs => hfs.prepend us
  | _ :: _, _, _, vs, ⟨front, us, ws, hus, he, hes⟩, hfs =>
      ⟨front, us, ws ++ vs, by rw [hus]; simp only [List.append_assoc], he, hes.append hfs⟩

/-- Every member is replaced by a list. -/
theorem flatMap {written' : β → List Token → Prop} {f : α → List β}
    (hf : ∀ e us, written e us → Sited written' (f e) us) :
    ∀ {es : List α} {ts : List Token}, consecutive written es ts → Sited written' (es.flatMap f) ts
  | [], _, _ => trivial
  | e :: es, ts, ⟨us, vs, hts, he, hes⟩ => by
      rw [List.flatMap_cons, hts]
      exact (hf e us he).append (flatMap hf hes)

theorem exists_site : ∀ {es : List α} {ts : List Token}, Sited written es ts → ∀ e ∈ es,
    ∃ front us back, ts = front ++ (us ++ back) ∧ written e us
  | _ :: _, _, ⟨front, us, vs, hts, he, hes⟩, e, hmem => by
      rcases List.mem_cons.mp hmem with rfl | hmem
      · exact ⟨front, us, vs, hts, he⟩
      · obtain ⟨front', us', back, hvs, hwritten⟩ := hes.exists_site e hmem
        refine ⟨front ++ (us ++ front'), us', back, ?_, hwritten⟩
        rw [hts, hvs]
        simp only [List.append_assoc]

/-- Of two members the tokens of one come before those of the other. -/
theorem exists_sites : ∀ {es : List α} {ts : List Token}, Sited written es ts →
    ∀ {i j : Nat} {a b : α}, i < j → es[i]? = some a → es[j]? = some b →
      ∃ us vs, (us ++ vs).Sublist ts ∧ written a us ∧ written b vs
  | e :: es, _, ⟨front, us, vs, hts, he, hes⟩, i, j + 1, a, b, hij, ha, hb => by
      rw [List.getElem?_cons_succ] at hb
      cases i with
      | zero =>
          obtain rfl := Option.some.inj ha
          obtain ⟨front', ws, back, hvs, hwritten⟩ := hes.exists_site b (List.mem_of_getElem? hb)
          refine ⟨us, ws, ?_, he, hwritten⟩
          have hws : ws.Sublist (front' ++ (ws ++ back)) :=
            (List.sublist_append_left ws back).trans (List.sublist_append_right front' _)
          rw [hts, hvs]
          exact (hws.append_left us).trans (List.sublist_append_right front _)
      | succ i =>
          rw [List.getElem?_cons_succ] at ha
          obtain ⟨ws, xs, hsub, hwa, hwb⟩ := hes.exists_sites (Nat.lt_of_succ_lt_succ hij) ha hb
          refine ⟨ws, xs, ?_, hwa, hwb⟩
          rw [hts]
          exact (hsub.trans (List.sublist_append_right us vs)).trans
            (List.sublist_append_right front _)

end Sited

theorem plotted_member {vocabulary : Vocabulary} {entity : String} {m : Target} {ts : List Token}
    (h : memberWrittenAs vocabulary entity m ts) : m.Plotted vocabulary ts := by
  obtain ⟨i, t, us, closing, as, compound, rfl, hi, has, hclosing, rfl⟩ := h
  refine ⟨[t], [], us, closing, rfl, ?_, ?_, Or.inl rfl, has, Or.inl hclosing, rfl⟩
  · have hname := Spans.singleton t
    rw [show t.range = i.range by rw [hi.2]] at hname
    exact hname
  · exact List.forall_mem_singleton.mpr (inmost_of_isName hi.1).1

theorem plots_of_members {vocabulary : Vocabulary} {entity : String} :
    ∀ {members : List Target} {ts : List Token},
      consecutive (memberWrittenAs vocabulary entity) members ts →
      Sited (Target.Plotted vocabulary) members ts
  | [], _, _ => trivial
  | _ :: _, _, ⟨us, vs, hts, hm, hms⟩ => ⟨[], us, vs, hts, plotted_member hm, plots_of_members hms⟩

theorem plots_of_statement {vocabulary : Vocabulary} {s : Statement} {ts : List Token}
    (h : s.WrittenAs vocabulary ts) : Sited (Target.Plotted vocabulary) s.targets ts := by
  obtain ⟨first, us, ws, as, bs, closing, rfl, _, hentity, hwith, has, hblock, hclosing⟩ := h
  have hplot : ∀ {mark : Token}, mark.IsMark ";" ∨ mark.IsMark Token.openBrace →
      Sited (Target.Plotted vocabulary) s.entityTargets
        (first :: (us ++ (ws ++ (as ++ [mark])))) := by
    intro mark hmark
    rw [Statement.entityTargets]
    split
    · exact ⟨[first], us ++ (ws ++ (as ++ [mark])), [], by rw [List.append_nil]; rfl,
        ⟨us, ws, as, mark, rfl, hentity.spans,
          fun u hu => (inmost_path hentity u hu).1, hwith, has, hmark, rfl⟩, trivial⟩
    · trivial
  rw [Statement.targets]
  cases hmembers : s.members with
  | none =>
      rw [hmembers, blockWrittenAs] at hblock
      rw [hblock, Option.getD_none, List.append_nil, List.nil_append]
      exact hplot (Or.inl hclosing)
  | some members =>
      rw [hmembers] at hblock
      obtain ⟨opening, cs, brace, rfl, hopening, _, hcs⟩ := hblock
      have hnone : Sited (Target.Plotted vocabulary) [] [brace, closing] := trivial
      have hall := (hplot (Or.inr hopening)).append ((plots_of_members hcs).append hnone)
      rw [List.append_nil] at hall
      simp only [List.cons_append, List.append_assoc, List.nil_append] at hall ⊢
      exact hall

/-- The plots of the targets of a file come one after the other. -/
theorem plots_of_consecutive {vocabulary : Vocabulary} {items : List Item} {ts : List Token}
    (h : consecutive (Item.WrittenAs vocabulary) items ts) :
    Sited (Target.Plotted vocabulary) (targetsOf items) ts := by
  refine Sited.flatMap ?_ h
  rintro (d | s) us hwritten
  · trivial
  · exact plots_of_statement hwritten

theorem exists_annotate {vocabulary : Vocabulary} {items : List Item} {ts : List Token} {n : Nat}
    (h : consecutive (Item.WrittenAs vocabulary) items ts) (hts : Token.Ordered n ts) {t : Target}
    (ht : t ∈ targetsOf items) :
    ∃ u ∈ ts, u.isKeyword "annotate" = true ∧ u.range.start ≤ t.range.start := by
  obtain ⟨item, hitem, ht⟩ := List.mem_flatMap.mp ht
  obtain ⟨us, hus, hwritten⟩ := (laid_of_consecutive h).exists_written item hitem
  cases item with
  | inl d => exact absurd ht List.not_mem_nil
  | inr s =>
      obtain ⟨vs, hvs, htarget⟩ := (laid_statement hwritten).exists_written t ht
      obtain ⟨ws, hws, hspans⟩ := htarget.within
      obtain ⟨⟨w, hw, hstart⟩, _⟩ := hspans.exists_mem
      obtain ⟨first, rest, hrest, hfirst⟩ : ∃ first rest, us = first :: rest ∧
          first.IsWord "annotate" := by
        obtain ⟨first, _, _, _, _, _, rfl, hfirst, _⟩ := hwritten
        exact ⟨first, _, rfl, hfirst⟩
      have hall : Spans us ⟨first.range.start, _⟩ :=
        ⟨first, _, by rw [hrest]; rfl, List.getLast?_eq_some_getLast (by rw [hrest]; simp), rfl⟩
      refine ⟨first, hus.subset (hrest ▸ List.mem_cons_self), hfirst.1, ?_⟩
      rw [hstart]
      exact hall.start_le (hts.sublist hus) w (hvs.subset (hws.subset hw))

theorem Target.PlottedAs.inner {vocabulary : Vocabulary} {t : Target} {us ws vs : List Token}
    {mark : Token} (h : t.PlottedAs vocabulary us ws vs mark) :
    ∀ u ∈ us ++ (ws ++ (vs ++ [mark])), u.isKeyword "annotate" = false ∧
      (u.is ";" = true → u = mark) := by
  have hinner : ∀ {u : Token}, u.Inner → u.isKeyword "annotate" = false ∧
      (u.is ";" = true → u = mark) := by
    rintro u ⟨hkeyword, hno⟩
    refine ⟨Token.isKeyword_eq_false_of_kind hkeyword, fun hyes => ?_⟩
    rw [hno] at hyes
    cases hyes
  refine List.forall_mem_append.mpr ⟨fun u hu => hinner (h.nameInner u hu), ?_⟩
  refine List.forall_mem_append.mpr ⟨?_, ?_⟩
  · intro u hu
    rcases h.word with hws | ⟨w, hws, hw⟩
    · rw [hws] at hu
      exact absurd hu List.not_mem_nil
    · rw [hws, List.mem_singleton] at hu
      rw [hu]
      refine ⟨Token.isKeyword_eq_false_of_isKeyword hw.1 (by decide), fun hyes => ?_⟩
      rw [Token.is_eq_false_of_kind (by rw [Token.kind_of_isKeyword hw.1]; decide)] at hyes
      cases hyes
  · refine List.forall_mem_append.mpr ⟨fun u hu => hinner (h.assignments.inner u hu), ?_⟩
    refine List.forall_mem_singleton.mpr ⟨?_, fun _ => rfl⟩
    have hkind : mark.kind = .punctuation :=
      h.mark.elim (fun hmark => Token.kind_of_is hmark.1) fun hmark => Token.kind_of_is hmark.1
    exact Token.isKeyword_eq_false_of_kind (by rw [hkind]; decide)

end Syntax

end AnnotationEdit

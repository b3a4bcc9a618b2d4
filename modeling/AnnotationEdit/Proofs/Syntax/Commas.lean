import AnnotationEdit.Proofs.Syntax.Layout
import Mathlib.Data.List.Chain

/-!
# Commas

Commas stand between and after the members of lists only. So nothing that is written starts or ends
with a comma, and no comma of a file stands next to another one (`tame_of_consecutive`).
-/

namespace AnnotationEdit

/-- The token is no comma, or the next one is none. -/
def Apart (t u : Token) : Prop := t.is "," = true → u.is "," = false

/-- No comma stands at either end or next to another one. -/
structure Tame (ts : List Token) : Prop where
  head : ∀ t ∈ ts.head?, t.is "," = false
  last : ∀ t ∈ ts.getLast?, t.is "," = false
  chain : ts.IsChain Apart

namespace Tame

variable {us vs ts : List Token} {t : Token}

theorem nil : Tame [] := ⟨nofun, nofun, .nil⟩

theorem append (hus : Tame us) (hvs : Tame vs) : Tame (us ++ vs) := by
  refine ⟨?_, ?_, hus.chain.append hvs.chain fun _ _ u hu _ => hvs.head u hu⟩
  · intro t ht
    rw [List.head?_append] at ht
    rcases Option.or_eq_some_iff.mp ht with ht | ⟨_, ht⟩
    · exact hus.head t ht
    · exact hvs.head t ht
  · intro t ht
    rw [List.getLast?_append] at ht
    rcases Option.or_eq_some_iff.mp ht with ht | ⟨_, ht⟩
    · exact hvs.last t ht
    · exact hus.last t ht

theorem singleton (h : t.is "," = false) : Tame [t] := by
  refine ⟨?_, ?_, .singleton t⟩
  · intro u hu
    rw [← Option.some.inj hu]
    exact h
  · intro u hu
    rw [← Option.some.inj hu]
    exact h

theorem cons (h : t.is "," = false) (hts : Tame ts) : Tame (t :: ts) := (singleton h).append hts

theorem of_forall (h : ∀ t ∈ ts, t.is "," = false) : Tame ts := by
  induction ts with
  | nil => exact nil
  | cons t ts ih =>
      obtain ⟨ht, hts⟩ := List.forall_mem_cons.mp h
      exact (ih hts).cons ht

end Tame

namespace Syntax

theorem not_comma_of_isMark {t : Token} {mark : String} (h : t.IsMark mark) (hmark : mark ≠ ",") :
    t.is "," = false := Token.is_eq_false_of_is h.1 hmark

theorem not_comma_of_isName {t : Token} {role : IdentifierKind} (h : t.IsName role) :
    t.is "," = false := by
  refine Token.is_eq_false_of_kind ?_
  rw [h.1]
  decide

theorem not_comma_of_isWord {t : Token} {word : String} (h : t.IsWord word) :
    t.is "," = false := by
  refine Token.is_eq_false_of_kind ?_
  rw [Token.kind_of_isKeyword h.1]
  decide

/-! ## Names and literals have no commas -/

theorem not_comma_of_segments {role : IdentifierKind} : ∀ {is : List Identifier}
    {ts : List Token}, segmentsWrittenAs role is ts → ∀ t ∈ ts, t.is "," = false
  | [], ts, h => by
      rw [segmentsWrittenAs] at h
      rw [h]
      exact fun t ht => absurd ht List.not_mem_nil
  | i :: is, ts, h => by
      obtain ⟨dot, t, us, rfl, hdot, hi, his⟩ := h
      refine List.forall_mem_cons.mpr ⟨not_comma_of_isMark hdot (by decide), ?_⟩
      exact List.forall_mem_cons.mpr ⟨not_comma_of_isName hi.1, not_comma_of_segments his⟩

theorem not_comma_of_path {role : IdentifierKind} {p : Path} {ts : List Token}
    (h : p.WrittenAs role ts) : ∀ t ∈ ts, t.is "," = false := by
  obtain ⟨i, is, t, us, _, rfl, hi, his⟩ := h
  exact List.forall_mem_cons.mpr ⟨not_comma_of_isName hi.1, not_comma_of_segments his⟩

theorem not_comma_of_qualifier {q : Option Identifier} {ts : List Token}
    (h : qualifierWrittenAs q ts) : ∀ t ∈ ts, t.is "," = false := by
  cases q with
  | none =>
      rw [qualifierWrittenAs] at h
      rw [h]
      exact fun t ht => absurd ht List.not_mem_nil
  | some q =>
      obtain ⟨hash, t, rfl, hhash, ht, _⟩ := h
      refine List.forall_mem_cons.mpr ⟨not_comma_of_isMark hhash (by decide), ?_⟩
      exact List.forall_mem_singleton.mpr (not_comma_of_isName ht)

theorem not_comma_of_primitive {p : Primitive} {ts : List Token} (h : p.WrittenAs ts) :
    ∀ t ∈ ts, t.is "," = false := by
  rcases h with ⟨t, rfl, ht, _⟩ | ⟨t, rfl, ht, _⟩ | ⟨hash, t, rfl, hhash, ht, _⟩ | ⟨name, hname, _⟩
  · refine List.forall_mem_singleton.mpr (Token.is_eq_false_of_kind ?_)
    rw [ht.1]
    decide
  · refine List.forall_mem_singleton.mpr (Token.is_eq_false_of_kind ?_)
    rw [ht.1]
    decide
  · refine List.forall_mem_cons.mpr ⟨not_comma_of_isMark hhash (by decide), ?_⟩
    exact List.forall_mem_singleton.mpr (not_comma_of_isName ht)
  · exact not_comma_of_path hname

/-! ## Lists and values -/

/-- The commas of a list stand apart when its members are tame, whatever stands in front. -/
theorem chain_commaSeparated {α : Type} {written : α → List Token → Prop} {closing : Token}
    (hclosing : closing.is "," = false) : ∀ {es : List α} {ts : List Token} (front : Token),
      commaSeparated written es ts →
      (∀ e us, us.Sublist ts → written e us → us ≠ [] ∧ Tame us) →
      (front :: (ts ++ [closing])).IsChain Apart
  | [], ts, front, h, _ => by
      rw [commaSeparated] at h
      rw [h]
      exact List.isChain_pair.mpr fun _ => hclosing
  | e :: es, ts, front, h, htame => by
      rcases h with ⟨he, _⟩ | ⟨us, comma, vs, rfl, he, _, hes⟩
      · have hlast := (htame e ts (List.Sublist.refl ts) he).2.append (.singleton hclosing)
        exact List.isChain_cons.mpr ⟨fun t ht _ => hlast.head t ht, hlast.chain⟩
      · obtain ⟨hne, hus⟩ := htame e us (List.sublist_append_left us _) he
        have hvs : vs.Sublist (us ++ comma :: vs) :=
          (List.sublist_cons_self comma vs).trans (List.sublist_append_right us _)
        have hrest := chain_commaSeparated hclosing comma hes fun e ws hws =>
          htame e ws (hws.trans hvs)
        have hall : (us ++ comma :: (vs ++ [closing])).IsChain Apart := by
          refine hus.chain.append hrest fun t ht u _ hcomma => ?_
          rw [hus.last t ht] at hcomma
          cases hcomma
        rw [List.append_assoc, List.cons_append]
        refine List.isChain_cons.mpr ⟨fun t ht _ => ?_, hall⟩
        obtain ⟨u, us, rfl⟩ := List.exists_cons_of_ne_nil hne
        exact hus.head t ht

theorem tame_bracketed {α : Type} {written : α → List Token → Prop} {opening closing : Token}
    {es : List α} {ts : List Token} (hopening : opening.is "," = false)
    (hclosing : closing.is "," = false) (h : commaSeparated written es ts)
    (htame : ∀ e us, us.Sublist ts → written e us → us ≠ [] ∧ Tame us) :
    Tame (opening :: (ts ++ [closing])) := by
  refine ⟨?_, ?_, chain_commaSeparated hclosing opening h htame⟩
  · intro t ht
    rw [← Option.some.inj ht]
    exact hopening
  · intro t ht
    rw [← List.cons_append, List.getLast?_concat] at ht
    rw [← Option.some.inj ht]
    exact hclosing

theorem tame_afterColon {colon : Option Range} {value : Option Value} {ts : List Token}
    (h : valueAfterColon colon value ts)
    (hvalue : ∀ v us, us.length < ts.length → Value.WrittenAs v us → Tame us) : Tame ts := by
  cases value with
  | none =>
      rw [valueAfterColon] at h
      rw [h.2]
      exact .nil
  | some v =>
      rw [valueAfterColon] at h
      obtain ⟨c, us, rfl, hc, _, hv⟩ := h
      exact (hvalue v us (Nat.lt_succ_self _) hv).cons (not_comma_of_isMark hc (by decide))

mutual

theorem tame_value : ∀ (n : Nat) {v : Value} {ts : List Token}, ts.length < n →
    v.WrittenAs ts → Tame ts
  | n + 1, .record ⟨range, entries⟩, ts, hlen, h => by
      rw [Value.WrittenAs] at h
      obtain ⟨opening, closing, us, rfl, ho, hc, _, hentries⟩ := h
      rw [List.length_cons, List.length_append, List.length_singleton] at hlen
      refine tame_bracketed (not_comma_of_isMark ho (by decide)) (not_comma_of_isMark hc (by decide))
        ((entriesWrittenAs_iff entries us).mp hentries) fun e ws hws he => ?_
      have hshort := hws.length_le
      exact ⟨(spans_entry he).ne_nil, tame_entry n (by omega) he⟩
  | n + 1, .collection ⟨range, items⟩, ts, hlen, h => by
      rw [Value.WrittenAs] at h
      obtain ⟨opening, closing, us, rfl, ho, hc, _, hitems⟩ := h
      rw [List.length_cons, List.length_append, List.length_singleton] at hlen
      refine tame_bracketed (not_comma_of_isMark ho (by decide)) (not_comma_of_isMark hc (by decide))
        ((valuesWrittenAs_iff items us).mp hitems) fun v ws hws hv => ?_
      have hshort := hws.length_le
      exact ⟨(spans_value hv).ne_nil, tame_value n (by omega) hv⟩
  | n + 1, .primitive p, ts, _, h => by
      rw [Value.WrittenAs] at h
      exact .of_forall (not_comma_of_primitive h)

theorem tame_entry : ∀ (n : Nat) {e : Entry} {ts : List Token}, ts.length < n →
    e.WrittenAs ts → Tame ts
  | n + 1, .property ⟨range, name, colon, value⟩, ts, hlen, h => by
      rw [Entry.WrittenAs] at h
      obtain ⟨us, vs, rfl, hname, hvalue, _⟩ := h
      rw [List.length_append] at hlen
      refine (Tame.of_forall (not_comma_of_path hname)).append (tame_afterColon hvalue ?_)
      exact fun v ws hws hv => tame_value n (by omega) hv
  | n + 1, .embedded ⟨range, atSign, term, qualifier, colon, value, embedded⟩, ts, hlen, h => by
      rw [Entry.WrittenAs] at h
      obtain ⟨mark, opening, sign, us, qs, closing, vs, rfl, hmark, hopening, hsign, hterm,
        hqualifier, hclosing, hvalue, _⟩ := h
      simp only [List.length_append, List.length_cons] at hlen
      have hvs : Tame vs := tame_afterColon hvalue fun v ws hws hv => tame_value n (by omega) hv
      have hrest := hvs.cons (not_comma_of_isMark hclosing (by decide))
      have hhead := (Tame.of_forall (not_comma_of_qualifier hqualifier)).append hrest
      have hterms := (Tame.of_forall (not_comma_of_path hterm)).append hhead
      exact ((hterms.cons (not_comma_of_isMark hsign (by decide))).cons
        (not_comma_of_isMark hopening (by decide))).cons (not_comma_of_isMark hmark (by decide))

end

theorem Value.WrittenAs.tame {v : Value} {ts : List Token} (h : v.WrittenAs ts) : Tame ts :=
  tame_value _ (Nat.lt_succ_self _) h

theorem Entry.WrittenAs.tame {e : Entry} {ts : List Token} (h : e.WrittenAs ts) : Tame ts :=
  tame_entry _ (Nat.lt_succ_self _) h

/-! ## Annotations and statements -/

theorem Annotation.WrittenAs.tame {a : Annotation} {ts : List Token} (h : a.WrittenAs ts) :
    Tame ts := by
  obtain ⟨us, qs, vs, rfl, hterm, hqualifier, hvalue, _⟩ := h
  have hvs := tame_afterColon hvalue fun v ws _ hv => Value.WrittenAs.tame hv
  exact (Tame.of_forall (not_comma_of_path hterm)).append
    ((Tame.of_forall (not_comma_of_qualifier hqualifier)).append hvs)

theorem Assignment.WrittenAs.tame {vocabulary : Vocabulary} {atSign : Option Range}
    {a : Assignment} {ts : List Token} (h : a.WrittenAs vocabulary atSign ts) : Tame ts := by
  cases a with
  | single a => exact h.1.tame
  | group g =>
      obtain ⟨term, us, colon, opening, vs, closing, rfl, hterm, _, _, hcolon, hopening, hclosing,
        hitems, _⟩ := h
      have hlist := tame_bracketed (not_comma_of_isMark hopening (by decide))
        (not_comma_of_isMark hclosing (by decide)) hitems
        fun a ws _ ha => ⟨ha.1.spans.ne_nil, ha.1.tame⟩
      exact (Tame.of_forall (not_comma_of_path hterm)).append
        (hlist.cons (not_comma_of_isMark hcolon (by decide)))

theorem AssignmentsWrittenAs.tame {vocabulary : Vocabulary} {as : List Assignment}
    {compound : Option Range} {ts : List Token}
    (h : AssignmentsWrittenAs vocabulary as compound ts) : Tame ts := by
  induction h with
  | nil => exact .nil
  | bare hsign ha _ ih =>
      exact (Assignment.WrittenAs.tame ha |>.append ih).cons (not_comma_of_isMark hsign (by decide))
  | @compound sign opening closing items as more us vs hsign hopening hitems hclosing _ ih =>
      have hlist := tame_bracketed (not_comma_of_isMark hopening (by decide))
        (not_comma_of_isMark hclosing (by decide)) hitems
        fun a ws _ ha => ⟨(spans_assignment ha).ne_nil, Assignment.WrittenAs.tame ha⟩
      have hall := (hlist.append ih).cons (not_comma_of_isMark hsign (by decide))
      rw [List.cons_append, List.append_assoc] at hall
      exact hall

theorem tame_consecutive {α : Type} {written : α → List Token → Prop}
    (htame : ∀ e us, written e us → Tame us) : ∀ {es : List α} {ts : List Token},
      consecutive written es ts → Tame ts
  | [], ts, h => by
      rw [consecutive] at h
      rw [h]
      exact .nil
  | e :: es, ts, h => by
      obtain ⟨us, vs, rfl, he, hes⟩ := h
      exact (htame e us he).append (tame_consecutive htame hes)

theorem tame_member {vocabulary : Vocabulary} {entity : String} {m : Target} {ts : List Token}
    (h : memberWrittenAs vocabulary entity m ts) : Tame ts := by
  obtain ⟨i, t, us, closing, as, compound, rfl, hi, has, hclosing, _⟩ := h
  have hclose := Tame.singleton (not_comma_of_isMark hclosing (by decide))
  exact (has.tame.append hclose).cons (not_comma_of_isName hi.1)

theorem Statement.WrittenAs.tame {vocabulary : Vocabulary} {s : Statement} {ts : List Token}
    (h : s.WrittenAs vocabulary ts) : Tame ts := by
  obtain ⟨first, us, ws, as, bs, closing, rfl, hfirst, hentity, hwith, has, hblock, hclosing⟩ := h
  have hwords : Tame ws := by
    rcases hwith with rfl | ⟨t, rfl, ht⟩
    · exact .nil
    · exact .singleton (not_comma_of_isWord ht)
  have hmembers : Tame bs := by
    cases hmembers : s.members with
    | none =>
        rw [hmembers, blockWrittenAs] at hblock
        rw [hblock]
        exact .nil
    | some members =>
        rw [hmembers] at hblock
        obtain ⟨opening, vs, closing, rfl, hopening, hclosing, hmembers⟩ := hblock
        have hclose := Tame.singleton (not_comma_of_isMark hclosing (by decide))
        exact ((tame_consecutive (fun m us hm => tame_member hm) hmembers).append hclose).cons
          (not_comma_of_isMark hopening (by decide))
  have hclose := Tame.singleton (not_comma_of_isMark hclosing (by decide))
  have hrest := hwords.append (has.tame.append (hmembers.append hclose))
  exact ((Tame.of_forall (not_comma_of_path hentity)).append hrest).cons
    (not_comma_of_isWord hfirst)

theorem not_comma_of_declaration {d : Declaration} {ts : List Token} (h : d.WrittenAs ts) :
    ∀ t ∈ ts, t.is "," = false := by
  obtain ⟨first, us, vs, ws, closing, rfl, hfirst, hname, hnickname, hsource, hclosing, _⟩ := h
  have hus : ∀ t ∈ us, t.is "," = false := by
    cases hd : d.name with
    | none =>
        rw [hd, nameWrittenAs] at hname
        rw [hname]
        exact fun t ht => absurd ht List.not_mem_nil
    | some p =>
        rw [hd] at hname
        exact not_comma_of_path hname
  have hafter : ∀ {α : Type} {word : String} {written : α → List Token → Prop} {a : Option α}
      {ts : List Token}, afterWord word written a ts →
      (∀ a us, written a us → ∀ t ∈ us, t.is "," = false) → ∀ t ∈ ts, t.is "," = false := by
    intro α word written a ts h hwritten
    cases a with
    | none =>
        rw [afterWord] at h
        rw [h]
        exact fun t ht => absurd ht List.not_mem_nil
    | some a =>
        obtain ⟨t, us, rfl, ht, ha⟩ := h
        exact List.forall_mem_cons.mpr ⟨not_comma_of_isWord ht, hwritten a us ha⟩
  have hvs := hafter hnickname fun i us hi => by
    obtain ⟨t, rfl, ht⟩ := hi
    exact List.forall_mem_singleton.mpr (not_comma_of_isName ht.1)
  have hws := hafter hsource fun p us hp => not_comma_of_primitive hp
  refine List.forall_mem_cons.mpr ⟨not_comma_of_isWord hfirst, ?_⟩
  refine List.forall_mem_append.mpr ⟨hus, List.forall_mem_append.mpr ⟨hvs, ?_⟩⟩
  refine List.forall_mem_append.mpr ⟨hws, List.forall_mem_singleton.mpr ?_⟩
  exact not_comma_of_isMark hclosing (by decide)

/-- No comma of a file stands next to another one or at an end. -/
theorem tame_of_consecutive {vocabulary : Vocabulary} {items : List Item} {ts : List Token}
    (h : consecutive (Item.WrittenAs vocabulary) items ts) : Tame ts := by
  refine tame_consecutive ?_ h
  rintro (d | s) us hwritten
  · exact .of_forall (not_comma_of_declaration hwritten)
  · exact Statement.WrittenAs.tame hwritten

end Syntax

end AnnotationEdit

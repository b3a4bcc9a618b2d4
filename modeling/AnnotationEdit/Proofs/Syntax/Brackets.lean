import AnnotationEdit.Proofs.Syntax.Grafting
import AnnotationEdit.Proofs.Syntax.Plots

/-!
# Matching brackets

The brackets among the tokens of a value, an entry or an annotation match (`balanced_value`). So the
range of a record, a collection or a list of group items runs from a bracket to the one that matches
it (`Document.exists_matched`). The range of the lists in parentheses of a target runs from an `@`
with a parenthesis right behind it to a parenthesis (`Document.exists_parentheses`).
-/

namespace AnnotationEdit

namespace Token

def brackets : List String := ["(", ")", "[", "]", openBrace, closeBrace]

def isBracket (t : Token) : Bool := brackets.any t.is

/-- An opening and a closing bracket of one sort. -/
inductive Pairs (opening closing : Token) : Prop
  | parentheses (hopening : opening.is "(" = true) (hclosing : closing.is ")" = true)
  | square (hopening : opening.is "[" = true) (hclosing : closing.is "]" = true)
  | curly (hopening : opening.is openBrace = true) (hclosing : closing.is closeBrace = true)

theorem isBracket_of_isMark {t : Token} {mark : String} (h : t.IsMark mark)
    (hmark : mark ∉ brackets) : t.isBracket = false := by
  rw [isBracket, List.any_eq_false]
  intro other hother
  rw [Bool.not_eq_true]
  refine is_eq_false_of_is h.1 ?_
  rintro rfl
  exact hmark hother

theorem isBracket_of_kind {t : Token} (h : t.kind ≠ .punctuation) : t.isBracket = false := by
  rw [isBracket, List.any_eq_false]
  intro other _
  rw [Bool.not_eq_true]
  exact is_eq_false_of_kind h

end Token

/-- Every bracket among the tokens has its partner there, with matching brackets between them. -/
inductive Balanced : List Token → Prop
  | nil : Balanced []
  | cons {t : Token} {ts : List Token} (ht : t.isBracket = false) (hts : Balanced ts) :
      Balanced (t :: ts)
  | nested {opening closing : Token} {us vs : List Token} (hpairs : opening.Pairs closing)
      (hus : Balanced us) (hvs : Balanced vs) : Balanced (opening :: (us ++ closing :: vs))

namespace Balanced

theorem append {us vs : List Token} (hus : Balanced us) (hvs : Balanced vs) :
    Balanced (us ++ vs) := by
  induction hus with
  | nil => exact hvs
  | cons ht _ ih => exact .cons ht ih
  | nested hpairs hinner _ _ ih =>
      rw [List.cons_append, List.append_assoc, List.cons_append]
      exact .nested hpairs hinner ih

theorem bracketed {opening closing : Token} {us : List Token} (hpairs : opening.Pairs closing)
    (hus : Balanced us) : Balanced (opening :: (us ++ [closing])) :=
  .nested hpairs hus .nil

end Balanced

/-- The brackets match: they are of one sort, and so do the brackets between them. -/
def Matched (ts : List Token) (opening closing : Token) : Prop :=
  opening.Pairs closing ∧ ∃ front inner back,
    ts = front ++ opening :: (inner ++ closing :: back) ∧ Balanced inner

theorem Matched.extend {us : List Token} {opening closing : Token}
    (h : Matched us opening closing) (front back : List Token) :
    Matched (front ++ (us ++ back)) opening closing := by
  obtain ⟨hpairs, front', inner, back', rfl, hinner⟩ := h
  refine ⟨hpairs, front ++ front', inner, back' ++ back, ?_, hinner⟩
  simp only [List.append_assoc, List.cons_append]

namespace Syntax

/-! ## Tokens of written trees -/

section

variable {role : IdentifierKind} {ts : List Token}

theorem isBracket_of_isName {t : Token} (h : t.IsName role) : t.isBracket = false := by
  refine Token.isBracket_of_kind ?_
  rw [h.1]
  decide

theorem balanced_segments : ∀ {is : List Identifier} {ts : List Token},
    segmentsWrittenAs role is ts → Balanced ts
  | [], ts, h => by
      rw [segmentsWrittenAs] at h
      rw [h]
      exact .nil
  | i :: is, ts, h => by
      obtain ⟨dot, t, us, rfl, hdot, hi, his⟩ := h
      refine .cons (Token.isBracket_of_isMark hdot (by decide)) ?_
      exact .cons (isBracket_of_isName hi.1) (balanced_segments his)

theorem balanced_path {p : Path} (h : p.WrittenAs role ts) : Balanced ts := by
  obtain ⟨i, is, t, us, _, rfl, hi, his⟩ := h
  exact .cons (isBracket_of_isName hi.1) (balanced_segments his)

theorem balanced_qualifier {q : Option Identifier} (h : qualifierWrittenAs q ts) :
    Balanced ts := by
  cases q with
  | none =>
      rw [qualifierWrittenAs] at h
      rw [h]
      exact .nil
  | some q =>
      obtain ⟨hash, t, rfl, hhash, ht, _⟩ := h
      refine .cons (Token.isBracket_of_isMark hhash (by decide)) ?_
      exact .cons (isBracket_of_isName ht) .nil

theorem balanced_literal {t : Token} {kind : TokenKind} (h : t.IsLiteral kind)
    (hkind : kind ≠ .punctuation) : Balanced [t] :=
  .cons (Token.isBracket_of_kind (h.1 ▸ hkind)) .nil

theorem balanced_primitive {p : Primitive} (h : p.WrittenAs ts) : Balanced ts := by
  rcases h with ⟨t, rfl, ht, _⟩ | ⟨t, rfl, ht, _⟩ | ⟨hash, t, rfl, hhash, ht, _⟩ | ⟨name, hname, _⟩
  · exact balanced_literal ht (by decide)
  · exact balanced_literal ht (by decide)
  · refine .cons (Token.isBracket_of_isMark hhash (by decide)) ?_
    exact .cons (isBracket_of_isName ht) .nil
  · exact balanced_path hname

theorem balanced_commaSeparated {α : Type} {written : α → List Token → Prop} :
    ∀ {es : List α} {ts : List Token}, commaSeparated written es ts →
      (∀ e us, us.length ≤ ts.length → written e us → Balanced us) → Balanced ts
  | [], ts, h, _ => by
      rw [commaSeparated] at h
      rw [h]
      exact .nil
  | e :: es, ts, h, hbalanced => by
      rcases h with ⟨he, _⟩ | ⟨us, comma, vs, rfl, he, hcomma, hes⟩
      · exact hbalanced e ts (Nat.le_refl _) he
      · rw [List.length_append, List.length_cons] at hbalanced
        refine (hbalanced e us (Nat.le_add_right _ _) he).append ?_
        refine .cons (Token.isBracket_of_isMark hcomma (by decide)) ?_
        exact balanced_commaSeparated hes fun e ws hws => hbalanced e ws (by omega)

theorem balanced_afterColon {colon : Option Range} {value : Option Value}
    (h : valueAfterColon colon value ts)
    (hvalue : ∀ v us, us.length < ts.length → Value.WrittenAs v us → Balanced us) :
    Balanced ts := by
  cases value with
  | none =>
      rw [valueAfterColon] at h
      rw [h.2]
      exact .nil
  | some v =>
      rw [valueAfterColon] at h
      obtain ⟨c, us, rfl, hc, _, hv⟩ := h
      exact .cons (Token.isBracket_of_isMark hc (by decide))
        (hvalue v us (Nat.lt_succ_self _) hv)

end

mutual

theorem balanced_value : ∀ (n : Nat) {v : Value} {ts : List Token}, ts.length < n →
    v.WrittenAs ts → Balanced ts
  | n + 1, .record ⟨range, entries⟩, ts, hlen, h => by
      rw [Value.WrittenAs] at h
      obtain ⟨opening, closing, us, rfl, ho, hc, _, hentries⟩ := h
      rw [List.length_cons, List.length_append, List.length_singleton] at hlen
      refine .bracketed (.curly ho.1 hc.1) (balanced_commaSeparated
        ((entriesWrittenAs_iff entries us).mp hentries) fun e ws hws he => ?_)
      exact balanced_entry n (by omega) he
  | n + 1, .collection ⟨range, items⟩, ts, hlen, h => by
      rw [Value.WrittenAs] at h
      obtain ⟨opening, closing, us, rfl, ho, hc, _, hitems⟩ := h
      rw [List.length_cons, List.length_append, List.length_singleton] at hlen
      refine .bracketed (.square ho.1 hc.1) (balanced_commaSeparated
        ((valuesWrittenAs_iff items us).mp hitems) fun v ws hws hv => ?_)
      exact balanced_value n (by omega) hv
  | n + 1, .primitive p, ts, _, h => by
      rw [Value.WrittenAs] at h
      exact balanced_primitive h

theorem balanced_entry : ∀ (n : Nat) {e : Entry} {ts : List Token}, ts.length < n →
    e.WrittenAs ts → Balanced ts
  | n + 1, .property ⟨range, name, colon, value⟩, ts, hlen, h => by
      rw [Entry.WrittenAs] at h
      obtain ⟨us, vs, rfl, hname, hvalue, _⟩ := h
      rw [List.length_append] at hlen
      refine (balanced_path hname).append (balanced_afterColon hvalue ?_)
      exact fun v ws hws hv => balanced_value n (by omega) hv
  | n + 1, .embedded ⟨range, atSign, term, qualifier, colon, value, embedded⟩, ts, hlen, h => by
      rw [Entry.WrittenAs] at h
      obtain ⟨mark, opening, sign, us, qs, closing, vs, rfl, hmark, hopening, hsign, hterm,
        hqualifier, hclosing, hvalue, _⟩ := h
      simp only [List.length_append, List.length_cons] at hlen
      have hvs : Balanced vs :=
        balanced_afterColon hvalue fun v ws hws hv => balanced_value n (by omega) hv
      have hinner : Balanced (sign :: (us ++ qs)) :=
        .cons (Token.isBracket_of_isMark hsign (by decide))
          ((balanced_path hterm).append (balanced_qualifier hqualifier))
      have hhead := Balanced.nested (.square hopening.1 hclosing.1) hinner hvs
      rw [List.cons_append, List.append_assoc] at hhead
      exact .cons (Token.isBracket_of_isMark hmark (by decide)) hhead

end

theorem Annotation.WrittenAs.balanced {a : Annotation} {ts : List Token} (h : a.WrittenAs ts) :
    Balanced ts := by
  obtain ⟨us, qs, vs, rfl, hterm, hqualifier, hvalue, _⟩ := h
  refine (balanced_path hterm).append ((balanced_qualifier hqualifier).append ?_)
  exact balanced_afterColon hvalue fun v ws _ hv => balanced_value _ (Nat.lt_succ_self _) hv

theorem Assignment.WrittenAs.balanced {vocabulary : Vocabulary} {sign : Option Range}
    {a : Assignment} {ts : List Token} (h : a.WrittenAs vocabulary sign ts) : Balanced ts := by
  cases a with
  | single a => exact h.1.balanced
  | group g =>
      obtain ⟨term, us, colon, opening, vs, closing, rfl, hterm, _, _, hcolon, hopening, hclosing,
        hitems, _⟩ := h
      refine (balanced_path hterm).append (.cons (Token.isBracket_of_isMark hcolon (by decide)) ?_)
      exact .bracketed (.curly hopening.1 hclosing.1)
        (balanced_commaSeparated hitems fun a ws _ ha => ha.1.balanced)

/-! ## Brackets of nodes -/

/-- The marks that a list with brackets starts and ends with. -/
def Node.marks? : Node → Option (String × String)
  | record _ | groupItems _ => some (Token.openBrace, Token.closeBrace)
  | collection _ => some ("[", "]")
  | _ => none

/-- The tokens are a pair of matching brackets with what stands between them. -/
theorem exists_matched {vocabulary : Vocabulary} {parent n : Node} {ts : List Token}
    {left right : String} (h : parent.Admits vocabulary n ts)
    (hbrackets : n.marks? = some (left, right)) : ∃ opening closing,
      opening.is left = true ∧ closing.is right = true ∧ Matched ts opening closing ∧
      n.range = ⟨opening.range.start, closing.range.stop⟩ := by
  cases n with
  | record r =>
      obtain ⟨range, entries⟩ := r
      obtain ⟨rfl, rfl⟩ := Prod.mk.inj (Option.some.inj hbrackets)
      have hwritten := (Node.Admits.value (v := .record ⟨range, entries⟩) h).1
      rw [Value.WrittenAs] at hwritten
      obtain ⟨opening, closing, us, rfl, ho, hc, hrange, hentries⟩ := hwritten
      refine ⟨opening, closing, ho.1, hc.1, ⟨.curly ho.1 hc.1, [], us, [], rfl, ?_⟩, hrange⟩
      exact balanced_commaSeparated ((entriesWrittenAs_iff entries us).mp hentries)
        fun e ws _ he => balanced_entry _ (Nat.lt_succ_self _) he
  | collection c =>
      obtain ⟨range, items⟩ := c
      obtain ⟨rfl, rfl⟩ := Prod.mk.inj (Option.some.inj hbrackets)
      have hwritten := (Node.Admits.value (v := .collection ⟨range, items⟩) h).1
      rw [Value.WrittenAs] at hwritten
      obtain ⟨opening, closing, us, rfl, ho, hc, hrange, hitems⟩ := hwritten
      refine ⟨opening, closing, ho.1, hc.1, ⟨.square ho.1 hc.1, [], us, [], rfl, ?_⟩, hrange⟩
      exact balanced_commaSeparated ((valuesWrittenAs_iff items us).mp hitems)
        fun v ws _ hv => balanced_value _ (Nat.lt_succ_self _) hv
  | groupItems i =>
      obtain ⟨rfl, rfl⟩ := Prod.mk.inj (Option.some.inj hbrackets)
      obtain ⟨opening, us, closing, rfl, ho, hc, hrange, hitems⟩ := (Node.Admits.groupItems h).1
      refine ⟨opening, closing, ho.1, hc.1, ⟨.curly ho.1 hc.1, [], us, [], rfl, ?_⟩, hrange⟩
      exact balanced_commaSeparated hitems fun a ws _ ha => ha.1.balanced
  | _ => cases hbrackets

/-! ## Parentheses -/

/-- A range from an `@` with an opening parenthesis right behind it to a closing parenthesis. -/
def Parenthesizes (ts : List Token) (r : Range) : Prop :=
  ∃ front sign opening inner closing back,
    ts = front ++ sign :: opening :: (inner ++ closing :: back) ∧ sign.is "@" = true ∧
    opening.is "(" = true ∧ closing.is ")" = true ∧ r = ⟨sign.range.start, closing.range.stop⟩

theorem Parenthesizes.extend {us : List Token} {r : Range} (h : Parenthesizes us r)
    (front back : List Token) : Parenthesizes (front ++ (us ++ back)) r := by
  obtain ⟨front', sign, opening, inner, closing, back', rfl, h⟩ := h
  refine ⟨front ++ front', sign, opening, inner, closing, back' ++ back, ?_, h⟩
  simp only [List.append_assoc, List.cons_append]

theorem AssignmentsWrittenAs.parenthesizes {vocabulary : Vocabulary} {as : List Assignment}
    {compound : Option Range} {ts : List Token} {n : Nat}
    (h : AssignmentsWrittenAs vocabulary as compound ts) (hts : Token.Ordered n ts) {r : Range}
    (hr : compound = some r) : Parenthesizes ts r := by
  obtain ⟨before, items, after, front, us, back, opening, closing, rfl, rfl, hlast⟩ :=
    h.exists_lastList hts hr
  obtain ⟨outer, sign, paren, inner, hsplit, hsign, hparen, rfl⟩ := hlast.range
  refine ⟨outer, sign, paren, inner ++ us, closing, back, ?_, hsign.1, hparen.1, hlast.closes.1, rfl⟩
  rw [List.append_cons front, hsplit]
  simp only [List.append_assoc, List.cons_append]

end Syntax

namespace Document

open Syntax (Node)

variable {uri text : String} {c : Configuration} {d : Document}

theorem ordered_code (h : parse uri text c = .ok d) :
    Token.Ordered d.tokens.size (d.tokens.tokens.toList.filter Token.isCode) := by
  obtain ⟨_, _, _, _, hsorted, _⟩ := tokens_of_parse h
  exact hsorted.sublist List.filter_sublist

/-- The range of a list with brackets runs from one of them to the other. -/
theorem exists_matched (h : parse uri text c = .ok d) {p : Pointer} {n : Node}
    (hn : d.syntaxTree.resolve? p = some n) {left right : String}
    (hbrackets : n.marks? = some (left, right)) : ∃ opening closing,
      opening.is left = true ∧ closing.is right = true ∧
      Matched (d.tokens.tokens.toList.filter Token.isCode) opening closing ∧
      n.range = ⟨opening.range.start, closing.range.stop⟩ := by
  rcases Node.resolve?_eq_some_cases hn with ⟨_, rfl⟩ | ⟨front, last, parent, _, hparent, hlast⟩
  · cases hbrackets
  have hqualifier : ∀ q, n ≠ .qualifier q := by
    rintro q rfl
    cases hbrackets
  have hfile : ∀ g, parent ≠ .file g := by
    rintro g rfl
    cases Node.holds_of_mem_children hlast <;> cases hbrackets
  obtain ⟨before, us, back, heq, hus, _⟩ := Syntax.grafts_file (p := ⟨front⟩) (written_file h)
    hparent hlast hqualifier hfile
  obtain ⟨opening, closing, ho, hc, hmatched, hrange⟩ := Syntax.exists_matched hus hbrackets
  rw [heq]
  exact ⟨opening, closing, ho, hc, hmatched.extend before back, hrange⟩

theorem exists_parentheses (h : parse uri text c = .ok d) {t : Syntax.Target}
    (ht : t ∈ d.syntaxTree.targets) {r : Range} (hr : t.compound = some r) :
    Syntax.Parenthesizes (d.tokens.tokens.toList.filter Token.isCode) r := by
  obtain ⟨items, hitems, _, htargets⟩ := written_file h
  have hcode := ordered_code h
  rw [htargets] at ht
  obtain ⟨front, us, back, heq, hus⟩ := (Syntax.plots_of_consecutive hitems).exists_site t ht
  obtain ⟨names, word, as, mark, rfl, hplotted⟩ := hus
  rw [heq] at hcode ⊢
  have has : as.Sublist (front ++ ((names ++ (word ++ (as ++ [mark]))) ++ back)) := by
    have hinner := (List.sublist_append_left as [mark]).trans (List.sublist_append_right word _)
    exact ((hinner.trans (List.sublist_append_right names _)).trans
      (List.sublist_append_left _ back)).trans (List.sublist_append_right front _)
  have hparenthesizes := hplotted.assignments.parenthesizes (hcode.sublist has) hr
  have hplaced := hparenthesizes.extend (front ++ (names ++ word)) (mark :: back)
  simp only [List.append_assoc, List.cons_append, List.nil_append] at hplaced ⊢
  exact hplaced

end Document

end AnnotationEdit

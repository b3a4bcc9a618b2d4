import AnnotationEdit.Proofs.Syntax.Grafted
import AnnotationEdit.Proofs.Syntax.Growing

/-!
# Files in which several nodes are written anew

When the texts of several nodes of a file are replaced, of which none is below another one, and each
new text is read as something that may stand in the place of its node, then the new text as a whole
is read as the file with all of this in its place (`File.exists_rewritten`). The induction is on the
nodes in the order of the text: what stands behind the first of them is read as a file that differs
in the other ones only, so the tokens of the first node are still found in their place.
-/

namespace AnnotationEdit

open Syntax (Node File Delimited Opened)

/-! ## Pointers -/

namespace Pointer

variable {p q : Pointer}

/-- Neither pointer leads to or through the node at the other one. -/
def Diverges (p q : Pointer) : Prop := p.isPrefixOf q = false ∧ q.isPrefixOf p = false

instance : Decidable (p.Diverges q) := inferInstanceAs (Decidable (_ ∧ _))

theorem Diverges.symm (h : p.Diverges q) : q.Diverges p := ⟨h.2, h.1⟩

theorem isPrefixOf_eq_false : p.isPrefixOf q = false ↔ ¬ p.segments <+: q.segments := by
  rw [isPrefixOf, ← Bool.not_eq_true, List.isPrefixOf_iff_prefix]

end Pointer

/-! ## Places of tokens -/

section

variable {N : Nat} {r : Range}

/-- Tokens that span a range are found in one place only. -/
theorem Spans.split_unique {front us back front' us' back' : List Token} (hus : Spans us r)
    (hus' : Spans us' r) (hordered : Token.Ordered N (front ++ us))
    (hback : ∀ t ∈ back, r.stop ≤ t.range.start ∧ t.range.Proper)
    (h : front ++ (us ++ back) = front' ++ (us' ++ back')) :
    front = front' ∧ us = us' ∧ back = back' := by
  have hproper := hus.proper (hordered.sublist (List.sublist_append_right front us))
  obtain ⟨t, u, hfirst, hlast, rfl⟩ := hus
  obtain ⟨t', u', hfirst', hlast', hrange⟩ := hus'
  obtain ⟨hstart, hstop⟩ := Range.mk.inj hrange
  obtain ⟨ts, rfl⟩ := List.head?_eq_some_iff.mp hfirst
  obtain ⟨ts', rfl⟩ := List.head?_eq_some_iff.mp hfirst'
  have hapart := List.pairwise_append.mp hordered.apart
  obtain ⟨rfl, rfl, hrest⟩ : front = front' ∧ t = t' ∧ ts ++ back = ts' ++ back' := by
    rw [List.cons_append, List.cons_append] at h
    refine (List.append_cons_inj_of_notMem (fun hmem => ?_) (fun hmem => ?_)).mp h
    · have hbefore := hapart.2.2 t' hmem t List.mem_cons_self
      have hchars := hordered.proper t' (List.mem_append_left _ hmem)
      exact absurd (lt_of_lt_of_le hchars hbefore) (hstart ▸ lt_irrefl _)
    · rcases List.mem_append.mp hmem with hmem | hmem
      · have hbefore := (List.pairwise_cons.mp hapart.2.1).1 t' hmem
        have hchars := hordered.proper t (List.mem_append_right _ List.mem_cons_self)
        exact absurd (lt_of_lt_of_le hchars hbefore) (hstart ▸ lt_irrefl _)
      · exact absurd (lt_of_lt_of_le hproper (hback t' hmem).1) (hstart ▸ lt_irrefl _)
  obtain ⟨init, hinit⟩ := List.getLast?_eq_some_iff.mp hlast
  obtain ⟨init', hinit'⟩ := List.getLast?_eq_some_iff.mp hlast'
  have hwhole : init ++ u :: back = init' ++ u' :: back' := by
    rw [List.append_cons init, List.append_cons init', ← hinit, ← hinit', List.cons_append,
      List.cons_append, hrest]
  rw [hinit] at hordered hapart
  have hends := List.pairwise_append.mp hapart.2.1
  obtain ⟨rfl, rfl, rfl⟩ : init = init' ∧ u = u' ∧ back = back' := by
    refine (List.append_cons_inj_of_notMem (fun hmem => ?_) (fun hmem => ?_)).mp hwhole
    · have hbefore := hends.2.2 u' hmem u (List.mem_singleton_self u)
      have hchars := hordered.proper u
        (List.mem_append_right _ (List.mem_append_right _ (List.mem_singleton_self u)))
      exact absurd (lt_of_le_of_lt hbefore hchars) (hstop ▸ lt_irrefl _)
    · obtain ⟨hbehind, hchars⟩ := hback u' hmem
      exact absurd (lt_of_le_of_lt hbehind hchars) (hstop ▸ lt_irrefl _)
  exact ⟨rfl, hinit.trans hinit'.symm, rfl⟩

/-- What starts with something that is not in front stands behind it. -/
theorem exists_behind {α : Type} {front rest before back : List α} {a : α}
    (h : front ++ rest = before ++ back) (ha : back.head? = some a) (hnot : a ∉ front) :
    ∃ gap, before = front ++ gap ∧ rest = gap ++ back := by
  rcases List.append_eq_append_iff.mp h with ⟨gap, rfl, rfl⟩ | ⟨gap, rfl, rfl⟩
  · exact ⟨gap, rfl, rfl⟩
  · cases gap with
    | nil => exact ⟨[], by rw [List.append_nil, List.append_nil], rfl⟩
    | cons b gap =>
        obtain rfl := Option.some.inj ha
        exact absurd (List.mem_append_right _ List.mem_cons_self) hnot

/-- The tokens of a node among all tokens of a text. -/
theorem exists_mid_of_filter {l front us back : List Token} {t u : Token}
    (h : l.filter Token.isCode = front ++ (us ++ back)) (hfirst : us.head? = some t)
    (hlast : us.getLast? = some u) : ∃ before mid after, l = before ++ (mid ++ after) ∧
      mid.head? = some t ∧ mid.getLast? = some u ∧ before.filter Token.isCode = front ∧
      mid.filter Token.isCode = us ∧ after.filter Token.isCode = back := by
  obtain ⟨us', rfl⟩ := List.getLast?_eq_some_iff.mp hlast
  have hsplit : l.filter Token.isCode = (front ++ us') ++ u :: back := by
    rw [h]
    simp only [List.append_assoc, List.singleton_append]
  obtain ⟨whole, after, rfl, hwhole, hu, hafter⟩ := exists_of_filter_eq hsplit
  cases us' with
  | nil =>
      obtain rfl := Option.some.inj hfirst
      rw [List.append_nil] at hwhole
      exact ⟨whole, [u], after, rfl, rfl, rfl, hwhole, List.filter_cons_of_pos hu, hafter⟩
  | cons v us' =>
      obtain rfl := Option.some.inj hfirst
      obtain ⟨before, gap, rfl, hbefore, hv, hgap⟩ := exists_of_filter_eq hwhole
      refine ⟨before, v :: (gap ++ [u]), after, ?_, rfl, ?_, hbefore, ?_, hafter⟩
      · simp only [List.append_assoc, List.cons_append, List.nil_append]
      · rw [← List.cons_append, List.getLast?_concat]
      · rw [List.filter_cons_of_pos hv, List.filter_append, hgap, List.filter_cons_of_pos hu]
        rfl

end

/-- Tokens are read behind where the text starts. -/
theorem Lexer.behind_of_tokenizeFrom {p : Position} {cs : List Char} {tokens : List Token}
    (h : tokenizeFrom p cs = .ok tokens) {t : Token} (ht : t.plain ∈ tokens) :
    p ≤ t.range.start ∧ t.range.Proper := by
  obtain ⟨hordered, hstart⟩ := ordered_of_tokenizeFrom _ (Nat.le_refl _) h
  exact ⟨hstart t.plain ht, hordered.proper t.plain ht⟩

/-- Behind a mark, with comments or without, anything may take the place of a token. -/
theorem Lexer.bears_of_opened {xs ys : List Char} {front before mid after : List Token} {t : Token}
    (h : tokenizeFrom (Position.origin.after xs) ys =
      .ok (before.map Token.plain ++ (mid ++ after)))
    (ht : mid.head? = some t) (hopened : Opened ((front ++ before).filter Token.isCode))
    (ds : List Char) : ∀ v ∈ (before.map Token.plain).getLast?, ∀ zs,
      Bears v (t.text.toList ++ zs) ds := by
  intro v hv zs
  rw [List.getLast?_map] at hv
  obtain ⟨w, hw, rfl⟩ := Option.map_eq_some_iff.mp hv
  obtain ⟨init, rfl⟩ := List.getLast?_eq_some_iff.mp hw
  cases hcode : w.isCode with
  | true =>
      obtain ⟨u, mark, hu, hmark, _⟩ := hopened
      rw [← List.append_assoc, List.filter_append, List.filter_cons_of_pos hcode, List.filter_nil,
        List.getLast?_concat] at hu
      obtain rfl := Option.some.inj hu
      rw [Token.is, Bool.and_eq_true, beq_iff_eq] at hmark
      exact bears_of_closed (Or.inl hmark.1)
  | false =>
      rw [Token.isCode, Bool.not_eq_false', Token.isComment] at hcode
      by_cases hkind : w.kind = .lineComment
      · have hmem : t ∈ (init ++ [w]).map Token.plain ++ (mid ++ after) :=
          List.mem_append_right _ (List.mem_append_left _ (List.mem_of_head? ht))
        obtain ⟨_, c, tail, rest, _, hplaced⟩ := exists_placed _ (Nat.le_refl _) h t hmem
        refine bears_of_lineComment hkind ⟨c, ?_, Placed.ne_of_isBlank hplaced.first (by decide)⟩
        rw [hplaced.text, String.toList_ofList]
        rfl
      · exact bears_of_closed (Or.inr (TokenKind.eq_blockComment hcode hkind))

/-! ## Nodes written anew -/

namespace Syntax

def Node.isInner : Node → Bool
  | file _ | declaration _ | target _ | qualifier _ => false
  | _ => true

/-- A node of a file, the text that takes its place, and what is to stand there. -/
structure Renewal where
  pointer : Pointer
  node : Node
  text : String
  result : Node → Prop

/-- The edit that puts the new text in the place of the node. -/
def Renewal.edit (r : Renewal) : TextEdit := ⟨r.node.range, r.text⟩

namespace File

/-- Pointers that diverge from all of these lead to the same nodes in both files. -/
def AgreesOff (f g : File) (ps : List Pointer) : Prop :=
  ∀ q, (∀ p ∈ ps, p.Diverges q) → g.resolve? q = f.resolve? q

/-- The file with other nodes in the places of some, the last of these first. -/
def graftAll (f : File) : List (Pointer × Node) → File
  | [] => f
  | (p, m) :: rest => (f.graftAll rest).graft p m

variable {f g : File} {p : Pointer} {n : Node}

theorem exists_step (h : f.resolve? p = some n) (hn : n.isInner = true) :
    ∃ q last parent, p = Pointer.append q last ∧ f.resolve? q = some parent ∧
      (last, n) ∈ parent.children ∧ ∀ g, parent ≠ .file g := by
  rcases Node.resolve?_eq_some_cases h with ⟨_, rfl⟩ | ⟨front, last, parent, hp, hfront, hlast⟩
  · cases hn
  · refine ⟨⟨front⟩, last, parent, ?_, hfront, hlast, ?_⟩
    · cases p
      exact congrArg Pointer.mk hp
    · rintro g rfl
      rcases Node.cases_of_mem_file hlast with ⟨_, _, _, _, rfl⟩ | ⟨_, _, _, _, rfl⟩
      · cases hn
      · cases hn

/-- What a value stands below is kept where other nodes diverge from the value. -/
theorem AgreesOff.parent {others : List Pointer} (h : f.AgreesOff g others)
    (hp : f.resolve? (p.append ["value"]) = some n) (hn : n.isInner = true)
    (hothers : ∀ q ∈ others, q.Diverges (p.append ["value"]) ∧
      ∃ m, f.resolve? q = some m ∧ m.isInner = true) : g.resolve? p = f.resolve? p := by
  obtain ⟨parent, hparent, hchildren⟩ : ∃ parent, f.resolve? p = some parent ∧
      ∀ path c, (path, c) ∈ parent.children → path = ["value"] ∨ ∃ i, c = .qualifier i := by
    obtain ⟨q, last, parent, hpointer, hq, hlast, _⟩ := exists_step hp hn
    have hsegments : p.segments ++ ["value"] = q.segments ++ last :=
      congrArg Pointer.segments hpointer
    have hvalue : last = ["value"] → f.resolve? p = some parent := by
      rintro rfl
      obtain rfl : p = q := congrArg Pointer.mk (List.append_cancel_right hsegments)
      exact hq
    have hends : ∀ (front : List String) {s : String}, last = front ++ [s] → s = "value" := by
      rintro front s rfl
      rw [← List.append_assoc] at hsegments
      exact (List.singleton_inj.mp (List.append_inj_right' hsegments rfl)).symm
    have hnumbered : ∀ {name : String} {i : Nat}, last ≠ [name, toString i] := fun hlast =>
      have hv : 'v' ∈ "value".toList := List.mem_cons_self
      Text.toString_ne hv (by decide) (hends [_] hlast)
    cases Node.holds_of_mem_children hlast with
    | annotationValue a v _ =>
        refine ⟨_, hvalue rfl, fun path c hc => ?_⟩
        rcases Node.cases_of_mem_annotation hc with ⟨i, _, _, heq⟩ | ⟨_, _, hname, _⟩
        · exact Or.inr ⟨i, heq⟩
        · exact Or.inl hname
    | propertyValue q v _ =>
        refine ⟨_, hvalue rfl, fun path c hc => Or.inl ?_⟩
        obtain ⟨_, _, hname, _⟩ := Node.exists_of_mem_part hc
        exact hname
    | qualifier a q => cases hn
    | groupItems g => exact absurd (hends [] rfl) (by decide)
    | declaration | target | assignment | item | entry | member => exact absurd rfl hnumbered
  refine h p fun q hq => ?_
  obtain ⟨hdiverges, m, hm, hinner⟩ := hothers q hq
  have habove : ¬ q.segments <+: p.segments := fun hp =>
    Pointer.isPrefixOf_eq_false.mp hdiverges.1 (hp.trans (List.prefix_append _ _))
  refine ⟨Pointer.isPrefixOf_eq_false.mpr habove, Pointer.isPrefixOf_eq_false.mpr ?_⟩
  rintro ⟨rest, hrest⟩
  have hbelow : parent.resolve? rest = some m := by
    rw [← @Node.resolve?_append (.file f) parent p.segments rest hparent, hrest]
    exact hm
  rcases resolve?_eq_some_first hbelow with ⟨rfl, _⟩ | ⟨first, more, c, rfl, hc, hmore⟩
  · exact habove ⟨[], by rw [List.append_nil, ← hrest, List.append_nil]⟩
  · rcases hchildren first c hc with rfl | ⟨i, rfl⟩
    · refine Pointer.isPrefixOf_eq_false.mp hdiverges.2 ⟨more, ?_⟩
      rw [← hrest, ← List.append_assoc]
      rfl
    · rcases resolve?_eq_some_first hmore with ⟨_, rfl⟩ | ⟨_, _, _, _, hmem, _⟩
      · cases hinner
      · exact List.not_mem_nil hmem

theorem graft_eq_of_content {m : Node} {k : File}
    (h : (Node.file k).content = (m.graft p.segments (.file f)).content) :
    k.content = (f.graft p m).content := by
  cases hm : m.graft p.segments (.file f) with
  | file l =>
      rw [hm] at h
      rw [graft, hm]
      exact Node.file.inj h
  | _ =>
      rw [hm] at h
      cases h

end File

namespace Renewal

/-- The node is one of the file, and its new text is read as something that may stand in its place,
in every file that differs from this one below other pointers only. -/
structure Fits (vocabulary : Vocabulary) (f : File) (others : List Pointer) (r : Renewal) :
    Prop where
  resolves : f.resolve? r.pointer = some r.node
  isInner : r.node.isInner = true
  reads : ∃ read, Lexer.Spells Lexer.Break r.text.toList read ∧
    ∀ g q last parent, f.AgreesOff g others → r.pointer = Pointer.append q last →
      g.resolve? q = some parent → (last, r.node) ∈ parent.children →
      ∀ us ts, parent.Admits vocabulary r.node us → read ts → ∃ m m',
        parent.Admits vocabulary m ts ∧ m'.content = m.content ∧ r.result m'

/-- Nodes in the order of the text, of which none is below another one. -/
def Fitting (vocabulary : Vocabulary) (f : File) : List Renewal → Prop
  | [] => True
  | r :: rs => r.Fits vocabulary f (rs.map (·.pointer)) ∧
      (∀ s ∈ rs, s.pointer.Diverges r.pointer ∧ r.node.range.Before s.node.range) ∧
      Fitting vocabulary f rs

/-- Characters that are read, behind the tokens `front`, as what is left of the file with all of
this in its place: `tokens` are read, `code` writes the file `g` in other places. -/
structure Rewritten (vocabulary : Vocabulary) (f : File) (rs : List Renewal) (front : List Token)
    (p : Position) (cs : List Char) (tokens code : List Token) (g : File) (ms : List Node) :
    Prop where
  read : Lexer.tokenizeFrom p cs = .ok tokens
  respells : Respells (tokens.filter Token.isCode) (code.map Token.plain)
  written : (Node.file g).WrittenAs vocabulary (front.filter Token.isCode ++ code)
  behind : ∀ t ∈ code, p ≤ t.range.start ∧ t.range.Proper
  agrees : f.AgreesOff g (rs.map (·.pointer))
  uri : g.uri = f.uri
  results : List.Forall₂ (fun r m => r.result m) rs ms
  content : g.content = (f.graftAll ((rs.map (·.pointer)).zip ms)).content

variable {vocabulary : Vocabulary} {f g : File} {r : Renewal} {rs : List Renewal} {N : Nat}
  {front rest before mid after : List Token} {p : Position}

theorem exists_tokens (h : (Node.file f).WrittenAs vocabulary ((front ++ rest).filter Token.isCode))
    (hordered : Token.Ordered N (front ++ rest)) (hfront : ∀ t ∈ front, t.range.stop ≤ p)
    {q : Pointer} {n : Node} (hn : f.resolve? q = some n) (hinner : n.isInner = true)
    (hstart : p ≤ n.range.start) : ∃ before mid after t u, rest = before ++ (mid ++ after) ∧
      mid.head? = some t ∧ mid.getLast? = some u ∧ u.isCode = true ∧
      Spans (mid.filter Token.isCode) n.range ∧ n.range = ⟨t.range.start, u.range.stop⟩ := by
  obtain ⟨q, last, parent, rfl, hq, hlast, hfile⟩ := File.exists_step hn hinner
  have hnotQualifier : ∀ i, n ≠ .qualifier i := by
    rintro i rfl
    cases hinner
  obtain ⟨head, us, back, hcode, hus, _⟩ := grafts_file h hq hlast hnotQualifier hfile
  have hspans := hus.spans
  obtain ⟨t, u, hfirst, hlastToken, hrange⟩ := hus.spans
  rw [List.filter_append] at hcode
  have hhead : (us ++ back).head? = some t := by
    rw [List.head?_append, hfirst, Option.some_or]
  obtain ⟨gap, _, hgap⟩ := exists_behind hcode hhead fun hmem => by
    have ht := (List.mem_filter.mp hmem).1
    have hproper := hordered.proper t (List.mem_append_left _ ht)
    rw [hrange] at hstart
    exact absurd (lt_of_lt_of_le hproper (hfront t ht)) (not_lt_of_ge hstart)
  obtain ⟨before, mid, after, rfl, hmidFirst, hmidLast, _, rfl, _⟩ :=
    exists_mid_of_filter hgap hfirst hlastToken
  exact ⟨before, mid, after, t, u, rfl, hmidFirst, hmidLast,
    (List.mem_filter.mp (List.mem_of_getLast? hlastToken)).2, hspans, hrange⟩

/-- The first node in its place in a file in which the others are already written anew. -/
theorem Rewritten.exists_renewed {cs : List Char} {tokens code : List Token} {ms : List Node}
    (h : Rewritten vocabulary f rs ((front ++ before) ++ mid) p cs tokens code g ms)
    (hr : r.Fits vocabulary f (rs.map (·.pointer)))
    (hdiverges : ∀ s ∈ rs, s.pointer.Diverges r.pointer)
    (hspans : Spans (mid.filter Token.isCode) r.node.range)
    (hordered : Token.Ordered N ((front ++ before) ++ mid)) (hstop : r.node.range.stop = p) :
    Opened ((front ++ before).filter Token.isCode) ∧ Delimited code ∧
      ∃ read, Lexer.Spells Lexer.Break r.text.toList read ∧ ∀ ts, read ts → ∃ k m,
        (Node.file k).WrittenAs vocabulary
          ((front ++ before).filter Token.isCode ++ (ts ++ code)) ∧
        f.AgreesOff k ((r :: rs).map (·.pointer)) ∧ k.uri = f.uri ∧ r.result m ∧
        k.content = ((f.graftAll ((rs.map (·.pointer)).zip ms)).graft r.pointer m).content := by
  have hn : g.resolve? r.pointer = some r.node := by
    rw [h.agrees r.pointer (List.forall_mem_map.mpr hdiverges), hr.resolves]
  have hnot : (∀ i, r.node ≠ .qualifier i) ∧ (∀ d, r.node ≠ .declaration d) ∧
      ∀ t, r.node ≠ .target t := by
    have hinner := hr.isInner
    refine ⟨?_, ?_, ?_⟩ <;> · rintro x hx; rw [hx] at hinner; cases hinner
  obtain ⟨q, last, parent, hpointer, hq, hlast, hfile⟩ := File.exists_step hn hr.isInner
  obtain ⟨head, us, back, hcode, hus, hback, hopened, hput⟩ :=
    grafts_file h.written hq hlast hnot.1 hfile
  have hwhole : (front ++ before).filter Token.isCode ++ (mid.filter Token.isCode ++ code) =
      head ++ (us ++ back) := by
    rw [← hcode, List.filter_append (front ++ before), List.append_assoc]
  have hcodeOrdered : Token.Ordered N
      ((front ++ before).filter Token.isCode ++ mid.filter Token.isCode) := by
    rw [← List.filter_append]
    exact hordered.sublist List.filter_sublist
  obtain ⟨rfl, rfl, rfl⟩ := hspans.split_unique hus.spans hcodeOrdered
    (fun t ht => by rw [hstop]; exact h.behind t ht) hwhole
  refine ⟨hopened hnot.2.2, hback, ?_⟩
  obtain ⟨read, hspells, hreads⟩ := hr.reads
  refine ⟨read, hspells, fun ts hts => ?_⟩
  obtain ⟨m, m', hm, hcontent, hresult⟩ :=
    hreads g q last parent h.agrees hpointer hq hlast _ ts hus hts
  obtain ⟨k, hk, hkcontent, hrenews⟩ := hput m m' ts hm hcontent
  obtain ⟨hgraft, huri⟩ := Node.exists_graft_file hq hlast m'
  cases k with
  | file k =>
      rw [← hpointer] at hkcontent hrenews huri hgraft
      refine ⟨k, m', hk, fun x hx => ?_, ?_, hresult, ?_⟩
      · obtain ⟨hfirst, hrest⟩ := List.forall_mem_cons.mp hx
        have hkept := hrenews.keeps x.segments (Pointer.isPrefixOf_eq_false.mp hfirst.1)
          (Pointer.isPrefixOf_eq_false.mp hfirst.2)
        exact hkept.trans (h.agrees x hrest)
      · have hsame : k.content = (g.graft r.pointer m').content :=
          Node.file.inj (hkcontent.trans (congrArg Node.content hgraft))
        exact (congrArg File.uri hsame).trans (huri.trans h.uri)
      · exact File.graft_eq_of_content (hkcontent.trans (Node.content_graft hn hnot.1 hnot.2.1
          (congrArg Node.file h.content) rfl))
  | _ =>
      rw [hgraft] at hkcontent
      cases hkcontent

theorem Rewritten.cons {xs ys gap old rest cs : List Char} {t u : Token} {tokens code : List Token}
    {ms : List Node} (hread : Lexer.tokenizeFrom (Position.origin.after xs) ys =
      .ok (before.map Token.plain ++ (mid.map Token.plain ++ after)))
    (hwindow : Lexer.Window xs ys (before.map Token.plain) after t u gap old rest)
    (hfirst : (mid.map Token.plain).head? = some t)
    (h : Rewritten vocabulary f rs ((front ++ before) ++ mid)
      (Position.origin.after (xs ++ (gap ++ old))) cs tokens code g ms)
    (hr : r.Fits vocabulary f (rs.map (·.pointer)))
    (hdiverges : ∀ s ∈ rs, s.pointer.Diverges r.pointer)
    (hspans : Spans (mid.filter Token.isCode) r.node.range)
    (hordered : Token.Ordered N ((front ++ before) ++ mid))
    (hstop : r.node.range.stop = Position.origin.after (xs ++ (gap ++ old))) :
    ∃ tokens code g ms, Rewritten vocabulary f (r :: rs) front (Position.origin.after xs)
      (gap ++ (r.text.toList ++ cs)) tokens code g ms := by
  obtain ⟨hopened, hdelimited, read, hspells, hput⟩ :=
    h.exists_renewed hr hdiverges hspans hordered hstop
  have hbreak : Lexer.Break cs := Lexer.break_of_tokenizeFrom h.read
    (@Lexer.isBreak_of_delimited _ _ [] _ _ h.read h.respells hdelimited)
  let place := Position.origin.after (xs ++ gap)
  obtain ⟨ts, hts, htsCode, hspelled⟩ := hspells place cs hbreak
  obtain ⟨tokens', htokens', hmoved⟩ :=
    Lexer.exists_respelled _ (Nat.le_refl _) h.read (place.after r.text.toList)
  have hnew : Lexer.tokenizeFrom place (r.text.toList ++ cs) =
      .ok (ts.map Token.plain ++ tokens') := by
    rw [hspelled, htokens']
    rfl
  have hall := hwindow.again _ _ (Lexer.bears_of_opened hread hfirst hopened _) hnew
  obtain ⟨k, m, hk, hagrees, huri, hresult, hcontent⟩ := hput ts hts
  have hplace : Position.origin.after xs ≤ place := by
    show Position.origin.after xs ≤ Position.origin.after (xs ++ gap)
    rw [Lexer.after_append]
    exact Position.le_after gap _
  have hplace' : Position.origin.after xs ≤ Position.origin.after (xs ++ (gap ++ old)) := by
    rw [Lexer.after_append]
    exact Position.le_after _ _
  refine ⟨_, before.filter Token.isCode ++ (ts ++ code), k, m :: ms, hall, ?_, ?_, ?_, hagrees,
    huri, .cons hresult h.results, hcontent⟩
  · have hbehind : Respells (tokens'.filter Token.isCode) (code.map Token.plain) :=
      (hmoved.filter fun _ => rfl).trans h.respells
    rw [Respells] at hbehind ⊢
    rw [List.filter_append, List.filter_append, Document.filter_isCode_plain,
      Document.filter_isCode_plain, List.filter_eq_self.mpr htsCode]
    simp only [List.map_append, hbehind]
  · rw [List.filter_append, List.append_assoc] at hk
    exact hk
  · intro v hv
    rcases List.mem_append.mp hv with hv | hv
    · exact Lexer.behind_of_tokenizeFrom hread
        (List.mem_append_left _ (List.mem_map_of_mem (List.mem_filter.mp hv).1))
    · rcases List.mem_append.mp hv with hv | hv
      · obtain ⟨hle, hproper⟩ := Lexer.behind_of_tokenizeFrom hnew
          (List.mem_append_left _ (List.mem_map_of_mem hv))
        exact ⟨le_trans hplace hle, hproper⟩
      · obtain ⟨hle, hproper⟩ := h.behind v hv
        exact ⟨le_trans hplace' hle, hproper⟩

/-- The new texts are put in the places of the nodes and read as what is to stand there. -/
theorem exists_rewritten : ∀ {rs : List Renewal} {xs ys : List Char} {front rest : List Token},
    Fitting vocabulary f rs →
    (Node.file f).WrittenAs vocabulary ((front ++ rest).filter Token.isCode) →
    Lexer.tokenizeFrom (Position.origin.after xs) ys = .ok (rest.map Token.plain) →
    Token.Ordered N (front ++ rest) →
    (∀ t ∈ front, t.range.stop ≤ Position.origin.after xs) →
    (∀ r ∈ rs, Position.origin.after xs ≤ r.node.range.start) →
    ∃ cs tokens code g ms, TextEdit.splice ⟨xs ++ ys⟩ xs.length (rs.map edit) = .ok cs ∧
      Rewritten vocabulary f rs front (Position.origin.after xs) cs tokens code g ms
  | [], xs, ys, front, rest, _, hwritten, hread, _, _, _ => by
      refine ⟨ys, _, rest.filter Token.isCode, f, [], ?_, hread, ?_, ?_, ?_, fun _ _ => rfl, rfl,
        .nil, rfl⟩
      · rw [List.map_nil, TextEdit.splice, List.drop_left]
      · exact congrArg (List.map Token.bare) (Document.filter_isCode_plain rest)
      · rwa [← List.filter_append]
      · exact fun t ht => Lexer.behind_of_tokenizeFrom hread
          (List.mem_map_of_mem (List.mem_filter.mp ht).1)
  | r :: rs, xs, ys, front, rest, ⟨hr, happart, hrs⟩, hwritten, hread, hordered, hfront,
      hstart => by
      obtain ⟨before, mid, after, t, u, rfl, hfirst, hlast, hcode, hspans, hrange⟩ :=
        exists_tokens hwritten hordered hfront hr.resolves hr.isInner (hstart r List.mem_cons_self)
      rw [List.map_append, List.map_append] at hread
      have hfirst' : (mid.map Token.plain).head? = some t.plain := by
        rw [List.head?_map, hfirst]
        rfl
      have hlast' : (mid.map Token.plain).getLast? = some u.plain := by
        rw [List.getLast?_map, hlast]
        rfl
      have hkind : u.plain.kind ≠ .lineComment := by
        intro hcomment
        rw [Token.isCode, Token.isComment, show u.kind = .lineComment from hcomment] at hcode
        cases hcode
      obtain ⟨gap, old, tail, hwindow⟩ := Lexer.exists_window hread hfirst' hlast' hkind
      have hstop : r.node.range.stop = Position.origin.after (xs ++ (gap ++ old)) := by
        rw [hrange]
        exact hwindow.stop
      have hsplit : front ++ (before ++ (mid ++ after)) = ((front ++ before) ++ mid) ++ after := by
        simp only [List.append_assoc]
      rw [hsplit] at hwritten hordered
      have hfrontOrdered := hordered.sublist (List.sublist_append_left _ after)
      have hbehind : ∀ v ∈ (front ++ before) ++ mid,
          v.range.stop ≤ Position.origin.after (xs ++ (gap ++ old)) := by
        intro v hv
        obtain ⟨w, ws, hws⟩ := List.exists_cons_of_ne_nil (List.ne_nil_of_mem hv)
        have hall : Spans ((front ++ before) ++ mid) ⟨w.range.start, u.range.stop⟩ :=
          ⟨w, u, by rw [hws]; rfl, by rw [List.getLast?_append, hlast, Option.some_or], rfl⟩
        exact (hall.le_stop hfrontOrdered v hv).trans (le_of_eq hwindow.stop)
      obtain ⟨cs, tokens, code, g, ms, hcs, hrewritten⟩ := exists_rewritten hrs hwritten
        hwindow.after hordered hbehind (fun s hs => hstop ▸ (happart s hs).2)
      obtain ⟨tokens', code', k, ms', hall⟩ := hrewritten.cons hread hwindow hfirst' hr
        (fun s hs => (happart s hs).1) hspans hfrontOrdered hstop
      refine ⟨_, tokens', code', k, ms', ?_, hall⟩
      have hfirstIndex : (Lines.mk (xs ++ ys)).index r.node.range.start = (xs ++ gap).length := by
        rw [hrange]
        exact hwindow.index_start
      have hlastIndex :
          (Lines.mk (xs ++ ys)).index r.node.range.stop = (xs ++ (gap ++ old)).length := by
        rw [hrange]
        exact hwindow.index_stop
      have hchars : xs ++ ys = (xs ++ (gap ++ old)) ++ tail := by
        rw [hwindow.split]
        simp only [List.append_assoc]
      have hmax : Nat.max (xs ++ (gap ++ old)).length (xs ++ gap).length =
          (xs ++ (gap ++ old)).length := by
        refine Nat.max_eq_left ?_
        simp only [List.length_append]
        omega
      have hgap : (Lines.mk (xs ++ ys)).between xs.length (xs ++ gap).length = gap := by
        rw [Lines.between, hwindow.split, List.drop_left, List.length_append,
          Nat.add_sub_cancel_left, List.take_left]
      rw [List.map_cons, TextEdit.splice]
      simp only [edit, hfirstIndex, hlastIndex, hmax, hgap]
      rw [if_neg (by rw [List.length_append]; omega), hchars, hcs]

/-- The nodes stand in the order of the text. -/
theorem Fitting.pairwise : ∀ {rs : List Renewal}, Fitting vocabulary f rs →
    rs.Pairwise fun r s => r.node.range.Before s.node.range
  | [], _ => .nil
  | _ :: _, ⟨_, hapart, hrs⟩ => List.pairwise_cons.mpr ⟨fun s hs => (hapart s hs).2, hrs.pairwise⟩

theorem Fitting.fits : ∀ {rs : List Renewal}, Fitting vocabulary f rs → ∀ r ∈ rs,
    ∃ others, r.Fits vocabulary f others
  | s :: rs, ⟨hs, _, hrs⟩, r, hr => by
      rcases List.mem_cons.mp hr with rfl | hr
      · exact ⟨_, hs⟩
      · exact hrs.fits r hr

end Renewal

end Syntax

end AnnotationEdit

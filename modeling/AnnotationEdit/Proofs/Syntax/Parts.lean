import AnnotationEdit.Proofs.Locate.Descent
import AnnotationEdit.Proofs.Syntax.Nodes
import AnnotationEdit.Proofs.Syntax.Pruning

/-!
# Parts of nodes

The children of a node other than the file stand one before the other and inside the node
(`Node.pairwise_children`, `Node.contains_resolved`). The head of an annotation or property stands
in front of its value. Two nodes are one below the other, or below two children of one node
(`Node.below_or_diverge`).
-/

namespace AnnotationEdit

namespace Syntax

namespace Node

variable {vocabulary : Vocabulary} {ts : List Token} {N : Nat}

/-! ## Children -/

theorem map_snd_numbered (name : String) (nodes : List Node) :
    (numbered name nodes).map (·.2) = nodes := by
  rw [numbered, List.map_map]
  exact List.zipIdx_map_fst 0 nodes

/-- Members that are written one after the other stand one before the other. -/
theorem pairwise_numbered {α : Type} {written : α → List Token → Prop} {node : α → Node}
    {es : List α} (name : String) (hes : Laid written es ts) (hts : Token.Ordered N ts)
    (hspans : ∀ e us, written e us → Spans us (node e).range) :
    (numbered name (es.map node)).Pairwise fun a b => a.2.range.Before b.2.range := by
  have hpairwise := hes.pairwise (fun e us he => Within.of_spans (hspans e us he)) hts
  have hnodes : (es.map node).Pairwise fun a b => a.range.Before b.range :=
    List.pairwise_map.mpr hpairwise
  rw [← map_snd_numbered name (es.map node)] at hnodes
  exact List.Pairwise.of_map (fun c : List String × Node => c.2) (fun _ _ h => h) hnodes

/-- The parts of an annotation in their order. -/
structure Heads (a : Annotation) : Prop where
  start : a.range.start < a.term.range.stop
  term : a.term.range.stop ≤ a.headEnd
  stop : a.headEnd ≤ a.range.stop
  value : ∀ v, a.value = some v →
    a.headEnd < v.range.start ∧ v.range.Proper ∧ v.range.stop ≤ a.range.stop

theorem after_head {colon : Option Range} {value : Option Value} {us vs : List Token} {v : Value}
    {r : Range} (hts : Token.Ordered N (us ++ vs)) (hus : Within us r)
    (hvalue : valueAfterColon colon value vs) (hv : value = some v) :
    r.stop < v.range.start ∧ v.range.Proper := by
  subst hv
  rw [valueAfterColon] at hvalue
  obtain ⟨c, ws, rfl, _, _, hv⟩ := hvalue
  have hcolon : r.Before c.range := by
    refine hus.before (.of_spans (.singleton c)) (hts.sublist ?_)
    exact (List.singleton_sublist.mpr List.mem_cons_self).append_left us
  have hafter : c.range.Before v.range := by
    have hrest : Token.Ordered N ([c] ++ ws) := hts.sublist (List.sublist_append_right us _)
    exact (Within.of_spans (.singleton c)).before (.of_spans (spans_value hv)) hrest
  have hproper := hts.proper c (List.mem_append_right us List.mem_cons_self)
  have hws : Token.Ordered N ws :=
    hts.sublist ((List.sublist_cons_self c ws).trans (List.sublist_append_right us _))
  exact ⟨lt_of_le_of_lt hcolon (lt_of_lt_of_le hproper hafter), (spans_value hv).proper hws⟩

theorem heads_of_parts {a : Annotation} {front us qs back vs : List Token}
    (hts : Token.Ordered N (front ++ (us ++ qs) ++ (back ++ vs)))
    (hterm : a.term.WrittenAs .term us) (hqualifier : qualifierWrittenAs a.qualifier qs)
    (hvalue : valueAfterColon a.colon a.value vs)
    (hspans : Spans (front ++ (us ++ qs) ++ (back ++ vs)) a.range) : Heads a := by
  have hhead := spans_qualified hterm hqualifier
  have hus : us.Sublist (front ++ (us ++ qs) ++ (back ++ vs)) :=
    ((List.sublist_append_left us qs).trans (List.sublist_append_right front _)).trans
      (List.sublist_append_left _ _)
  have hboth : (us ++ qs).Sublist (front ++ (us ++ qs) ++ (back ++ vs)) :=
    (List.sublist_append_right front _).trans (List.sublist_append_left _ _)
  have hall := hspans.contains hhead hts hboth
  rw [Range.contains_iff] at hall
  have hproper := hterm.spans.proper (hts.sublist hus)
  refine ⟨lt_of_le_of_lt hall.1 hproper, ?_, hall.2, ?_⟩
  · have hcontains :=
      hhead.contains hterm.spans (hts.sublist hboth) (List.sublist_append_left us qs)
    exact (Range.contains_iff.mp hcontains).2
  · intro v hv
    have hfront : Within (front ++ (us ++ qs) ++ back) ⟨a.term.range.start, a.headEnd⟩ :=
      (Within.of_spans hhead).weaken
        ((List.sublist_append_right front _).trans (List.sublist_append_left _ back))
    have hts' : Token.Ordered N (front ++ (us ++ qs) ++ back ++ vs) := by
      rwa [List.append_assoc (front ++ (us ++ qs))]
    obtain ⟨hlt, hvproper⟩ := after_head hts' hfront hvalue hv
    refine ⟨hlt, hvproper, ?_⟩
    rw [hv, valueAfterColon] at hvalue
    obtain ⟨c, ws, rfl, _, _, hvwritten⟩ := hvalue
    have hws : ws.Sublist (front ++ (us ++ qs) ++ (back ++ c :: ws)) :=
      ((List.sublist_cons_self c ws).trans (List.sublist_append_right back _)).trans
        (List.sublist_append_right _ _)
    exact (Range.contains_iff.mp (hspans.contains (spans_value hvwritten) hts hws)).2

/-- The head of an annotation and its value come one after the other. -/
theorem heads_of_writtenAs {a : Annotation} (h : (Node.annotation a).WrittenAs vocabulary ts)
    (hts : Token.Ordered N ts) : Heads a := by
  rcases h with h | h
  · have hspans := spans_entry h
    obtain ⟨range, atSign, term, qualifier, colon, value, embedded⟩ := a
    rw [Entry.WrittenAs] at h
    obtain ⟨mark, opening, sign, us, qs, closing, vs, rfl, _, _, _, hterm, hqualifier, _, hvalue,
      _⟩ := h
    have hsplit : mark :: opening :: sign :: (us ++ (qs ++ closing :: vs)) =
        [mark, opening, sign] ++ (us ++ qs) ++ ([closing] ++ vs) := by
      simp only [List.cons_append, List.append_assoc, List.nil_append]
    rw [hsplit] at hts hspans
    exact heads_of_parts hts hterm hqualifier hvalue hspans
  · have hspans := h.spans
    obtain ⟨us, qs, vs, rfl, hterm, hqualifier, hvalue, _, _⟩ := h
    have hsplit : us ++ (qs ++ vs) = [] ++ (us ++ qs) ++ ([] ++ vs) := by
      simp only [List.nil_append, List.append_assoc]
    rw [hsplit] at hts hspans
    exact heads_of_parts hts hterm hqualifier hvalue hspans

theorem property_of_writtenAs {p : Property} (h : (property p).WrittenAs vocabulary ts)
    (hts : Token.Ordered N ts) :
    p.range.start < p.name.range.stop ∧ p.name.range.stop ≤ p.range.stop ∧
      ∀ v, p.value = some v → p.name.range.stop < v.range.start ∧ v.range.Proper ∧
        v.range.stop ≤ p.range.stop := by
  have hspans := spans_entry h
  obtain ⟨range, name, colon, value⟩ := p
  rw [WrittenAs, Entry.WrittenAs] at h
  obtain ⟨us, vs, rfl, hname, hvalue, _⟩ := h
  have hus := List.sublist_append_left us vs
  have hinside := Range.contains_iff.mp (hspans.contains hname.spans hts hus)
  have hproper := hname.spans.proper (hts.sublist hus)
  refine ⟨lt_of_le_of_lt hinside.1 hproper, hinside.2, fun v hv => ?_⟩
  obtain ⟨hlt, hvproper⟩ := after_head hts (.of_spans hname.spans) hvalue hv
  refine ⟨hlt, hvproper, ?_⟩
  have hvalue' := hvalue
  rw [show value = some v from hv, valueAfterColon] at hvalue'
  obtain ⟨c, ws, rfl, _, _, hvwritten⟩ := hvalue'
  have hws : ws.Sublist (us ++ c :: ws) :=
    (List.sublist_cons_self c ws).trans (List.sublist_append_right us _)
  exact (Range.contains_iff.mp (hspans.contains (spans_value hvwritten) hts hws)).2

theorem pairwise_children {n : Node} (h : n.WrittenAs vocabulary ts) (hts : Token.Ordered N ts)
    (hn : ∀ f, n ≠ file f) :
    n.children.Pairwise fun a b => a.2.range.Before b.2.range := by
  cases n with
  | file f => exact absurd rfl (hn f)
  | target t =>
      refine pairwise_numbered _ (laid_assignmentsOf h) hts fun a us ha => ?_
      rw [Locate.range_ofAssignment]
      exact spans_assignment ha.choose_spec
  | groupItems i => exact pairwise_numbered _ (laid_groupItems h) hts fun a us ha => ha.1.spans
  | record r =>
      refine pairwise_numbered _ (laid_entries h) hts fun e us he => ?_
      rw [Locate.range_ofEntry]
      exact spans_entry he
  | collection c =>
      refine pairwise_numbered _ (laid_values h) hts fun v us hv => ?_
      rw [Locate.range_ofValue]
      exact spans_value hv
  | annotation a =>
      have hheads := heads_of_writtenAs h hts
      refine List.pairwise_append.mpr ⟨?_, ?_, ?_⟩
      · cases a.qualifier with
        | none => exact .nil
        | some q => exact List.pairwise_singleton _ _
      · cases a.value with
        | none => exact .nil
        | some v => exact List.pairwise_singleton _ _
      · rintro ⟨_, _⟩ hx ⟨_, _⟩ hy
        obtain ⟨q, hqualifier, _, rfl⟩ := exists_of_mem_part hx
        obtain ⟨v, hv, _, rfl⟩ := exists_of_mem_part hy
        have hlt := (hheads.value v hv).1
        rw [ Annotation.headEnd, hqualifier] at hlt
        show q.range.stop ≤ (ofValue v).range.start
        rw [Locate.range_ofValue]
        exact le_of_lt hlt
  | property p =>
      rw [children]
      cases p.value with
      | none => exact .nil
      | some v => exact List.pairwise_singleton _ _
  | group g => exact List.pairwise_singleton _ _
  | declaration d => exact .nil
  | primitive p => exact .nil
  | qualifier q => exact .nil

/-- Two children that different segments lead to stand apart. -/
theorem apart_of_mem_children {n c d : Node} {path path' : List String}
    (h : n.WrittenAs vocabulary ts) (hts : Token.Ordered N ts) (hn : ∀ f, n ≠ file f)
    (hc : (path, c) ∈ n.children) (hd : (path', d) ∈ n.children) (hne : path ≠ path') :
    c.range.Before d.range ∨ d.range.Before c.range := by
  obtain ⟨i, hi⟩ := List.mem_iff_getElem?.mp hc
  obtain ⟨j, hj⟩ := List.mem_iff_getElem?.mp hd
  rcases eq_or_rel_of_getElem? (pairwise_children h hts hn) hi hj with rfl | hbefore
  · exact absurd (congrArg Prod.fst (Option.some.inj (hi.symm.trans hj))) hne
  · exact hbefore

/-! ## Below a node -/

theorem length_lt_of_mem_children {n c : Node} {path : List String} (hc : (path, c) ∈ n.children)
    (rest : List String) : rest.length < (path ++ rest).length := by
  rw [List.length_append]
  rcases length_of_mem_children n with hlen | hlen
  · rw [hlen _ hc]
    omega
  · rw [hlen _ hc]
    omega

theorem contains_child {n c : Node} {path : List String} (h : n.WrittenAs vocabulary ts)
    (hts : Token.Ordered N ts) (hn : ∀ f, n ≠ file f) (hc : (path, c) ∈ n.children) :
    n.range.contains c.range = true := by
  have hspanned : Spans ts n.range → n.range.contains c.range = true := by
    intro hspans
    obtain ⟨us, hus, hwritten⟩ := exists_child h hc
    obtain ⟨vs, hvs, hcspans⟩ := hwritten.within (ne_file_of_mem_children hc)
    exact hspans.contains hcspans hts (hvs.trans hus)
  cases n with
  | file f => exact absurd rfl (hn f)
  | target t =>
      obtain ⟨i, a, ha, _, rfl⟩ := exists_of_mem_numbered hc
      rw [Locate.range_ofAssignment]
      exact (Target.Written.tidy h hts).lists.inside a (List.mem_of_getElem? ha)
  | annotation a =>
      rcases h with h | h
      · exact hspanned (spans_entry h)
      · exact hspanned h.spans
  | group g => exact hspanned (spans_assignment h.choose_spec)
  | groupItems i =>
      obtain ⟨opening, us, closing, rfl, hrange, _⟩ := id h
      refine hspanned ?_
      rw [range, hrange]
      exact .bracketed opening closing us
  | record r => exact hspanned (spans_value h)
  | property p => exact hspanned (spans_entry h)
  | collection c => exact hspanned (spans_value h)
  | declaration d => exact absurd hc List.not_mem_nil
  | primitive p => exact absurd hc List.not_mem_nil
  | qualifier q => exact absurd hc List.not_mem_nil

/-- Everything below a node other than the file stands inside it. -/
theorem contains_resolved {n m : Node} {path : List String} (h : n.WrittenAs vocabulary ts)
    (hts : Token.Ordered N ts) (hn : ∀ f, n ≠ file f) (hm : n.resolve? path = some m) :
    n.range.contains m.range = true := by
  induction hlength : path.length using Nat.strongRecOn generalizing n ts path with
  | ind k ih =>
    rcases resolve?_eq_some_first hm with ⟨_, rfl⟩ | ⟨first, rest, c, rfl, hc, hm⟩
    · exact Range.contains_refl _
    · obtain ⟨us, hus, hwritten⟩ := exists_child h hc
      have hshort : rest.length < k := hlength ▸ length_lt_of_mem_children hc rest
      exact Range.contains_trans (contains_child h hts hn hc)
        (ih rest.length hshort hwritten (hts.sublist hus) (ne_file_of_mem_children hc) hm rfl)

theorem below_or_diverge {n a b : Node} {p q : List String} (ha : n.resolve? p = some a)
    (hb : n.resolve? q = some b) :
    (∃ rest, q = p ++ rest ∧ a.resolve? rest = some b) ∨
      (∃ rest, p = q ++ rest ∧ b.resolve? rest = some a) ∨
      p ≠ [] ∧ q ≠ [] ∧ ∃ front m path c rest path' d rest', n.resolve? front = some m ∧
        (path, c) ∈ m.children ∧ c.resolve? rest = some a ∧ (path', d) ∈ m.children ∧
        d.resolve? rest' = some b ∧ path ≠ path' := by
  induction hlength : p.length using Nat.strongRecOn generalizing n p q with
  | ind k ih =>
    rcases resolve?_eq_some_first ha with ⟨rfl, rfl⟩ | ⟨path, rest, c, rfl, hc, hrest⟩
    · exact Or.inl ⟨q, rfl, hb⟩
    · rcases resolve?_eq_some_first hb with ⟨rfl, rfl⟩ | ⟨path', rest', d, rfl, hd, hrest'⟩
      · exact Or.inr (Or.inl ⟨path ++ rest, rfl, ha⟩)
      · have hne : path ++ rest ≠ [] ∧ path' ++ rest' ≠ [] :=
          ⟨List.ne_nil_of_length_pos (Nat.zero_lt_of_lt (length_lt_of_mem_children hc rest)),
            List.ne_nil_of_length_pos (Nat.zero_lt_of_lt (length_lt_of_mem_children hd rest'))⟩
        by_cases hpath : path = path'
        · -- one step together
          subst hpath
          obtain rfl := eq_of_mem_children hc hd
          have hshort : rest.length < k := hlength ▸ length_lt_of_mem_children hc rest
          rcases ih rest.length hshort hrest hrest' rfl with
            ⟨more, rfl, hmore⟩ | ⟨more, rfl, hmore⟩ | ⟨_, _, front, m, h⟩
          · exact Or.inl ⟨more, (List.append_assoc _ _ _).symm, hmore⟩
          · exact Or.inr (Or.inl ⟨more, (List.append_assoc _ _ _).symm, hmore⟩)
          · obtain ⟨path₁, c₁, rest₁, path₂, c₂, rest₂, hfront, h⟩ := h
            refine Or.inr (Or.inr ⟨hne.1, hne.2, path ++ front, m, path₁, c₁, rest₁, path₂, c₂,
              rest₂, ?_, h⟩)
            rw [resolve?_of_mem_children hc]
            exact hfront
        · exact Or.inr (Or.inr ⟨hne.1, hne.2, [], n, path, c, rest, path', d, rest', rfl, hc, hrest,
            hd, hrest', hpath⟩)

/-! ## Names without a value -/

theorem ne_target_of_mem_children {n c : Node} {path : List String} (hn : ∀ f, n ≠ file f)
    (hc : (path, c) ∈ n.children) : ∀ t, c ≠ target t := by
  rintro t rfl
  obtain ⟨f, rfl⟩ := exists_file_of_target_mem hc
  exact hn f rfl

theorem ne_file_of_resolve? {n m : Node} {path : List String} (hn : ∀ f, n ≠ file f)
    (h : n.resolve? path = some m) : ∀ f, m ≠ file f := by
  rcases resolve?_eq_some_cases h with ⟨_, rfl⟩ | ⟨_, _, _, _, _, hmem⟩
  · exact hn
  · exact ne_file_of_mem_children hmem

theorem ne_target_of_resolve? {n m : Node} {path : List String} (hn : ∀ f, n ≠ file f)
    (h : n.resolve? path = some m) (hpath : path ≠ []) : ∀ t, m ≠ target t := by
  rcases resolve?_eq_some_cases h with ⟨rfl, _⟩ | ⟨front, last, parent, rfl, hfront, hlast⟩
  · exact absurd rfl hpath
  · exact ne_target_of_mem_children (ne_file_of_resolve? hn hfront) hlast

theorem isValueless_ofValue (v : Value) : (ofValue v).isValueless = false := by
  cases v <;> rfl

/-- A member between brackets ends before the list. -/
theorem stop_lt_of_bracketed {α : Type} {written : α → List Token → Prop} (node : α → Node)
    {es : List α} {name : String} {path : List String} {c : Node} {opening closing : Token}
    {us : List Token} (hts : Token.Ordered N (opening :: (us ++ [closing])))
    (hes : Laid written es us) (hspans : ∀ e vs, written e vs → Spans vs (node e).range)
    (hc : (path, c) ∈ numbered name (es.map node)) : c.range.stop < closing.range.stop := by
  obtain ⟨_, e, he, _, rfl⟩ := exists_of_mem_numbered hc
  obtain ⟨vs, hvs, hwritten⟩ := hes.exists_written e (List.mem_of_getElem? he)
  have hbefore : (node e).range.Before closing.range :=
    (Within.of_spans (hspans e vs hwritten)).before (.of_spans (.singleton closing))
      (hts.sublist ((hvs.append_right [closing]).cons opening))
  exact lt_of_le_of_lt hbefore (hts.proper closing (by simp))

/-- A name without a value is never the last of what it stands in: a bracket follows. -/
theorem stop_lt_of_mem_children {n c : Node} {path : List String} (h : n.WrittenAs vocabulary ts)
    (hts : Token.Ordered N ts) (hn : ∀ f, n ≠ file f) (ht : ∀ t, n ≠ target t)
    (hc : (path, c) ∈ n.children) (hvalueless : c.isValueless = true) :
    c.range.stop < n.range.stop := by
  cases n with
  | file f => exact absurd rfl (hn f)
  | target t => exact absurd rfl (ht t)
  | groupItems i =>
      obtain ⟨opening, us, closing, rfl, hrange, hitems⟩ := h
      rw [range, hrange]
      exact stop_lt_of_bracketed annotation hts (laid_of_commaSeparated hitems)
        (fun a vs ha => ha.1.spans) hc
  | record r =>
      obtain ⟨range, entries⟩ := r
      rw [WrittenAs, Value.WrittenAs] at h
      obtain ⟨opening, closing, us, rfl, _, _, rfl, hentries⟩ := h
      refine stop_lt_of_bracketed ofEntry hts (laid_of_commaSeparated
        ((entriesWrittenAs_iff entries us).mp hentries)) (fun e vs he => ?_) hc
      rw [Locate.range_ofEntry]
      exact spans_entry he
  | collection v =>
      obtain ⟨_, e, _, _, rfl⟩ := exists_of_mem_numbered hc
      rw [isValueless_ofValue] at hvalueless
      cases hvalueless
  | annotation a =>
      rcases cases_of_mem_annotation hc with ⟨q, _, _, rfl⟩ | ⟨v, _, _, rfl⟩
      · cases hvalueless
      · rw [isValueless_ofValue] at hvalueless
        cases hvalueless
  | property p =>
      obtain ⟨v, _, _, rfl⟩ := exists_of_mem_part hc
      rw [isValueless_ofValue] at hvalueless
      cases hvalueless
  | group g =>
      obtain ⟨_, rfl⟩ := Prod.mk.inj (List.mem_singleton.mp hc)
      cases hvalueless
  | declaration d => exact absurd hc List.not_mem_nil
  | primitive p => exact absurd hc List.not_mem_nil
  | qualifier q => exact absurd hc List.not_mem_nil

theorem stop_lt_of_resolve? {n m : Node} {path : List String} (h : n.WrittenAs vocabulary ts)
    (hts : Token.Ordered N ts) (hn : ∀ f, n ≠ file f) (ht : ∀ t, n ≠ target t)
    (hm : n.resolve? path = some m) (hpath : path ≠ []) (hvalueless : m.isValueless = true) :
    m.range.stop < n.range.stop := by
  induction hlength : path.length using Nat.strongRecOn generalizing n ts path with
  | ind k ih =>
    rcases resolve?_eq_some_first hm with ⟨rfl, _⟩ | ⟨first, rest, c, rfl, hc, hm⟩
    · exact absurd rfl hpath
    · obtain ⟨us, hus, hwritten⟩ := exists_child h hc
      by_cases hrest : rest = []
      · subst hrest
        obtain rfl := Option.some.inj hm
        exact stop_lt_of_mem_children h hts hn ht hc hvalueless
      · have hlt := ih rest.length (hlength ▸ length_lt_of_mem_children hc rest) hwritten
          (hts.sublist hus) (ne_file_of_mem_children hc) (ne_target_of_mem_children hn hc) hm hrest
          rfl
        exact lt_of_lt_of_le hlt (Range.contains_iff.mp (contains_child h hts hn hc)).2

end Node

end Syntax

end AnnotationEdit

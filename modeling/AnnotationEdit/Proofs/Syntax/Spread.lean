import AnnotationEdit.Proofs.Locate.Soundness
import AnnotationEdit.Proofs.Syntax.Abstraction

/-!
# Where elements stand

The elements that a written file says stand in the source like its nodes do: each inside the element
around it, and the children of one element apart from each other (`Syntax.spread_value`). Names that
are folded into a dotted name share one range, and a value in `$value` stands beside the annotations
it is written with, so this is not a matter of the concrete tree alone. A range therefore picks one
child of an element, and a descent to a range goes through that child.
-/

namespace AnnotationEdit

namespace Tree

theorem mem_elements_iff {e c : Element} : c ∈ e.elements ↔ .element c ∈ e.content := by
  constructor
  · intro hc
    obtain ⟨node, hnode, heq⟩ := List.mem_filterMap.mp hc
    cases node with
    | element d => rwa [← Option.some.inj heq]
    | text t => cases heq
  · intro hc
    exact List.mem_filterMap.mpr ⟨.element c, hc, rfl⟩

/-- Where both nodes stand in the source, the first one comes before the second. -/
def Apart (a b : Node) : Prop := ∀ r s, a.range = some r → b.range = some s → r.Before s

/-- The element stands at `r`, its children stand inside it and apart, and so do theirs. -/
inductive Spread : Element → Range → Prop
  | intro {e : Element} {r : Range} (range : e.range = some r) (proper : r.Proper)
      (inside : ∀ c, .element c ∈ e.content → ∃ s, c.range = some s ∧ r.contains s = true)
      (apart : e.content.Pairwise Apart)
      (children : ∀ c s, .element c ∈ e.content → c.range = some s → Spread c s) : Spread e r

namespace Spread

variable {e c : Element} {r s : Range}

theorem range (h : Spread e r) : e.range = some r := by
  obtain ⟨hrange, _⟩ := h
  exact hrange

theorem proper (h : Spread e r) : r.Proper := by
  obtain ⟨_, hproper, _⟩ := h
  exact hproper

theorem apart (h : Spread e r) : e.content.Pairwise Apart := by
  obtain ⟨_, _, _, hapart, _⟩ := h
  exact hapart

theorem child (h : Spread e r) (hc : .element c ∈ e.content) :
    ∃ s, Spread c s ∧ r.contains s = true := by
  obtain ⟨_, _, hinside, _, hchildren⟩ := h
  obtain ⟨s, hs, hcontains⟩ := hinside c hc
  exact ⟨s, hchildren c s hc hs, hcontains⟩

theorem unique (h : Spread e r) (hs : e.range = some s) : s = r :=
  Option.some.inj (hs.symm.trans h.range)

/-- An element whose content are elements that stand apart inside it. -/
theorem of_elements {cs : List Element} (hrange : e.range = some r) (hproper : r.Proper)
    (hcontent : e.content = cs.map .element)
    (hinside : ∀ c ∈ cs, ∃ s, Spread c s ∧ r.contains s = true)
    (hapart : cs.Pairwise fun a b => Apart (.element a) (.element b)) : Spread e r := by
  have hmem : ∀ c, Node.element c ∈ e.content → c ∈ cs := by
    intro c hc
    rw [hcontent] at hc
    obtain ⟨d, hd, heq⟩ := List.mem_map.mp hc
    rwa [← Node.element.inj heq]
  refine .intro hrange hproper ?_ ?_ ?_
  · intro c hc
    obtain ⟨s, hs, hcontains⟩ := hinside c (hmem c hc)
    exact ⟨s, hs.range, hcontains⟩
  · rw [hcontent]
    exact List.pairwise_map.mpr hapart
  · intro c s hc hs
    obtain ⟨s', hs', _⟩ := hinside c (hmem c hc)
    rwa [hs'.unique hs]

theorem of_option {value : Option Element} (hrange : e.range = some r) (hproper : r.Proper)
    (hcontent : e.content = value.toList.map .element)
    (hinside : ∀ c, value = some c → ∃ s, Spread c s ∧ r.contains s = true) : Spread e r := by
  refine of_elements hrange hproper hcontent (fun c hc => hinside c (Option.mem_toList.mp hc)) ?_
  cases value with
  | none => exact .nil
  | some c => exact List.pairwise_singleton _ _

/-- What is below an element stands inside it. -/
theorem descend : ∀ {es : List Element} {e : Element} {r : Range}, Spread e r → Descends e es →
    ∃ s, Spread (es.getLast?.getD e) s ∧ r.contains s = true
  | [], _, r, h, _ => ⟨r, h, Range.contains_refl r⟩
  | c :: cs, _, _, h, ⟨⟨_, _, hget⟩, hcs⟩ => by
      obtain ⟨s, hs, hcontains⟩ := h.child (List.mem_of_getElem? hget)
      obtain ⟨s', hs', hcontains'⟩ := hs.descend hcs
      refine ⟨s', ?_, Range.contains_trans hcontains hcontains'⟩
      rw [List.getLast?_cons, Option.getD_some]
      exact hs'

end Spread

/-- Of nodes that stand apart only one is around a range. -/
theorem eq_of_around {α : Type} {range : α → Option Range} {l : List α} {i j : Nat} {a b : α}
    {ra rb s : Range} (hapart : l.Pairwise fun a b => ∀ r s, range a = some r → range b = some s →
      r.Before s) (hs : s.Proper) (ha : l[i]? = some a) (hb : l[j]? = some b)
    (hra : range a = some ra) (hrb : range b = some rb) (hsa : ra.contains s = true)
    (hsb : rb.contains s = true) : i = j := by
  rcases eq_or_rel_of_getElem? hapart ha hb with hij | hbefore | hbefore
  · exact hij
  · exact ((hbefore ra rb hra hrb).not_contains hs hsa hsb).elim
  · exact ((hbefore rb ra hrb hra).not_contains hs hsb hsa).elim

end Tree

/-! ## What a file says -/

namespace Syntax

open AnnotationEdit.Tree (Element ElementKind Spread)

section Elements

variable {v : Vocabulary} {k : Nat} {r : Range} {value : Option Element}

/-- The levels of a dotted name stand where the whole stands. -/
theorem spread_propertyElement (hproper : r.Proper)
    (hvalue : ∀ c, value = some c → ∃ s, Spread c s ∧ r.contains s = true) :
    ∀ (names : List String) (name : String), Spread (propertyElement r value (name :: names)) r ∧
      Spread (foldedRecord r value (name :: names)) r
  | names, name => by
      have hproperty : Spread (propertyElement r value (name :: names)) r := by
        rw [propertyElement_cons]
        refine .of_option rfl hproper rfl fun c hc => ?_
        cases names with
        | nil => exact hvalue c hc
        | cons next names =>
            obtain rfl := Option.some.inj hc
            exact ⟨r, (spread_propertyElement hproper hvalue names next).2, Range.contains_refl r⟩
      exact ⟨hproperty, .of_elements rfl hproper rfl
        (List.forall_mem_singleton.mpr ⟨r, hproperty, Range.contains_refl r⟩)
        (List.pairwise_singleton _ _)⟩

theorem spread_unwrapValue {e : Element} (isPromoted : Bool) (h : Spread e r) :
    (∀ c ∈ unwrapValue isPromoted e, ∃ s, Spread c s ∧ r.contains s = true) ∧
      (unwrapValue isPromoted e).Pairwise fun a b => Tree.Apart (.element a) (.element b) := by
  have hapart : e.elements.Pairwise fun a b => Tree.Apart (.element a) (.element b) := by
    refine List.pairwise_filterMap.mpr (h.apart.imp ?_)
    intro a b hab c hc d hd
    cases a with
    | element c' =>
        cases b with
        | element d' =>
            rw [← Option.some.inj hc, ← Option.some.inj hd]
            exact hab
        | text t => cases hd
    | text t => cases hc
  rw [unwrapValue]
  split
  · -- every child is kept, or the value it holds, which stands inside it
    have hinner : ∀ (d c : Element), d ∈ e.elements →
        (if d.kind == .propertyValue then
          if d.attributeValue? Tree.propertyKey == some "$value" then d.elements.head? else none
        else some d) = some c →
          ∃ s t, Spread d s ∧ r.contains s = true ∧ Spread c t ∧ s.contains t = true := by
      intro d c hd heq
      obtain ⟨s, hs, hcontains⟩ := h.child (Tree.mem_elements_iff.mp hd)
      split at heq
      · split at heq
        · have hc := Tree.mem_elements_iff.mp (List.mem_of_head? heq)
          obtain ⟨t, ht, hinside⟩ := hs.child hc
          exact ⟨s, t, hs, hcontains, ht, hinside⟩
        · cases heq
      · obtain rfl := Option.some.inj heq
        exact ⟨s, s, hs, hcontains, hs, Range.contains_refl s⟩
    constructor
    · intro c hc
      obtain ⟨d, hd, heq⟩ := List.mem_filterMap.mp hc
      obtain ⟨s, t, _, hcontains, ht, hinside⟩ := hinner d c hd heq
      exact ⟨t, ht, Range.contains_trans hcontains hinside⟩
    · refine List.pairwise_filterMap.mpr (List.Pairwise.imp_of_mem ?_ hapart)
      intro a b ha hb hab c hc d hd ra rb hra hrb
      obtain ⟨sa, ta, hsa, _, hta, hina⟩ := hinner a c ha hc
      obtain ⟨sb, tb, hsb, _, htb, hinb⟩ := hinner b d hb hd
      rw [hta.unique hra, htb.unique hrb]
      have hbefore : sa.Before sb := hab sa sb hsa.range hsb.range
      exact le_trans (Range.contains_iff.mp hina).2
        (le_trans hbefore (Range.contains_iff.mp hinb).1)
  · refine ⟨fun c hc => ?_, List.pairwise_singleton _ _⟩
    obtain rfl := List.mem_singleton.mp hc
    exact ⟨r, h, Range.contains_refl r⟩

/-- An annotation stands around what its value stands for. -/
theorem spread_annotationElement {term : String} {qualifier : Option Identifier}
    {isPromoted : Bool} (hproper : r.Proper)
    (hvalue : ∀ c, value = some c → ∃ s, Spread c s ∧ r.contains s = true) :
    Spread (annotationElement v term qualifier r isPromoted value) r := by
  obtain ⟨_, hrange, _, hcontent⟩ := annotationElement_facts v term qualifier r isPromoted value
  cases hnames : (splitTerm v term).2 with
  | cons name names =>
      rw [hnames] at hcontent
      refine .of_elements hrange hproper hcontent (List.forall_mem_singleton.mpr ?_)
        (List.pairwise_singleton _ _)
      exact ⟨r, (spread_propertyElement hproper hvalue names name).2, Range.contains_refl r⟩
  | nil =>
      rw [hnames, annotationContent] at hcontent
      cases value with
      | none => exact .of_elements hrange hproper hcontent (fun _ hc => nomatch hc) .nil
      | some w =>
          obtain ⟨s, hw, hinside⟩ := hvalue w rfl
          obtain ⟨hmembers, hapart⟩ := spread_unwrapValue isPromoted hw
          refine .of_elements hrange hproper hcontent (fun c hc => ?_) hapart
          obtain ⟨t, ht, hcontains⟩ := hmembers c hc
          exact ⟨t, ht, Range.contains_trans hinside hcontains⟩

/-- What holds its value stands around the element of the value. -/
theorem Holds.spread {w : Option Value} (h : Holds k r w)
    (hw : ∀ x, w = some x → Spread (x.element v) x.range) :
    ∀ c, optionElement v w = some c → ∃ s, Spread c s ∧ r.contains s = true := by
  intro c hc
  cases w with
  | none =>
      rw [optionElement] at hc
      cases hc
  | some x =>
      rw [optionElement] at hc
      obtain rfl := Option.some.inj hc
      exact ⟨x.range, hw x rfl, h.inside x rfl⟩

/-- Elements of members that lie apart lie apart. -/
theorem pairwise_apart {α : Type} {ranges : α → Range} {element? : α → Option Element}
    {es : List α} (hapart : es.Pairwise fun a b => (ranges a).Before (ranges b))
    (hrange : ∀ e ∈ es, ∀ c, element? e = some c → c.range = some (ranges e)) :
    (es.filterMap element?).Pairwise fun a b => Tree.Apart (.element a) (.element b) := by
  refine List.pairwise_filterMap.mpr (List.Pairwise.imp_of_mem ?_ hapart)
  intro a b ha hb hab c hc d hd r s hr hs
  have hra : c.range = some r := hr
  have hsb : d.range = some s := hs
  rw [hrange a ha c hc] at hra
  rw [hrange b hb d hd] at hsb
  rwa [← Option.some.inj hra, ← Option.some.inj hsb]

theorem spread_entry {e : Entry} {c : Element} (h : e.Tidy k)
    (hvalue : ∀ p, e = .property p → ∀ w, p.value = some w → Spread (w.element v) w.range)
    (hembedded : ∀ a, e = .embedded a → ∀ w, a.value = some w → Spread (w.element v) w.range)
    (hc : entryElement? v e = some c) : Spread c e.range := by
  cases e with
  | property p =>
      obtain ⟨hholds, hsegments⟩ := holds_property h
      obtain ⟨range, name, colon, value⟩ := p
      rw [entryElement?] at hc
      split at hc
      · cases hc
      · obtain rfl := Option.some.inj hc
        obtain ⟨first, names, hnames⟩ : ∃ first names,
            name.segments.map (·.text) = first :: names :=
          List.exists_cons_of_ne_nil (by rwa [Ne, List.map_eq_nil_iff])
        rw [hnames]
        exact (spread_propertyElement hholds.proper (hholds.spread (hvalue _ rfl)) names first).1
  | embedded a =>
      obtain ⟨hholds, _⟩ := holds_embedded h
      obtain ⟨range, atSign, term, qualifier, colon, value, embedded⟩ := a
      obtain rfl := Option.some.inj hc
      exact spread_annotationElement hholds.proper (hholds.spread (hembedded _ rfl))

theorem spread_record {range : Range} {entries : List Entry}
    (h : (Value.record ⟨range, entries⟩).Tidy k)
    (hentries : ∀ e ∈ entries, ∀ c, entryElement? v e = some c → Spread c e.range) :
    Spread ((Value.record ⟨range, entries⟩).element v) range := by
  obtain ⟨hlists, _⟩ := tidy_record h
  rw [Value.element]
  obtain ⟨_, hrange, hcontent⟩ := Record.element_facts v ⟨range, entries⟩
  rw [entryElements_eq] at hcontent
  refine .of_elements hrange h.proper hcontent ?_ ?_
  · intro c hc
    obtain ⟨e, he, heq⟩ := List.mem_filterMap.mp hc
    exact ⟨e.range, hentries e he c heq, hlists.inside e he⟩
  · exact pairwise_apart hlists.apart fun e he c hc => (hentries e he c hc).range

theorem spread_collection {range : Range} {items : List Value}
    (h : (Value.collection ⟨range, items⟩).Tidy k)
    (hitems : ∀ w ∈ items, Spread (w.element v) w.range) :
    Spread ((Value.collection ⟨range, items⟩).element v) range := by
  obtain ⟨hlists, _⟩ := tidy_collection h
  rw [Value.element, elementsOf_eq]
  refine .of_elements rfl h.proper rfl ?_ ?_
  · intro c hc
    obtain ⟨w, hw, rfl⟩ := List.mem_map.mp hc
    exact ⟨w.range, hitems w hw, hlists.inside w hw⟩
  · have hmap : items.map (·.element v) = items.filterMap fun w => some (w.element v) :=
      (List.filterMap_eq_map_iff_forall_eq_some.mpr fun _ _ => rfl).symm
    rw [hmap]
    refine pairwise_apart hlists.apart fun w hw c hc => ?_
    obtain rfl := Option.some.inj hc
    exact (hitems w hw).range

theorem element_not_mem_primitive (p : Primitive) (c : Element) :
    Tree.Node.element c ∉ (primitiveElement p).content := by
  obtain ⟨_, _, helements⟩ := primitiveElement_facts p
  rw [← Tree.mem_elements_iff, helements]
  exact List.not_mem_nil

theorem spread_primitive {p : Primitive} (h : (Value.primitive p).Tidy k) :
    Spread (primitiveElement p) p.range := by
  obtain ⟨hrange, _⟩ := primitiveElement_facts p
  have hnone := element_not_mem_primitive p
  refine .intro hrange h.proper (fun c hc => absurd hc (hnone c)) ?_
    fun c s hc _ => absurd hc (hnone c)
  obtain ⟨range, kind, text⟩ := p
  cases kind with
  | number =>
      rw [primitiveElement]
      dsimp only
      exact List.pairwise_singleton _ _
  | null => exact .nil
  | _ => exact List.pairwise_singleton _ _

end Elements

mutual

/-- The element of a written value stands where the value stands, with everything below it in its
place. -/
theorem spread_value {v : Vocabulary} {k : Nat} : ∀ w : Value, w.Tidy k →
    Spread (w.element v) w.range
  | .record ⟨range, entries⟩, h => spread_record h (spread_entries entries (tidy_record h).2)
  | .collection ⟨range, items⟩, h => spread_collection h (spread_items items (tidy_collection h).2)
  | .primitive p, h => by
      rw [Value.element]
      exact spread_primitive h

theorem spread_items {v : Vocabulary} {k : Nat} : ∀ ws : List Value, (∀ w ∈ ws, w.Tidy k) →
    ∀ w ∈ ws, Spread (w.element v) w.range
  | [], _ => fun _ hw => nomatch hw
  | w :: ws, h => by
      rw [List.forall_mem_cons] at h ⊢
      exact ⟨spread_value w h.1, spread_items ws h.2⟩

theorem spread_entries {v : Vocabulary} {k : Nat} : ∀ es : List Entry, (∀ e ∈ es, e.Tidy k) →
    ∀ e ∈ es, ∀ c, entryElement? v e = some c → Spread c e.range
  | [], _ => fun _ he => nomatch he
  | .property ⟨range, name, colon, none⟩ :: es, h => by
      rw [List.forall_mem_cons] at h ⊢
      refine ⟨fun c => spread_entry h.1 ?_ nofun, spread_entries es h.2⟩
      rintro p heq w hw
      obtain rfl := Entry.property.inj heq
      cases hw
  | .property ⟨range, name, colon, some x⟩ :: es, h => by
      rw [List.forall_mem_cons] at h ⊢
      refine ⟨fun c => spread_entry h.1 ?_ nofun, spread_entries es h.2⟩
      rintro p heq w hw
      obtain rfl := Entry.property.inj heq
      obtain rfl := Option.some.inj hw
      exact spread_value x ((holds_property h.1).1.tidy x rfl)
  | .embedded ⟨range, atSign, term, qualifier, colon, none, embedded⟩ :: es, h => by
      rw [List.forall_mem_cons] at h ⊢
      refine ⟨fun c => spread_entry h.1 nofun ?_, spread_entries es h.2⟩
      rintro a heq w hw
      obtain rfl := Entry.embedded.inj heq
      cases hw
  | .embedded ⟨range, atSign, term, qualifier, colon, some x, embedded⟩ :: es, h => by
      rw [List.forall_mem_cons] at h ⊢
      refine ⟨fun c => spread_entry h.1 nofun ?_, spread_entries es h.2⟩
      rintro a heq w hw
      obtain rfl := Entry.embedded.inj heq
      obtain rfl := Option.some.inj hw
      exact spread_value x ((holds_embedded h.1).1.tidy x rfl)

end

end Syntax

end AnnotationEdit

import AnnotationEdit.Proofs.Locate.Detours

/-!
# Where a search ends

A search that ends at a node of its own has come to the node the element is written as: it stands
where the element stands and is of its kind. The search is in step with the walk until a property
holds a record with `$value`; there it runs ahead, and then it ends at a folded level or fails. While
it is in step, every node that is entered is smaller than the one before, so none of the elements on
the way stands where the last one stands. Two elements that are found at one node are therefore one
element (`located_exactly`).
-/

namespace AnnotationEdit

open Syntax (Node Value Entry Lists Holds)
open AnnotationEdit.Tree (View Element ElementKind Addressed Descends Spread)

/-- The node is what an element of the kind is written as. -/
def Syntax.Node.isOfKind (kind : ElementKind) : Node → Bool
  | Node.annotation _ => kind == ElementKind.annotation
  | .record _ => kind == .record
  | .collection _ => kind == .collection
  | .property _ => kind == .propertyValue
  | .primitive _ => kind.isPrimitive
  | _ => false

/-- The node stands where the element stands, and is what an element of its kind is written as. -/
def Syntax.Node.Represents (n : Node) (e : Element) : Prop :=
  e.range = some n.range ∧ n.isOfKind e.kind = true

theorem Syntax.Node.represents_ofValue (v : Vocabulary) (w : Value) :
    (Node.ofValue w).Represents (w.element v) := by
  refine ⟨by rw [Locate.range_ofValue, Value.range_element], ?_⟩
  cases w with
  | record r =>
      rw [Locate.kind_record]
      rfl
  | collection c =>
      obtain ⟨range, items⟩ := c
      rw [Value.element]
      rfl
  | primitive p =>
      rw [Value.element]
      exact (Syntax.primitiveElement_facts p).2.1

/-- The node is what the element is written as, and a value tells nothing else than the element. -/
structure Syntax.Node.Writes (n : Node) (v : Vocabulary) (e : Element) : Prop where
  represents : n.Represents e
  element : ∀ w, n = .ofValue w → e = w.element v

theorem Syntax.Node.writes_ofValue (v : Vocabulary) (w : Value) :
    (Node.ofValue w).Writes v (w.element v) := by
  refine ⟨represents_ofValue v w, fun x hx => ?_⟩
  cases w <;> cases x <;> cases hx <;> rfl

theorem Syntax.Node.Represents.writes {n : Node} {e : Element} (h : n.Represents e)
    (hvalue : n.isValue = false) (v : Vocabulary) : n.Writes v e := by
  refine ⟨h, ?_⟩
  rintro w rfl
  rw [Locate.isValue_ofValue] at hvalue
  cases hvalue

namespace Locate

theorem writes_annotation {term : String} {a : Syntax.Annotation}
    (h : (annotationElement term a).range = some a.range) :
    (Node.annotation a).Writes .standard (annotationElement term a) := by
  refine Node.Represents.writes ⟨h, ?_⟩ rfl _
  rw [annotationElement, (Syntax.annotationElement_facts ..).1]
  rfl

/-! ## In step with the walk -/

/-- The search has come to the element `e` at `n`, and unless it stays at a folded level, `n` is
what `e` is written as. -/
structure State.Stands (v : Vocabulary) (s : State) (e : Element) (n : Node)
    (pending : List String) : Prop where
  at_ : s.At n pending
  writes : s.collapsed = false → n.Writes v e

/-- The node is what the last of the elements is written as, and none in front of it stands there. -/
structure Hits (v : Vocabulary) (e : Element) (es : List Element) (n : Node) : Prop where
  writes : n.Writes v (es.getLast?.getD e)
  first : ∀ x ∈ (e :: es).dropLast, x.range ≠ some n.range

/-- Every search for something below `e` that stands at `n` hits, if it ends at no folded level. -/
def Exact (v : Vocabulary) (e : Element) (n : Node) (pending : List String) : Prop :=
  ∀ (es : List Element) (g : Goal) (s t : State), Descends e es → g.vocabulary = v →
    (es.getLast?.getD e).range = some g.range → s.Stands v e n pending →
    g.steps (.element e) (es.map .element) s = .ok t → t.collapsed = false → Hits v e es t.node

/-- How a search at `n` has gone on to `c` and goes on from there: it has come to a smaller node, or
stays at a folded level, or has lost its way. -/
inductive Onward (v : Vocabulary) (g : Goal) (n : Node) (c : Element) (cs : List Element)
    (t : State) : Prop
  | enters {n' : Node} {pending : List String} : t.At n' pending → n'.Writes v c →
      g.range ≠ n.range → Exact v c n' pending → Onward v g n c cs t
  | folds {pending : List String} : t.At n pending → t.collapsed = true →
      c.range = some n.range → Exact v c n pending → Onward v g n c cs t
  | lost : (∀ u, g.steps (.element c) (cs.map .element) t = .ok u → u.collapsed = true) →
      Onward v g n c cs t

section Exact

variable {v : Vocabulary} {e c : Element} {n n' : Node} {pending pending' : List String}

theorem exact_of_onward (hrange : e.range = some n.range)
    (h : ∀ (c : Element) (cs : List Element) (g : Goal) (s t : State), Addressed e c →
      Descends c cs → g.vocabulary = v → (cs.getLast?.getD c).range = some g.range →
      s.At n pending → g.enterElement (some e.kind) c s = .ok t → Onward v g n c cs t) :
    Exact v e n pending := by
  intro es g s t hes hg hlast hs hsteps hopen
  cases es with
  | nil =>
      obtain rfl := Except.ok.inj hsteps
      rw [hs.at_.1]
      exact ⟨hs.writes hopen, fun _ hx => nomatch hx⟩
  | cons c cs =>
      obtain ⟨u, hu, hrest⟩ := Goal.steps_cons_ok hsteps
      rw [getLast?_getD_cons] at hlast
      have honward := h c cs g { s with collapsed := false } u hes.1 hes.2 hg hlast hs.at_ hu
      have hhits : ∀ {n' : Node} {pending' : List String}, u.Stands v c n' pending' →
          Exact v c n' pending' → e.range ≠ some g.range ∨ u.collapsed = true ∧ c.range = e.range →
          Hits v e (c :: cs) t.node := by
        intro n' pending' hstands hexact hbefore
        obtain ⟨hwrites, hfirst⟩ := hexact cs g u t hes.2 hg hlast hstands hrest hopen
        have hnode : t.node.range = g.range := by
          rw [hwrites.represents.1] at hlast
          exact Option.some.inj hlast
        refine ⟨by rwa [getLast?_getD_cons], ?_⟩
        rw [List.dropLast_cons_cons, List.forall_mem_cons]
        refine ⟨?_, hfirst⟩
        rw [hnode]
        rcases hbefore with hbefore | ⟨hcollapsed, hsame⟩
        · exact hbefore
        · cases cs with
          | nil =>
              obtain rfl := Except.ok.inj hrest
              rw [hcollapsed] at hopen
              cases hopen
          | cons d ds =>
              rw [← hsame, ← hnode]
              exact hfirst c List.mem_cons_self
      cases honward with
      | enters hat hwrites hne hexact =>
          refine hhits ⟨hat, fun _ => hwrites⟩ hexact (Or.inl ?_)
          rw [hrange]
          exact fun heq => hne (Option.some.inj heq).symm
      | folds hat hcollapsed hsame hexact =>
          refine hhits ⟨hat, fun hopen => ?_⟩ hexact (Or.inr ⟨hcollapsed, hsame.trans hrange.symm⟩)
          rw [hcollapsed] at hopen
          cases hopen
      | lost hlost =>
          rw [hlost t hrest] at hopen
          cases hopen

/-- The search goes on to a smaller node, which is what `c` is written as. -/
structure Enters (v : Vocabulary) (parent : Option ElementKind) (n : Node) (pending : List String)
    (c : Element) (n' : Node) (pending' : List String) : Prop where
  leads : Leads v parent n pending c n' pending'
  spread : Spread c n'.range
  writes : n'.Writes v c
  after : n.range.start < n'.range.start
  exact_ : Exact v c n' pending'

theorem Enters.onward (h : Enters v (some e.kind) n pending c n' pending') {cs : List Element}
    {g : Goal} {s t : State} (hcs : Descends c cs) (hg : g.vocabulary = v)
    (hlast : (cs.getLast?.getD c).range = some g.range) (hs : s.At n pending)
    (ht : g.enterElement (some e.kind) c s = .ok t) : Onward v g n c cs t := by
  obtain ⟨r, hr, hcontains⟩ := h.spread.descend hcs
  obtain rfl := hr.unique hlast
  obtain ⟨u, hu, hat⟩ := h.leads.enters g s hg hr.proper hcontains hs
  obtain rfl := Except.ok.inj (hu.symm.trans ht)
  refine .enters hat h.writes (fun heq => ?_) h.exact_
  rw [heq] at hcontains
  exact absurd (Range.contains_iff.mp hcontains).1 (not_le_of_gt h.after)

theorem exact_of_members (hrange : e.range = some n.range)
    (h : ∀ c, Addressed e c → ∃ n' pending', Enters v (some e.kind) n pending c n' pending') :
    Exact v e n pending := by
  refine exact_of_onward hrange ?_
  intro c cs g s t hc hcs hg hlast hs ht
  obtain ⟨n', pending', henters⟩ := h c hc
  exact henters.onward hcs hg hlast hs ht

theorem exact_of_stops (stops : List Stop) (hrange : e.range = some n.range)
    (hcontent : e.content = stops.map fun m => .element m.element)
    (h : ∀ m ∈ stops, Enters v (some e.kind) n pending m.element m.node m.pending) :
    Exact v e n pending := by
  refine exact_of_members hrange ?_
  rintro c ⟨i, _, hget⟩
  rw [hcontent] at hget
  obtain ⟨m, hm, heq⟩ := List.mem_map.mp (List.mem_of_getElem? hget)
  obtain rfl := Tree.Node.element.inj heq
  exact ⟨m.node, m.pending, h m hm⟩

/-! ## Folded names -/

variable {value : Option Element}

/-- A record that stands for further names. -/
theorem exact_foldedRecord {name : String} {names : List String}
    (h : Exact v (Syntax.propertyElement n.range value (name :: names)) n names) :
    Exact v (Syntax.foldedRecord n.range value (name :: names)) n (name :: names) := by
  refine exact_of_onward rfl ?_
  intro c cs g s t hc hcs hg hlast hs ht
  obtain rfl := addressed_foldedRecord hc
  obtain rfl := Except.ok.inj ((Goal.enterElement_name hs.2).symm.trans ht)
  refine .folds ⟨hs.1, rfl⟩ rfl ?_ h
  rw [Syntax.propertyElement_cons]

/-- What holds such a record and nothing else. -/
theorem exact_of_folded {name : String} {names : List String}
    (hkind : e.kind = .propertyValue ∨ e.kind = ElementKind.annotation)
    (hrange : e.range = some n.range)
    (hcontent : e.content = [.element (Syntax.foldedRecord n.range value (name :: names))])
    (h : Exact v (Syntax.propertyElement n.range value (name :: names)) n names) :
    Exact v e n (name :: names) := by
  refine exact_of_onward hrange ?_
  rintro c cs g s t ⟨i, _, hget⟩ hcs hg hlast hs ht
  rw [hcontent] at hget
  obtain rfl := Tree.Node.element.inj (List.mem_singleton.mp (List.mem_of_getElem? hget))
  obtain rfl := Except.ok.inj ((Goal.enterElement_folded hkind hs.2).symm.trans ht)
  exact .folds hs rfl rfl (exact_foldedRecord h)

theorem exact_names (h : ∀ name, Exact v (Syntax.propertyElement n.range value [name]) n []) :
    ∀ (names : List String) (name : String),
      Exact v (Syntax.propertyElement n.range value (name :: names)) n names
  | [], name => h name
  | next :: names, name => by
      refine exact_of_folded (Or.inl ?_) ?_ ?_ (exact_names h names next) <;>
        rw [Syntax.propertyElement_cons]
      rfl

end Exact

/-! ## Values -/

/-- Searches that stand at the value hit. -/
def ValueExact (w : Value) : Prop := Exact .standard (w.element .standard) (.ofValue w) []

/-- Searches that stand at the annotation hit. -/
def AnnotationExact (term : String) (a : Syntax.Annotation) : Prop :=
  Exact .standard (annotationElement term a) (Node.annotation a)
    (Syntax.splitTerm .standard term).2

def EntryExact : Entry → Prop
  | .property p => ∀ w, p.value = some w → ValueExact w
  | .embedded a => AnnotationExact a.term.text a

section Values

variable {k : Nat} {n : Node} {value : Option Value}

/-- A value comes after the start of what holds it. -/
structure HoldsAfter (k : Nat) (r : Range) (value : Option Value) : Prop extends
    Holds k r value where
  after : ∀ w, value = some w → r.start < w.range.start

theorem HoldsAfter.of_property {p : Syntax.Property} (h : (Entry.property p).Tidy k) :
    HoldsAfter k p.range p.value := by
  obtain ⟨hholds, _⟩ := Syntax.holds_property h
  obtain ⟨ts, hts, hwritten⟩ := h
  obtain ⟨hstart, _, hvalue⟩ := @Node.property_of_writtenAs .standard _ _ p hwritten hts
  exact ⟨hholds, fun w hw => lt_trans hstart (hvalue w hw).1⟩

theorem HoldsAfter.of_heads {a : Syntax.Annotation} (h : Holds k a.range a.value)
    (hheads : Node.Heads a) : HoldsAfter k a.range a.value :=
  ⟨h, fun w hw => lt_trans (lt_of_lt_of_le hheads.start hheads.term) (hheads.value w hw).1⟩

theorem HoldsAfter.of_embedded {a : Syntax.Annotation} (h : (Entry.embedded a).Tidy k) :
    HoldsAfter k a.range a.value := by
  refine .of_heads (Syntax.holds_embedded h).1 ?_
  obtain ⟨ts, hts, hwritten⟩ := h
  exact @Node.heads_of_writtenAs .standard _ _ _ (Or.inl hwritten) hts

/-- The search goes on to a value that holds no other one. -/
theorem enters_value {parent : ElementKind} {w : Value}
    (hparent : parent = .propertyValue ∨ parent = ElementKind.annotation)
    (hvalue : valueOf? n = some w) (hholds : HoldsAfter k n.range (some w))
    (hw : holdsValue w = false) (hexact : ValueExact w) :
    Enters .standard (some parent) n [] (w.element .standard) (.ofValue w) [] where
  leads := leads_value hparent hvalue (hholds.inside w rfl) hw
  spread := by
    rw [range_ofValue]
    exact Syntax.spread_value w (hholds.tidy w rfl)
  writes := Node.writes_ofValue _ w
  after := by
    rw [range_ofValue]
    exact hholds.after w rfl
  exact_ := hexact

/-- What a property with one name holds. In a record with `$value` the search for what is inside the
value runs ahead. -/
theorem exact_held (name : String) (hvalue : valueOf? n = value)
    (hholds : HoldsAfter k n.range value) (hexact : ∀ w, value = some w → ValueExact w) :
    Exact .standard (Syntax.propertyElement n.range (Syntax.optionElement .standard value) [name])
      n [] := by
  refine exact_of_onward (by rw [Syntax.propertyElement_cons]) ?_
  intro c cs g s t hc hcs hg hlast hs ht
  have hheld := addressed_propertyElement hc
  cases value with
  | none =>
      rw [Syntax.optionElement] at hheld
      cases hheld
  | some w =>
      rw [Syntax.optionElement] at hheld
      obtain rfl := Option.some.inj hheld
      have hw := hholds.tidy w rfl
      obtain ⟨r, hr, hcontains⟩ := (Syntax.spread_value (v := .standard) w hw).descend hcs
      obtain rfl := hr.unique hlast
      obtain ⟨m, hm, hunwrapped⟩ := Goal.enterContent_value (g := g) (w.element .standard).kind
        (hs.1.symm ▸ hvalue) hs.2 hcontains
      have hstep : g.enterElement (some (Syntax.propertyElement n.range
          (some (w.element .standard)) [name]).kind) (w.element .standard) s =
            .ok (g.unwrapValue m) := by
        rw [← hunwrapped, Syntax.propertyElement_cons]
        exact Goal.enterElement_content (Or.inl rfl) (w.kind_element _).1
      rw [Syntax.optionElement] at ht
      obtain rfl := Except.ok.inj (hstep.symm.trans ht)
      rcases unwrapValue_cases (g := g) hm.1 with hself | ⟨r, i, p, x, rfl, hentry, hx, hin, hat⟩
      · rw [hself]
        refine .enters hm (Node.writes_ofValue _ w) (fun heq => ?_) (hexact w rfl)
        rw [heq] at hcontains
        exact absurd (Range.contains_iff.mp hcontains).1 (not_le_of_gt (hholds.after w rfl))
      · obtain ⟨range, entries⟩ := r
        refine .lost fun u hu => ?_
        have hp : Entry.property p ∈ entries := mem_of_valueEntry hentry
        obtain ⟨front, rest, rfl, hfront, _, hrest⟩ :=
          descends_property hw hp hx hr.proper hin hcs hlast
        have hx' : x.Tidy k := (Syntax.holds_property ((Syntax.tidy_record hw).2 _ hp)).1.tidy x hx
        rw [getLast?_getD_append] at hlast
        rw [hm.2] at hat
        exact collapsed_of_ahead hx' hr.proper hat
          ⟨kind_record _ _, hfront, hrest, hlast⟩ hu

/-! ## Records and collections -/

theorem exact_primitive (p : Syntax.Primitive) : ValueExact (.primitive p) := by
  refine exact_of_members (Value.range_element .standard (.primitive p)) ?_
  rintro c ⟨i, _, hget⟩
  have hmem : c ∈ (Syntax.primitiveElement p).elements :=
    List.mem_filterMap.mpr ⟨.element c, List.mem_of_getElem? hget, rfl⟩
  rw [(Syntax.primitiveElement_facts p).2.2] at hmem
  exact absurd hmem List.not_mem_nil

theorem exact_collection {range : Range} {items : List Value}
    (h : (Value.collection ⟨range, items⟩).Tidy k) (hitems : ∀ w ∈ items, ValueExact w) :
    ValueExact (.collection ⟨range, items⟩) := by
  obtain ⟨hlists, htidy⟩ := Syntax.tidy_collection h
  refine exact_of_stops (items.map valueStop) (Value.range_element _ _) ?_ ?_
  · rw [Value.element, Syntax.elementsOf_eq, List.map_map, List.map_map]
    rfl
  · intro m hm
    obtain ⟨w, hw, rfl⟩ := List.mem_map.mp hm
    have hrange : (Node.ofValue w).range = w.range := range_ofValue w
    exact ⟨leads_item hlists hw, hrange ▸ Syntax.spread_value w (htidy w hw),
      Node.writes_ofValue _ w, hrange ▸ hlists.after w hw, hitems w hw⟩

theorem writes_entry {range : Range} {entries : List Entry} {e : Entry} {x : Element}
    (h : (Value.record ⟨range, entries⟩).Tidy k) (he : e ∈ entries)
    (hx : Syntax.entryElement? .standard e = some x) : (Node.ofEntry e).Writes .standard x := by
  obtain ⟨_, htidy⟩ := Syntax.tidy_record h
  have hspread := Syntax.spread_entries entries htidy e he x hx
  rw [← element_entryStop?, Option.map_eq_some_iff] at hx
  obtain ⟨m, hm, rfl⟩ := hx
  cases e with
  | property p =>
      obtain ⟨name, names, _, rfl⟩ := entryStop?_property (htidy _ he) hm
      refine Node.Represents.writes ⟨hspread.range, ?_⟩ rfl _
      rw [Syntax.propertyElement_cons]
      rfl
  | embedded a =>
      obtain rfl := Option.some.inj hm
      exact writes_annotation hspread.range

theorem enters_entry {range : Range} {entries : List Entry} {e : Entry} {m : Stop}
    (h : (Value.record ⟨range, entries⟩).Tidy k) (he : e ∈ entries) (hexact : EntryExact e)
    (hm : entryStop? e = some m) :
    Enters .standard (some .record) (.record ⟨range, entries⟩) [] m.element m.node m.pending := by
  obtain ⟨hlists, htidy⟩ := Syntax.tidy_record h
  have helement : Syntax.entryElement? .standard e = some m.element := by
    rw [← element_entryStop?, hm]
    rfl
  have hspread := Syntax.spread_entries entries htidy e he m.element helement
  have hwrites := writes_entry h he helement
  have hleads := leads_entry hlists he (htidy e he) hm
  have hafter := hlists.after e he
  cases e with
  | property p =>
      obtain ⟨name, names, _, rfl⟩ := entryStop?_property (htidy _ he) hm
      refine ⟨hleads, hspread, hwrites, hafter, ?_⟩
      exact exact_names (n := .property p)
        (fun name => exact_held name rfl (.of_property (htidy _ he)) hexact) names name
  | embedded a =>
      obtain rfl := Option.some.inj hm
      simp only [annotationStop_element, annotationStop_node, annotationStop_pending]
        at hleads hspread hwrites ⊢
      exact ⟨hleads, hspread, hwrites, hafter, hexact⟩

theorem exact_record {range : Range} {entries : List Entry}
    (h : (Value.record ⟨range, entries⟩).Tidy k) (hentries : ∀ e ∈ entries, EntryExact e) :
    ValueExact (.record ⟨range, entries⟩) := by
  refine exact_of_stops (entries.filterMap entryStop?) (Value.range_element _ _)
    (content_entryStops range entries) fun m hm => ?_
  obtain ⟨e, he, hstop⟩ := List.mem_filterMap.mp hm
  rw [kind_record]
  exact enters_entry h he (hentries e he) hstop

/-! ## Annotations -/

theorem enters_promoted {a : Syntax.Annotation} {range : Range} {entries : List Entry} {e : Entry}
    {m : Stop} (hvalue : a.value = some (.record ⟨range, entries⟩))
    (hholds : HoldsAfter k a.range a.value)
    (hpromoted : Value.isPromoted (.record ⟨range, entries⟩) = true)
    (honce : entries.countP Syntax.isValueEntry ≤ 1) (he : e ∈ entries) (hexact : EntryExact e)
    (hm : promotedStop? e = some m) :
    Enters .standard (some ElementKind.annotation) (Node.annotation a) [] m.element m.node
      m.pending := by
  have hrecord := hholds.tidy _ hvalue
  obtain ⟨hlists, htidy⟩ := Syntax.tidy_record hrecord
  have hleads := leads_promotedStop hvalue hholds.toHolds hpromoted honce he hm
  have hafter : a.range.start < e.range.start :=
    lt_trans (hholds.after _ hvalue) (hlists.after e he)
  cases e with
  | property q =>
      rw [promotedStop?] at hm
      split at hm
      · obtain ⟨x, hx, rfl⟩ := Option.map_eq_some_iff.mp hm
        obtain ⟨hqHolds, _⟩ := Syntax.holds_property (htidy _ he)
        have hrange : (Node.ofValue x).range = x.range := range_ofValue x
        refine ⟨hleads, ?_, Node.writes_ofValue _ x, ?_, hexact x hx⟩
        · exact hrange ▸ Syntax.spread_value x (hqHolds.tidy x hx)
        · have hinside := (Range.contains_iff.mp (hqHolds.inside x hx)).1
          exact hrange ▸ lt_of_lt_of_le hafter hinside
      · cases hm
  | embedded b =>
      obtain rfl := Option.some.inj hm
      have hspread := Syntax.spread_entries entries htidy _ he _ (element_entryStop? (.embedded b)).symm
      simp only [annotationStop_element, annotationStop_node, annotationStop_pending]
        at hleads hspread ⊢
      exact ⟨hleads, hspread, writes_annotation hspread.range, hafter, hexact⟩

theorem exact_annotation {term : String} {a : Syntax.Annotation}
    (hholds : HoldsAfter k a.range a.value) (honce : Syntax.optionNamesValueOnce a.value = true)
    (hvalue : ∀ w, a.value = some w → ValueExact w)
    (hentries : ∀ range entries, a.value = some (.record ⟨range, entries⟩) →
      ∀ e ∈ entries, EntryExact e) : AnnotationExact term a := by
  have hfacts := Syntax.annotationElement_facts .standard term a.qualifier a.range
    (a.value.any Value.isPromoted) (Syntax.optionElement .standard a.value)
  have hcontent := hfacts.2.2.2
  cases hnames : (Syntax.splitTerm .standard term).2 with
  | cons name names =>
      rw [hnames] at hcontent
      rw [AnnotationExact, hnames]
      exact exact_of_folded (Or.inr hfacts.1) hfacts.2.1 hcontent
        (exact_names (n := Node.annotation a) (fun name => exact_held name rfl hholds hvalue) names
          name)
  | nil =>
      rw [hnames] at hcontent
      rw [AnnotationExact, hnames]
      cases hv : a.value with
      | none =>
          rw [hv] at hcontent
          refine exact_of_stops [] hfacts.2.1 ?_ fun m hm => absurd hm List.not_mem_nil
          rw [annotationElement, hv]
          exact hcontent
      | some w =>
          cases hpromoted : w.isPromoted with
          | false =>
              refine exact_of_stops [valueStop w] hfacts.2.1 ?_ (List.forall_mem_singleton.mpr ?_)
              · rw [hv, Option.any_some, hpromoted, Syntax.optionElement] at hcontent
                rw [annotationElement, hv, Option.any_some, hpromoted, Syntax.optionElement]
                exact hcontent
              · rw [annotationElement, hfacts.1]
                exact enters_value (Or.inr rfl) hv (hv ▸ hholds)
                  (holdsValue_of_not_promoted hpromoted) (hvalue w hv)
          | true =>
              cases w with
              | record r =>
                  obtain ⟨range, entries⟩ := r
                  rw [hv, Syntax.optionNamesValueOnce, Value.namesValueOnce, Bool.and_eq_true,
                    decide_eq_true_iff] at honce
                  have htidy := (Syntax.tidy_record (hholds.tidy _ hv)).2
                  refine exact_of_stops (entries.filterMap promotedStop?) hfacts.2.1
                    (content_promotedStops hv htidy hnames hpromoted honce.1) fun m hm => ?_
                  obtain ⟨e, he, hstop⟩ := List.mem_filterMap.mp hm
                  rw [annotationElement, hfacts.1]
                  exact enters_promoted hv hholds hpromoted honce.1 he
                    (hentries range entries hv e he) hstop
              | collection l => cases hpromoted
              | primitive p => cases hpromoted

mutual

/-- Searches that stand at a value hit, and so do those at an entry when the value is a record. -/
theorem exact_value : ∀ w : Value, w.Tidy k → w.namesValueOnce = true →
    ValueExact w ∧ ∀ range entries, w = .record ⟨range, entries⟩ → ∀ e ∈ entries, EntryExact e
  | .record ⟨range, entries⟩, htidy, honce => by
      rw [Value.namesValueOnce, Bool.and_eq_true] at honce
      have hentries := exact_entries entries (Syntax.tidy_record htidy).2 honce.2
      refine ⟨exact_record htidy hentries, ?_⟩
      intro range' entries' heq
      obtain ⟨_, rfl⟩ := Syntax.Record.mk.inj (Value.record.inj heq)
      exact hentries
  | .collection ⟨range, items⟩, htidy, honce => by
      rw [Value.namesValueOnce] at honce
      exact ⟨exact_collection htidy (exact_items items (Syntax.tidy_collection htidy).2 honce),
        nofun⟩
  | .primitive p, _, _ => ⟨exact_primitive p, nofun⟩

theorem exact_items : ∀ ws : List Value, (∀ w ∈ ws, w.Tidy k) →
    Syntax.itemsNameValueOnce ws = true → ∀ w ∈ ws, ValueExact w
  | [], _, _ => fun w hw => absurd hw List.not_mem_nil
  | w :: ws, htidy, honce => by
      rw [Syntax.itemsNameValueOnce, Bool.and_eq_true] at honce
      rw [List.forall_mem_cons] at htidy ⊢
      exact ⟨(exact_value w htidy.1 honce.1).1, exact_items ws htidy.2 honce.2⟩

theorem exact_entries : ∀ es : List Entry, (∀ e ∈ es, e.Tidy k) →
    Syntax.entriesNameValueOnce es = true → ∀ e ∈ es, EntryExact e
  | [], _, _ => fun e he => absurd he List.not_mem_nil
  | .property ⟨range, name, colon, none⟩ :: es, htidy, honce => by
      rw [Syntax.entriesNameValueOnce, Bool.and_eq_true] at honce
      rw [List.forall_mem_cons] at htidy ⊢
      exact ⟨nofun, exact_entries es htidy.2 honce.2⟩
  | .property ⟨range, name, colon, some v⟩ :: es, htidy, honce => by
      rw [Syntax.entriesNameValueOnce, Bool.and_eq_true, Syntax.optionNamesValueOnce] at honce
      rw [List.forall_mem_cons] at htidy ⊢
      refine ⟨?_, exact_entries es htidy.2 honce.2⟩
      intro w hw
      obtain rfl := Option.some.inj hw
      exact (exact_value v ((Syntax.holds_property htidy.1).1.tidy v rfl) honce.1).1
  | .embedded ⟨range, atSign, term, qualifier, colon, none, embedded⟩ :: es, htidy, honce => by
      rw [Syntax.entriesNameValueOnce, Bool.and_eq_true] at honce
      rw [List.forall_mem_cons] at htidy ⊢
      refine ⟨?_, exact_entries es htidy.2 honce.2⟩
      exact exact_annotation (.of_embedded htidy.1) honce.1 nofun
        nofun
  | .embedded ⟨range, atSign, term, qualifier, colon, some v, embedded⟩ :: es, htidy, honce => by
      rw [Syntax.entriesNameValueOnce, Bool.and_eq_true, Syntax.optionNamesValueOnce] at honce
      rw [List.forall_mem_cons] at htidy ⊢
      refine ⟨?_, exact_entries es htidy.2 honce.2⟩
      have hholds := HoldsAfter.of_embedded htidy.1
      obtain ⟨hvalue, hentries⟩ := exact_value v (hholds.tidy v rfl) honce.1
      refine exact_annotation hholds honce.1 ?_ ?_
      · intro w hw
        obtain rfl := Option.some.inj hw
        exact hvalue
      · exact fun range entries hw => hentries range entries (Option.some.inj hw)

end

end Values

/-! ## Files -/

section Files

variable {k : Nat} {f : Syntax.File}

def HeadsFirst (k : Nat) (t : Syntax.Target) : Prop :=
  ∀ a ∈ t.assignments, ∀ b ∈ a.annotations, HoldsAfter k b.range b.value

theorem enters_term {t : Syntax.Target} (ht : t.Tidy k) (hheads : HeadsFirst k t)
    (honce : ∀ a ∈ t.assignments, ∀ b ∈ a.annotations, Syntax.optionNamesValueOnce b.value = true) :
    ∀ m ∈ t.assignments.flatMap termStops,
      Enters .standard none (.target t) [] m.element m.node m.pending := by
  have hterm : ∀ (term : String) (a : Syntax.Annotation), HoldsAfter k a.range a.value →
      Syntax.optionNamesValueOnce a.value = true → t.range.start < a.range.start →
      Leads .standard none (.target t) [] (annotationElement term a) (Node.annotation a)
        (Syntax.splitTerm .standard term).2 →
      Enters .standard none (.target t) [] (annotationElement term a) (Node.annotation a)
        (Syntax.splitTerm .standard term).2 := by
    intro term a hholds ha hafter hleads
    have hspread : Spread (annotationElement term a) a.range :=
      Syntax.spread_annotationElement hholds.proper
        (hholds.spread fun x hx => Syntax.spread_value x (hholds.tidy x hx))
    refine ⟨hleads, hspread, writes_annotation hspread.range, hafter,
      exact_annotation hholds ha ?_ ?_⟩
    · intro w hw
      rw [hw] at ha
      exact (exact_value w (hholds.tidy w hw) ha).1
    · intro range entries hw
      rw [hw] at ha
      exact (exact_value _ (hholds.tidy _ hw) ha).2 range entries rfl
  intro m hm
  have hleads := (decided_term ht honce m hm).1
  obtain ⟨a, ha, hstop⟩ := List.mem_flatMap.mp hm
  cases a with
  | single a =>
      obtain rfl := List.mem_singleton.mp hstop
      simp only [annotationStop_element, annotationStop_node, annotationStop_pending] at hleads ⊢
      exact hterm _ a (hheads _ ha a (List.mem_singleton_self a))
        (honce _ ha a (List.mem_singleton_self a)) (ht.lists.after _ ha) hleads
  | group g =>
      obtain ⟨a, hitem, rfl⟩ := List.mem_map.mp hstop
      simp only [annotationStop_element, annotationStop_node, annotationStop_pending] at hleads ⊢
      obtain ⟨hitems, hlists, _⟩ : g.range.contains g.items.range = true ∧
          Lists k g.items.range Syntax.Annotation.range g.items.items ∧ _ := ht.assignments _ ha
      have hafter : t.range.start < a.range.start :=
        lt_trans (lt_of_lt_of_le (ht.lists.after _ ha) (Range.contains_iff.mp hitems).1)
          (hlists.after a hitem)
      exact hterm _ a (hheads _ ha a hitem) (honce _ ha a hitem) hafter hleads

/-- A search that ends at no folded level hits. -/
theorem exists_hits (hf : f.Tidy k) (hheads : ∀ t ∈ f.targets, HeadsFirst k t)
    (honce : f.namesValueOnce = true) {p : Pointer} {e : Element} {l : Located}
    (hp : (f.abstraction .standard).resolve? p = some (.element e))
    (hl : locate p (f.abstraction .standard) f .standard = .ok l) (hopen : l.collapsed = false) :
    ∃ t ∈ f.targets, ∃ m ∈ t.assignments.flatMap termStops, ∃ es n,
      (f.abstraction .standard).walk? p =
        some (.file (f.abstraction .standard) :: .target (t.abstraction .standard) ::
          (m.element :: es).map .element) ∧
      es.getLast?.getD m.element = e ∧ Descends m.element es ∧ f.resolve? l.pointer = some n ∧
      Hits .standard m.element es n := by
  obtain ⟨views, hviews, hlast⟩ := Option.bind_eq_some_iff.mp hp
  rcases Tree.File.walk?_cases hviews hlast rfl with ⟨_, _, rfl⟩ | ⟨_, _, rfl⟩ |
    ⟨t', ht', e', he', es, hes, rfl⟩
  · cases hlast
  · cases hlast
  · obtain ⟨t, ht, rfl⟩ := List.mem_map.mp ht'
    rw [terms_eq] at he'
    obtain ⟨m, hm, rfl⟩ := List.mem_map.mp he'
    have henters := enters_term (hf.targets t ht) (hheads t ht) (once_of_mem honce ht) m hm
    rw [List.getLast?_cons_cons, getLast?_descent] at hlast
    obtain rfl := View.element.inj (Option.some.inj hlast)
    obtain ⟨r, hspread, hcontains⟩ := henters.spread.descend hes
    refine ⟨t, ht, m, hm, es, ?_⟩
    rw [locate_eq hviews (getLast?_descent _ _ _) hspread.range] at hl
    obtain ⟨u, hat, hu⟩ := steps_term (g := ⟨p, .standard, r⟩) (f.abstraction .standard) hf ht rfl
      hspread.proper hcontains henters.leads (t.abstraction .standard) es
    cases hs : Goal.steps ⟨p, .standard, r⟩ (.file (f.abstraction .standard))
        (.target (t.abstraction .standard) :: (m.element :: es).map .element) (Goal.start f) with
    | error err =>
        rw [hs] at hl
        cases hl
    | ok s =>
        rw [hs] at hl
        obtain rfl := Except.ok.inj hl
        have hresolves : s.Resolves f := by
          rw [Goal.steps] at hs
          split at hs
          · next s' hs' =>
            have hreached := Goal.step_target_reached (Goal.start_resolves f) s' hs'
            exact (Goal.steps_reached hreached s hs).1
          · cases hs
        refine ⟨s.node, hviews, rfl, hes, hresolves, ?_⟩
        exact henters.exact_ es _ u s hes rfl hspread.range ⟨hat, fun _ => henters.writes⟩
          (hu.symm.trans hs) hopen

end Files

/-! ## One way to each node -/

section Walks

theorem exists_segments {v w : View} : ∀ {path : List String} {views : List View},
    v.walkFrom? path = some (w :: views) → ∃ name key rest, path = name :: key :: rest ∧
      v.child? name key = some w ∧ w.walkFrom? rest = some views
  | [], _, h => by cases h
  | [_], _, h => by cases h
  | name :: key :: rest, views, h => by
      rw [View.walkFrom?] at h
      split at h
      · next w' hchild =>
        obtain ⟨views', hrest, heq⟩ := Option.map_eq_some_iff.mp h
        obtain ⟨rfl, rfl⟩ := List.cons.inj heq
        exact ⟨name, key, rest, rfl, hchild, hrest⟩
      · cases h

theorem eq_nil_of_walkFrom? {v : View} : ∀ {path : List String}, v.walkFrom? path = some [] →
    path = []
  | [], _ => rfl
  | [_], h => by cases h
  | _ :: _ :: _, h => by
      rw [View.walkFrom?] at h
      split at h
      · obtain ⟨_, _, heq⟩ := Option.map_eq_some_iff.mp h
        cases heq
      · cases h

/-- The child is the one that a number leads to in the list of a name. -/
def Numbered {α : Type} (list : String) (l : List α) (name key : String) (a : α) : Prop :=
  name = list ∧ ∃ i, Text.number? key = some i ∧ l[i]? = some a

theorem numbered_content {e c : Element} {name key : String}
    (h : (View.element e).child? name key = some (.element c)) :
    Numbered "content" e.content name key (.element c) := by
  unfold View.child? at h
  split at h
  · next heq => cases heq
  · next heq => cases heq
  · next heq => cases heq
  · next heq =>
    obtain rfl := View.element.inj heq
    obtain ⟨i, hi, hget⟩ := Option.bind_eq_some_iff.mp h
    obtain ⟨node, hnode, heq⟩ := Option.map_eq_some_iff.mp hget
    cases node with
    | element d =>
        obtain rfl := View.element.inj heq
        exact ⟨rfl, i, hi, hnode⟩
    | text t => cases heq
  · obtain ⟨a, _, heq⟩ := Option.map_eq_some_iff.mp h
    cases heq
  · cases h

theorem numbered_terms {t : Tree.Target} {e : Element} {name key : String}
    (h : (View.target t).child? name key = some (.element e)) :
    Numbered "terms" t.terms name key e := by
  unfold View.child? at h
  split at h
  · next heq => cases heq
  · next heq => cases heq
  · next heq =>
    obtain rfl := View.target.inj heq
    obtain ⟨i, hi, hget⟩ := Option.bind_eq_some_iff.mp h
    obtain ⟨e', he', heq⟩ := Option.map_eq_some_iff.mp hget
    obtain rfl := View.element.inj heq
    exact ⟨rfl, i, hi, he'⟩
  · next heq => cases heq
  · next heq => cases heq
  · cases h

theorem numbered_targets {f : Tree.File} {t : Tree.Target} {name key : String}
    (h : (View.file f).child? name key = some (.target t)) :
    Numbered "targets" f.targets name key t := by
  unfold View.child? at h
  split at h
  · next heq =>
    obtain rfl := View.file.inj heq
    obtain ⟨i, hi, hget⟩ := Option.bind_eq_some_iff.mp h
    obtain ⟨t', ht', heq⟩ := Option.map_eq_some_iff.mp hget
    obtain rfl := View.target.inj heq
    exact ⟨rfl, i, hi, ht'⟩
  · obtain ⟨i, _, hget⟩ := Option.bind_eq_some_iff.mp h
    obtain ⟨r, _, heq⟩ := Option.map_eq_some_iff.mp hget
    cases heq
  · next heq => cases heq
  · next heq => cases heq
  · next heq => cases heq
  · cases h

/-- Two members around one range are one member, and their segments say so. -/
theorem Numbered.compare_eq {α : Type} {list : String} {l : List α} {name name' key key' : String}
    {a b : α} {ra rb s : Range} (range : α → Option Range) (as bs : List String)
    (ha : Numbered list l name key a) (hb : Numbered list l name' key' b)
    (hapart : l.Pairwise fun a b => ∀ r s, range a = some r → range b = some s → r.Before s)
    (hs : s.Proper) (hra : range a = some ra) (hrb : range b = some rb)
    (hsa : ra.contains s = true) (hsb : rb.contains s = true) :
    a = b ∧ Pointer.compareLists (name :: key :: as) (name' :: key' :: bs) =
      Pointer.compareLists as bs := by
  obtain ⟨hname, i, hi, hai⟩ := ha
  obtain ⟨hname', j, hj, hbj⟩ := hb
  obtain rfl := Tree.eq_of_around hapart hs hai hbj hra hrb hsa hsb
  refine ⟨Option.some.inj (hai.symm.trans hbj), ?_⟩
  have hnames : Pointer.compareSegments name name' = .eq := by
    rw [hname, hname']
    exact Std.ReflCmp.compare_self
  have hkeys : Pointer.compareSegments key key' = .eq := by
    rw [Pointer.compareSegments, hi, hj]
    exact Std.ReflOrd.compare_self
  rw [Pointer.compareLists, Pointer.compareLists, hnames, hkeys]
  rfl

theorem compareLists_of_first {ρ : Range} : ∀ {es es' : List Element} {e : Element} {r : Range}
    {path path' : List String}, Spread e r → Descends e es → Descends e es' →
    (View.element e).walkFrom? path = some (es.map .element) →
    (View.element e).walkFrom? path' = some (es'.map .element) →
    (es.getLast?.getD e).range = some ρ → (es'.getLast?.getD e).range = some ρ →
    (∀ x ∈ (e :: es).dropLast, x.range ≠ some ρ) → (∀ x ∈ (e :: es').dropLast, x.range ≠ some ρ) →
      Pointer.compareLists path path' = .eq ∧ es = es'
  | [], [], _, _, _, _, _, _, _, h, h', _, _, _, _ => by
      rw [eq_nil_of_walkFrom? h, eq_nil_of_walkFrom? h']
      exact ⟨rfl, rfl⟩
  | [], c :: cs, e, _, _, _, _, _, _, _, _, hlast, _, _, hfirst => by
      rw [List.dropLast_cons_cons] at hfirst
      exact absurd hlast (hfirst e List.mem_cons_self)
  | c :: cs, [], e, _, _, _, _, _, _, _, _, _, hlast, hfirst, _ => by
      rw [List.dropLast_cons_cons] at hfirst
      exact absurd hlast (hfirst e List.mem_cons_self)
  | c :: cs, d :: ds, e, r, path, path', hspread, hes, hes', h, h', hlast, hlast', hfirst,
      hfirst' => by
      obtain ⟨name, key, rest, rfl, hchild, hrest⟩ := exists_segments h
      obtain ⟨name', key', rest', rfl, hchild', hrest'⟩ := exists_segments h'
      have hc := numbered_content hchild
      have hd := numbered_content hchild'
      rw [getLast?_getD_cons] at hlast hlast'
      obtain ⟨_, i, _, hci⟩ := id hc
      obtain ⟨_, j, _, hdj⟩ := id hd
      obtain ⟨rc, hrc, _⟩ := hspread.child (List.mem_of_getElem? hci)
      obtain ⟨rd, hrd, _⟩ := hspread.child (List.mem_of_getElem? hdj)
      obtain ⟨s, hs, hcs⟩ := hrc.descend hes.2
      obtain ⟨s', hs', hds⟩ := hrd.descend hes'.2
      obtain rfl := hs.unique hlast
      obtain rfl := hs'.unique hlast'
      obtain ⟨heq, hcompare⟩ := hc.compare_eq Tree.Node.range rest rest' hd hspread.apart hs.proper
        hrc.range hrd.range hcs hds
      obtain rfl := Tree.Node.element.inj heq
      rw [List.dropLast_cons_cons, List.forall_mem_cons] at hfirst hfirst'
      obtain ⟨hsame, rfl⟩ := compareLists_of_first hrc hes.2 hes'.2 hrest hrest' hlast hlast'
        hfirst.2 hfirst'.2
      exact ⟨hcompare.trans hsame, rfl⟩

theorem apart_terms {k : Nat} {t : Syntax.Target} (ht : t.Tidy k) :
    (t.assignments.flatMap termStops).Pairwise fun a b => a.node.range.Before b.node.range := by
  have hinside : ∀ a ∈ t.assignments, ∀ m ∈ termStops a, a.range.contains m.node.range = true := by
    intro a ha m hm
    cases a with
    | single a =>
        obtain rfl := List.mem_singleton.mp hm
        exact Range.contains_refl a.range
    | group g =>
        obtain ⟨a, hitem, rfl⟩ := List.mem_map.mp hm
        obtain ⟨hitems, hlists, _⟩ : g.range.contains g.items.range = true ∧
            Lists k g.items.range Syntax.Annotation.range g.items.items ∧ _ := ht.assignments _ ha
        exact Range.contains_trans hitems (hlists.inside a hitem)
  refine List.pairwise_flatMap.mpr ⟨fun a ha => ?_, List.Pairwise.imp_of_mem ?_ ht.lists.apart⟩
  · cases a with
    | single a => exact List.pairwise_singleton _ _
    | group g =>
        obtain ⟨_, hlists, _⟩ : g.range.contains g.items.range = true ∧
            Lists k g.items.range Syntax.Annotation.range g.items.items ∧ _ := ht.assignments _ ha
        exact List.pairwise_map.mpr hlists.apart
  · intro a b ha hb hab m hm m' hm'
    exact le_trans (Range.contains_iff.mp (hinside a ha m hm)).2
      (le_trans hab (Range.contains_iff.mp (hinside b hb m' hm')).1)

variable {k : Nat} {f : Syntax.File}

/-- Two elements that are found at one node are one element. -/
theorem compare_of_hits (hf : f.Tidy k) (hheads : ∀ t ∈ f.targets, HeadsFirst k t)
    (honce : f.namesValueOnce = true) {p q : Pointer} {e e' : Element} {l l' : Located}
    (hp : (f.abstraction .standard).resolve? p = some (.element e))
    (hq : (f.abstraction .standard).resolve? q = some (.element e'))
    (hl : locate p (f.abstraction .standard) f .standard = .ok l)
    (hl' : locate q (f.abstraction .standard) f .standard = .ok l')
    (hopen : l.collapsed = false) (hopen' : l'.collapsed = false)
    (hsame : l.pointer = l'.pointer) : p.compare q = .eq ∧ e = e' := by
  obtain ⟨t, ht, m, hm, es, n, hwalk, rfl, hes, hn, hhits⟩ := exists_hits hf hheads honce hp hl hopen
  obtain ⟨t', ht', m', hm', es', n', hwalk', rfl, hes', hn', hhits'⟩ :=
    exists_hits hf hheads honce hq hl' hopen'
  rw [hsame] at hn
  obtain rfl := Option.some.inj (hn.symm.trans hn')
  have henters := enters_term (hf.targets t ht) (hheads t ht) (once_of_mem honce ht) m hm
  have henters' := enters_term (hf.targets t' ht') (hheads t' ht') (once_of_mem honce ht') m' hm'
  obtain ⟨s, hs, hin⟩ := henters.spread.descend hes
  obtain ⟨s', hs', hin'⟩ := henters'.spread.descend hes'
  obtain rfl := hs.unique hhits.writes.represents.1
  obtain rfl := hs'.unique hhits'.writes.represents.1
  obtain ⟨views, hviews, heq⟩ := Option.map_eq_some_iff.mp hwalk
  obtain ⟨views', hviews', heq'⟩ := Option.map_eq_some_iff.mp hwalk'
  obtain rfl := (List.cons.inj heq).2
  obtain rfl := (List.cons.inj heq').2
  obtain ⟨name, key, rest, hsegments, hchild, hrest⟩ := exists_segments hviews
  obtain ⟨name', key', rest', hsegments', hchild', hrest'⟩ := exists_segments hviews'
  obtain ⟨termName, termKey, path, rfl, hterm, hpath⟩ := exists_segments hrest
  obtain ⟨termName', termKey', path', rfl, hterm', hpath'⟩ := exists_segments hrest'
  have htargets : (f.abstraction .standard).targets.Pairwise fun a b => ∀ r s,
      a.range = some r → b.range = some s → r.Before s := by
    refine List.pairwise_map.mpr (hf.targetsApart.imp ?_)
    intro a b hab r s hr hs
    rwa [← Option.some.inj hr, ← Option.some.inj hs]
  obtain ⟨htarget, hcompare⟩ := (numbered_targets hchild).compare_eq Tree.Target.range
    (termName :: termKey :: path) (termName' :: termKey' :: path') (numbered_targets hchild')
    htargets hs.proper rfl rfl (Range.contains_trans henters.leads.inside hin)
    (Range.contains_trans henters'.leads.inside hin')
  rw [← htarget] at hterm'
  have hterms : (t.abstraction .standard).terms.Pairwise fun a b => ∀ r s,
      a.range = some r → b.range = some s → r.Before s := by
    rw [terms_eq]
    refine List.pairwise_map.mpr (List.Pairwise.imp_of_mem ?_ (apart_terms (hf.targets t ht)))
    intro a b ha hb hab r s hr hs
    have hrange := fun m hm =>
      (enters_term (hf.targets t ht) (hheads t ht) (once_of_mem honce ht) m hm).spread.range
    rw [hrange a ha] at hr
    rw [hrange b hb] at hs
    rwa [← Option.some.inj hr, ← Option.some.inj hs]
  obtain ⟨heq, hcompareTerm⟩ := (numbered_terms hterm).compare_eq Element.range path path'
    (numbered_terms hterm') hterms hs.proper henters.spread.range henters'.spread.range hin hin'
  have hlast := hhits.writes.represents.1
  have hlast' := hhits'.writes.represents.1
  have hfirst' := hhits'.first
  rw [← heq] at hes' hpath' hlast' hfirst'
  obtain ⟨hbelow, rfl⟩ := compareLists_of_first henters.spread hes hes' hpath hpath' hlast hlast'
    hhits.first hfirst'
  refine ⟨?_, by rw [heq]⟩
  rw [Pointer.compare, hsegments, hsegments', hcompare, hcompareTerm, hbelow]

end Walks

end Locate

theorem Syntax.Assignment.Tidy.holds {k : Nat} {a : Syntax.Assignment} (h : a.Tidy k) :
    ∀ b ∈ a.annotations, Holds k b.range b.value := by
  intro b hb
  cases a with
  | single a =>
      obtain rfl := List.mem_singleton.mp hb
      exact h
  | group g => exact (h.2.2 b hb).1

theorem Document.headsFirst_of_parse {uri text : String} {c : Configuration} {d : Document}
    (h : parse uri text c = .ok d) :
    ∀ t ∈ d.syntaxTree.targets, Locate.HeadsFirst text.length t := by
  obtain ⟨_, _, _, _, hsorted, _⟩ := tokens_of_parse h
  obtain ⟨items, hitems, _, htargets⟩ := written_file h
  intro t ht a ha b hb
  have hholds := (((tidy_of_parse h).targets t ht).assignments a ha).holds b hb
  rw [htargets] at ht
  obtain ⟨us, hus, ht'⟩ := (Node.laid_targets hitems).exists_written t ht
  obtain ⟨vs, hvs, ha'⟩ := (Node.laid_assignmentsOf ht').exists_written a ha
  obtain ⟨ws, hws, hb'⟩ := (Syntax.laid_annotations ha').exists_written b hb
  have hordered := hsorted.sublist (hws.trans (hvs.trans (hus.trans List.filter_sublist)))
  exact .of_heads hholds (@Node.heads_of_writtenAs c.aliases _ _ _ (Or.inr hb') hordered)

section

variable {c : Configuration} {uri text : String} {d : Document} {p : Pointer} {e : Element}
  {l : Located}

/-- A search that ends at no folded level returns a node that writes the element. -/
theorem exists_writes (hc : c.aliases = .standard) (h : Document.parse uri text c = .ok d)
    (honce : d.syntaxTree.namesValueOnce = true) (hp : d.tree.resolve? p = some (.element e))
    (hl : locate p d.tree d.syntaxTree c.aliases = .ok l) (hopen : l.collapsed = false) :
    ∃ n, d.syntaxTree.resolve? l.pointer = some n ∧ n.Writes .standard e := by
  rw [hc] at hl
  rw [Document.tree_of_parse hc h] at hp hl
  obtain ⟨_, _, _, _, _, n, _, rfl, _, hn, hhits⟩ := Locate.exists_hits (Document.tidy_of_parse h)
    (Document.headsFirst_of_parse h) honce hp hl hopen
  exact ⟨n, hn, hhits.writes⟩

end

/-- A search that ends at no folded level returns the node that the element is written as: one of
its kind that stands where the element stands. Two elements with such a node in common are one
element, and the pointers differ at most in how their numbers are written. -/
theorem located_exactly {c : Configuration} (hc : c.aliases = .standard) {uri text : String}
    {d : Document} (h : Document.parse uri text c = .ok d)
    (honce : d.syntaxTree.namesValueOnce = true) :
    (∀ p e l, d.tree.resolve? p = some (.element e) →
      locate p d.tree d.syntaxTree c.aliases = .ok l → l.collapsed = false →
        ∃ n, d.syntaxTree.resolve? l.pointer = some n ∧ n.Represents e) ∧
    ∀ p q e e' l l', d.tree.resolve? p = some (.element e) → d.tree.resolve? q = some (.element e') →
      locate p d.tree d.syntaxTree c.aliases = .ok l → locate q d.tree d.syntaxTree c.aliases = .ok l' →
      l.collapsed = false → l'.collapsed = false → l.pointer = l'.pointer →
        p.compare q = .eq ∧ e = e' := by
  have hf := Document.tidy_of_parse h
  have hheads := Document.headsFirst_of_parse h
  constructor
  · intro p e l hp hl hopen
    obtain ⟨n, hn, hwrites⟩ := exists_writes hc h honce hp hl hopen
    exact ⟨n, hn, hwrites.represents⟩
  · rw [hc, Document.tree_of_parse hc h]
    intro p q e e' l l' hp hq hl hl' hopen hopen' hsame
    exact Locate.compare_of_hits hf hheads honce hp hq hl hl' hopen hopen' hsame

/-- Whether the pointer leads to an element, and to the same one as another pointer that is found
at the same node. -/
def findsTwice (d : Document) (p q : Pointer) : Bool :=
  (d.tree.resolve? p).any (fun v => v matches .element _) &&
    (d.tree.resolve? q).any (fun v => v matches .element _) &&
      (locate p d.tree d.syntaxTree .standard).toOption.any fun l =>
        (locate q d.tree d.syntaxTree .standard).toOption.any fun l' =>
          !l.collapsed && !l'.collapsed && l.pointer == l'.pointer

/-- The number in a list, below names folded into a term and into a property. -/
def itemPointer (target : String) : Pointer :=
  ⟨["targets", target, "terms", "0"] ++ (List.replicate 8 ["content", "0"]).flatten⟩

/-- The number is found at its node, by two pointers to it. -/
theorem located_exactly_item :
    ∃ d e l l' n, Document.parse "a.cds"
        "annotate E with @UI.HeaderInfo.Title : \x7ba.b : [1]\x7d;" .default = .ok d ∧
      d.tree.resolve? (itemPointer "0") = some (.element e) ∧
      locate (itemPointer "0") d.tree d.syntaxTree .standard = .ok l ∧
      locate (itemPointer "00") d.tree d.syntaxTree .standard = .ok l' ∧
      l.collapsed = false ∧ l.pointer = l'.pointer ∧
      d.syntaxTree.resolve? l.pointer = some n ∧ n.Represents e ∧
      (itemPointer "0").compare (itemPointer "00") = .eq := by
  have hfound : ((Document.parse "a.cds"
      "annotate E with @UI.HeaderInfo.Title : \x7ba.b : [1]\x7d;" .default).toOption.any fun d =>
        d.syntaxTree.namesValueOnce && findsTwice d (itemPointer "0") (itemPointer "00")) = true := by
    decide +kernel
  obtain ⟨d, hd, hfound⟩ := Locate.exists_ok_of_any hfound
  obtain ⟨honce, hfound⟩ := Bool.and_eq_true_iff.mp hfound
  obtain ⟨hviews, hfound⟩ := Bool.and_eq_true_iff.mp hfound
  obtain ⟨hp, hq⟩ := Bool.and_eq_true_iff.mp hviews
  obtain ⟨v, hp, hv⟩ := (Option.any_eq_true _ _).mp hp
  obtain ⟨v', hq, hv'⟩ := (Option.any_eq_true _ _).mp hq
  obtain ⟨l, hl, hfound⟩ := Locate.exists_ok_of_any hfound
  obtain ⟨l', hl', hfound⟩ := Locate.exists_ok_of_any hfound
  simp only [Bool.and_eq_true, Bool.not_eq_true', beq_iff_eq] at hfound
  obtain ⟨⟨hopen, hopen'⟩, hsame⟩ := hfound
  cases v with
  | element e =>
      cases v' with
      | element e' =>
          obtain ⟨hexact, hinjective⟩ := located_exactly rfl hd honce
          obtain ⟨n, hn, hrepresents⟩ := hexact _ e l hp hl hopen
          exact ⟨d, e, l, l', n, hd, hp, hl, hl', hopen, hsame, hn, hrepresents,
            (hinjective _ _ e e' l l' hp hq hl hl' hopen hopen' hsame).1⟩
      | _ => cases hv'
  | _ => cases hv

end AnnotationEdit

import AnnotationEdit.Proofs.Locate.Completeness
import AnnotationEdit.Proofs.Syntax.Parts
import AnnotationEdit.Proofs.Syntax.Spread

/-!
# Searches that run ahead

A search passes over a record with `$value` wherever a value is entered, but the annotation tree
passes over the record only in the value of an annotation. Where a property holds the record, the
search has come to the value in `$value` while the walk is still at the record, and from there it may
well go on: into properties around the range, as long as the names that are folded into them happen
to be the names on the walk.

It never falls back into step. The walk stays behind by a property and a record, or more where
another `$value` is passed over, so when the search comes to the last node around the range there are
still elements to come, and for these it can only stay at folded levels. Whatever such a search
returns says that it ended there (`collapsed_of_ahead`).
-/

namespace AnnotationEdit

open Syntax (Node Value Entry Lists Holds)
open AnnotationEdit.Tree (View Element ElementKind Addressed Descends Spread)

namespace Locate

/-! ## Searches that cannot go down -/

namespace Goal

def Stuck (g : Goal) (s : State) : Prop :=
  ∀ path c, (path, c) ∈ s.node.children → c.range.contains g.range = false

variable {g : Goal} {s : State}

theorem enter_stuck {P : State → Prop} (hs : g.Stuck s) (accept : Node → Bool) (what : String) :
    Yields P (g.enter accept what s) := by
  obtain ⟨err, herr⟩ := @enter_of_none g s accept what fun path c hc _ =>
    hs path c hc
  rw [herr]
  exact .error

theorem enterValue_stuck {P : State → Prop} (hs : g.Stuck s) (accept : Node → Bool) :
    Yields P (g.enterValue accept s) := by
  rw [enterValue]
  split
  · exact enter_stuck hs _ _
  · exact enter_stuck hs _ _
  · exact .error

theorem enterEmbedded_stuck {P : State → Prop} (hs : g.Stuck s) (e : Element) :
    Yields P (g.enterEmbedded e s) :=
  Yields.bind (P := fun _ => False) (enter_stuck hs _ _) fun _ h => h.elim

theorem enterAssignment_stuck {P : State → Prop} (hs : g.Stuck s) (e : Element) :
    Yields P (g.enterAssignment e s) :=
  Yields.bind (P := fun _ => False) (enter_stuck hs _ _) fun _ h => h.elim

/-- The search stays at the node, at a folded level. -/
def Stays (s t : State) : Prop := t.node = s.node ∧ t.collapsed = true

theorem enterProperty_stuck (hs : g.Stuck s) (e : Element) :
    Yields (Stays s) (g.enterProperty e s) := by
  rw [enterProperty]
  split
  · split
    · exact .ok ⟨rfl, rfl⟩
    · exact .error
  · exact Yields.bind (P := fun _ => False) (enter_stuck hs _ _) fun _ h => h.elim

theorem enterContent_stuck (hs : g.Stuck s) (kind : ElementKind) :
    Yields (Stays s) (g.enterContent kind s) := by
  rw [enterContent]
  split
  · exact Yields.bind (P := fun _ => False) (enterValue_stuck hs _) fun _ h => h.elim
  · split
    · exact .ok ⟨rfl, rfl⟩
    · exact .error

theorem enterElement_stuck (hs : g.Stuck s) (parent : Option ElementKind) (e : Element) :
    Yields (Stays s) (g.enterElement parent e s) := by
  rw [enterElement.eq_def]
  split
  · exact enterAssignment_stuck hs e
  · exact Yields.bind (P := fun _ => False) (enterValue_stuck hs _) fun _ h => h.elim
  · split
    · exact enterEmbedded_stuck hs e
    · exact .error
  · exact enterContent_stuck hs _
  · exact enterContent_stuck hs _
  · exact enterProperty_stuck hs e
  · exact enter_stuck hs _ _
  · exact .error

theorem step_stuck (hs : g.Stuck s) (parent : View) (e : Element) :
    Yields (Stays s) (g.step parent (.element e) s) := by
  have hclear : g.Stuck { s with collapsed := false } := hs
  cases parent with
  | target t => exact enterElement_stuck hclear none e
  | element p => exact enterElement_stuck hclear (some p.kind) e
  | _ => exact .error

/-- All that is left to such a search are folded levels. -/
theorem steps_stuck : ∀ {es : List Element} {parent : View} {s : State}, g.Stuck s → es ≠ [] →
    Yields (fun t => t.collapsed = true) (g.steps parent (es.map .element) s)
  | [], _, _, _, hne => absurd rfl hne
  | e :: es, parent, s, hs, _ => by
      rw [List.map_cons, steps]
      split
      · next t ht =>
        obtain ⟨hnode, hcollapsed⟩ := step_stuck hs parent e t ht
        cases es with
        | nil => exact .ok hcollapsed
        | cons c cs =>
            have ht : g.Stuck t := by rwa [Stuck, hnode]
            exact steps_stuck ht (List.cons_ne_nil c cs)
      · exact .error

theorem steps_cons_ok {parent : View} {e : Element} {es : List Element} {t : State}
    (h : g.steps parent ((e :: es).map .element) s = .ok t) :
    ∃ u, g.step parent (.element e) s = .ok u ∧
      g.steps (.element e) (es.map .element) u = .ok t := by
  rw [List.map_cons, steps] at h
  split at h
  · next u hu => exact ⟨u, hu, h⟩
  · cases h

end Goal

/-! ## Walks through names -/

/-- Properties and records in turn, from a property to a property. -/
inductive Zigzag : List Element → Prop
  | property {p : Element} : p.kind = .propertyValue → Zigzag [p]
  | record {p r : Element} {es : List Element} : p.kind = .propertyValue → r.kind = .record →
      Zigzag es → Zigzag (p :: r :: es)

theorem Zigzag.append {es fs : List Element} {r : Element} (hes : Zigzag es)
    (hr : r.kind = .record) (hfs : Zigzag fs) : Zigzag (es ++ r :: fs) := by
  induction hes with
  | property hp => exact .record hp hr hfs
  | record hp hr' _ ih => exact .record hp hr' ih

theorem getLast?_getD_append {α : Type} (a b : α) (front back : List α) :
    (front ++ a :: back).getLast?.getD b = back.getLast?.getD a := by
  rw [List.getLast?_append, List.getLast?_cons, Option.some_or, Option.getD_some]

/-- The content of a property and of a level folded into its name. -/
theorem addressed_propertyElement {r : Range} {value : Option Element} {name : String}
    {names : List String} {c : Element}
    (h : Addressed (Syntax.propertyElement r value (name :: names)) c) :
    Syntax.heldElement r value names = some c := by
  obtain ⟨_, _, hget⟩ := h
  rw [Syntax.propertyElement_cons] at hget
  obtain ⟨d, hd, heq⟩ := List.mem_map.mp (List.mem_of_getElem? hget)
  rw [← Tree.Node.element.inj heq]
  exact Option.mem_toList.mp hd

theorem addressed_foldedRecord {r : Range} {value : Option Element} {names : List String}
    {c : Element} (h : Addressed (Syntax.foldedRecord r value names) c) :
    c = Syntax.propertyElement r value names := by
  obtain ⟨_, _, hget⟩ := h
  exact Tree.Node.element.inj (List.mem_singleton.mp (List.mem_of_getElem? hget))

/-- A descent from a dotted name to a smaller range passes all its levels and comes to the value. -/
theorem descends_names {r ρ : Range} {value : Option Element} (hne : ρ ≠ r) :
    ∀ (names : List String) (name : String) {es : List Element},
      Descends (Syntax.propertyElement r value (name :: names)) es →
      (es.getLast?.getD (Syntax.propertyElement r value (name :: names))).range = some ρ →
      ∃ front c rest, value = some c ∧ es = front ++ c :: rest ∧
        Zigzag (Syntax.propertyElement r value (name :: names) :: front) ∧
        front.length = 2 * names.length ∧ Descends c rest
  | names, name, [], _, hlast => by
      rw [Syntax.propertyElement_cons] at hlast
      exact absurd (Option.some.inj hlast).symm hne
  | [], name, c :: es, hes, _ => by
      have hkind : (Syntax.propertyElement r value [name]).kind = .propertyValue := by
        rw [Syntax.propertyElement_cons]
      exact ⟨[], c, es, addressed_propertyElement hes.1, rfl, .property hkind, rfl, hes.2⟩
  | next :: names, name, [c], hes, hlast => by
      obtain rfl := Option.some.inj (addressed_propertyElement hes.1)
      exact absurd (Option.some.inj hlast).symm hne
  | next :: names, name, c :: d :: es, hes, hlast => by
      obtain rfl := Option.some.inj (addressed_propertyElement hes.1)
      obtain rfl := addressed_foldedRecord hes.2.1
      rw [getLast?_getD_cons, getLast?_getD_cons] at hlast
      obtain ⟨front, c, rest, hvalue, rfl, hfront, hlength, hrest⟩ :=
        descends_names hne names next hes.2.2 hlast
      have hkind : (Syntax.propertyElement r value (name :: next :: names)).kind =
          .propertyValue := by rw [Syntax.propertyElement_cons]
      refine ⟨_ :: _ :: front, c, rest, hvalue, rfl, .record hkind rfl hfront, ?_, hrest⟩
      rw [List.length_cons, List.length_cons, List.length_cons, hlength]
      omega

section Paths

variable {v : Vocabulary} {k : Nat} {range ρ : Range} {entries : List Entry} {es : List Element}

/-- A descent from a record to a range inside an entry passes through the element of the entry. -/
theorem descends_entry (h : (Value.record ⟨range, entries⟩).Tidy k) {e : Entry} (he : e ∈ entries)
    (hρ : ρ.Proper) (hcontains : e.range.contains ρ = true)
    (hes : Descends ((Value.record ⟨range, entries⟩).element v) es)
    (hlast : (es.getLast?.getD ((Value.record ⟨range, entries⟩).element v)).range = some ρ) :
    ∃ c rest, es = c :: rest ∧ Syntax.entryElement? v e = some c ∧ Descends c rest := by
  obtain ⟨hlists, htidy⟩ := Syntax.tidy_record h
  cases es with
  | nil =>
      have hrange : range = ρ := Option.some.inj ((Value.range_element v _).symm.trans hlast)
      have hafter := hlists.after e he
      rw [hrange] at hafter
      exact absurd (Range.contains_iff.mp hcontains).1 (not_le_of_gt hafter)
  | cons c rest =>
      refine ⟨c, rest, rfl, ?_, hes.2⟩
      obtain ⟨_, _, hget⟩ := hes.1
      rw [Value.element, content_record] at hget
      obtain ⟨d, hd, heq⟩ := List.mem_map.mp (List.mem_of_getElem? hget)
      obtain rfl := Tree.Node.element.inj heq
      obtain ⟨e', he', hc⟩ := List.mem_filterMap.mp hd
      have hspread := Syntax.spread_entries entries htidy e' he' d hc
      obtain ⟨s, hs, hinside⟩ := hspread.descend hes.2
      rw [getLast?_getD_cons] at hlast
      obtain rfl := hs.unique hlast
      obtain rfl := Goal.eq_of_contains hρ hlists.apart he' he hinside hcontains
      exact hc

/-- A descent from a record to a range inside the value of a property passes through the names of
the property and the value. -/
theorem descends_property (h : (Value.record ⟨range, entries⟩).Tidy k) {p : Syntax.Property}
    {y : Value} (hp : .property p ∈ entries) (hy : p.value = some y) (hρ : ρ.Proper)
    (hcontains : y.range.contains ρ = true)
    (hes : Descends ((Value.record ⟨range, entries⟩).element v) es)
    (hlast : (es.getLast?.getD ((Value.record ⟨range, entries⟩).element v)).range = some ρ) :
    ∃ front rest, es = front ++ y.element v :: rest ∧ Zigzag front ∧
      front.length + 1 = 2 * p.name.segments.length ∧ Descends (y.element v) rest := by
  obtain ⟨_, htidy⟩ := Syntax.tidy_record h
  obtain ⟨ts, hts, hwritten⟩ := htidy _ hp
  have hafter : p.range.start < y.range.start := by
    obtain ⟨hstart, _, hvalue⟩ := @Node.property_of_writtenAs v _ _ p hwritten hts
    exact lt_trans hstart (hvalue y hy).1
  obtain ⟨hholds, hsegments⟩ := Syntax.holds_property (htidy _ hp)
  have hinside : p.range.contains ρ = true := Range.contains_trans (hholds.inside y hy) hcontains
  have hne : ρ ≠ p.range := by
    rintro rfl
    exact absurd (Range.contains_iff.mp hcontains).1 (not_le_of_gt hafter)
  obtain ⟨c, rest, rfl, hc, hrest⟩ := descends_entry h hp hρ hinside hes hlast
  rw [getLast?_getD_cons] at hlast
  obtain ⟨prange, name, colon, value⟩ := p
  obtain rfl : value = some y := hy
  rw [Syntax.entryElement?] at hc
  split at hc
  · cases hc
  · obtain ⟨first, names, hnames⟩ : ∃ first names, name.segments.map (·.text) = first :: names :=
      List.exists_cons_of_ne_nil (by rwa [Ne, List.map_eq_nil_iff])
    rw [hnames, Syntax.optionElement] at hc
    obtain rfl := Option.some.inj hc
    obtain ⟨front, c, rest, hvalue, rfl, hfront, hlength, hrest⟩ :=
      descends_names hne names first hrest hlast
    obtain rfl := Option.some.inj hvalue
    refine ⟨_ :: front, rest, rfl, hfront, ?_, hrest⟩
    have hcount := congrArg List.length hnames
    rw [List.length_map, List.length_cons] at hcount
    rw [List.length_cons, hlength, hcount]
    omega

theorem mem_of_valueEntry {r : Syntax.Record} {i : Nat} {p : Syntax.Property}
    (h : r.valueEntry? = some (i, p)) : .property p ∈ r.entries :=
  List.mem_of_getElem? (r.getElem?_of_property? h).1

end Paths

/-! ## Searches ahead of the walk -/

section Ahead

variable {v : Vocabulary} {k : Nat} {g : Goal} {s t : State}

/-- The names that are folded into a property are passed, or the search fails. -/
theorem steps_folded : ∀ (names : List String) {s : State} {p r : Element}
    {zigzag back : List Element}, s.pending = names → p.kind = .propertyValue → r.kind = .record →
    Zigzag zigzag → 2 * names.length + 1 ≤ zigzag.length →
    g.steps (.element p) ((r :: (zigzag ++ back)).map .element) s = .ok t →
    ∃ u p' r' zigzag', u.At s.node [] ∧ p'.kind = .propertyValue ∧ r'.kind = .record ∧
      Zigzag zigzag' ∧ g.steps (.element p') ((r' :: (zigzag' ++ back)).map .element) u = .ok t
  | [], s, p, r, zigzag, back, hs, hp, hr, hzigzag, _, h =>
      ⟨s, p, r, zigzag, ⟨rfl, hs⟩, hp, hr, hzigzag, h⟩
  | name :: names, s, p, r, zigzag, back, hs, hp, hr, hzigzag, hlength, h => by
      cases hzigzag with
      | property _ => exact absurd hlength (by simp)
      | @record q r' es hq hr' hes =>
          have hnames : 2 * names.length + 1 ≤ es.length := by
            rw [List.length_cons, List.length_cons, List.length_cons] at hlength
            omega
          obtain ⟨u, hu, hrest⟩ := Goal.steps_cons_ok h
          have hfolded : u.At s.node (name :: names) := by
            have hstep : g.step (.element p) (.element r) s =
                g.enterContent r.kind { s with collapsed := false } := by
              rw [Goal.step, hp]
              exact Goal.enterElement_content (Or.inl rfl) (by rw [hr]; decide)
            rw [hstep, Goal.enterContent, hs, List.isEmpty_cons, hr] at hu
            obtain rfl := Except.ok.inj hu
            exact ⟨rfl, rfl⟩
          obtain ⟨w, hw, hrest⟩ := Goal.steps_cons_ok hrest
          have hmatched : w.At s.node names := by
            have hstep : g.step (.element r) (.element q) u =
                g.enterProperty q { u with collapsed := false } := by
              rw [Goal.step, hr, Goal.enterElement.eq_def, hq]
            rw [hstep, Goal.enterProperty] at hw
            simp only [hfolded.2] at hw
            split at hw
            · obtain rfl := Except.ok.inj hw
              exact ⟨hfolded.1, rfl⟩
            · cases hw
          rw [← hmatched.1]
          exact steps_folded names hmatched.2 hq hr' hes hnames hrest

/-- The value is entered, or the value inside its `$value`. -/
theorem unwrapValue_cases {w : Value} (hs : s.node = .ofValue w) :
    g.unwrapValue s = s ∨
      ∃ r i p x, w = .record r ∧ r.valueEntry? = some (i, p) ∧ p.value = some x ∧
        x.range.contains g.range = true ∧ (g.unwrapValue s).At (.ofValue x) s.pending := by
  cases w with
  | record r =>
      cases hholds : holdsValue (.record r) with
      | false => exact Or.inl (Goal.unwrapValue_eq_self hs hholds)
      | true =>
          obtain ⟨i, p, x, hentry, hx⟩ := exists_of_holdsValue hholds
          cases hcontains : x.range.contains g.range with
          | true =>
              exact Or.inr ⟨r, i, p, x, rfl, hentry, hx, hcontains,
                Goal.unwrapValue_at hs hentry hx hcontains⟩
          | false =>
              obtain ⟨range, name, colon, value⟩ := p
              obtain rfl : value = some x := hx
              rw [Goal.unwrapValue, hs]
              simp only [Node.ofValue, hentry, hcontains, Bool.false_eq_true, if_false, true_or]
  | collection c => exact Or.inl (Goal.unwrapValue_eq_self hs rfl)
  | primitive p => exact Or.inl (Goal.unwrapValue_eq_self hs rfl)

theorem enterProperty_ok {e : Element} (hs : s.pending = []) (h : g.enterProperty e s = .ok t) :
    ∃ path q, (path, Node.property q) ∈ s.node.children ∧ q.range.contains g.range = true ∧
      t.At (.property q) ((q.name.segments.drop 1).map (·.text)) := by
  rw [Goal.enterProperty, hs] at h
  dsimp only at h
  generalize hr : g.enter _ "record property" s = result at h
  rw [Goal.enter] at hr
  split at hr
  · next path c hfind =>
    have haccepted := List.find?_some hfind
    rw [Bool.and_eq_true] at haccepted
    have hmem := List.mem_of_find?_eq_some hfind
    subst hr
    cases c with
    | property q =>
        obtain rfl := Except.ok.inj h
        exact ⟨path, q, hmem, haccepted.2, rfl, rfl⟩
    | _ => cases haccepted.1
  · subst hr
    cases h

/-- The elements to come when the search stands at the value `z` and the walk is still in front of
the names that lead to it. -/
structure Ahead (v : Vocabulary) (g : Goal) (z : Value) (parent : Element)
    (front back : List Element) : Prop where
  parent : parent.kind = .record
  zigzag : Zigzag front
  descends : Descends (z.element v) back
  range : (back.getLast?.getD (z.element v)).range = some g.range

/-- The first step goes into a property around the range. -/
theorem exists_property {z : Value} {parent p : Element} {es : List Element}
    (hs : s.At (.ofValue z) []) (hparent : parent.kind = .record) (hp : p.kind = .propertyValue)
    (h : g.steps (.element parent) ((p :: es).map .element) s = .ok t) :
    ∃ range entries q u, z = .record ⟨range, entries⟩ ∧ .property q ∈ entries ∧
      q.range.contains g.range = true ∧
      u.At (.property q) ((q.name.segments.drop 1).map (·.text)) ∧
      g.steps (.element p) (es.map .element) u = .ok t := by
  obtain ⟨u, hu, hrest⟩ := Goal.steps_cons_ok h
  have hstep : g.step (.element parent) (.element p) s =
      g.enterProperty p { s with collapsed := false } := by
    rw [Goal.step, hparent, Goal.enterElement.eq_def, hp]
  rw [hstep] at hu
  obtain ⟨path, q, hq, hcontains, hat⟩ := enterProperty_ok (by exact hs.2) hu
  have hmem : (path, Node.property q) ∈ (Node.ofValue z).children := hs.1 ▸ hq
  cases z with
  | record r =>
      obtain ⟨range, entries⟩ := r
      obtain ⟨i, e, he, _, heq⟩ := Node.exists_of_mem_numbered hmem
      cases e with
      | property q' =>
          obtain rfl := Node.property.inj heq
          exact ⟨range, entries, q, u, rfl, List.mem_of_getElem? he, hcontains, hat, hrest⟩
      | embedded a => cases heq
  | collection c =>
      obtain ⟨range, items⟩ := c
      obtain ⟨i, w, _, _, heq⟩ := Node.exists_of_mem_numbered hmem
      cases w <;> cases heq
  | primitive p => exact absurd hmem List.not_mem_nil

/-- A search ahead of the walk ends at a folded level, if it does not fail. -/
theorem collapsed_of_ahead {z : Value} {parent : Element} {front back : List Element}
    (hz : z.Tidy k) (hg : g.range.Proper) (hs : s.At (.ofValue z) [])
    (hahead : Ahead v g z parent front back)
    (h : g.steps (.element parent) ((front ++ z.element v :: back).map .element) s = .ok t) :
    t.collapsed = true := by
  -- every property that is entered takes a value off the elements to come
  induction hlength : back.length using Nat.strongRecOn generalizing z parent front back s with
  | ind n ih =>
  obtain ⟨hparent, hzigzag, hdescends, hlast⟩ := hahead
  obtain ⟨p, more, rfl, hp⟩ : ∃ p more, front = p :: more ∧ p.kind = .propertyValue := by
    cases hzigzag with
    | property hp => exact ⟨_, _, rfl, hp⟩
    | record hp _ _ => exact ⟨_, _, rfl, hp⟩
  rw [List.cons_append] at h
  obtain ⟨range, entries, q, u, rfl, hq, hcontains, hu, hrest⟩ :=
    exists_property hs hparent hp h
  by_cases hvalue : ∃ y, q.value = some y ∧ y.range.contains g.range = true
  · obtain ⟨y, hy, hinside⟩ := hvalue
    obtain ⟨names, rest, rfl, hnames, hcount, hrestDescends⟩ :=
      descends_property hz hq hy hg hinside hdescends hlast
    rw [getLast?_getD_append] at hlast
    obtain ⟨r, zigzag, hr, hzigzag', hlong, heq⟩ : ∃ r zigzag, r.kind = .record ∧ Zigzag zigzag ∧
        2 * (q.name.segments.drop 1).length + 1 ≤ zigzag.length ∧
        more ++ (Value.record ⟨range, entries⟩).element v :: (names ++ y.element v :: rest) =
          r :: (zigzag ++ y.element v :: rest) := by
      have hlong : 2 * (q.name.segments.drop 1).length + 1 ≤ names.length := by
        rw [List.length_drop]
        omega
      cases hzigzag with
      | property _ => exact ⟨_, names, kind_record v _, hnames, hlong, rfl⟩
      | @record _ r es _ hr hes =>
          refine ⟨r, es ++ (Value.record ⟨range, entries⟩).element v :: names, hr,
            hes.append (kind_record v _) hnames, ?_, ?_⟩
          · rw [List.length_append, List.length_cons]
            omega
          · rw [List.cons_append, List.append_assoc, List.cons_append]
    rw [heq] at hrest
    obtain ⟨w, p', r', zigzag', hw, hp', hr', hzigzag'', hrest⟩ :=
      steps_folded _ hu.2 hp hr hzigzag' (by rwa [List.length_map]) hrest
    rw [hu.1] at hw
    obtain ⟨o, ho, hrest⟩ := Goal.steps_cons_ok hrest
    obtain ⟨m, hm, hunwrapped⟩ := Goal.enterContent_value (g := g)
      (s := { w with collapsed := false }) r'.kind (hw.1 ▸ hy) hw.2 hinside
    have hstep : g.step (.element p') (.element r') w = .ok (g.unwrapValue m) := by
      rw [← hunwrapped, Goal.step, hp']
      exact Goal.enterElement_content (Or.inl rfl) (by rw [hr']; decide)
    obtain rfl := Except.ok.inj (ho.symm.trans hstep)
    have hy' : y.Tidy k := (Syntax.holds_property ((Syntax.tidy_record hz).2 _ hq)).1.tidy y hy
    have hshort : rest.length < n := by
      rw [← hlength, List.length_append, List.length_cons]
      omega
    rcases unwrapValue_cases (g := g) hm.1 with hself | ⟨r, i, p, x, rfl, hentry, hx, hin, hat⟩
    · rw [hself] at hrest
      exact ih rest.length hshort hy' hm ⟨hr', hzigzag'', hrestDescends, hlast⟩ hrest rfl
    · obtain ⟨range', entries'⟩ := r
      obtain ⟨front', rest', rfl, hfront', _, hrest'⟩ :=
        descends_property hy' (mem_of_valueEntry hentry) hx hg hin hrestDescends hlast
      have hx' : x.Tidy k := (Syntax.holds_property
        ((Syntax.tidy_record hy').2 _ (mem_of_valueEntry hentry))).1.tidy x hx
      rw [getLast?_getD_append] at hlast
      rw [hm.2] at hat
      rw [← List.cons_append, ← List.append_assoc] at hrest
      refine ih rest'.length ?_ hx' hat
        ⟨hr', hzigzag''.append (kind_record v _) hfront', hrest', hlast⟩ hrest rfl
      refine Nat.lt_trans ?_ hshort
      rw [List.length_append, List.length_cons]
      omega
  · have hstuck : g.Stuck u := by
      intro path c hc
      rw [hu.1] at hc
      obtain ⟨y, hy, _, rfl⟩ := Node.exists_of_mem_part hc
      rw [range_ofValue, Bool.eq_false_iff]
      exact fun hinside => hvalue ⟨y, hy, hinside⟩
    exact Goal.steps_stuck hstuck (by simp) t hrest

end Ahead

end Locate

end AnnotationEdit

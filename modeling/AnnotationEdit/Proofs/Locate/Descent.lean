import AnnotationEdit.Proofs.Locate.Soundness
import AnnotationEdit.Proofs.Syntax.Abstraction

/-!
# Going down

One level of the annotation tree at a time: where the search for an element stands, and where it
goes on from there for whatever lies in the place of a child. From these steps follows, for a whole
element, whether everything below it is found.
-/

namespace AnnotationEdit

open Syntax (Node Value Entry Lists Holds)
open AnnotationEdit.Tree (View Element ElementKind Addressed Descends)

namespace Locate

/-- The search stands at a node, with names still to be matched. -/
def State.At (s : State) (n : Node) (pending : List String) : Prop :=
  s.node = n ∧ s.pending = pending

/-- From `n`, below an element of the kind `parent`, every search for a part of `n'` goes on to `n'`
when it comes to the element `c`. -/
structure Leads (v : Vocabulary) (parent : Option ElementKind) (n : Node) (pending : List String)
    (c : Element) (n' : Node) (pending' : List String) : Prop where
  inside : n.range.contains n'.range = true
  enters : ∀ (g : Goal) (s : State), g.vocabulary = v → g.range.Proper →
    n'.range.contains g.range = true → s.At n pending →
      ∃ t, g.enterElement parent c s = .ok t ∧ t.At n' pending'

/-! ## Everything below an element -/

section Below

variable {v : Vocabulary} {e c : Element} {n n' : Node} {pending pending' : List String}

/-- A descent from `e` to an element with the range `r`, inside `n`. -/
structure Below (e : Element) (n : Node) (es : List Element) (r : Range) : Prop where
  descends : Descends e es
  range : (es.getLast?.getD e).range = some r
  proper : r.Proper
  inside : n.range.contains r = true

/-- The search for everything below `e` that stands at `n` returns. -/
def Found (v : Vocabulary) (e : Element) (n : Node) (pending : List String) : Prop :=
  ∀ es, Descends e es → ∃ r, Below e n es r ∧ ∀ (g : Goal) (s : State), g.vocabulary = v →
    g.range = r → s.At n pending → ∃ t, g.steps (.element e) (es.map .element) s = .ok t

/-- The search for something below `e` that stands at `n` fails. -/
def Missed (v : Vocabulary) (e : Element) (n : Node) (pending : List String) : Prop :=
  ∃ es r, Below e n es r ∧ ∀ (g : Goal) (s : State), g.vocabulary = v →
    g.range = r → s.At n pending → ∃ err, g.steps (.element e) (es.map .element) s = .error err

theorem getLast?_getD_cons {α : Type} (a b : α) (l : List α) :
    (a :: l).getLast?.getD b = l.getLast?.getD a := by
  rw [List.getLast?_cons, Option.getD_some]

theorem found_of_leads (hrange : e.range = some n.range) (hproper : n.range.Proper)
    (h : ∀ c, Addressed e c → ∃ n' pending', Leads v (some e.kind) n pending c n' pending' ∧
      Found v c n' pending') : Found v e n pending := by
  intro es hes
  cases es with
  | nil =>
      refine ⟨n.range, ⟨trivial, hrange, hproper, Range.contains_refl _⟩, ?_⟩
      exact fun g s _ _ _ => ⟨s, rfl⟩
  | cons c cs =>
      obtain ⟨n', pending', hleads, hfound⟩ := h c hes.1
      obtain ⟨r, hbelow, hsteps⟩ := hfound cs hes.2
      refine ⟨r, ⟨hes, ?_, hbelow.proper, Range.contains_trans hleads.inside hbelow.inside⟩, ?_⟩
      · rw [getLast?_getD_cons]
        exact hbelow.range
      · rintro g s hv rfl hs
        obtain ⟨t, ht, hat⟩ := hleads.enters g { s with collapsed := false } hv hbelow.proper
          hbelow.inside hs
        obtain ⟨u, hu⟩ := hsteps g t hv rfl hat
        refine ⟨u, ?_⟩
        rw [List.map_cons, Goal.steps, Goal.step]
        simp only [ht, hu]

theorem missed_of_leads (hc : Addressed e c)
    (hleads : Leads v (some e.kind) n pending c n' pending') (h : Missed v c n' pending') :
    Missed v e n pending := by
  obtain ⟨cs, r, hbelow, hsteps⟩ := h
  refine ⟨c :: cs, r, ⟨⟨hc, hbelow.descends⟩, ?_, hbelow.proper,
    Range.contains_trans hleads.inside hbelow.inside⟩, ?_⟩
  · rw [getLast?_getD_cons]
    exact hbelow.range
  · rintro g s hv rfl hs
    obtain ⟨t, ht, hat⟩ := hleads.enters g { s with collapsed := false } hv hbelow.proper
      hbelow.inside hs
    obtain ⟨err, herr⟩ := hsteps g t hv rfl hat
    refine ⟨err, ?_⟩
    rw [List.map_cons, Goal.steps, Goal.step]
    simp only [ht, herr]

end Below

/-- An element, where the search for it stands, and whether all below it is found. -/
structure Stop where
  element : Element
  node : Node
  pending : List String
  found : Bool

/-- `found` decides whether everything below the element is found, or something is missed. The
latter needs that the members of all lists can be numbered. -/
structure Stop.Decided (v : Vocabulary) (n : Nat) (m : Stop) : Prop where
  all : m.found = true → Found v m.element m.node m.pending
  notAll : n < Text.wordBound → m.found = false → Missed v m.element m.node m.pending

theorem decided_of_members {v : Vocabulary} {k : Nat} {e : Element} {n : Node}
    {pending : List String} (members : List Stop)
    (hcontent : e.content = members.map fun m => .element m.element)
    (hrange : e.range = some n.range) (hproper : n.range.Proper)
    (hfew : members.length ≤ k + 1)
    (hleads : ∀ m ∈ members, Leads v (some e.kind) n pending m.element m.node m.pending)
    (hmembers : ∀ m ∈ members, m.Decided v k) :
    Stop.Decided v k ⟨e, n, pending, members.all (·.found)⟩ := by
  constructor
  · intro hall
    refine found_of_leads hrange hproper ?_
    rintro c ⟨i, _, hget⟩
    rw [hcontent] at hget
    obtain ⟨m, hm, heq⟩ := List.mem_map.mp (List.mem_of_getElem? hget)
    obtain rfl := Tree.Node.element.inj heq
    exact ⟨m.node, m.pending, hleads m hm, (hmembers m hm).all (List.all_eq_true.mp hall m hm)⟩
  · intro hk hall
    obtain ⟨m, hm, hnot⟩ := List.all_eq_false.mp hall
    obtain ⟨i, hi⟩ := List.mem_iff_getElem?.mp hm
    have hlt : i < members.length := (List.getElem?_eq_some_iff.mp hi).1
    have haddressed : Addressed e m.element := by
      refine ⟨i, by omega, ?_⟩
      rw [hcontent, List.getElem?_map, hi]
      rfl
    exact missed_of_leads haddressed (hleads m hm)
      ((hmembers m hm).notAll hk (Bool.eq_false_iff.mpr hnot))

theorem decided_of_member {v : Vocabulary} {k : Nat} {e : Element} {n : Node}
    {pending : List String} (m : Stop) (hcontent : e.content = [.element m.element])
    (hrange : e.range = some n.range) (hproper : n.range.Proper)
    (hleads : Leads v (some e.kind) n pending m.element m.node m.pending)
    (hm : m.Decided v k) : Stop.Decided v k ⟨e, n, pending, m.found⟩ := by
  have h := decided_of_members [m] hcontent hrange hproper (Nat.le_add_left 1 k)
    (List.forall_mem_singleton.mpr hleads) (List.forall_mem_singleton.mpr hm)
  rwa [List.all_cons, List.all_nil, Bool.and_true] at h

/-! ## Entering a child -/

namespace Goal

variable {g : Goal} {s : State}

theorem enter_of_mem {accept : Node → Bool} {what : String} {path : List String} {c : Node}
    (hc : (path, c) ∈ s.node.children) (haccept : accept c = true)
    (hcontains : c.range.contains g.range = true) :
    ∃ path' c', (path', c') ∈ s.node.children ∧ accept c' = true ∧
      c'.range.contains g.range = true ∧
      g.enter accept what s = .ok { s with node := c', pointer := s.pointer.append path' } := by
  unfold enter
  split
  · next path' c' hfind =>
    have hfound := List.find?_some hfind
    rw [Bool.and_eq_true] at hfound
    exact ⟨path', c', List.mem_of_find?_eq_some hfind, hfound.1, hfound.2, rfl⟩
  · next hnone =>
    have hnot := List.find?_eq_none.mp hnone (path, c) hc
    exact absurd (Bool.and_eq_true_iff.mpr ⟨haccept, hcontains⟩) hnot

theorem enter_of_unique {accept : Node → Bool} {what : String} {path : List String} {c : Node}
    (hc : (path, c) ∈ s.node.children) (haccept : accept c = true)
    (hcontains : c.range.contains g.range = true)
    (hunique : ∀ path' c', (path', c') ∈ s.node.children → accept c' = true →
      c'.range.contains g.range = true → c' = c) :
    ∃ t, g.enter accept what s = .ok t ∧ t.At c s.pending := by
  obtain ⟨path', c', hc', haccept', hcontains', henter⟩ := enter_of_mem hc haccept hcontains
  exact ⟨_, henter, hunique path' c' hc' haccept' hcontains', rfl⟩

/-- Where no child is around the range, the search fails. -/
theorem enter_of_none {accept : Node → Bool} {what : String}
    (h : ∀ path c, (path, c) ∈ s.node.children → accept c = true →
      c.range.contains g.range = false) : ∃ err, g.enter accept what s = .error err := by
  unfold enter
  split
  · next path c hfind =>
    have hfound := List.find?_some hfind
    rw [Bool.and_eq_true] at hfound
    have hnot := h path c (List.mem_of_find?_eq_some hfind) hfound.1
    exact absurd hfound.2 (Bool.eq_false_iff.mp hnot)
  · exact ⟨_, rfl⟩

/-- Of members that lie apart only one is around a range. -/
theorem eq_of_contains {α : Type} {ranges : α → Range} {r : Range} (hr : r.Proper) :
    ∀ {es : List α} {a b : α}, (es.Pairwise fun a b => (ranges a).Before (ranges b)) → a ∈ es →
      b ∈ es → (ranges a).contains r = true → (ranges b).contains r = true → a = b
  | e :: es, a, b, hapart, ha, hb, hra, hrb => by
      rw [List.pairwise_cons] at hapart
      rcases List.mem_cons.mp ha with rfl | ha' <;> rcases List.mem_cons.mp hb with rfl | hb'
      · rfl
      · exact ((hapart.1 b hb').not_contains hr hra hrb).elim
      · exact ((hapart.1 a ha').not_contains hr hrb hra).elim
      · exact eq_of_contains hr hapart.2 ha' hb' hra hrb

theorem enter_member {α : Type} {f : α → Node} {es : List α} {e : α} {name : String}
    {accept : Node → Bool} {what : String} (hr : g.range.Proper)
    (hchildren : s.node.children = Node.numbered name (es.map f))
    (hapart : es.Pairwise fun a b => (f a).range.Before (f b).range) (he : e ∈ es)
    (haccept : accept (f e) = true) (hcontains : (f e).range.contains g.range = true) :
    ∃ t, g.enter accept what s = .ok t ∧ t.At (f e) s.pending := by
  obtain ⟨i, hi⟩ := List.mem_iff_getElem?.mp he
  have hmem : ([name, toString i], f e) ∈ s.node.children := by
    rw [hchildren, Node.mem_numbered]
    exact ⟨i, by rw [List.getElem?_map, hi]; rfl, rfl⟩
  refine enter_of_unique hmem haccept hcontains ?_
  intro path c' hc' _ hcontains'
  rw [hchildren, Node.mem_numbered] at hc'
  obtain ⟨j, hj, _⟩ := hc'
  rw [List.getElem?_map, Option.map_eq_some_iff] at hj
  obtain ⟨e', he', rfl⟩ := hj
  rw [eq_of_contains hr hapart he (List.mem_of_getElem? he') hcontains hcontains']

end Goal

def valueOf? : Node → Option Value
  | Node.annotation a => a.value
  | .property p => p.value
  | _ => none

theorem range_ofValue (v : Value) : (Node.ofValue v).range = v.range := by cases v <;> rfl

theorem range_ofEntry (e : Entry) : (Node.ofEntry e).range = e.range := by cases e <;> rfl

theorem isValue_ofValue (v : Value) : (Node.ofValue v).isValue = true := by cases v <;> rfl

theorem Goal.enterValue_of_valueOf? {g : Goal} {s : State} {v : Value} (accept : Node → Bool)
    (h : valueOf? s.node = some v) (haccept : accept (Node.ofValue v) = true)
    (hcontains : v.range.contains g.range = true) :
    ∃ t, g.enterValue accept s = .ok t ∧ t.At (.ofValue v) s.pending := by
  have hmem : (["value"], Node.ofValue v) ∈ s.node.children ∧
      ∀ path c, (path, c) ∈ s.node.children → c.isValue = true → c = .ofValue v := by
    cases hn : s.node with
    | annotation a =>
        rw [hn] at h
        have hvalue : a.value = some v := h
        rw [Node.children, hvalue]
        refine ⟨List.mem_append_right _ (List.mem_singleton_self _), ?_⟩
        intro path c hc hcvalue
        rcases List.mem_append.mp hc with hc | hc
        · obtain ⟨_, _, _, rfl⟩ := Node.exists_of_mem_part hc
          cases hcvalue
        · exact (Prod.mk.inj (List.mem_singleton.mp hc)).2
    | property p =>
        rw [hn] at h
        have hvalue : p.value = some v := h
        rw [Node.children, hvalue]
        exact ⟨List.mem_singleton_self _, fun path c hc _ =>
          (Prod.mk.inj (List.mem_singleton.mp hc)).2⟩
    | _ => rw [hn] at h; cases h
  have hrange : (Node.ofValue v).range.contains g.range = true := by rwa [range_ofValue]
  have henter : ∀ what, ∃ t, g.enter (fun n => n.isValue && accept n) what s = .ok t ∧
      t.At (.ofValue v) s.pending := by
    intro what
    refine enter_of_unique hmem.1 (by rw [isValue_ofValue, haccept]; rfl) hrange ?_
    intro path c hc hcaccept _
    exact hmem.2 path c hc (Bool.and_eq_true_iff.mp hcaccept).1
  rw [enterValue.eq_def]
  split
  · exact henter _
  · exact henter _
  · next hother hproperty =>
    cases hn : s.node with
    | annotation a => exact absurd hn (hother a)
    | property p => exact absurd hn (hproperty p)
    | _ => rw [hn] at h; cases h

/-! ## Values, folded names and members -/

def holdsValue : Value → Bool
  | .record r =>
    match r.valueEntry? with
    | some (_, p) => p.value.isSome
    | none => false
  | _ => false

namespace Goal

variable {g : Goal} {s : State}

theorem unwrapValue_eq_self {w : Value} (hs : s.node = .ofValue w) (hw : holdsValue w = false) :
    g.unwrapValue s = s := by
  cases w with
  | record r =>
      rw [unwrapValue, hs]
      simp only [Node.ofValue]
      split
      · next i range name colon x hentry =>
        rw [holdsValue, hentry] at hw
        cases hw
      · rfl
  | collection c =>
      rw [unwrapValue, hs]
      rfl
  | primitive p =>
      rw [unwrapValue, hs]
      rfl

theorem unwrapValue_at {r : Syntax.Record} {i : Nat} {p : Syntax.Property} {x : Value}
    (hs : s.node = .record r) (hentry : r.valueEntry? = some (i, p)) (hx : p.value = some x)
    (hcontains : x.range.contains g.range = true) :
    (g.unwrapValue s).At (.ofValue x) s.pending := by
  obtain ⟨range, name, colon, value⟩ := p
  obtain rfl : value = some x := hx
  rw [unwrapValue, hs]
  simp only [hentry, hcontains, if_true]
  exact ⟨rfl, rfl⟩

theorem enterElement_content {parent : ElementKind} {c : Element}
    (hparent : parent = .propertyValue ∨ parent = ElementKind.annotation)
    (hkind : c.kind ≠ ElementKind.annotation) :
    g.enterElement (some parent) c s = g.enterContent c.kind s := by
  rcases hparent with rfl | rfl
  · rfl
  · cases hc : c.kind with
    | annotation => exact absurd hc hkind
    | _ => rw [enterElement.eq_def, hc]

theorem enterContent_value (kind : ElementKind) {w : Value} (hnode : valueOf? s.node = some w)
    (hpending : s.pending = []) (hcontains : w.range.contains g.range = true) :
    ∃ t, t.At (.ofValue w) [] ∧ g.enterContent kind s = .ok (g.unwrapValue t) := by
  obtain ⟨t, ht, hat⟩ := enterValue_of_valueOf? (fun _ => true) hnode rfl hcontains
  refine ⟨t, ⟨hat.1, hat.2.trans hpending⟩, ?_⟩
  rw [enterContent, hpending, List.isEmpty_nil, if_pos rfl, ht]
  rfl

theorem enterProperty_of_enter {t : State} {e : Element} {p : Syntax.Property}
    (hs : s.pending = [])
    (ht : g.enter (fun | .property _ => true | _ => false) "record property" s = .ok t)
    (hnode : t.node = .property p) :
    g.enterProperty e s = .ok { t with pending := (p.name.segments.drop 1).map (·.text) } := by
  have henter : g.enterProperty e s = (Except.ok t >>= fun (u : State) =>
      match u.node with
      | .property p =>
        Except.ok { u with pending := (p.name.segments.drop 1).map Syntax.Identifier.text }
      | _ => Except.ok u) := by
    rw [← ht, enterProperty, hs]
    rfl
  rw [henter]
  simp only [bind, Except.bind, hnode]

theorem enterEmbedded_of_enter {t : State} {e : Element} {a : Syntax.Annotation}
    (ht : g.enter (fun | Node.annotation a => a.embedded | _ => false) "embedded annotation" s =
      .ok t) (hnode : t.node = Node.annotation a) :
    g.enterEmbedded e s = .ok { t with pending := g.namesBeyond a.term.text e } := by
  have henter : g.enterEmbedded e s = (Except.ok t >>= fun (u : State) =>
      match u.node with
      | Node.annotation a => Except.ok { u with pending := g.namesBeyond a.term.text e }
      | _ => Except.ok u) := by
    rw [← ht, enterEmbedded]
    rfl
  rw [henter]
  simp only [bind, Except.bind, hnode]

theorem enterAssignment_single {t : State} {e : Element} {a : Syntax.Annotation}
    (ht : g.enter (fun | Node.annotation _ | .group _ => true | _ => false) "assignment" s = .ok t)
    (hnode : t.node = Node.annotation a) :
    g.enterAssignment e s = .ok { t with pending := g.namesBeyond a.term.text e } := by
  rw [enterAssignment]
  generalize hr : g.enter _ "assignment" s = r
  obtain rfl : r = .ok t := hr.symm.trans ht
  simp only [bind, Except.bind, pure, Except.pure, hnode, List.nil_append]
  rw [Syntax.Path.text_eq]

theorem enterAssignment_group {t u w : State} {e : Element} {group : Syntax.Group}
    {a : Syntax.Annotation}
    (ht : g.enter (fun | Node.annotation _ | .group _ => true | _ => false) "assignment" s = .ok t)
    (htnode : t.node = .group group)
    (hu : g.enter (fun | .groupItems _ => true | _ => false) "group items" t = .ok u)
    (hw : g.enter (fun | Node.annotation _ => true | _ => false) "group item" u = .ok w)
    (hwnode : w.node = Node.annotation a) (hterm : a.term.segments ≠ []) :
    g.enterAssignment e s =
      .ok { w with pending := g.namesBeyond (group.name.text ++ "." ++ a.term.text) e } := by
  rw [enterAssignment]
  generalize hr : g.enter _ "assignment" s = r
  obtain rfl : r = .ok t := hr.symm.trans ht
  simp only [bind, Except.bind, htnode]
  generalize hr' : g.enter _ "group items" t = r'
  obtain rfl : r' = .ok u := hr'.symm.trans hu
  dsimp only
  generalize hr'' : g.enter _ "group item" u = r''
  obtain rfl : r'' = .ok w := hr''.symm.trans hw
  simp only [pure, Except.pure, hwnode]
  rw [Syntax.Path.text_eq, ← Syntax.joined_cons hterm]
  rfl

/-- At names still to be matched the search stays where it is for a record. -/
theorem enterElement_folded {parent : ElementKind} {range : Range} {value : Option Element}
    {name : String} {names names' : List String}
    (hparent : parent = .propertyValue ∨ parent = ElementKind.annotation)
    (hs : s.pending = name :: names) :
    g.enterElement (some parent) (Syntax.foldedRecord range value names') s = .ok (fold s) := by
  have hkind : ElementKind.record ≠ ElementKind.annotation := by decide
  rw [enterElement_content hparent hkind, enterContent, hs, List.isEmpty_cons]
  rfl

/-- The next of these names is matched by a property of that name. -/
theorem enterElement_name {range : Range} {value : Option Element} {name : String}
    {names : List String} (hs : s.pending = name :: names) :
    g.enterElement (some .record) (Syntax.propertyElement range value (name :: names)) s =
      .ok (fold { s with pending := names }) := by
  rw [Syntax.propertyElement_cons]
  show g.enterProperty _ s = _
  rw [enterProperty, hs]
  exact if_pos (beq_self_eq_true name)

theorem namesBeyond_eq {term : String} {e : Element} (hg : g.vocabulary = .standard)
    (he : e.term? = some (Syntax.splitTerm .standard term).1) :
    g.namesBeyond term e = (Syntax.splitTerm .standard term).2 := by
  rw [namesBeyond, hg, he, Option.getD_some]
  rcases Syntax.splitTerm_cases term with h | ⟨entry, hentry, second, rest, h, hterm⟩
  · rw [h]
    simp only [Text.stripFront?_self]
  · rw [h, Vocabulary.shorten_of_alias hentry, hterm]
    simp only [Text.stripFront?_append]

end Goal

section Steps

variable {v : Vocabulary} {n : Node} {pending : List String}

theorem leads_value {parent : ElementKind} {w : Value}
    (hparent : parent = .propertyValue ∨ parent = ElementKind.annotation)
    (hvalue : valueOf? n = some w) (hinside : n.range.contains w.range = true)
    (hw : holdsValue w = false) :
    Leads v (some parent) n [] (w.element v) (.ofValue w) [] := by
  refine ⟨by rwa [range_ofValue], ?_⟩
  intro g s _ _ hcontains hs
  rw [range_ofValue] at hcontains
  obtain ⟨t, hat, ht⟩ := Goal.enterContent_value (w.element v).kind
    (hs.1.symm ▸ hvalue) hs.2 hcontains
  rw [Goal.enterElement_content hparent (w.kind_element v).1, ht]
  exact ⟨_, rfl, by rw [Goal.unwrapValue_eq_self hat.1 hw]; exact hat⟩

theorem leads_promoted {parent : ElementKind} {r : Syntax.Record} {i : Nat} {p : Syntax.Property}
    {x : Value} (hparent : parent = .propertyValue ∨ parent = ElementKind.annotation)
    (hvalue : valueOf? n = some (.record r)) (hentry : r.valueEntry? = some (i, p))
    (hx : p.value = some x) (hinside : n.range.contains r.range = true)
    (hrecord : r.range.contains x.range = true) :
    Leads v (some parent) n [] (x.element v) (.ofValue x) [] := by
  refine ⟨by rw [range_ofValue]; exact Range.contains_trans hinside hrecord, ?_⟩
  intro g s _ _ hcontains hs
  rw [range_ofValue] at hcontains
  have houter : (Value.record r).range.contains g.range = true :=
    Range.contains_trans hrecord hcontains
  obtain ⟨t, hat, ht⟩ := Goal.enterContent_value (x.element v).kind (hs.1.symm ▸ hvalue) hs.2 houter
  rw [Goal.enterElement_content hparent (x.kind_element v).1, ht]
  refine ⟨_, rfl, ?_⟩
  have h := Goal.unwrapValue_at hat.1 hentry hx hcontains
  rwa [hat.2] at h

/-- A record that is folded into a dotted name stands where the name stands. -/
theorem leads_folded {parent : ElementKind} {range : Range} {value : Option Element}
    {name : String} {names : List String}
    (hparent : parent = .propertyValue ∨ parent = ElementKind.annotation) :
    Leads v (some parent) n (name :: names) (Syntax.foldedRecord range value (name :: names)) n
      (name :: names) := by
  refine ⟨Range.contains_refl _, ?_⟩
  intro g s _ _ _ hs
  exact ⟨Goal.fold s, Goal.enterElement_folded hparent hs.2, hs⟩

/-- The next name of a dotted name is matched in place. -/
theorem leads_name {range : Range} {value : Option Element} {name : String}
    {names : List String} : Leads v (some .record) n (name :: names)
      (Syntax.propertyElement range value (name :: names)) n names := by
  refine ⟨Range.contains_refl _, ?_⟩
  intro g s _ _ _ hs
  exact ⟨Goal.fold { s with pending := names }, Goal.enterElement_name hs.2, hs.1, rfl⟩

theorem leads_item {k : Nat} {range : Range} {items : List Value} {w : Value}
    (h : Lists k range Value.range items) (hw : w ∈ items) :
    Leads v (some .collection) (.collection ⟨range, items⟩) [] (w.element v) (.ofValue w) [] := by
  refine ⟨by rw [range_ofValue]; exact h.inside w hw, ?_⟩
  intro g s _ hproper hcontains hs
  have hapart : items.Pairwise fun a b =>
      (Node.ofValue a).range.Before (Node.ofValue b).range := by
    simp only [range_ofValue]
    exact h.apart
  have henter := @Goal.enter_member g s _ Node.ofValue items w "items" Node.isValue
    "collection item" hproper (by rw [hs.1]; rfl) hapart hw (isValue_ofValue w) hcontains
  rw [hs.2] at henter
  exact henter

theorem leads_property {k : Nat} {range : Range} {entries : List Entry} {p : Syntax.Property}
    {value : Option Element} {name : String} {names : List String}
    (h : Lists k range Entry.range entries) (hp : .property p ∈ entries)
    (hnames : p.name.segments.map (·.text) = name :: names) :
    Leads v (some .record) (.record ⟨range, entries⟩) []
      (Syntax.propertyElement p.range value (name :: names)) (.property p) names := by
  refine ⟨h.inside _ hp, ?_⟩
  intro g s _ hproper hcontains hs
  have hapart : entries.Pairwise fun a b =>
      (Node.ofEntry a).range.Before (Node.ofEntry b).range := by
    simp only [range_ofEntry]
    exact h.apart
  obtain ⟨t, ht, hat⟩ := @Goal.enter_member g s _ Node.ofEntry entries (.property p) "properties"
    (fun | .property _ => true | _ => false) "record property" hproper (by rw [hs.1]; rfl) hapart
    hp rfl hcontains
  refine ⟨{ t with pending := (p.name.segments.drop 1).map (·.text) }, ?_, hat.1, ?_⟩
  · rw [Syntax.propertyElement_cons]
    exact Goal.enterProperty_of_enter hs.2 ht hat.1
  · rw [List.map_drop, hnames]
    rfl

def annotationElement (term : String) (a : Syntax.Annotation) : Element :=
  Syntax.annotationElement .standard term a.qualifier a.range (a.value.any Value.isPromoted)
    (Syntax.optionElement .standard a.value)

theorem enterEmbedded_at {k : Nat} {range : Range} {entries : List Entry}
    {a : Syntax.Annotation} {g : Goal} {s : State} (h : Lists k range Entry.range entries)
    (ha : .embedded a ∈ entries) (hembedded : a.embedded = true) (hg : g.vocabulary = .standard)
    (hproper : g.range.Proper) (hcontains : a.range.contains g.range = true)
    (hs : s.node = .record ⟨range, entries⟩) :
    ∃ t, g.enterEmbedded (annotationElement a.term.text a) s = .ok t ∧
      t.At (Node.annotation a) (Syntax.splitTerm .standard a.term.text).2 := by
  have hapart : entries.Pairwise fun a b =>
      (Node.ofEntry a).range.Before (Node.ofEntry b).range := by
    simp only [range_ofEntry]
    exact h.apart
  obtain ⟨t, ht, hat⟩ := @Goal.enter_member g s _ Node.ofEntry entries (.embedded a) "properties"
    (fun | Node.annotation a => a.embedded | _ => false) "embedded annotation" hproper
    (by rw [hs]; rfl) hapart ha hembedded hcontains
  have hterm := (Syntax.annotationElement_facts .standard a.term.text a.qualifier a.range
    (a.value.any Value.isPromoted) (Syntax.optionElement .standard a.value)).2.2.1
  refine ⟨_, Goal.enterEmbedded_of_enter ht hat.1, hat.1, ?_⟩
  exact Goal.namesBeyond_eq hg hterm

theorem leads_embedded {k : Nat} {range : Range} {entries : List Entry} {a : Syntax.Annotation}
    (h : Lists k range Entry.range entries) (ha : .embedded a ∈ entries)
    (hembedded : a.embedded = true) :
    Leads .standard (some .record) (.record ⟨range, entries⟩) []
      (annotationElement a.term.text a) (Node.annotation a)
      (Syntax.splitTerm .standard a.term.text).2 := by
  refine ⟨h.inside _ ha, ?_⟩
  intro g s hg hproper hcontains hs
  obtain ⟨t, ht, hat⟩ := enterEmbedded_at h ha hembedded hg hproper hcontains hs.1
  refine ⟨t, ?_, hat⟩
  have hkind : (annotationElement a.term.text a).kind = ElementKind.annotation :=
    (Syntax.annotationElement_facts ..).1
  rw [Goal.enterElement.eq_def, hkind]
  simp only [hs.2, List.isEmpty_nil, if_true]
  exact ht

theorem leads_promotedEmbedded {k : Nat} {range : Range} {entries : List Entry}
    {a : Syntax.Annotation} (hvalue : valueOf? n = some (.record ⟨range, entries⟩))
    (hinside : n.range.contains range = true) (h : Lists k range Entry.range entries)
    (ha : .embedded a ∈ entries) (hembedded : a.embedded = true) :
    Leads .standard (some ElementKind.annotation) n [] (annotationElement a.term.text a)
      (Node.annotation a) (Syntax.splitTerm .standard a.term.text).2 := by
  refine ⟨Range.contains_trans hinside (h.inside _ ha), ?_⟩
  intro g s hg hproper hcontains hs
  have houter : (Value.record ⟨range, entries⟩).range.contains g.range = true :=
    Range.contains_trans (h.inside _ ha) hcontains
  have hthrough : ∀ accept : Node → Bool, accept (.ofValue (.record ⟨range, entries⟩)) = true →
      ∃ u, (g.enterValue accept s >>= g.enterEmbedded (annotationElement a.term.text a)) = .ok u ∧
        u.At (Node.annotation a) (Syntax.splitTerm .standard a.term.text).2 := by
    intro accept haccept
    obtain ⟨t, ht, hat⟩ :=
      Goal.enterValue_of_valueOf? accept (hs.1.symm ▸ hvalue) haccept houter
    obtain ⟨u, hu, hatu⟩ := enterEmbedded_at h ha hembedded hg hproper hcontains hat.1
    refine ⟨u, ?_, hatu⟩
    rw [ht]
    exact hu
  have hkind : (annotationElement a.term.text a).kind = ElementKind.annotation :=
    (Syntax.annotationElement_facts ..).1
  rw [Goal.enterElement.eq_def, hkind]
  exact hthrough _ rfl

theorem range_ofAssignment (a : Syntax.Assignment) :
    (Node.ofAssignment a).range = a.range := by cases a <;> rfl

theorem enter_assignment {k : Nat} {t : Syntax.Target} {a : Syntax.Assignment} {g : Goal}
    {s : State} (ht : t.Tidy k) (ha : a ∈ t.assignments) (hproper : g.range.Proper)
    (hcontains : a.range.contains g.range = true) (hs : s.node = .target t) :
    ∃ u, g.enter (fun | Node.annotation _ | .group _ => true | _ => false) "assignment" s =
      .ok u ∧ u.At (.ofAssignment a) s.pending := by
  have hapart : t.assignments.Pairwise fun a b =>
      (Node.ofAssignment a).range.Before (Node.ofAssignment b).range := by
    simp only [range_ofAssignment]
    exact ht.lists.apart
  exact @Goal.enter_member g s _ Node.ofAssignment t.assignments a "assignments"
    _ "assignment" hproper (by rw [hs]; rfl) hapart ha (by cases a <;> rfl)
    (by rwa [range_ofAssignment])

theorem leads_single {k : Nat} {t : Syntax.Target} {a : Syntax.Annotation} (ht : t.Tidy k)
    (ha : .single a ∈ t.assignments) :
    Leads .standard none (.target t) [] (annotationElement a.term.text a) (Node.annotation a)
      (Syntax.splitTerm .standard a.term.text).2 := by
  refine ⟨ht.lists.inside _ ha, ?_⟩
  intro g s hg hproper hcontains hs
  obtain ⟨u, hu, hat⟩ := enter_assignment ht ha hproper hcontains hs.1
  have hfacts := Syntax.annotationElement_facts .standard a.term.text a.qualifier a.range
    (a.value.any Value.isPromoted) (Syntax.optionElement .standard a.value)
  have henter : g.enterElement none (annotationElement a.term.text a) s =
      g.enterAssignment (annotationElement a.term.text a) s := by
    rw [Goal.enterElement.eq_def, annotationElement, hfacts.1]
  refine ⟨_, henter.trans (Goal.enterAssignment_single hu hat.1), hat.1, ?_⟩
  exact Goal.namesBeyond_eq hg hfacts.2.2.1

theorem leads_groupItem {k : Nat} {t : Syntax.Target} {group : Syntax.Group}
    {a : Syntax.Annotation} (ht : t.Tidy k) (hgroup : .group group ∈ t.assignments)
    (ha : a ∈ group.items.items) :
    Leads .standard none (.target t) []
      (annotationElement (group.name.text ++ "." ++ a.term.text) a) (Node.annotation a)
      (Syntax.splitTerm .standard (group.name.text ++ "." ++ a.term.text)).2 := by
  obtain ⟨hitems, hlists, hholds⟩ : group.range.contains group.items.range = true ∧
      Lists k group.items.range Syntax.Annotation.range group.items.items ∧
      ∀ a ∈ group.items.items, Holds k a.range a.value ∧ a.term.segments ≠ [] :=
    ht.assignments _ hgroup
  have hinside := hlists.inside a ha
  refine ⟨Range.contains_trans (ht.lists.inside _ hgroup)
    (Range.contains_trans hitems hinside), ?_⟩
  intro g s hg hproper hcontains hs
  have hin := Range.contains_trans hinside hcontains
  obtain ⟨u, hu, hatu⟩ := enter_assignment ht hgroup hproper (Range.contains_trans hitems hin) hs.1
  obtain ⟨w, hw, hatw⟩ : ∃ w, g.enter (fun | .groupItems _ => true | _ => false) "group items" u =
      .ok w ∧ w.At (.groupItems group.items) u.pending := by
    have hchildren : u.node.children = [(["items"], .groupItems group.items)] := by
      rw [hatu.1]
      rfl
    refine Goal.enter_of_unique (by rw [hchildren]; exact List.mem_singleton_self _) rfl hin ?_
    intro path c hc _ _
    rw [hchildren] at hc
    exact (Prod.mk.inj (List.mem_singleton.mp hc)).2
  obtain ⟨x, hx, hatx⟩ := @Goal.enter_member g w _ Node.annotation group.items.items a "items"
    (fun | Node.annotation _ => true | _ => false) "group item" hproper (by rw [hatw.1]; rfl)
    hlists.apart ha rfl hcontains
  have hfacts := Syntax.annotationElement_facts .standard (group.name.text ++ "." ++ a.term.text)
    a.qualifier a.range (a.value.any Value.isPromoted) (Syntax.optionElement .standard a.value)
  have henter : g.enterElement none (annotationElement (group.name.text ++ "." ++ a.term.text) a)
      s = g.enterAssignment (annotationElement (group.name.text ++ "." ++ a.term.text) a) s := by
    rw [Goal.enterElement.eq_def, annotationElement, hfacts.1]
  refine ⟨_, henter.trans (Goal.enterAssignment_group hu hatu.1 hw hx hatx.1 (hholds a ha).2),
    hatx.1, ?_⟩
  exact Goal.namesBeyond_eq hg hfacts.2.2.1

end Steps

end Locate

end AnnotationEdit

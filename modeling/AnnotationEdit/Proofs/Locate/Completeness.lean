import AnnotationEdit.Proofs.Locate.Descent

/-!
# Which nodes are located

The search passes over a record with `$value` wherever the value of an annotation or property is
entered, but only the value of an annotation is taken out of such a record. So the value inside
`$value` is lost when a property, or an annotation with names folded into its term, holds the
record. Main statement: this is the only way to lose a node. In a file whose records name `$value`
once, every reference, target and element is located exactly when no such record is there.
-/

namespace AnnotationEdit

open Syntax (Node Value Entry Lists Holds valueAfterColon)
open AnnotationEdit.Tree (View Element ElementKind Addressed Descends)

/-! ## Files all of whose nodes are located -/

namespace Locate

mutual

/-- Everything in the value is located from the value on. -/
def isLocatable (v : Vocabulary) : Value → Bool
  | .record ⟨_, entries⟩ => entriesLocatable v entries
  | .collection ⟨_, items⟩ => itemsLocatable v items
  | .primitive _ => true

def itemsLocatable (v : Vocabulary) : List Value → Bool
  | [] => true
  | w :: ws => isLocatable v w && itemsLocatable v ws

/-- The value of a property: no record whose `$value` has a value. -/
def heldLocatable (v : Vocabulary) : Option Value → Bool
  | none => true
  | some w => !holdsValue w && isLocatable v w

def entriesLocatable (v : Vocabulary) : List Entry → Bool
  | [] => true
  | .property ⟨_, name, _, value⟩ :: entries =>
    (name.text == "$Type" || heldLocatable v value) && entriesLocatable v entries
  | .embedded ⟨_, _, term, _, _, value, _⟩ :: entries =>
    annotatedLocatable v term.text value && entriesLocatable v entries

/-- The value of an annotation: where no names are folded into the term, a record with `$value`
stands for the value in it and the annotations beside it. -/
def annotatedLocatable (v : Vocabulary) (term : String) : Option Value → Bool
  | some (.record ⟨range, entries⟩) =>
    if (Syntax.splitTerm v term).2.isEmpty && Value.isPromoted (.record ⟨range, entries⟩) then
      promotedLocatable v entries
    else !holdsValue (.record ⟨range, entries⟩) && entriesLocatable v entries
  | some (.collection ⟨_, items⟩) => itemsLocatable v items
  | some (.primitive _) => true
  | none => true

def promotedLocatable (v : Vocabulary) : List Entry → Bool
  | [] => true
  | .property ⟨_, name, _, value⟩ :: entries =>
    (name.text != "$value" || optionLocatable v value) && promotedLocatable v entries
  | .embedded ⟨_, _, term, _, _, value, _⟩ :: entries =>
    annotatedLocatable v term.text value && promotedLocatable v entries

def optionLocatable (v : Vocabulary) : Option Value → Bool
  | none => true
  | some w => isLocatable v w

end

def assignmentLocatable (v : Vocabulary) : Syntax.Assignment → Bool
  | .single a => annotatedLocatable v a.term.text a.value
  | .group g => g.items.items.all fun a =>
    annotatedLocatable v (g.name.text ++ "." ++ a.term.text) a.value

end Locate

/-- No property, and no annotation with names folded into its term, holds a record whose `$value`
has a value. -/
def Syntax.File.isLocatable (v : Vocabulary) (f : Syntax.File) : Bool :=
  f.targets.all fun t => t.assignments.all (Locate.assignmentLocatable v)

namespace Syntax

/-- The entry is `$value`, or a dotted name below it. -/
def isValueEntry : Entry → Bool
  | .property p => p.name.segments.head?.any (·.text == "$value")
  | .embedded _ => false

mutual

/-- No record in the value has two entries for `$value`. -/
def Value.namesValueOnce : Value → Bool
  | .record ⟨_, entries⟩ => decide (entries.countP isValueEntry ≤ 1) && entriesNameValueOnce entries
  | .collection ⟨_, items⟩ => itemsNameValueOnce items
  | .primitive _ => true

def itemsNameValueOnce : List Value → Bool
  | [] => true
  | w :: ws => w.namesValueOnce && itemsNameValueOnce ws

def entriesNameValueOnce : List Entry → Bool
  | [] => true
  | .property ⟨_, _, _, value⟩ :: entries =>
    optionNamesValueOnce value && entriesNameValueOnce entries
  | .embedded ⟨_, _, _, _, _, value, _⟩ :: entries =>
    optionNamesValueOnce value && entriesNameValueOnce entries

def optionNamesValueOnce : Option Value → Bool
  | none => true
  | some w => w.namesValueOnce

end

/-- No record of the file has two entries for `$value`. -/
def File.namesValueOnce (f : File) : Bool :=
  f.targets.all fun t => t.assignments.all fun a =>
    a.annotations.all fun a => optionNamesValueOnce a.value

end Syntax

namespace Locate

/-! ## A value that is lost -/

theorem Goal.enterProperty_error {g : Goal} {s : State} {e : Element} (hs : s.pending = [])
    (h : ∃ err, g.enter (fun | .property _ => true | _ => false) "record property" s =
      .error err) : ∃ err, g.enterProperty e s = .error err := by
  obtain ⟨err, herr⟩ := h
  refine ⟨err, ?_⟩
  rw [enterProperty, hs]
  dsimp only
  generalize hr : g.enter _ "record property" s = r
  obtain rfl : r = .error err := hr.symm.trans herr
  rfl

/-- No property of a value is around the whole value. -/
theorem enter_property_of_value {k : Nat} {x : Value} {g : Goal} {s : State} (hx : x.Tidy k)
    (hs : s.node = .ofValue x) (hg : g.range = x.range) :
    ∃ err, g.enter (fun | .property _ => true | _ => false) "record property" s = .error err := by
  refine Goal.enter_of_none ?_
  intro path c hc haccept
  rw [hs] at hc
  cases x with
  | record r =>
      obtain ⟨range, entries⟩ := r
      obtain ⟨i, entry, hentry, _, rfl⟩ := Node.exists_of_mem_numbered hc
      have hafter := (Syntax.tidy_record hx).1.after entry (List.mem_of_getElem? hentry)
      rw [Bool.eq_false_iff]
      intro hcontains
      rw [range_ofEntry, hg, Range.contains_iff] at hcontains
      exact absurd hcontains.1 (not_le_of_gt hafter)
  | collection l =>
      obtain ⟨range, items⟩ := l
      obtain ⟨i, w, _, _, rfl⟩ := Node.exists_of_mem_numbered hc
      cases w <;> cases haccept
  | primitive q => exact absurd hc List.not_mem_nil

/-- The entry `$value` stands for a property of this name alone. -/
theorem names_of_valueEntry {r : Syntax.Record} {i : Nat} {p : Syntax.Property}
    (hentry : r.valueEntry? = some (i, p)) (hsegments : p.name.segments ≠ []) :
    p.name.segments.map (·.text) = ["$value"] := by
  obtain ⟨_, hname⟩ := r.getElem?_of_property? hentry
  have h := Syntax.Path.segments_of_text hsegments (by rw [hname]; decide)
  rwa [hname] at h

theorem addressed_of_mem {k : Nat} {e c : Element} {es : List Element}
    (hcontent : e.content = es.map .element) (hc : c ∈ es) (hfew : es.length ≤ k)
    (hk : k < Text.wordBound) : Addressed e c := by
  obtain ⟨i, hi⟩ := List.mem_iff_getElem?.mp hc
  have hlt : i < es.length := (List.getElem?_eq_some_iff.mp hi).1
  refine ⟨i, by omega, ?_⟩
  rw [hcontent, List.getElem?_map, hi]
  rfl

theorem content_record (v : Vocabulary) (r : Syntax.Record) :
    (r.element v).content = (r.entries.filterMap (Syntax.entryElement? v)).map .element := by
  rw [(r.element_facts v).2.2, Syntax.entryElements_eq]

theorem exists_of_holdsValue {r : Syntax.Record} (h : holdsValue (.record r) = true) :
    ∃ i p x, r.valueEntry? = some (i, p) ∧ p.value = some x := by
  rw [holdsValue] at h
  split at h
  · next i p hentry => exact ⟨i, p, _, hentry, (Option.some_get h).symm⟩
  · cases h

/-- The value in `$value` of a record that a property holds is missed: the search passes over the
record, and then looks for the property `$value` inside the value. -/
theorem missed_of_holdsValue {k : Nat} {n : Node} {r : Syntax.Record} {name : String}
    (hk : k < Text.wordBound) (hvalue : valueOf? n = some (.record r))
    (hholds : Holds k n.range (some (.record r))) (hr : holdsValue (.record r) = true) :
    Missed .standard (Syntax.propertyElement n.range (some (r.element .standard)) [name]) n [] := by
  obtain ⟨i, p, x, hentry, hx⟩ := exists_of_holdsValue hr
  obtain ⟨hget, hname⟩ := r.getElem?_of_property? hentry
  have hmem : Entry.property p ∈ r.entries := List.mem_of_getElem? hget
  obtain ⟨hlists, htidy⟩ : Lists k r.range Entry.range r.entries ∧ ∀ e ∈ r.entries, e.Tidy k := by
    obtain ⟨range, entries⟩ := r
    exact Syntax.tidy_record (hholds.tidy _ rfl)
  obtain ⟨hproperty, hsegments⟩ := Syntax.holds_property (htidy _ hmem)
  have hnames := names_of_valueEntry hentry hsegments
  have hxTidy := hproperty.tidy x hx
  have hrecord : r.range.contains x.range = true :=
    Range.contains_trans (hlists.inside _ hmem) (hproperty.inside x hx)
  let inner := Syntax.propertyElement p.range (some (x.element .standard)) ["$value"]
  have helement : Syntax.entryElement? .standard (.property p) = some inner := by
    obtain ⟨prange, pname, pcolon, pvalue⟩ := p
    obtain rfl : pvalue = some x := hx
    have htype : (pname.text == "$Type") = false := by
      rw [show pname.text = "$value" from hname]
      decide
    rw [Syntax.entryElement?, htype, show pname.segments.map (·.text) = ["$value"] from hnames,
      Syntax.optionElement]
    rfl
  have hrecordContent : Addressed (r.element .standard) inner :=
    addressed_of_mem (content_record .standard r)
      (List.mem_filterMap.mpr ⟨_, hmem, helement⟩)
      (Nat.le_trans (List.length_filterMap_le _ _) hlists.few) hk
  refine ⟨[r.element .standard, inner, x.element .standard], x.range, ⟨?_, ?_, hxTidy.proper, ?_⟩,
    ?_⟩
  · refine ⟨⟨0, by decide, rfl⟩, hrecordContent, ⟨0, by decide, rfl⟩, trivial⟩
  · exact x.range_element .standard
  · exact Range.contains_trans (hholds.inside _ rfl) hrecord
  · intro g s hg hrange hs
    have houter : (Value.record r).range.contains g.range = true := by
      rw [hrange]
      exact hrecord
    obtain ⟨t, hat, ht⟩ := Goal.enterContent_value (s := { s with collapsed := false })
      (r.element .standard).kind (hs.1.symm ▸ hvalue) hs.2 houter
    have hunwrapped := Goal.unwrapValue_at hat.1 hentry hx
      (by rw [hrange]; exact Range.contains_refl _)
    rw [hat.2] at hunwrapped
    obtain ⟨err, herr⟩ := Goal.enterProperty_error (e := inner)
      (s := { g.unwrapValue t with collapsed := false }) hunwrapped.2
      (enter_property_of_value hxTidy hunwrapped.1 hrange)
    have hfirst : g.step (.element (Syntax.propertyElement n.range (some (r.element .standard))
        [name])) (.element (r.element .standard)) s = .ok (g.unwrapValue t) := by
      refine Eq.trans ?_ ht
      exact Goal.enterElement_content (Or.inl rfl) (by rw [(r.element_facts _).1]; decide)
    have hsecond : g.step (.element (r.element .standard)) (.element inner) (g.unwrapValue t) =
        .error err := by
      refine Eq.trans ?_ herr
      show g.enterElement (some (r.element .standard).kind) inner _ = _
      rw [(r.element_facts _).1]
      rfl
    refine ⟨err, ?_⟩
    rw [List.map_cons, Goal.steps, hfirst]
    simp only [List.map_cons, Goal.steps, hsecond]

/-! ## Values, properties and annotations -/

def valueStop (w : Value) : Stop :=
  ⟨w.element .standard, .ofValue w, [], isLocatable .standard w⟩

/-- The search for an annotation stands at the annotation, with the names folded into its term. -/
def annotationStop (term : String) (a : Syntax.Annotation) : Stop :=
  ⟨annotationElement term a, Node.annotation a, (Syntax.splitTerm .standard term).2,
    annotatedLocatable .standard term a.value⟩

@[simp] theorem annotationStop_element (term : String) (a : Syntax.Annotation) :
    (annotationStop term a).element = annotationElement term a := rfl

@[simp] theorem annotationStop_node (term : String) (a : Syntax.Annotation) :
    (annotationStop term a).node = Node.annotation a := rfl

@[simp] theorem annotationStop_pending (term : String) (a : Syntax.Annotation) :
    (annotationStop term a).pending = (Syntax.splitTerm .standard term).2 := rfl

def EntryDecided (k : Nat) : Entry → Prop
  | .property p => ∀ w, p.value = some w → (valueStop w).Decided .standard k
  | .embedded a => (annotationStop a.term.text a).Decided .standard k

section Decided

variable {k : Nat}

theorem decided_primitive {p : Syntax.Primitive} (h : (Value.primitive p).Tidy k) :
    (valueStop (.primitive p)).Decided .standard k := by
  refine ⟨fun _ => found_of_leads ?_ h.proper ?_, fun _ hnot => ?_⟩
  · exact Value.range_element .standard (.primitive p)
  · rintro c ⟨i, _, hget⟩
    have hmem : c ∈ (Syntax.primitiveElement p).elements :=
      List.mem_filterMap.mpr ⟨.element c, List.mem_of_getElem? hget, rfl⟩
    rw [(Syntax.primitiveElement_facts p).2.2] at hmem
    exact absurd hmem List.not_mem_nil
  · cases hnot

theorem itemsLocatable_eq (v : Vocabulary) : ∀ items : List Value,
    itemsLocatable v items = items.all (isLocatable v)
  | [] => rfl
  | w :: ws => by rw [itemsLocatable, itemsLocatable_eq v ws, List.all_cons]

theorem decided_collection {range : Range} {items : List Value}
    (h : (Value.collection ⟨range, items⟩).Tidy k)
    (hitems : ∀ w ∈ items, (valueStop w).Decided .standard k) :
    (valueStop (.collection ⟨range, items⟩)).Decided .standard k := by
  obtain ⟨hlists, _⟩ := Syntax.tidy_collection h
  have hflag : isLocatable .standard (.collection ⟨range, items⟩) =
      (items.map valueStop).all (·.found) := by
    rw [isLocatable, itemsLocatable_eq, List.all_map]
    rfl
  rw [valueStop, hflag]
  refine decided_of_members _ ?_ (Value.range_element _ _) h.proper ?_ ?_ ?_
  · rw [Value.element, Syntax.elementsOf_eq, List.map_map, List.map_map]
    rfl
  · rw [List.length_map]
    exact Nat.le_succ_of_le hlists.few
  · intro m hm
    obtain ⟨w, hw, rfl⟩ := List.mem_map.mp hm
    exact leads_item hlists hw
  · intro m hm
    obtain ⟨w, hw, rfl⟩ := List.mem_map.mp hm
    exact hitems w hw

theorem decided_held {n : Node} {value : Option Value} (name : String)
    (hvalue : valueOf? n = value) (hholds : Holds k n.range value)
    (hdecided : ∀ w, value = some w → (valueStop w).Decided .standard k) :
    Stop.Decided .standard k ⟨Syntax.propertyElement n.range (Syntax.optionElement .standard value)
      [name], n, [], heldLocatable .standard value⟩ := by
  cases value with
  | none =>
      rw [heldLocatable, Syntax.optionElement]
      exact decided_of_members [] rfl rfl hholds.proper (Nat.zero_le _)
        (fun m hm => absurd hm List.not_mem_nil) (fun m hm => absurd hm List.not_mem_nil)
  | some w =>
      rw [heldLocatable, Syntax.optionElement]
      cases hw : holdsValue w with
      | false =>
          exact decided_of_member (valueStop w) rfl rfl hholds.proper
            (leads_value (Or.inl rfl) hvalue (hholds.inside w rfl) hw) (hdecided w rfl)
      | true =>
          refine ⟨nofun, fun hk _ => ?_⟩
          cases w with
          | record r =>
              rw [Value.element]
              exact missed_of_holdsValue hk hvalue hholds hw
          | collection l => cases hw
          | primitive p => cases hw

theorem decided_folded {n : Node} {value : Option Element} {name : String} {names : List String}
    {found : Bool} (hproper : n.range.Proper)
    (h : Stop.Decided .standard k
      ⟨Syntax.propertyElement n.range value (name :: names), n, names, found⟩) :
    Stop.Decided .standard k
      ⟨Syntax.foldedRecord n.range value (name :: names), n, name :: names, found⟩ :=
  decided_of_member _ rfl rfl hproper leads_name h

theorem decided_names {n : Node} {value : Option Element} {found : Bool}
    (hproper : n.range.Proper)
    (h : ∀ name, Stop.Decided .standard k
      ⟨Syntax.propertyElement n.range value [name], n, [], found⟩) :
    ∀ (names : List String) (name : String), Stop.Decided .standard k
      ⟨Syntax.propertyElement n.range value (name :: names), n, names, found⟩
  | [], name => h name
  | next :: names, name => by
      have hfolded := decided_folded hproper (decided_names hproper h names next)
      have hrange : (Syntax.propertyElement n.range value (name :: next :: names)).range =
          some n.range := by rw [Syntax.propertyElement_cons]
      refine decided_of_member _ ?_ hrange hproper ?_ hfolded
      · rw [Syntax.propertyElement_cons]
        rfl
      · rw [Syntax.propertyElement_cons]
        exact leads_folded (Or.inl rfl)

/-! ## Records -/

def entryStop? : Entry → Option Stop
  | .property p =>
    if p.name.text == "$Type" then none
    else some ⟨Syntax.propertyElement p.range (Syntax.optionElement .standard p.value)
      (p.name.segments.map (·.text)), .property p, (p.name.segments.drop 1).map (·.text),
      heldLocatable .standard p.value⟩
  | .embedded a => some (annotationStop a.term.text a)

theorem element_entryStop? (e : Entry) :
    (entryStop? e).map (·.element) = Syntax.entryElement? .standard e := by
  cases e with
  | property p =>
      obtain ⟨range, name, colon, value⟩ := p
      rw [entryStop?, Syntax.entryElement?]
      split
      · rfl
      · rfl
  | embedded a =>
      rw [entryStop?, Option.map_some, annotationStop_element, annotationElement]
      cases a
      rfl

theorem entriesLocatable_eq : ∀ entries : List Entry,
    entriesLocatable .standard entries = (entries.filterMap entryStop?).all (·.found)
  | [] => rfl
  | .property ⟨range, name, colon, value⟩ :: entries => by
      rw [entriesLocatable, entriesLocatable_eq entries, List.filterMap_cons, entryStop?]
      cases hname : name.text == "$Type" with
      | true => rfl
      | false => rfl
  | .embedded ⟨range, atSign, term, qualifier, colon, value, embedded⟩ :: entries => by
      rw [entriesLocatable, entriesLocatable_eq entries]
      rfl

theorem entryStop?_property {p : Syntax.Property} {m : Stop} (h : (Entry.property p).Tidy k)
    (hm : entryStop? (.property p) = some m) :
    ∃ name names, p.name.segments.map (·.text) = name :: names ∧
      m = ⟨Syntax.propertyElement p.range (Syntax.optionElement .standard p.value) (name :: names),
        .property p, names, heldLocatable .standard p.value⟩ := by
  rw [entryStop?] at hm
  split at hm
  · cases hm
  · obtain rfl := Option.some.inj hm
    obtain ⟨name, names, hnames⟩ : ∃ name names, p.name.segments.map (·.text) = name :: names :=
      List.exists_cons_of_ne_nil (by rw [Ne, List.map_eq_nil_iff]; exact (Syntax.holds_property h).2)
    refine ⟨name, names, hnames, ?_⟩
    rw [List.map_drop, hnames]
    rfl

theorem leads_entry {range : Range} {entries : List Entry} {e : Entry} {m : Stop}
    (h : Lists k range Entry.range entries) (he : e ∈ entries) (htidy : e.Tidy k)
    (hm : entryStop? e = some m) :
    Leads .standard (some .record) (.record ⟨range, entries⟩) [] m.element m.node m.pending := by
  cases e with
  | property p =>
      obtain ⟨name, names, hnames, rfl⟩ := entryStop?_property htidy hm
      exact leads_property h he hnames
  | embedded a =>
      obtain rfl := Option.some.inj hm
      simp only [annotationStop_element, annotationStop_node, annotationStop_pending]
      exact leads_embedded h he (Syntax.holds_embedded htidy).2

theorem decided_entry {e : Entry} {m : Stop} (htidy : e.Tidy k) (hdecided : EntryDecided k e)
    (hm : entryStop? e = some m) : m.Decided .standard k := by
  cases e with
  | property p =>
      obtain ⟨name, names, _, rfl⟩ := entryStop?_property htidy hm
      obtain ⟨hholds, _⟩ := Syntax.holds_property htidy
      exact decided_names (n := .property p) hholds.proper
        (fun name => decided_held name rfl hholds hdecided) names name
  | embedded a =>
      obtain rfl := Option.some.inj hm
      exact hdecided

theorem content_entryStops (range : Range) (entries : List Entry) :
    ((Value.record ⟨range, entries⟩).element .standard).content =
      (entries.filterMap entryStop?).map fun m => .element m.element := by
  have helements : entries.filterMap (Syntax.entryElement? .standard) =
      (entries.filterMap entryStop?).map (·.element) := by
    rw [List.map_filterMap]
    simp only [element_entryStop?]
  rw [Value.element, content_record, helements, List.map_map]
  rfl

theorem kind_record (v : Vocabulary) (r : Syntax.Record) :
    ((Value.record r).element v).kind = .record := by
  rw [Value.element]
  exact (r.element_facts v).1

theorem decided_record {range : Range} {entries : List Entry}
    (h : (Value.record ⟨range, entries⟩).Tidy k)
    (hentries : ∀ e ∈ entries, EntryDecided k e) :
    (valueStop (.record ⟨range, entries⟩)).Decided .standard k := by
  obtain ⟨hlists, htidy⟩ := Syntax.tidy_record h
  have hflag : isLocatable .standard (.record ⟨range, entries⟩) =
      (entries.filterMap entryStop?).all (·.found) := by
    rw [isLocatable, entriesLocatable_eq]
  rw [valueStop, hflag]
  refine decided_of_members _ (content_entryStops range entries) (Value.range_element _ _) h.proper
    ?_ ?_ ?_
  · exact Nat.le_succ_of_le (Nat.le_trans (List.length_filterMap_le _ _) hlists.few)
  · intro m hm
    obtain ⟨e, he, hstop⟩ := List.mem_filterMap.mp hm
    rw [kind_record]
    exact leads_entry hlists he (htidy e he) hstop
  · intro m hm
    obtain ⟨e, he, hstop⟩ := List.mem_filterMap.mp hm
    exact decided_entry (htidy e he) (hentries e he) hstop

/-! ## Annotations -/

/-- Where the search for what stands beside or in `$value` stands. -/
def promotedStop? : Entry → Option Stop
  | .property p => if p.name.text == "$value" then p.value.map valueStop else none
  | .embedded a => some (annotationStop a.term.text a)

theorem promotedLocatable_eq : ∀ entries : List Entry,
    promotedLocatable .standard entries = (entries.filterMap promotedStop?).all (·.found)
  | [] => rfl
  | .property ⟨range, name, colon, value⟩ :: entries => by
      rw [promotedLocatable, promotedLocatable_eq entries, List.filterMap_cons, promotedStop?, bne]
      cases hname : name.text == "$value" with
      | false => rfl
      | true =>
          cases value with
          | none => rfl
          | some w => rfl
  | .embedded ⟨range, atSign, term, qualifier, colon, value, embedded⟩ :: entries => by
      rw [promotedLocatable, promotedLocatable_eq entries]
      rfl

/-- Of what is counted at most once there is one. -/
theorem eq_of_countP_le_one {α : Type} {p : α → Bool} : ∀ {l : List α} {a b : α},
    l.countP p ≤ 1 → a ∈ l → b ∈ l → p a = true → p b = true → a = b
  | c :: l, a, b, hcount, ha, hb, hpa, hpb => by
      rw [List.countP_cons] at hcount
      have hrest : p c = true → ∀ d ∈ l, ¬p d = true := by
        intro hc d hd hpd
        have hpos : 0 < l.countP p := List.countP_pos_iff.mpr ⟨d, hd, hpd⟩
        rw [if_pos hc] at hcount
        omega
      rcases List.mem_cons.mp ha with rfl | ha' <;> rcases List.mem_cons.mp hb with rfl | hb'
      · rfl
      · exact absurd hpb (hrest hpa b hb')
      · exact absurd hpa (hrest hpb a ha')
      · exact eq_of_countP_le_one (by omega) ha' hb' hpa hpb

theorem isValueEntry_of_text {p : Syntax.Property} (hsegments : p.name.segments ≠ [])
    (hname : p.name.text = "$value") :
    p.name.segments.map (·.text) = ["$value"] ∧ Syntax.isValueEntry (.property p) = true := by
  have h := Syntax.Path.segments_of_text hsegments (by rw [hname]; decide)
  rw [hname] at h
  refine ⟨h, ?_⟩
  rw [Syntax.isValueEntry]
  cases hp : p.name.segments with
  | nil => exact absurd hp hsegments
  | cons first rest =>
      rw [hp, List.map_cons] at h
      rw [List.head?_cons, Option.any_some, (List.cons.inj h).1]
      rfl

theorem eq_of_valueEntry {range : Range} {entries : List Entry} {i : Nat} {p q : Syntax.Property}
    (htidy : ∀ e ∈ entries, e.Tidy k) (honce : entries.countP Syntax.isValueEntry ≤ 1)
    (hentry : Syntax.Record.valueEntry? ⟨range, entries⟩ = some (i, p))
    (hq : .property q ∈ entries) (hqValue : Syntax.isValueEntry (.property q) = true) : q = p := by
  obtain ⟨hget, hname⟩ := Syntax.Record.getElem?_of_property? hentry
  have hp : Entry.property p ∈ entries := List.mem_of_getElem? hget
  obtain ⟨_, hpValue⟩ := isValueEntry_of_text (Syntax.holds_property (htidy _ hp)).2 hname
  exact Entry.property.inj (eq_of_countP_le_one honce hq hp hqValue hpValue)

theorem elements_promoted {range : Range} {entries : List Entry}
    (htidy : ∀ e ∈ entries, e.Tidy k)
    (hvalue : ∀ p, .property p ∈ entries → Syntax.isValueEntry (.property p) = true →
      p.name.text = "$value") :
    Syntax.unwrapValue true ((Value.record ⟨range, entries⟩).element .standard) =
      (entries.filterMap promotedStop?).map (·.element) := by
  have helements : ((Value.record ⟨range, entries⟩).element .standard).elements =
      entries.filterMap (Syntax.entryElement? .standard) := by
    rw [Value.element, Element.elements, content_record, List.filterMap_map]
    exact List.filterMap_some
  rw [Syntax.unwrapValue, if_pos rfl, helements, List.filterMap_filterMap, List.map_filterMap]
  refine List.filterMap_congr ?_
  intro e he
  cases e with
  | embedded a =>
      obtain ⟨range, atSign, term, qualifier, colon, value, embedded⟩ := a
      have hkind := (Syntax.annotationElement_facts .standard term.text qualifier range
        (value.any Value.isPromoted) (Syntax.optionElement .standard value)).1
      rw [Syntax.entryElement?, Option.bind_some, hkind]
      rfl
  | property p =>
      obtain ⟨hholds, hsegments⟩ := Syntax.holds_property (htidy _ he)
      obtain ⟨range, name, colon, value⟩ := p
      rw [promotedStop?, Syntax.entryElement?]
      obtain ⟨first, names, hnames⟩ : ∃ first names,
          name.segments.map (·.text) = first :: names :=
        List.exists_cons_of_ne_nil (by rwa [Ne, List.map_eq_nil_iff])
      by_cases htext : name.text = "$value"
      · obtain ⟨hsingle, _⟩ := isValueEntry_of_text hsegments htext
        have hsingle' : name.segments.map (·.text) = ["$value"] := hsingle
        rw [htext, hsingle']
        cases value with
        | none => rfl
        | some w => rfl
      · have hfirst : (first == "$value") = false := by
          rw [Bool.eq_false_iff]
          intro heq
          refine htext (hvalue _ he ?_)
          obtain ⟨i, is, his, hi, _⟩ := List.map_eq_cons_iff.mp hnames
          rw [Syntax.isValueEntry]
          simp only [his, List.head?_cons, Option.any_some, hi]
          exact heq
        have hnot : (name.text == "$value") = false := beq_eq_false_iff_ne.mpr htext
        have hkey : (some first == some "$value") = false := hfirst
        simp only [hnot, Bool.false_eq_true, if_false, hnames, Option.map_none]
        split
        · rfl
        · rw [Option.bind_some, Syntax.propertyElement_cons]
          exact (if_pos rfl).trans (if_neg (by rw [Bool.not_eq_true]; exact hkey))

theorem annotatedLocatable_eq_held (term : String) (value : Option Value)
    (h : (Syntax.splitTerm .standard term).2 ≠ [] ∨ value.any Value.isPromoted = false) :
    annotatedLocatable .standard term value = heldLocatable .standard value := by
  cases value with
  | none => rfl
  | some w =>
      cases w with
      | record r =>
          obtain ⟨range, entries⟩ := r
          rw [annotatedLocatable, heldLocatable, isLocatable, if_neg]
          intro hpromoted
          rw [Bool.and_eq_true, List.isEmpty_iff] at hpromoted
          rcases h with hnames | hvalue
          · exact hnames hpromoted.1
          · rw [Option.any_some, hpromoted.2] at hvalue
            cases hvalue
      | collection l =>
          obtain ⟨range, items⟩ := l
          rw [annotatedLocatable, heldLocatable, isLocatable]
          rfl
      | primitive p => rfl

theorem holdsValue_of_not_promoted {w : Value} (h : w.isPromoted = false) :
    holdsValue w = false := by
  cases w with
  | record r =>
      rw [Value.isPromoted, Option.isSome_eq_false_iff, Option.isNone_iff_eq_none] at h
      rw [holdsValue, h]
  | collection l => rfl
  | primitive p => rfl

/-- What stands in or beside the only `$value` of the value of an annotation is entered from the
annotation. -/
theorem leads_promotedStop {a : Syntax.Annotation} {range : Range} {entries : List Entry} {e : Entry}
    {m : Stop} (hvalue : a.value = some (.record ⟨range, entries⟩))
    (hholds : Holds k a.range a.value)
    (hpromoted : Value.isPromoted (.record ⟨range, entries⟩) = true)
    (honce : entries.countP Syntax.isValueEntry ≤ 1) (he : e ∈ entries)
    (hm : promotedStop? e = some m) :
    Leads .standard (some ElementKind.annotation) (Node.annotation a) [] m.element m.node
      m.pending := by
  obtain ⟨hlists, htidy⟩ := Syntax.tidy_record (hholds.tidy _ hvalue)
  obtain ⟨⟨i, p⟩, hentry⟩ := Option.isSome_iff_exists.mp hpromoted
  cases e with
  | property q =>
      rw [promotedStop?] at hm
      split at hm
      · next hq =>
        obtain ⟨x, hx, rfl⟩ := Option.map_eq_some_iff.mp hm
        obtain ⟨hqHolds, hqSegments⟩ := Syntax.holds_property (htidy _ he)
        have hqp := eq_of_valueEntry htidy honce hentry he
          (isValueEntry_of_text hqSegments (beq_iff_eq.mp hq)).2
        subst hqp
        exact leads_promoted (Or.inr rfl) hvalue hentry hx (hholds.inside _ hvalue)
          (Range.contains_trans (hlists.inside _ he) (hqHolds.inside x hx))
      · cases hm
  | embedded b =>
      obtain rfl := Option.some.inj hm
      simp only [annotationStop_element, annotationStop_node, annotationStop_pending]
      exact leads_promotedEmbedded hvalue (hholds.inside _ hvalue) hlists he
        (Syntax.holds_embedded (htidy _ he)).2

theorem content_promotedStops {term : String} {a : Syntax.Annotation} {range : Range}
    {entries : List Entry} (hvalue : a.value = some (.record ⟨range, entries⟩))
    (htidy : ∀ e ∈ entries, e.Tidy k) (hnames : (Syntax.splitTerm .standard term).2 = [])
    (hpromoted : Value.isPromoted (.record ⟨range, entries⟩) = true)
    (honce : entries.countP Syntax.isValueEntry ≤ 1) :
    (annotationElement term a).content =
      (entries.filterMap promotedStop?).map fun m => .element m.element := by
  obtain ⟨⟨i, p⟩, hentry⟩ := Option.isSome_iff_exists.mp hpromoted
  have hcontent : Syntax.annotationContent [] a.range (a.value.any Value.isPromoted)
      (Syntax.optionElement .standard a.value) =
        (entries.filterMap promotedStop?).map (·.element) := by
    rw [hvalue, Option.any_some, hpromoted, Syntax.optionElement]
    refine elements_promoted htidy fun q hq hqValue => ?_
    rw [eq_of_valueEntry htidy honce hentry hq hqValue]
    exact (Syntax.Record.getElem?_of_property? hentry).2
  refine (Syntax.annotationElement_facts .standard term a.qualifier a.range
    (a.value.any Value.isPromoted) (Syntax.optionElement .standard a.value)).2.2.2.trans ?_
  rw [hnames, hcontent, List.map_map]
  rfl

theorem decided_promoted {term : String} {a : Syntax.Annotation} {range : Range}
    {entries : List Entry} (hvalue : a.value = some (.record ⟨range, entries⟩))
    (hholds : Holds k a.range a.value) (hnames : (Syntax.splitTerm .standard term).2 = [])
    (hpromoted : Value.isPromoted (.record ⟨range, entries⟩) = true)
    (honce : entries.countP Syntax.isValueEntry ≤ 1)
    (hentries : ∀ e ∈ entries, EntryDecided k e) :
    (annotationStop term a).Decided .standard k := by
  obtain ⟨hlists, htidy⟩ := Syntax.tidy_record (hholds.tidy _ hvalue)
  have hfacts := Syntax.annotationElement_facts .standard term a.qualifier a.range
    (a.value.any Value.isPromoted) (Syntax.optionElement .standard a.value)
  have hflag : annotatedLocatable .standard term a.value =
      (entries.filterMap promotedStop?).all (·.found) := by
    rw [hvalue, annotatedLocatable, hnames, hpromoted, ← promotedLocatable_eq]
    rfl
  rw [annotationStop, hnames, hflag]
  refine decided_of_members _ (content_promotedStops hvalue htidy hnames hpromoted honce)
    hfacts.2.1 hholds.proper ?_ ?_ ?_
  · exact Nat.le_succ_of_le (Nat.le_trans (List.length_filterMap_le _ _) hlists.few)
  · intro m hm
    obtain ⟨e, he, hstop⟩ := List.mem_filterMap.mp hm
    rw [annotationElement, hfacts.1]
    exact leads_promotedStop hvalue hholds hpromoted honce he hstop
  · intro m hm
    obtain ⟨e, he, hstop⟩ := List.mem_filterMap.mp hm
    cases e with
    | property q =>
        rw [promotedStop?] at hstop
        split at hstop
        · obtain ⟨x, hx, rfl⟩ := Option.map_eq_some_iff.mp hstop
          exact hentries _ he x hx
        · cases hstop
    | embedded b =>
        obtain rfl := Option.some.inj hstop
        exact hentries _ he

theorem decided_annotation {term : String} {a : Syntax.Annotation}
    (hholds : Holds k a.range a.value) (honce : Syntax.optionNamesValueOnce a.value = true)
    (hvalue : ∀ w, a.value = some w → (valueStop w).Decided .standard k)
    (hentries : ∀ range entries, a.value = some (.record ⟨range, entries⟩) →
      ∀ e ∈ entries, EntryDecided k e) :
    (annotationStop term a).Decided .standard k := by
  have hfacts := Syntax.annotationElement_facts .standard term a.qualifier a.range
    (a.value.any Value.isPromoted) (Syntax.optionElement .standard a.value)
  have hproper : (Node.annotation a).range.Proper := hholds.proper
  cases hnames : (Syntax.splitTerm .standard term).2 with
  | cons name names =>
      have hfolded := decided_folded hproper (decided_names hproper
        (fun name => decided_held name rfl hholds hvalue) names name)
      have hflag := annotatedLocatable_eq_held term a.value
        (Or.inl (by rw [hnames]; exact List.cons_ne_nil name names))
      rw [annotationStop, hnames, hflag]
      refine decided_of_member _ ?_ hfacts.2.1 hproper ?_ hfolded
      · refine hfacts.2.2.2.trans ?_
        rw [hnames]
        rfl
      · rw [annotationElement, hfacts.1]
        exact leads_folded (Or.inr rfl)
  | nil =>
      have hcontent := hfacts.2.2.2
      rw [hnames] at hcontent
      cases hv : a.value with
      | none =>
          rw [hv] at hcontent
          rw [annotationStop, hnames, hv, annotatedLocatable]
          refine decided_of_members [] ?_ hfacts.2.1 hproper (Nat.zero_le _)
            (fun m hm => absurd hm List.not_mem_nil) fun m hm => absurd hm List.not_mem_nil
          rw [annotationElement, hv]
          exact hcontent
      | some w =>
          cases hpromoted : w.isPromoted with
          | false =>
              have hheld := holdsValue_of_not_promoted hpromoted
              have hflag := annotatedLocatable_eq_held term (some w) (Or.inr hpromoted)
              rw [heldLocatable, hheld] at hflag
              rw [annotationStop, hnames, hv, hflag]
              refine decided_of_member (valueStop w) ?_ hfacts.2.1 hproper ?_ (hvalue w hv)
              · rw [hv, Option.any_some, hpromoted, Syntax.optionElement] at hcontent
                rw [annotationElement, hv, Option.any_some, hpromoted, Syntax.optionElement]
                exact hcontent
              · rw [annotationElement, hfacts.1]
                exact leads_value (Or.inr rfl) hv (hholds.inside w hv) hheld
          | true =>
              cases w with
              | record r =>
                  obtain ⟨range, entries⟩ := r
                  rw [hv, Syntax.optionNamesValueOnce, Value.namesValueOnce, Bool.and_eq_true,
                    decide_eq_true_iff] at honce
                  exact decided_promoted hv hholds hnames hpromoted honce.1
                    (hentries range entries hv)
              | collection l => cases hpromoted
              | primitive p => cases hpromoted

mutual

theorem decided_value : ∀ w : Value, w.Tidy k → w.namesValueOnce = true →
    (valueStop w).Decided .standard k ∧
      ∀ range entries, w = .record ⟨range, entries⟩ → ∀ e ∈ entries, EntryDecided k e
  | .record ⟨range, entries⟩, htidy, honce => by
      rw [Value.namesValueOnce, Bool.and_eq_true] at honce
      have hentries := decided_entries entries (Syntax.tidy_record htidy).2 honce.2
      refine ⟨decided_record htidy hentries, ?_⟩
      intro range' entries' heq
      obtain ⟨_, rfl⟩ := Syntax.Record.mk.inj (Value.record.inj heq)
      exact hentries
  | .collection ⟨range, items⟩, htidy, honce => by
      rw [Value.namesValueOnce] at honce
      have hitems := decided_items items (Syntax.tidy_collection htidy).2 honce
      refine ⟨decided_collection htidy hitems, ?_⟩
      intro _ _ heq
      cases heq
  | .primitive p, htidy, _ => by
      refine ⟨decided_primitive htidy, ?_⟩
      intro _ _ heq
      cases heq

theorem decided_items : ∀ ws : List Value, (∀ w ∈ ws, w.Tidy k) →
    Syntax.itemsNameValueOnce ws = true → ∀ w ∈ ws, (valueStop w).Decided .standard k
  | [], _, _ => fun w hw => absurd hw List.not_mem_nil
  | w :: ws, htidy, honce => by
      rw [Syntax.itemsNameValueOnce, Bool.and_eq_true] at honce
      rw [List.forall_mem_cons] at htidy ⊢
      exact ⟨(decided_value w htidy.1 honce.1).1, decided_items ws htidy.2 honce.2⟩

theorem decided_entries : ∀ es : List Entry, (∀ e ∈ es, e.Tidy k) →
    Syntax.entriesNameValueOnce es = true → ∀ e ∈ es, EntryDecided k e
  | [], _, _ => fun e he => absurd he List.not_mem_nil
  | .property ⟨range, name, colon, none⟩ :: es, htidy, honce => by
      rw [Syntax.entriesNameValueOnce, Bool.and_eq_true] at honce
      rw [List.forall_mem_cons] at htidy ⊢
      refine ⟨?_, decided_entries es htidy.2 honce.2⟩
      intro w hw
      cases hw
  | .property ⟨range, name, colon, some v⟩ :: es, htidy, honce => by
      rw [Syntax.entriesNameValueOnce, Bool.and_eq_true, Syntax.optionNamesValueOnce] at honce
      rw [List.forall_mem_cons] at htidy ⊢
      refine ⟨?_, decided_entries es htidy.2 honce.2⟩
      intro w hw
      obtain rfl := Option.some.inj hw
      exact (decided_value v ((Syntax.holds_property htidy.1).1.tidy v rfl) honce.1).1
  | .embedded ⟨range, atSign, term, qualifier, colon, none, embedded⟩ :: es, htidy, honce => by
      rw [Syntax.entriesNameValueOnce, Bool.and_eq_true] at honce
      rw [List.forall_mem_cons] at htidy ⊢
      refine ⟨?_, decided_entries es htidy.2 honce.2⟩
      refine decided_annotation (Syntax.holds_embedded htidy.1).1 honce.1 ?_ ?_
      · intro w hw
        cases hw
      · intro range entries hw
        cases hw
  | .embedded ⟨range, atSign, term, qualifier, colon, some v, embedded⟩ :: es, htidy, honce => by
      rw [Syntax.entriesNameValueOnce, Bool.and_eq_true, Syntax.optionNamesValueOnce] at honce
      rw [List.forall_mem_cons] at htidy ⊢
      refine ⟨?_, decided_entries es htidy.2 honce.2⟩
      have hholds := (Syntax.holds_embedded htidy.1).1
      obtain ⟨hvalue, hentries⟩ := decided_value v (hholds.tidy v rfl) honce.1
      refine decided_annotation hholds honce.1 ?_ ?_
      · intro w hw
        obtain rfl := Option.some.inj hw
        exact hvalue
      · exact fun range entries hw => hentries range entries (Option.some.inj hw)

end

end Decided

/-! ## Files -/

section Files

variable {k : Nat}

def termStops : Syntax.Assignment → List Stop
  | .single a => [annotationStop a.term.text a]
  | .group g => g.items.items.map fun a => annotationStop (g.name.text ++ "." ++ a.term.text) a

theorem terms_eq (t : Syntax.Target) :
    (t.abstraction .standard).terms = (t.assignments.flatMap termStops).map (·.element) := by
  rw [List.map_flatMap]
  refine List.flatMap_congr ?_
  intro a _
  cases a with
  | single a =>
      rw [termStops, List.map_singleton, annotationStop_element, annotationElement]
      rfl
  | group g =>
      rw [termStops, List.map_map]
      refine List.map_congr_left fun a _ => ?_
      rw [Function.comp_apply, annotationStop_element, annotationElement]
      rfl

theorem length_termStops (t : Syntax.Target) : (t.assignments.flatMap termStops).length =
    (t.assignments.flatMap Syntax.Assignment.annotations).length := by
  rw [List.length_flatMap, List.length_flatMap]
  refine congrArg List.sum (List.map_congr_left ?_)
  intro a _
  cases a with
  | single a => rfl
  | group g => exact List.length_map ..

theorem isLocatable_eq (f : Syntax.File) : f.isLocatable .standard =
    f.targets.all fun t => (t.assignments.flatMap termStops).all (·.found) := by
  have hassignment : assignmentLocatable .standard = fun a => (termStops a).all (·.found) := by
    funext a
    cases a with
    | single a => exact (Bool.and_true _).symm
    | group g =>
        rw [termStops, List.all_map]
        rfl
  rw [Syntax.File.isLocatable, hassignment]
  simp only [List.all_flatMap]

theorem decided_term {t : Syntax.Target} (ht : t.Tidy k)
    (honce : ∀ a ∈ t.assignments, ∀ b ∈ a.annotations, Syntax.optionNamesValueOnce b.value = true) :
    ∀ m ∈ t.assignments.flatMap termStops,
      Leads .standard none (.target t) [] m.element m.node m.pending ∧ m.Decided .standard k := by
  have hterm : ∀ (term : String) (a : Syntax.Annotation), Holds k a.range a.value →
      Syntax.optionNamesValueOnce a.value = true → (annotationStop term a).Decided .standard k := by
    intro term a hholds ha
    refine decided_annotation hholds ha ?_ ?_
    · intro w hw
      rw [hw] at ha
      exact (decided_value w (hholds.tidy w hw) ha).1
    · intro range entries hw
      rw [hw] at ha
      exact (decided_value _ (hholds.tidy _ hw) ha).2 range entries rfl
  intro m hm
  obtain ⟨a, ha, hstop⟩ := List.mem_flatMap.mp hm
  cases a with
  | single a =>
      obtain rfl := List.mem_singleton.mp hstop
      simp only [annotationStop_element, annotationStop_node, annotationStop_pending]
      exact ⟨leads_single ht ha, hterm _ a (ht.assignments _ ha)
        (honce _ ha a (List.mem_singleton_self a))⟩
  | group g =>
      obtain ⟨a, hitem, rfl⟩ := List.mem_map.mp hstop
      simp only [annotationStop_element, annotationStop_node, annotationStop_pending]
      have hholds := ((ht.assignments _ ha).2.2 a hitem).1
      exact ⟨leads_groupItem ht ha hitem, hterm _ a hholds (honce _ ha a hitem)⟩

theorem enter_target {f : Syntax.File} {t : Syntax.Target} {g : Goal} {s : State}
    (hf : f.Tidy k) (ht : t ∈ f.targets) (hproper : g.range.Proper)
    (hcontains : t.range.contains g.range = true) (hs : s.node = .file f) :
    ∃ u, g.enter (fun | .target _ => true | _ => false) "target" s = .ok u ∧
      u.At (.target t) s.pending := by
  obtain ⟨i, hi⟩ := List.mem_iff_getElem?.mp ht
  have hmem : (["targets", toString i], Node.target t) ∈ s.node.children := by
    rw [hs]
    exact Node.target_mem_children hi
  refine Goal.enter_of_unique hmem rfl hcontains ?_
  intro path c hc haccept hcontains'
  rw [hs] at hc
  rcases Node.cases_of_mem_file hc with ⟨_, _, _, _, rfl⟩ | ⟨j, t', ht', _, rfl⟩
  · cases haccept
  · rw [Goal.eq_of_contains hproper hf.targetsApart ht (List.mem_of_getElem? ht') hcontains
      hcontains']

theorem step_declaration {f : Syntax.File} (tree : Tree.File) {d : Syntax.Declaration} {g : Goal}
    (hd : d ∈ f.declarations) (hg : g.range = d.range) (reference : Tree.Reference) :
    ∃ u, g.step (.file tree) (.reference reference) (Goal.start f) = .ok u := by
  obtain ⟨i, hi⟩ := List.mem_iff_getElem?.mp hd
  have hmem : (["usings", toString i], Node.declaration d) ∈ (Node.file f).children :=
    List.mem_append_left _ (Node.mem_numbered_map hi)
  have hcontains : (Node.declaration d).range.contains g.range = true := by
    rw [hg]
    exact Range.contains_refl d.range
  have henter : ∀ (accept : Node → Bool) (what : String), accept (.declaration d) = true →
      ∃ u, g.enter accept what { Goal.start f with collapsed := false } = .ok u := by
    intro accept what haccept
    obtain ⟨_, _, _, _, _, h⟩ := @Goal.enter_of_mem g { Goal.start f with collapsed := false }
      accept what _ _ hmem haccept hcontains
    exact ⟨_, h⟩
  rw [Goal.step]
  exact henter _ _ rfl

theorem step_target {f : Syntax.File} (tree : Tree.File) {t : Syntax.Target} {g : Goal}
    (hf : f.Tidy k) (ht : t ∈ f.targets) (hproper : g.range.Proper)
    (hcontains : t.range.contains g.range = true) (target : Tree.Target) :
    ∃ u, g.step (.file tree) (.target target) (Goal.start f) = .ok u ∧ u.At (.target t) [] := by
  rw [Goal.step]
  exact enter_target hf ht hproper hcontains rfl

theorem steps_term {f : Syntax.File} (tree : Tree.File) {t : Syntax.Target} {m : Stop}
    {g : Goal} (hf : f.Tidy k) (ht : t ∈ f.targets) (hg : g.vocabulary = .standard)
    (hproper : g.range.Proper) (hcontains : m.node.range.contains g.range = true)
    (hleads : Leads .standard none (.target t) [] m.element m.node m.pending)
    (target : Tree.Target) (es : List Element) :
    ∃ u, u.At m.node m.pending ∧
      g.steps (.file tree) (.target target :: (m.element :: es).map .element) (Goal.start f) =
        g.steps (.element m.element) (es.map .element) u := by
  obtain ⟨s, hs, hat⟩ := step_target tree hf ht hproper
    (Range.contains_trans hleads.inside hcontains) target
  obtain ⟨u, hu, hatu⟩ := hleads.enters g { s with collapsed := false } hg hproper hcontains hat
  refine ⟨u, hatu, ?_⟩
  have hterm : g.step (.target target) (.element m.element) s = .ok u := hu
  rw [Goal.steps, hs]
  simp only [List.map_cons, Goal.steps, hterm]

theorem getLast?_descent (target : Tree.Target) (e : Element) (es : List Element) :
    (View.target target :: (e :: es).map View.element).getLast? =
      some (.element (es.getLast?.getD e)) := by
  rw [List.map_cons, List.getLast?_cons_cons, ← List.map_cons, List.getLast?_map,
    List.getLast?_cons]
  rfl

variable {f : Syntax.File}

theorem once_of_mem (h : f.namesValueOnce = true) {t : Syntax.Target} (ht : t ∈ f.targets) :
    ∀ a ∈ t.assignments, ∀ b ∈ a.annotations, Syntax.optionNamesValueOnce b.value = true := by
  intro a ha b hb
  have htarget := List.all_eq_true.mp h t ht
  exact List.all_eq_true.mp (List.all_eq_true.mp htarget a ha) b hb

/-- In a file without lost values every search returns. -/
theorem exists_located (hf : f.Tidy k) (honce : f.namesValueOnce = true)
    (hlocatable : f.isLocatable .standard = true) {p : Pointer} {view : View}
    (hview : (f.abstraction .standard).resolve? p = some view) (hplaced : view.isPlaced = true) :
    ∃ l, locate p (f.abstraction .standard) f .standard = .ok l := by
  obtain ⟨views, hviews, hlast⟩ := Option.bind_eq_some_iff.mp hview
  have hsteps : ∃ first second rest range, views = first :: second :: rest ∧
      view.range = some range ∧ ∃ s, Goal.steps ⟨p, .standard, range⟩ first (second :: rest)
        (Goal.start f) = .ok s := by
    rcases Tree.File.walk?_cases hviews hlast hplaced with ⟨r, hr, rfl⟩ | ⟨t', ht', rfl⟩ |
      ⟨t', ht', e, he, es, hes, rfl⟩
    · obtain ⟨d, hd, rfl⟩ := List.mem_map.mp hr
      obtain rfl := Option.some.inj hlast
      refine ⟨_, _, _, d.range, rfl, rfl, ?_⟩
      obtain ⟨s, hs⟩ := step_declaration (g := ⟨p, .standard, d.range⟩) (f.abstraction .standard)
        hd rfl d.reference
      refine ⟨s, ?_⟩
      rw [Goal.steps, hs]
      rfl
    · obtain ⟨t, ht, rfl⟩ := List.mem_map.mp ht'
      obtain rfl := Option.some.inj hlast
      refine ⟨_, _, _, t.range, rfl, rfl, ?_⟩
      obtain ⟨s, hs, _⟩ := step_target (g := ⟨p, .standard, t.range⟩) (f.abstraction .standard) hf
        ht (hf.targets t ht).proper (Range.contains_refl _) (t.abstraction .standard)
      refine ⟨s, ?_⟩
      rw [Goal.steps, hs]
      rfl
    · obtain ⟨t, ht, rfl⟩ := List.mem_map.mp ht'
      rw [terms_eq] at he
      obtain ⟨m, hm, rfl⟩ := List.mem_map.mp he
      obtain ⟨hleads, hdecided⟩ := decided_term (hf.targets t ht) (once_of_mem honce ht) m hm
      rw [isLocatable_eq] at hlocatable
      have hfound := hdecided.all
        (List.all_eq_true.mp (List.all_eq_true.mp hlocatable t ht) m hm)
      obtain ⟨r, hbelow, hsteps⟩ := hfound es hes
      rw [List.getLast?_cons_cons, getLast?_descent] at hlast
      obtain rfl := Option.some.inj hlast
      refine ⟨_, _, _, r, rfl, hbelow.range, ?_⟩
      obtain ⟨u, hat, hu⟩ := steps_term (g := ⟨p, .standard, r⟩) (f.abstraction .standard) hf ht
        rfl hbelow.proper hbelow.inside hleads (t.abstraction .standard) es
      rw [hu]
      exact hsteps _ u rfl rfl hat
  obtain ⟨first, second, rest, range, rfl, hrange, s, hs⟩ := hsteps
  rw [List.getLast?_cons_cons] at hlast
  rw [locate_eq hviews hlast hrange, hs]
  exact ⟨_, rfl⟩

/-- In a file with a lost value some search fails. -/
theorem exists_not_located (hf : f.Tidy k) (hk : k < Text.wordBound) (honce : f.namesValueOnce = true)
    (hlocatable : f.isLocatable .standard = false) :
    ∃ p view err, (f.abstraction .standard).resolve? p = some view ∧ view.isPlaced = true ∧
      locate p (f.abstraction .standard) f .standard = .error err := by
  rw [isLocatable_eq] at hlocatable
  obtain ⟨t, ht, hterms⟩ := List.all_eq_false.mp hlocatable
  obtain ⟨m, hm, hnot⟩ := List.all_eq_false.mp (Bool.eq_false_iff.mpr hterms)
  obtain ⟨hleads, hdecided⟩ := decided_term (hf.targets t ht) (once_of_mem honce ht) m hm
  obtain ⟨es, r, hbelow, hsteps⟩ := hdecided.notAll hk (Bool.eq_false_iff.mpr hnot)
  obtain ⟨i, hi⟩ := List.mem_iff_getElem?.mp ht
  obtain ⟨j, hj⟩ := List.mem_iff_getElem?.mp hm
  have hilt : i < f.targets.length := (List.getElem?_eq_some_iff.mp hi).1
  have hjlt : j < (t.assignments.flatMap termStops).length := (List.getElem?_eq_some_iff.mp hj).1
  have htargets := hf.few
  have hterms := (hf.targets t ht).few
  rw [length_termStops] at hjlt
  have htarget : (f.abstraction .standard).targets[i]? = some (t.abstraction .standard) := by
    show (f.targets.map _)[i]? = _
    rw [List.getElem?_map, hi]
    rfl
  have hterm : (t.abstraction .standard).terms[j]? = some m.element := by
    rw [terms_eq, List.getElem?_map, hj]
    rfl
  obtain ⟨p, hp⟩ := Tree.File.exists_walk? (by omega) htarget (by omega) hterm hbelow.descends
  have hlast := getLast?_descent (t.abstraction .standard) m.element es
  obtain ⟨u, hat, hu⟩ := steps_term (g := ⟨p, .standard, r⟩) (f.abstraction .standard) hf
    ht rfl hbelow.proper hbelow.inside hleads (t.abstraction .standard) es
  obtain ⟨err, herr⟩ := hsteps ⟨p, .standard, r⟩ u rfl rfl hat
  refine ⟨p, .element (es.getLast?.getD m.element), err, ?_, rfl, ?_⟩
  · rw [Tree.File.resolve?, hp, Option.bind_some, List.getLast?_cons_cons, hlast]
  · rw [locate_eq hp hlast hbelow.range, hu, herr]
    rfl

end Files

end Locate

theorem Document.tree_of_parse {c : Configuration} (hc : c.aliases = .standard) {uri text : String}
    {d : Document} (h : parse uri text c = .ok d) :
    d.tree = d.syntaxTree.abstraction .standard := by
  obtain ⟨_, _, _, _, _, _, rfl⟩ := parse_eq_ok_iff.mp h
  rw [← hc]

/-- Every reference, target and element of the document is located, and at a node around it. -/
def Document.LocatesAll (v : Vocabulary) (d : Document) : Prop :=
  ∀ (p : Pointer) (view : View), d.tree.resolve? p = some view → view.isPlaced = true →
    ∃ l node range, locate p d.tree d.syntaxTree v = .ok l ∧
      d.syntaxTree.resolve? l.pointer = some node ∧ view.range = some range ∧
      node.range.contains range = true

/-- A document locates all its nodes exactly when no property, and no annotation with names folded
into its term, holds a record whose `$value` has a value. That some node is lost otherwise is said
of texts whose nodes can be numbered. -/
theorem locatesAll_iff_isLocatable {c : Configuration} (hc : c.aliases = .standard)
    {uri text : String} {d : Document} (h : Document.parse uri text c = .ok d)
    (honce : d.syntaxTree.namesValueOnce = true) :
    (d.syntaxTree.isLocatable c.aliases = true → d.LocatesAll c.aliases) ∧
      (text.length < Text.wordBound → d.LocatesAll c.aliases →
        d.syntaxTree.isLocatable c.aliases = true) := by
  have htidy := Document.tidy_of_parse h
  have htree := Document.tree_of_parse hc h
  rw [hc]
  constructor
  · intro hlocatable p view hview hplaced
    rw [htree] at hview ⊢
    obtain ⟨l, hl⟩ := Locate.exists_located htidy honce hlocatable hview hplaced
    obtain ⟨node, range, hnode, hrange, hcontains⟩ := locate_sound hl hview hplaced
    exact ⟨l, node, range, hl, hnode, hrange, hcontains⟩
  · intro hshort hall
    rw [← Bool.not_eq_false]
    intro hlocatable
    obtain ⟨p, view, err, hview, hplaced, herr⟩ :=
      Locate.exists_not_located htidy hshort honce hlocatable
    rw [← htree] at hview herr
    obtain ⟨l, _, _, hl, _⟩ := hall p view hview hplaced
    rw [herr] at hl
    cases hl

/-- A group, folded names, annotations of annotations and `$value` in the value of annotations. -/
def nestedText : String :=
  "using my.Books from './books'; annotate E with @UI : \x7bHeaderInfo.Title : \x7b" ++
    "a.b : [1]\x7d, Facets : \x7b$value : [\x7b$value : 2\x7d], " ++
    "![@UI.Hidden.c] : \x7bd : true\x7d\x7d\x7d \x7b " ++
    "m @Foo : \x7b$value : \x7bb : 1\x7d, ![@X] : \x7b$value : null, ![@Y]\x7d\x7d; \x7d;"

/-- A record with `$value` as the value of a property. -/
def lostText : String := "annotate E with @Foo : \x7bb : \x7b$value : \x7b\x7d\x7d\x7d;"

theorem locatesAll_nestedText :
    (∃ d, Document.parse "a.cds" nestedText .default = .ok d ∧ d.LocatesAll .standard) ∧
      ∃ d, Document.parse "a.cds" lostText .default = .ok d ∧ ¬d.LocatesAll .standard := by
  have hchecks : ∀ text expected, (match Document.parse "a.cds" text .default with
      | .ok d => (d.syntaxTree.namesValueOnce, d.syntaxTree.isLocatable .standard)
      | .error _ => (false, false)) = (true, expected) →
        ∃ d, Document.parse "a.cds" text .default = .ok d ∧
          d.syntaxTree.namesValueOnce = true ∧ d.syntaxTree.isLocatable .standard = expected := by
    intro text expected h
    split at h
    · next d hd => exact ⟨d, hd, (Prod.mk.inj h).1, (Prod.mk.inj h).2⟩
    · cases (Prod.mk.inj h).1
  obtain ⟨d, hd, honce, hlocatable⟩ := hchecks nestedText true (by decide +kernel)
  obtain ⟨d', hd', honce', hlocatable'⟩ := hchecks lostText false (by decide +kernel)
  refine ⟨⟨d, hd, (locatesAll_iff_isLocatable rfl hd honce).1 hlocatable⟩, d', hd', ?_⟩
  intro hall
  have h := (locatesAll_iff_isLocatable rfl hd' honce').2 (by decide +kernel) hall
  cases h.symm.trans hlocatable'

end AnnotationEdit

import AnnotationEdit.Proofs.Locate.Soundness
import AnnotationEdit.Proofs.Token.Lookup

/-!
# Written nodes

Every node of a file that is read from a text is written by some of its code tokens, in their order
(`Document.exists_written`). So the brackets of a list, the ends of its members and the places of
its values are all found among the tokens, and no list has more members than the text has
characters. The last step of a pointer tells what holds the node it leads to.
-/

namespace AnnotationEdit

theorem Within.weaken {us ts : List Token} {r : Range} (h : Within us r) (hsub : us.Sublist ts) :
    Within ts r := by
  obtain ⟨vs, hvs, hspans⟩ := h
  exact ⟨vs, hvs.trans hsub, hspans⟩

namespace Syntax

namespace Node

/-- Some tokens write the node. The tokens of a target are those of its name and its assignments. -/
def WrittenAs (vocabulary : Vocabulary) : Node → List Token → Prop
  | file f, ts => ∃ items, consecutive (Item.WrittenAs vocabulary) items ts ∧
      f.declarations = declarationsOf items ∧ f.targets = targetsOf items
  | declaration d, ts => d.WrittenAs ts
  | target t, ts => t.Written vocabulary ts
  | annotation a, ts => (Entry.embedded a).WrittenAs ts ∨ a.WrittenAs ts
  | group g, ts => (Assignment.group g).Written vocabulary ts
  | groupItems i, ts => ∃ opening us closing, ts = opening :: (us ++ [closing]) ∧
      i.range = ⟨opening.range.start, closing.range.stop⟩ ∧
      commaSeparated (fun (a : Annotation) ts => a.WrittenAs ts ∧ a.atSign = none) i.items us
  | record r, ts => (Value.record r).WrittenAs ts
  | property p, ts => (Entry.property p).WrittenAs ts
  | collection c, ts => (Value.collection c).WrittenAs ts
  | primitive p, ts => p.WrittenAs ts
  | qualifier q, ts => qualifierWrittenAs (some q) ts

variable {vocabulary : Vocabulary} {ts : List Token}

theorem writtenAs_ofValue {v : Value} (h : v.WrittenAs ts) : (ofValue v).WrittenAs vocabulary ts := by
  cases v with
  | record r => exact h
  | collection c => exact h
  | primitive p =>
      rw [Value.WrittenAs] at h
      exact h

theorem writtenAs_ofEntry {e : Entry} (h : e.WrittenAs ts) : (ofEntry e).WrittenAs vocabulary ts := by
  cases e with
  | property p => exact h
  | embedded a => exact Or.inl h

theorem writtenAs_ofAssignment {a : Assignment} (h : a.Written vocabulary ts) :
    (ofAssignment a).WrittenAs vocabulary ts := by
  cases a with
  | single a => exact Or.inr h.choose_spec.1
  | group g => exact h

/-- The children of a node that are written after a colon. -/
theorem exists_value {colon : Option Range} {value : Option Value} {v : Value}
    (h : valueAfterColon colon value ts) (hv : value = some v) :
    ∃ us : List Token, us.Sublist ts ∧ (ofValue v).WrittenAs vocabulary us := by
  subst hv
  rw [valueAfterColon] at h
  obtain ⟨c, us, rfl, _, _, hv⟩ := h
  exact ⟨us, List.sublist_cons_self c us, writtenAs_ofValue hv⟩

theorem exists_member {α : Type} {written : α → List Token → Prop} (node : α → Node)
    {es : List α} {name : String} {path : List String} {c : Node} (hes : Laid written es ts)
    (hnode : ∀ e us, written e us → (node e).WrittenAs vocabulary us)
    (hc : (path, c) ∈ numbered name (es.map node)) :
    ∃ us : List Token, us.Sublist ts ∧ c.WrittenAs vocabulary us := by
  obtain ⟨_, e, he, _, rfl⟩ := exists_of_mem_numbered hc
  obtain ⟨us, hus, hwritten⟩ := hes.exists_written e (List.mem_of_getElem? he)
  exact ⟨us, hus, hnode e us hwritten⟩

/-! ## Lists -/

theorem laid_declarations {items : List Item}
    (h : consecutive (Item.WrittenAs vocabulary) items ts) :
    Laid (fun (d : Declaration) us => d.WrittenAs us) (declarationsOf items) ts := by
  refine (laid_of_consecutive h).flatMap ?_
  rintro (d | s) us hwritten
  · exact .singleton hwritten (List.Sublist.refl us)
  · trivial

theorem laid_targets {items : List Item} (h : consecutive (Item.WrittenAs vocabulary) items ts) :
    Laid (Target.Written vocabulary) (targetsOf items) ts := by
  refine (laid_of_consecutive h).flatMap ?_
  rintro (d | s) us hwritten
  · trivial
  · exact laid_statement hwritten

theorem laid_assignmentsOf {t : Target} (h : (target t).WrittenAs vocabulary ts) :
    Laid (Assignment.Written vocabulary) t.assignments ts := by
  obtain ⟨us, vs, hsub, _, has, _⟩ := h
  exact (laid_assignments has).weaken ((List.sublist_append_right us vs).trans hsub)

theorem laid_groupItems {i : GroupItems} (h : (groupItems i).WrittenAs vocabulary ts) :
    Laid (fun (a : Annotation) us => a.WrittenAs us ∧ a.atSign = none) i.items ts := by
  obtain ⟨opening, us, closing, rfl, _, hitems⟩ := h
  exact (laid_of_commaSeparated hitems).weaken ((List.sublist_append_left us _).cons opening)

theorem laid_entries {r : Record} (h : (record r).WrittenAs vocabulary ts) :
    Laid Entry.WrittenAs r.entries ts := by
  obtain ⟨range, entries⟩ := r
  rw [WrittenAs, Value.WrittenAs] at h
  obtain ⟨opening, closing, us, rfl, _, _, _, hentries⟩ := h
  exact (laid_of_commaSeparated ((entriesWrittenAs_iff entries us).mp hentries)).weaken
    ((List.sublist_append_left us _).cons opening)

theorem laid_values {c : Collection} (h : (collection c).WrittenAs vocabulary ts) :
    Laid Value.WrittenAs c.items ts := by
  obtain ⟨range, items⟩ := c
  rw [WrittenAs, Value.WrittenAs] at h
  obtain ⟨opening, closing, us, rfl, _, _, _, hitems⟩ := h
  exact (laid_of_commaSeparated ((valuesWrittenAs_iff items us).mp hitems)).weaken
    ((List.sublist_append_left us _).cons opening)

/-! ## Children -/

/-- A term, its qualifier and its value, with other tokens around them. -/
theorem exists_part {a : Annotation} {path : List String} {c : Node} {qs vs : List Token}
    (hqualifier : qualifierWrittenAs a.qualifier qs) (hvalue : valueAfterColon a.colon a.value vs)
    (hsub : (qs ++ vs).Sublist ts) (hc : (path, c) ∈ (Node.annotation a).children) :
    ∃ us : List Token, us.Sublist ts ∧ c.WrittenAs vocabulary us := by
  rcases cases_of_mem_annotation hc with ⟨q, hq, _, rfl⟩ | ⟨v, hv, _, rfl⟩
  · rw [hq] at hqualifier
    exact ⟨qs, (List.sublist_append_left qs vs).trans hsub, hqualifier⟩
  · obtain ⟨us, hus, hwritten⟩ := exists_value hvalue hv
    exact ⟨us, hus.trans ((List.sublist_append_right qs vs).trans hsub), hwritten⟩

theorem exists_annotationPart {a : Annotation} {path : List String} {c : Node}
    (h : (Node.annotation a).WrittenAs vocabulary ts) (hc : (path, c) ∈ (Node.annotation a).children) :
    ∃ us : List Token, us.Sublist ts ∧ c.WrittenAs vocabulary us := by
  rcases h with h | ⟨us, qs, vs, rfl, _, hqualifier, hvalue, _⟩
  · obtain ⟨range, atSign, term, qualifier, colon, value, embedded⟩ := a
    rw [Entry.WrittenAs] at h
    obtain ⟨mark, opening, sign, us, qs, closing, vs, rfl, _, _, _, _, hqualifier, _, hvalue,
      _⟩ := h
    refine exists_part hqualifier hvalue ?_ hc
    have hsub : (qs ++ vs).Sublist (us ++ (qs ++ closing :: vs)) :=
      ((List.sublist_cons_self closing vs).append_left qs).trans (List.sublist_append_right us _)
    exact ((hsub.cons sign).cons opening).cons mark
  · exact exists_part hqualifier hvalue (List.sublist_append_right us _) hc

theorem exists_groupPart {g : Group} {path : List String} {c : Node}
    (h : (group g).WrittenAs vocabulary ts) (hc : (path, c) ∈ (group g).children) :
    ∃ us : List Token, us.Sublist ts ∧ c.WrittenAs vocabulary us := by
  obtain ⟨_, rfl⟩ := Prod.mk.inj (List.mem_singleton.mp hc)
  obtain ⟨_, term, us, colon, opening, vs, closing, rfl, _, _, _, _, _, _, hitems, hg⟩ := h
  refine ⟨opening :: (vs ++ [closing]), ?_, opening, vs, closing, rfl, ?_, hitems⟩
  · exact (List.sublist_cons_self colon _).trans (List.sublist_append_right us _)
  · rw [hg]

theorem exists_child {n c : Node} {path : List String} (hn : n.WrittenAs vocabulary ts)
    (hc : (path, c) ∈ n.children) :
    ∃ us : List Token, us.Sublist ts ∧ c.WrittenAs vocabulary us := by
  cases n with
  | file f =>
      obtain ⟨items, hitems, hdeclarations, htargets⟩ := hn
      rw [children, hdeclarations, htargets] at hc
      rcases List.mem_append.mp hc with hc | hc
      · exact exists_member declaration (laid_declarations hitems) (fun _ _ h => h) hc
      · exact exists_member target (laid_targets hitems) (fun _ _ h => h) hc
  | target t =>
      exact exists_member ofAssignment (laid_assignmentsOf hn)
        (fun _ _ h => writtenAs_ofAssignment h) hc
  | annotation a => exact exists_annotationPart hn hc
  | group g => exact exists_groupPart hn hc
  | groupItems i =>
      exact exists_member annotation (laid_groupItems hn) (fun _ _ h => Or.inr h.1) hc
  | record r =>
      exact exists_member ofEntry (laid_entries hn) (fun _ _ h => writtenAs_ofEntry h) hc
  | collection v =>
      exact exists_member ofValue (laid_values hn) (fun _ _ h => writtenAs_ofValue h) hc
  | property p =>
      obtain ⟨range, name, colon, value⟩ := p
      rw [WrittenAs, Entry.WrittenAs] at hn
      obtain ⟨us, vs, rfl, _, hvalue, _⟩ := hn
      obtain ⟨v, hv, _, rfl⟩ := exists_of_mem_part hc
      obtain ⟨ws, hws, hwritten⟩ := exists_value hvalue hv
      exact ⟨ws, hws.trans (List.sublist_append_right us vs), hwritten⟩
  | declaration d => exact absurd hc List.not_mem_nil
  | primitive p => exact absurd hc List.not_mem_nil
  | qualifier q => exact absurd hc List.not_mem_nil

theorem exists_resolved {n m : Node} {path : List String} (hn : n.WrittenAs vocabulary ts)
    (hm : n.resolve? path = some m) :
    ∃ us : List Token, us.Sublist ts ∧ m.WrittenAs vocabulary us := by
  fun_induction resolve? n path generalizing ts with
  | case1 n =>
      rw [← Option.some.inj hm]
      exact ⟨ts, List.Sublist.refl ts, hn⟩
  | case2 n s path c hc ih =>
      obtain ⟨us, hus, hwritten⟩ := exists_child hn (mem_children_of_child? hc)
      obtain ⟨vs, hvs, hm⟩ := ih hwritten hm
      exact ⟨vs, hvs.trans hus, hm⟩
  | case3 => cases hm
  | case4 n s t path _ c hc ih =>
      obtain ⟨us, hus, hwritten⟩ := exists_child hn (mem_children_of_child? hc)
      obtain ⟨vs, hvs, hm⟩ := ih hwritten hm
      exact ⟨vs, hvs.trans hus, hm⟩
  | case5 => cases hm

theorem resolve?_eq_some_cases {n m : Node} {path : List String} (h : n.resolve? path = some m) :
    (path = [] ∧ m = n) ∨ ∃ front last parent, path = front ++ last ∧
      n.resolve? front = some parent ∧ (last, m) ∈ parent.children := by
  fun_induction resolve? n path with
  | case1 n => exact Or.inl ⟨rfl, (Option.some.inj h).symm⟩
  | case2 n s path c hc ih =>
      have hmem := mem_children_of_child? hc
      rcases ih h with ⟨rfl, rfl⟩ | ⟨front, last, parent, rfl, hfront, hlast⟩
      · exact Or.inr ⟨[], [s], n, rfl, rfl, hmem⟩
      · refine Or.inr ⟨s :: front, last, parent, rfl, ?_, hlast⟩
        rw [← hfront, ← resolve?_of_mem_children hmem front]
        rfl
  | case3 => cases h
  | case4 n s t path _ c hc ih =>
      have hmem := mem_children_of_child? hc
      rcases ih h with ⟨rfl, rfl⟩ | ⟨front, last, parent, rfl, hfront, hlast⟩
      · exact Or.inr ⟨[], [s, t], n, rfl, rfl, hmem⟩
      · refine Or.inr ⟨s :: t :: front, last, parent, rfl, ?_, hlast⟩
        rw [← hfront, ← resolve?_of_mem_children hmem front]
        rfl
  | case5 => cases h

/-- What a node other than the file stands on: it starts at one of its tokens and ends at one. -/
theorem WrittenAs.within {n : Node} (h : n.WrittenAs vocabulary ts) (hn : ∀ f, n ≠ file f) :
    Within ts n.range := by
  cases n with
  | file f => exact absurd rfl (hn f)
  | declaration d =>
      obtain ⟨first, us, vs, ws, closing, rfl, _, _, _, _, _, hrange⟩ := h
      rw [range, hrange]
      have hspans := Spans.bracketed first closing (us ++ (vs ++ ws))
      simp only [List.append_assoc] at hspans
      exact .of_spans hspans
  | target t => exact Target.Written.within h
  | annotation a =>
      rcases h with h | h
      · exact .of_spans (spans_entry h)
      · exact .of_spans h.spans
  | group g => exact .of_spans (spans_assignment h.choose_spec)
  | groupItems i =>
      obtain ⟨opening, us, closing, rfl, hrange, _⟩ := h
      rw [range, hrange]
      exact .of_spans (.bracketed opening closing us)
  | record r => exact .of_spans (spans_value h)
  | property p => exact .of_spans (spans_entry h)
  | collection c => exact .of_spans (spans_value h)
  | primitive p => exact .of_spans (Primitive.WrittenAs.spans h)
  | qualifier q =>
      obtain ⟨hash, t, rfl, _, _, rfl⟩ := h
      exact .of_spans ((Spans.singleton t).cons hash)

/-! ## The last step of a pointer -/

/-- How a node is led to from the node around it. -/
inductive Step (bound : Nat) : Node → List String → Node → Prop where
  /-- A member of a list, by the name of the list and its number. -/
  | member {n c : Node} (name : String) (i : Nat) : i < bound → (∀ items, c ≠ groupItems items) →
      Step bound n [name, toString i] c
  | groupItems (g : Group) : Step bound (group g) ["items"] (groupItems g.items)
  | qualifier {n : Node} (q : Identifier) : Step bound n ["qualifier"] (qualifier q)
  | annotationValue (a : Annotation) (v : Value) : Step bound (Node.annotation a) ["value"] (ofValue v)
  | propertyValue (p : Property) (v : Value) : Step bound (property p) ["value"] (ofValue v)

theorem Step.mono {m n : Nat} {parent c : Node} {path : List String} (h : Step m parent path c)
    (hmn : m ≤ n) : Step n parent path c := by
  cases h with
  | member name i hi hc => exact .member name i (Nat.lt_of_lt_of_le hi hmn) hc
  | groupItems g => exact .groupItems g
  | qualifier q => exact .qualifier q
  | annotationValue a v => exact .annotationValue a v
  | propertyValue p v => exact .propertyValue p v

theorem step_of_numbered {α : Type} {written : α → List Token → Prop} (node : α → Node)
    {es : List α} {name : String} {path : List String} {n c : Node} (hes : Laid written es ts)
    (hne : ∀ e us, written e us → us ≠ []) (hnode : ∀ e items, node e ≠ groupItems items)
    (hc : (path, c) ∈ numbered name (es.map node)) : Step ts.length n path c := by
  obtain ⟨i, e, he, rfl, rfl⟩ := exists_of_mem_numbered hc
  have hlt := (List.getElem?_eq_some_iff.mp he).1
  exact .member name i (Nat.lt_of_lt_of_le hlt (hes.length_le hne)) (hnode e)

theorem ofAssignment_ne_groupItems (a : Assignment) (items : GroupItems) :
    ofAssignment a ≠ groupItems items := by
  cases a <;> exact Node.noConfusion

theorem ofEntry_ne_groupItems (e : Entry) (items : GroupItems) :
    ofEntry e ≠ groupItems items := by
  cases e <;> exact Node.noConfusion

theorem ofValue_ne_groupItems (v : Value) (items : GroupItems) :
    ofValue v ≠ groupItems items := by
  cases v <;> exact Node.noConfusion

/-- Which nodes stand below which, and where. -/
inductive Holds : Node → List String → Node → Prop
  | declaration (f : File) (i : Nat) (d : Declaration) :
      Holds (file f) ["usings", toString i] (declaration d)
  | target (f : File) (i : Nat) (t : Target) : Holds (file f) ["targets", toString i] (target t)
  | assignment {c : Node} (t : Target) (i : Nat) (a : Assignment) (hc : c = ofAssignment a) :
      Holds (target t) ["assignments", toString i] c
  | qualifier (a : Annotation) (q : Identifier) :
      Holds (Node.annotation a) ["qualifier"] (qualifier q)
  | annotationValue {c : Node} (a : Annotation) (v : Value) (hc : c = ofValue v) :
      Holds (Node.annotation a) ["value"] c
  | groupItems (g : Group) : Holds (group g) ["items"] (groupItems g.items)
  | item (l : GroupItems) (i : Nat) (a : Annotation) :
      Holds (groupItems l) ["items", toString i] (Node.annotation a)
  | entry {c : Node} (r : Record) (i : Nat) (e : Entry) (hc : c = ofEntry e) :
      Holds (record r) ["properties", toString i] c
  | propertyValue {c : Node} (p : Property) (v : Value) (hc : c = ofValue v) :
      Holds (property p) ["value"] c
  | member {c : Node} (l : Collection) (i : Nat) (v : Value) (hc : c = ofValue v) :
      Holds (collection l) ["items", toString i] c

theorem holds_of_mem_children {n c : Node} {path : List String} (h : (path, c) ∈ n.children) :
    Holds n path c := by
  cases n with
  | file f =>
      rcases cases_of_mem_file h with ⟨i, d, _, rfl, rfl⟩ | ⟨i, t, _, rfl, rfl⟩
      · exact .declaration f i d
      · exact .target f i t
  | target t =>
      obtain ⟨i, a, _, rfl, hc⟩ := exists_of_mem_numbered h
      exact .assignment t i a hc
  | annotation a =>
      rcases cases_of_mem_annotation h with ⟨q, _, rfl, rfl⟩ | ⟨v, _, rfl, hc⟩
      · exact .qualifier a q
      · exact .annotationValue a v hc
  | group g =>
      obtain ⟨rfl, rfl⟩ := Prod.mk.inj (List.mem_singleton.mp h)
      exact .groupItems g
  | groupItems l =>
      obtain ⟨i, a, _, rfl, rfl⟩ := exists_of_mem_numbered h
      exact .item l i a
  | record r =>
      obtain ⟨i, e, _, rfl, hc⟩ := exists_of_mem_numbered h
      exact .entry r i e hc
  | property p =>
      obtain ⟨v, _, rfl, hc⟩ := exists_of_mem_part h
      exact .propertyValue p v hc
  | collection l =>
      obtain ⟨i, v, _, rfl, hc⟩ := exists_of_mem_numbered h
      exact .member l i v hc
  | declaration d => exact absurd h List.not_mem_nil
  | primitive p => exact absurd h List.not_mem_nil
  | qualifier q => exact absurd h List.not_mem_nil

theorem exists_file_of_target_mem {n : Node} {t : Target} {path : List String}
    (h : (path, target t) ∈ n.children) : ∃ f, n = file f := by
  cases holds_of_mem_children h with
  | target f => exact ⟨f, rfl⟩
  | assignment _ _ a hc => cases a <;> cases hc
  | entry _ _ e hc => cases e <;> cases hc
  | annotationValue _ v hc | propertyValue _ v hc | member _ _ v hc => cases v <;> cases hc

/-- No list has more members than tokens. -/
theorem step_of_mem_children {n c : Node} {path : List String} (hn : n.WrittenAs vocabulary ts)
    (hc : (path, c) ∈ n.children) : Step ts.length n path c := by
  cases n with
  | file f =>
      obtain ⟨items, hitems, hdeclarations, htargets⟩ := hn
      rw [children, hdeclarations, htargets] at hc
      rcases List.mem_append.mp hc with hc | hc
      · refine step_of_numbered declaration (laid_declarations hitems) ?_ ?_ hc
        · rintro d us ⟨first, _, _, _, _, rfl, _⟩
          exact List.cons_ne_nil _ _
        · exact fun _ _ => Node.noConfusion
      · refine step_of_numbered target (laid_targets hitems) (fun t us h => h.ne_nil) ?_ hc
        exact fun _ _ => Node.noConfusion
  | target t =>
      exact step_of_numbered ofAssignment (laid_assignmentsOf hn)
        (fun a us h => (spans_assignment h.choose_spec).ne_nil) ofAssignment_ne_groupItems hc
  | annotation a =>
      rcases cases_of_mem_annotation hc with ⟨q, _, rfl, rfl⟩ | ⟨v, _, rfl, rfl⟩
      · exact .qualifier q
      · exact .annotationValue a v
  | group g =>
      obtain ⟨rfl, rfl⟩ := Prod.mk.inj (List.mem_singleton.mp hc)
      exact .groupItems g
  | groupItems i =>
      exact step_of_numbered annotation (laid_groupItems hn) (fun a us h => h.1.spans.ne_nil)
        (fun _ _ => Node.noConfusion) hc
  | record r =>
      exact step_of_numbered ofEntry (laid_entries hn) (fun e us h => (spans_entry h).ne_nil)
        ofEntry_ne_groupItems hc
  | collection v =>
      exact step_of_numbered ofValue (laid_values hn) (fun e us h => (spans_value h).ne_nil)
        ofValue_ne_groupItems hc
  | property p =>
      obtain ⟨v, _, rfl, rfl⟩ := exists_of_mem_part hc
      exact .propertyValue p v
  | declaration d => exact absurd hc List.not_mem_nil
  | primitive p => exact absurd hc List.not_mem_nil
  | qualifier q => exact absurd hc List.not_mem_nil

end Node

end Syntax

namespace Pointer

theorem append_nil (p : Pointer) : p.append [] = p := by
  rw [append, List.append_nil]

theorem last?_append {p : Pointer} {path : List String} {s : String}
    (h : path.getLast? = some s) : (p.append path).last? = some s := by
  rw [last?, append, List.getLast?_append, h, Option.some_or]

theorem ancestor?_append (p : Pointer) (path : List String) :
    (p.append path).ancestor? path.length = some p := by
  rw [ancestor?, depth, append, List.length_append, if_neg (by omega), Nat.add_sub_cancel,
    List.take_left]

theorem eq_append_of_ancestor? {p q : Pointer} {levels : Nat}
    (h : p.ancestor? levels = some q) : ∃ path, path.length = levels ∧ p = q.append path := by
  rw [ancestor?] at h
  split at h
  · cases h
  · next hdepth =>
    obtain rfl := Option.some.inj h
    refine ⟨p.segments.drop (p.depth - levels), ?_, ?_⟩
    · rw [List.length_drop]
      rw [depth] at hdepth ⊢
      omega
    · rw [append, List.take_append_drop]

theorem lastIndex?_append_toString {p : Pointer} {name : String} {i : Nat}
    (hi : i < Text.wordBound) : (p.append [name, toString i]).lastIndex? = some i := by
  rw [lastIndex?, last?_append (s := toString i) rfl, Option.bind_some, Text.number?_toString,
    if_pos hi]

end Pointer

/-! ## Nodes of a document -/

/-- A range that stands on code tokens, with the places of its first and last token. -/
theorem TokenStream.Sorted.exists_bounds {s : TokenStream} (hs : s.Sorted) {r : Range}
    (h : Within (s.tokens.toList.filter Token.isCode) r) : ∃ i j t u, s.get? i = some t ∧
      s.get? j = some u ∧ i ≤ j ∧ t.isCode = true ∧ u.isCode = true ∧
      r = ⟨t.range.start, u.range.stop⟩ := by
  obtain ⟨ts, hts, t, u, ht, hu, rfl⟩ := h
  have hcode := hs.sublist (hts.trans List.filter_sublist)
  have hspans : Spans ts ⟨t.range.start, u.range.stop⟩ := ⟨t, u, ht, hu, rfl⟩
  have htmem := List.mem_filter.mp (hts.subset (List.mem_of_head? ht))
  have humem := List.mem_filter.mp (hts.subset (List.mem_of_getLast? hu))
  obtain ⟨i, hi⟩ := exists_get? htmem.1
  obtain ⟨j, hj⟩ := exists_get? humem.1
  refine ⟨i, j, t, u, hi, hj, ?_, htmem.2, humem.2, rfl⟩
  refine Nat.le_of_not_lt fun hji => ?_
  have hlt := (hs.start_lt_iff hj hi).mpr hji
  exact absurd (hspans.start_le hcode u (List.mem_of_getLast? hu)) (not_le_of_gt hlt)

namespace Document

open Syntax (Node)

variable {uri text : String} {c : Configuration} {d : Document}

theorem written_file (h : parse uri text c = .ok d) :
    (Node.file d.syntaxTree).WrittenAs c.aliases (d.tokens.tokens.toList.filter Token.isCode) := by
  obtain ⟨_, items, _, _, _, hitems, _, hfile, _⟩ := tokens_of_parse h
  exact ⟨items, hitems, by rw [hfile]; rfl, by rw [hfile]; rfl⟩

theorem exists_written (h : parse uri text c = .ok d) {p : Pointer} {n : Node}
    (hn : d.syntaxTree.resolve? p = some n) : ∃ ts : List Token,
      ts.Sublist (d.tokens.tokens.toList.filter Token.isCode) ∧ n.WrittenAs c.aliases ts :=
  Node.exists_resolved (written_file h) hn

theorem length_code_le (h : parse uri text c = .ok d) :
    (d.tokens.tokens.toList.filter Token.isCode).length ≤ text.length := by
  obtain ⟨tokens, _, htokens, hplain, _⟩ := tokens_of_parse h
  have hlength := congrArg List.length hplain
  rw [List.length_map] at hlength
  have hfew := (Lexer.ordered_of_tokenize htokens).few
  exact Nat.le_trans (List.length_filter_le _ _) (by omega)

theorem exists_step (h : parse uri text c = .ok d) {p : Pointer} {n : Node}
    (hn : d.syntaxTree.resolve? p = some n) :
    (p = .root ∧ n = .file d.syntaxTree) ∨ ∃ q path parent, p = q.append path ∧
      d.syntaxTree.resolve? q = some parent ∧ (path, n) ∈ parent.children ∧
      Node.Step text.length parent path n := by
  rcases Node.resolve?_eq_some_cases hn with ⟨hp, rfl⟩ | ⟨front, last, parent, hp, hfront, hlast⟩
  · refine Or.inl ⟨?_, rfl⟩
    cases p
    exact congrArg Pointer.mk hp
  · refine Or.inr ⟨⟨front⟩, last, parent, ?_, hfront, hlast, ?_⟩
    · cases p
      exact congrArg Pointer.mk hp
    · obtain ⟨ts, hts, hwritten⟩ := exists_written h hfront
      have hlength := Nat.le_trans hts.length_le (length_code_le h)
      exact (Node.step_of_mem_children hwritten hlast).mono hlength

end Document

end AnnotationEdit

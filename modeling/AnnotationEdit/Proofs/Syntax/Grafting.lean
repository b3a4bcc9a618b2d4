import AnnotationEdit.Proofs.Syntax.Renewal
import AnnotationEdit.Proofs.Syntax.Respelling

/-!
# Putting another node in the place of one

`File.graft` puts a node in the place of another one and leaves everything else as it is. When some
of the tokens of a file write a node and these are replaced by tokens that write something else that
may stand there, the tokens write the file with that in its place (`grafts_file`). What may
stand below a node is said by `Node.Admits`.
-/

namespace AnnotationEdit.Syntax

/-- The member of a list whose number is written `key`, changed. -/
def changeAt {α : Type} (key : String) (change : α → α) (es : List α) : List α :=
  es.mapIdx fun i e => if toString i = key then change e else e

theorem changeAt_toString {α : Type} {es : List α} {e : α} {i : Nat} (h : es[i]? = some e)
    (change : α → α) : changeAt (toString i) change es = es.set i (change e) := by
  apply List.ext_getElem?
  intro j
  rw [changeAt, List.getElem?_mapIdx, List.getElem?_set]
  by_cases hj : i = j
  · have hlt := (List.getElem?_eq_some_iff.mp h).1
    rw [← hj, if_pos rfl, if_pos hlt, h, Option.map_some, if_pos rfl]
  · rw [if_neg hj]
    cases es[j]? with
    | none => rfl
    | some d =>
        have hkey : toString j ≠ toString i := fun heq => hj (Text.eq_of_toString heq).symm
        rw [Option.map_some, if_neg hkey]

/-- The annotation with another `@`, or without one. -/
def Annotation.withSign (a : Annotation) (s : Option Range) : Annotation := { a with atSign := s }

/-- The assignment with another `@`, or without one. -/
def Assignment.withSign : Assignment → Option Range → Assignment
  | single a, s => single (a.withSign s)
  | group g, s => group { g with atSign := s }

namespace Node

def value? : Node → Option Value
  | record r => some (.record r)
  | collection c => some (.collection c)
  | primitive p => some (.primitive p)
  | _ => none

def entry? : Node → Option Entry
  | property p => some (.property p)
  | annotation a => some (.embedded a)
  | _ => none

def assignment? : Node → Option Assignment
  | annotation a => some (.single a)
  | group g => some (.group g)
  | _ => none

def item? : Node → Option Annotation
  | annotation a => some a
  | _ => none

def groupItems? : Node → Option GroupItems
  | groupItems i => some i
  | _ => none

def target? : Node → Option Target
  | target t => some t
  | _ => none

/-- The node with another one in the place of the child that the segments lead to. What stands in
the place of an annotation keeps its `@`. -/
def setChild (m : Node) : List String → Node → Node
  | ["value"], annotation a => annotation { a with value := m.value?.or a.value }
  | ["value"], property p => property { p with value := m.value?.or p.value }
  | ["properties", key], record r => record ⟨r.range, changeAt key (m.entry?.getD ·) r.entries⟩
  | ["items", key], collection c => collection ⟨c.range, changeAt key (m.value?.getD ·) c.items⟩
  | ["items", key], groupItems i =>
    groupItems ⟨i.range, changeAt key (fun a => (m.item?.getD a).withSign a.atSign) i.items⟩
  | ["items"], group g => group { g with items := m.groupItems?.getD g.items }
  | ["assignments", key], target t =>
    let change := fun a => (m.assignment?.getD a).withSign a.atSign
    target { t with assignments := changeAt key change t.assignments }
  | ["targets", key], file f =>
    file { f with targets := changeAt key (m.target?.getD ·) f.targets }
  | _, n => n

theorem setChild_annotationValue (m : Node) (a : Annotation) :
    m.setChild ["value"] (Node.annotation a) =
      Node.annotation { a with value := m.value?.or a.value } := rfl

theorem setChild_propertyValue (m : Node) (p : Property) :
    m.setChild ["value"] (property p) = property { p with value := m.value?.or p.value } := rfl

theorem setChild_recordEntry (m : Node) (key : String) (r : Record) :
    m.setChild ["properties", key] (record r) =
      record ⟨r.range, changeAt key (m.entry?.getD ·) r.entries⟩ := rfl

theorem setChild_collectionItem (m : Node) (key : String) (c : Collection) :
    m.setChild ["items", key] (collection c) =
      collection ⟨c.range, changeAt key (m.value?.getD ·) c.items⟩ := rfl

theorem setChild_groupItem (m : Node) (key : String) (i : GroupItems) :
    m.setChild ["items", key] (groupItems i) = groupItems
      ⟨i.range, changeAt key (fun a => (m.item?.getD a).withSign a.atSign) i.items⟩ := rfl

theorem setChild_assignment (m : Node) (key : String) (t : Target) :
    m.setChild ["assignments", key] (target t) = target { t with
      assignments := changeAt key (fun a => (m.assignment?.getD a).withSign a.atSign)
        t.assignments } := rfl

theorem setChild_target (m : Node) (key : String) (f : File) :
    m.setChild ["targets", key] (file f) =
      file { f with targets := changeAt key (m.target?.getD ·) f.targets } := rfl

/-- The node with `m` in the place of the node that the segments lead to. -/
def graft (m : Node) : List String → Node → Node
  | [], _ => m
  | s :: rest, n =>
    match n.child? [s], rest with
    | some c, rest => (graft m rest c).setChild [s] n
    | none, [] => n
    | none, t :: rest =>
      match n.child? [s, t] with
      | some c => (graft m rest c).setChild [s, t] n
      | none => n

/-- What the node says, ranges aside. -/
def content : Node → Node
  | file f => file f.content
  | declaration d => declaration d.content
  | target t => target (t.contentWithout .none)
  | annotation a => annotation (a.contentWithout .none)
  | group g => group (g.contentWithout .none)
  | groupItems i => groupItems (i.contentWithout .none)
  | record r => record ⟨default, r.entries.map (·.contentWithout .none)⟩
  | property p => property
      ⟨default, p.name.content, unplaced p.colon, p.value.map (·.contentWithout .none)⟩
  | collection c => collection ⟨default, c.items.map (·.contentWithout .none)⟩
  | primitive p => primitive p.content
  | qualifier q => qualifier q.content

end Node

/-- The file with `m` in the place of the node at a pointer. -/
def File.graft (f : File) (p : Pointer) (m : Node) : File :=
  match Node.graft m p.segments (.file f) with
  | .file g => g
  | _ => f

/-! ## Contents of nodes -/

theorem valueWithout_none (value : Option Value) :
    valueWithout .none value = value.map (·.contentWithout .none) := by
  cases value with
  | none => rw [valueWithout]; rfl
  | some v => rw [valueWithout]; rfl

/-- The nodes of a kind: `part?` takes such a node apart, and its content is that of the part. -/
structure Node.Wraps {α : Type} (node : α → Node) (part? : Node → Option α) (content : α → α) :
    Prop where
  part?_node : ∀ a, part? (node a) = some a
  eq_node : ∀ {m a}, part? m = some a → m = node a
  content_node : ∀ a, (node a).content = node (content a)
  content_none : ∀ {m}, part? m = none → part? m.content = none

namespace Node

theorem wraps_value : Wraps ofValue value? (·.contentWithout .none) where
  part?_node v := by cases v <;> rfl
  eq_node h := by rename_i m v; cases m <;> cases h <;> rfl
  content_node v := by
    cases v with
    | record r =>
        obtain ⟨range, entries⟩ := r
        rw [Value.contentWithout, entriesWithout_eq, membersWithout_none]
        rfl
    | collection c =>
        obtain ⟨range, items⟩ := c
        rw [Value.contentWithout, valuesWithout_eq, membersWithout_none]
        rfl
    | primitive p =>
        rw [Value.contentWithout]
        rfl
  content_none h := by rename_i m; cases m <;> cases h <;> rfl

theorem wraps_entry : Wraps ofEntry entry? (·.contentWithout .none) where
  part?_node e := by cases e <;> rfl
  eq_node h := by rename_i m e; cases m <;> cases h <;> rfl
  content_node e := by
    cases e with
    | property p =>
        obtain ⟨range, name, colon, value⟩ := p
        rw [Entry.contentWithout]
        exact congrArg (fun v => Node.property ⟨_, _, _, v⟩) (valueWithout_none value).symm
    | embedded a =>
        rw [Entry.contentWithout]
        rfl
  content_none h := by rename_i m; cases m <;> cases h <;> rfl

theorem wraps_assignment : Wraps ofAssignment assignment? (·.contentWithout .none) where
  part?_node a := by cases a <;> rfl
  eq_node h := by rename_i m a; cases m <;> cases h <;> rfl
  content_node a := by cases a <;> rfl
  content_none h := by rename_i m; cases m <;> cases h <;> rfl

theorem wraps_annotation : Wraps annotation item? (·.contentWithout .none) where
  part?_node _ := rfl
  eq_node h := by rename_i m a; cases m <;> cases h; rfl
  content_node _ := rfl
  content_none h := by rename_i m; cases m <;> cases h <;> rfl

theorem wraps_groupItems : Wraps groupItems groupItems? (·.contentWithout .none) where
  part?_node _ := rfl
  eq_node h := by rename_i m i; cases m <;> cases h; rfl
  content_node _ := rfl
  content_none h := by rename_i m; cases m <;> cases h <;> rfl

theorem wraps_target : Wraps target target? (·.contentWithout .none) where
  part?_node _ := rfl
  eq_node h := by rename_i m t; cases m <;> cases h; rfl
  content_node _ := rfl
  content_none h := by rename_i m; cases m <;> cases h <;> rfl

/-- Only nodes of a kind have the content of one of that kind. -/
theorem Wraps.exists_of_content {α : Type} {node : α → Node} {part? : Node → Option α}
    {content : α → α} (h : Wraps node part? content) {a : α} {m : Node}
    (hm : m.content = (node a).content) : ∃ b, m = node b ∧ content b = content a := by
  rw [h.content_node] at hm
  cases hb : part? m with
  | none =>
      have hnone := h.content_none hb
      rw [hm, h.part?_node] at hnone
      cases hnone
  | some b =>
      obtain rfl := h.eq_node hb
      rw [h.content_node] at hm
      have hparts := congrArg part? hm
      rw [h.part?_node, h.part?_node] at hparts
      exact ⟨b, rfl, Option.some.inj hparts⟩

end Node

/-! ## Grafts -/

/-- The marks that stand behind a part of a file. -/
def delimiters : List String := [",", ";", "@", ")", "]", Token.openBrace, Token.closeBrace]

/-- The tokens start with such a mark, or there are none. -/
def Delimited (ts : List Token) : Prop := ∀ t ∈ ts.head?, ∃ mark ∈ delimiters, t.IsMark mark

theorem delimited_nil : Delimited [] := nofun

theorem delimited_cons {t : Token} {mark : String} (ht : t.IsMark mark)
    (hmark : mark ∈ delimiters) (ts : List Token) : Delimited (t :: ts) := by
  intro u hu
  rw [← Option.some.inj hu]
  exact ⟨mark, hmark, ht⟩

theorem Delimited.append {us vs : List Token} (hus : Delimited us) (hvs : Delimited vs) :
    Delimited (us ++ vs) := by
  cases us with
  | nil => exact hvs
  | cons t us => exact hus

theorem Delimited.append_of_ne_nil {us : List Token} (hus : Delimited us) (hne : us ≠ [])
    (vs : List Token) : Delimited (us ++ vs) := by
  obtain ⟨t, us, rfl⟩ := List.exists_cons_of_ne_nil hne
  exact hus

def Opened (ts : List Token) : Prop := ∃ t mark, ts.getLast? = some t ∧ t.IsMark mark

theorem Opened.append {us : List Token} (h : Opened us) (front : List Token) :
    Opened (front ++ us) := by
  obtain ⟨t, mark, ht, hmark⟩ := h
  exact ⟨t, mark, by rw [List.getLast?_append, ht]; rfl, hmark⟩

theorem opened_singleton {t : Token} {mark : String} (ht : t.IsMark mark) : Opened [t] :=
  ⟨t, mark, rfl, ht⟩

theorem opened_cons {t : Token} {mark : String} (ht : t.IsMark mark) {us : List Token}
    (h : us = [] ∨ Opened us) : Opened (t :: us) := by
  rcases h with rfl | h
  · exact opened_singleton ht
  · exact h.append [t]

/-- Some of the tokens write `c`, to which the path leads below `n`, and when others that may write
something else in its place are put there, the tokens write `n` with that in its place. A node other
than a target stands behind a mark. -/
def Grafts (whole part : Node → List Token → Prop) (path : List String) (n c : Node)
    (ts : List Token) : Prop :=
  ∃ front us back, ts = front ++ (us ++ back) ∧ part c us ∧ Delimited back ∧
    ((∀ t, c ≠ .target t) → Opened front) ∧
    ∀ (m m' : Node) ws, part m ws → m'.content = m.content → ∃ k, whole k (front ++ (ws ++ back)) ∧
      k.content = (m'.graft path n).content ∧ Node.Renews path n m k

/-- Where a part stands among the tokens: `fill` puts another one in its place. -/
def Site {α : Type} (whole : Node → List Token → Prop) (written : α → List Token → Prop)
    (fill : α → Node) (e : α) (ts : List Token) : Prop :=
  ∃ front us back, ts = front ++ (us ++ back) ∧ written e us ∧ Opened front ∧ Delimited back ∧
    ∀ f ws, written f ws → ∃ n, whole n (front ++ (ws ++ back)) ∧
      n.content = (fill f).content ∧ n.children = (fill f).children

theorem Node.graft_of_mem_children {n c : Node} {path : List String} (h : (path, c) ∈ n.children)
    (m : Node) (rest : List String) :
    m.graft (path ++ rest) n = (m.graft rest c).setChild path n := by
  rcases length_of_mem_children n with hlength | hlength
  · obtain ⟨s, t, rfl⟩ := List.length_eq_two.mp (hlength _ h)
    have hnone : n.child? [s] = none := by
      refine Option.eq_none_iff_forall_ne_some.mpr ?_
      intro d hd
      exact absurd (hlength _ (mem_children_of_child? hd)) (Nat.succ_ne_self 1).symm
    rw [List.cons_append, List.cons_append, List.nil_append, graft.eq_def]
    simp only [hnone, child?_of_mem h]
  · obtain ⟨s, rfl⟩ := List.length_eq_one_iff.mp (hlength _ h)
    rw [List.cons_append, List.nil_append, graft.eq_def]
    simp only [child?_of_mem h]

theorem Node.graft_child {n c : Node} {path : List String} (h : (path, c) ∈ n.children)
    (m : Node) : m.graft path n = m.setChild path n := by
  have hm := graft_of_mem_children h m []
  rw [List.append_nil] at hm
  exact hm

theorem Grafts.trans {whole middle part : Node → List Token → Prop} {n c d : Node}
    {path rest : List String} {ts : List Token} (h : Grafts whole middle path n c ts)
    (hc : (path, c) ∈ n.children) (hd : ∀ t, d ≠ .target t)
    (h' : ∀ us, middle c us → Grafts middle part rest c d us) :
    Grafts whole part (path ++ rest) n d ts := by
  obtain ⟨front, us, back, rfl, hc', hback, _, hput⟩ := h
  obtain ⟨front', us', back', rfl, hd', hback', hopened, hput'⟩ := h' us hc'
  refine ⟨front ++ front', us', back' ++ back, ?_, hd', hback'.append hback,
    fun _ => (hopened hd).append front, ?_⟩
  · simp only [List.append_assoc]
  · intro m m' ws hm hcontent
    obtain ⟨c', hc', hcc, hinner⟩ := hput' m m' ws hm hcontent
    obtain ⟨k, hk, hkc, houter⟩ := hput c' (m'.graft rest c) _ hc' hcc.symm
    rw [Node.graft_child hc] at hkc
    refine ⟨k, ?_, by rw [hkc, Node.graft_of_mem_children hc], ?_⟩
    · simp only [List.append_assoc] at hk ⊢
      exact hk
    · exact houter.trans (Node.resolve?_child hc) hinner

/-- A part of a kind in its place, which `adjust` fits another one to. -/
theorem Site.grafts {α : Type} {node : α → Node} {part? : Node → Option α} {content : α → α}
    (hwraps : Node.Wraps node part? content) {written : α → List Token → Prop} {fill : α → Node}
    {whole part : Node → List Token → Prop} {n : Node} {path : List String} {e : α}
    {ts : List Token} (hsite : Site whole written fill e ts)
    (hmem : (path, node e) ∈ n.children) (hrenews : ∀ a, Node.Renews path n (node a) (fill a))
    (adjust : α → α) (hadjust : ∀ a, (node (adjust a)).children = (node a).children)
    (hold : ∀ us, written e us → part (node e) us)
    (hnew : ∀ m ws, part m ws → ∃ a, m = node a ∧ written (adjust a) ws)
    (hfill : ∀ a b, content a = content b → (fill (adjust a)).content = (fill (adjust b)).content)
    (hput : ∀ a, (node a).setChild path n = fill (adjust a)) :
    Grafts whole part path n (node e) ts := by
  obtain ⟨front, us, back, rfl, he, hopened, hback, hfit⟩ := hsite
  refine ⟨front, us, back, rfl, hold us he, hback, fun _ => hopened, fun m m' ws hm hcontent => ?_⟩
  obtain ⟨a, rfl, ha⟩ := hnew m ws hm
  obtain ⟨b, rfl, hb⟩ := hwraps.exists_of_content hcontent
  obtain ⟨k, hk, hkc, hchildren⟩ := hfit (adjust a) ws ha
  refine ⟨k, hk, ?_, (hrenews (adjust a)).congr (hadjust a).symm hchildren
    (Node.ne_nil_of_mem_children hmem)⟩
  rw [hkc, Node.graft_child hmem, hput]
  exact hfill a b hb.symm

/-! ## What may stand below a node -/

/-- The items of a group between their braces. -/
def GroupItems.WrittenAs (i : GroupItems) (ts : List Token) : Prop :=
  ∃ opening us closing, ts = opening :: (us ++ [closing]) ∧ opening.IsMark Token.openBrace ∧
    closing.IsMark Token.closeBrace ∧ i.range = ⟨opening.range.start, closing.range.stop⟩ ∧
    commaSeparated (fun (a : Annotation) ts => a.WrittenAs ts ∧ a.atSign = none) i.items us

/-- The annotation is named by an alias alone, so that it is taken for a group with a record behind
it. -/
def Annotation.IsAlias (vocabulary : Vocabulary) (a : Annotation) : Prop :=
  a.term.segments.length = 1 ∧ vocabulary.isAlias a.term.text = true ∧ a.qualifier = none

/-- A value may stand behind the annotation in the place of the one it has: a record does not turn
it into a group. -/
def Annotation.Takes (vocabulary : Vocabulary) (a : Annotation) (v : Value) : Prop :=
  ∀ r, v = .record r → (∃ r', a.value = some (.record r')) ∨ ¬ a.IsAlias vocabulary

/-- The tokens write something that may stand below the node in the place of a child. -/
def Node.Admits (vocabulary : Vocabulary) : Node → Node → List Token → Prop
  | target _, m, ts => ∃ a s, m = ofAssignment a ∧ a.WrittenAs vocabulary s ts
  | annotation a, m, ts => ∃ v, m = ofValue v ∧ v.WrittenAs ts ∧ a.Takes vocabulary v
  | group _, m, ts => ∃ i, m = groupItems i ∧ i.WrittenAs ts
  | groupItems _, m, ts => ∃ a, m = annotation a ∧ a.WrittenAs ts
  | record _, m, ts => ∃ e, m = ofEntry e ∧ e.WrittenAs ts
  | property _, m, ts => ∃ v, m = ofValue v ∧ v.WrittenAs ts
  | collection _, m, ts => ∃ v, m = ofValue v ∧ v.WrittenAs ts
  | _, _, _ => False

/-- Which kinds of nodes may stand below which. -/
def Node.mayHold : Node → Node → Bool
  | target _, annotation _ | target _, group _ | group _, groupItems _
  | groupItems _, annotation _ | record _, property _ | record _, annotation _ => true
  | annotation _, m | property _, m | collection _, m => m.isValue
  | _, _ => false

theorem Node.Admits.mayHold {vocabulary : Vocabulary} {parent m : Node} {ts : List Token}
    (h : parent.Admits vocabulary m ts) : parent.mayHold m = true := by
  have hvalue : ∀ v, (ofValue v).isValue = true := by
    intro v
    cases v <;> rfl
  cases parent with
  | target t =>
      obtain ⟨a, _, rfl, _⟩ := h
      cases a <;> rfl
  | record r =>
      obtain ⟨e, rfl, _⟩ := h
      cases e <;> rfl
  | group g =>
      obtain ⟨i, rfl, _⟩ := h
      rfl
  | groupItems i =>
      obtain ⟨a, rfl, _⟩ := h
      rfl
  | annotation a =>
      obtain ⟨v, rfl, _⟩ := h
      exact hvalue v
  | property p =>
      obtain ⟨v, rfl, _⟩ := h
      exact hvalue v
  | collection c =>
      obtain ⟨v, rfl, _⟩ := h
      exact hvalue v
  | _ => exact h.elim

theorem Node.Admits.spans {vocabulary : Vocabulary} {parent m : Node} {ts : List Token}
    (h : parent.Admits vocabulary m ts) : Spans ts m.range := by
  have hvalue : ∀ {v : Value}, v.WrittenAs ts → Spans ts (ofValue v).range := by
    intro v hv
    cases v <;> exact spans_value hv
  cases parent with
  | target t =>
      obtain ⟨a, _, rfl, ha⟩ := h
      cases a <;> exact spans_assignment ha
  | record r =>
      obtain ⟨e, rfl, he⟩ := h
      cases e <;> exact spans_entry he
  | group g =>
      obtain ⟨i, rfl, opening, us, closing, rfl, _, _, hrange, _⟩ := h
      rw [range, hrange]
      exact .bracketed opening closing us
  | groupItems i =>
      obtain ⟨a, rfl, ha⟩ := h
      exact ha.spans
  | annotation a =>
      obtain ⟨v, rfl, hv, _⟩ := h
      exact hvalue hv
  | property p =>
      obtain ⟨v, rfl, hv⟩ := h
      exact hvalue hv
  | collection c =>
      obtain ⟨v, rfl, hv⟩ := h
      exact hvalue hv
  | _ => exact h.elim

theorem exists_site_of_commaSeparated {α : Type} {written : α → List Token → Prop} :
    ∀ {es : List α} {ts : List Token} {i : Nat} {e : α}, commaSeparated written es ts →
      es[i]? = some e → ∃ front us back, ts = front ++ (us ++ back) ∧ written e us ∧
        (front = [] ∨ Opened front) ∧ Delimited back ∧
        ∀ f ws, written f ws → commaSeparated written (es.set i f) (front ++ (ws ++ back))
  | d :: es, ts, 0, e, h, hi => by
      obtain rfl := Option.some.inj hi
      rcases h with ⟨hd, rfl⟩ | ⟨us, comma, vs, rfl, hd, hcomma, hes⟩
      · refine ⟨[], ts, [], (List.append_nil ts).symm, hd, Or.inl rfl, delimited_nil,
          fun f ws hf => Or.inl ⟨?_, rfl⟩⟩
        rwa [List.nil_append, List.append_nil]
      · exact ⟨[], us, comma :: vs, rfl, hd, Or.inl rfl, delimited_cons hcomma (by decide) vs,
          fun f ws hf => Or.inr ⟨ws, comma, vs, rfl, hf, hcomma, hes⟩⟩
  | d :: es, ts, i + 1, e, h, hi => by
      rw [List.getElem?_cons_succ] at hi
      rcases h with ⟨hd, rfl⟩ | ⟨us, comma, vs, rfl, hd, hcomma, hes⟩
      · cases hi
      · obtain ⟨front, ws, back, rfl, he, hfront, hback, hfit⟩ := exists_site_of_commaSeparated hes hi
        refine ⟨us ++ comma :: front, ws, back, ?_, he, Or.inr ((opened_cons hcomma hfront).append us),
          hback, fun f xs hf => Or.inr ?_⟩
        · simp only [List.append_assoc, List.cons_append]
        · refine ⟨us, comma, front ++ (xs ++ back), ?_, hd, hcomma, hfit f xs hf⟩
          simp only [List.append_assoc, List.cons_append]

theorem map_set_of_eq {α β : Type} {f : α → β} {a b : α} (h : f a = f b) (es : List α) (i : Nat) :
    (es.set i a).map f = (es.set i b).map f := by
  rw [List.map_set, List.map_set, h]

theorem exists_site_of_afterColon {colon : Option Range} {v : Value} {ts : List Token}
    (h : valueAfterColon colon (some v) ts) : ∃ c us, ts = c :: us ∧ c.IsMark ":" ∧
      v.WrittenAs us ∧
      ∀ w ws, Value.WrittenAs w ws → valueAfterColon colon (some w) (c :: ws) := by
  rw [valueAfterColon] at h
  obtain ⟨c, us, rfl, hc, hcolon, hv⟩ := h
  refine ⟨c, us, rfl, hc, hv, fun w ws hw => ?_⟩
  rw [valueAfterColon]
  exact ⟨c, ws, rfl, hc, hcolon, hw⟩

theorem Annotation.content_withSign {a b : Annotation}
    (h : a.contentWithout .none = b.contentWithout .none) {s s' : Option Range}
    (hs : unplaced s = unplaced s') :
    (a.withSign s).contentWithout .none = (b.withSign s').contentWithout .none := by
  obtain ⟨range, atSign, term, qualifier, colon, value, embedded⟩ := a
  obtain ⟨range', atSign', term', qualifier', colon', value', embedded'⟩ := b
  rw [contentWithout, contentWithout] at h
  rw [withSign, withSign, contentWithout, contentWithout, hs]
  exact congrArg (·.withSign (unplaced s')) h

theorem Annotation.content_of_value {v w : Value} (a : Annotation) (r : Range)
    (h : v.contentWithout .none = w.contentWithout .none) :
    ({ a with range := r, value := some v } : Annotation).contentWithout .none =
      ({ a with value := some w } : Annotation).contentWithout .none := by
  rw [ Annotation.contentWithout, Annotation.contentWithout, valueWithout, valueWithout]
  exact congrArg (fun v => Annotation.mk _ _ _ _ _ (some v) _) h

/-! ## Values and entries -/

section

variable {vocabulary : Vocabulary} {parent : Node} {ts : List Token}

theorem Annotation.Takes.of_kind {a : Annotation} {v w : Value} (h : a.Takes vocabulary v)
    (hkind : ∀ r, w = .record r → ∃ r', v = .record r') : a.Takes vocabulary w := by
  intro r hr
  obtain ⟨r', rfl⟩ := hkind r hr
  exact h r' rfl

/-- A value that a node admits can be replaced by one that an annotation takes as well. -/
theorem Node.Admits.value {v : Value} (h : parent.Admits vocabulary (ofValue v) ts) :
    v.WrittenAs ts ∧ ∀ w ws, Value.WrittenAs w ws →
      (∀ a, parent = annotation a → a.Takes vocabulary v → a.Takes vocabulary w) →
      parent.Admits vocabulary (ofValue w) ws := by
  cases parent with
  | annotation a =>
      obtain ⟨v', heq, hv, hvalue⟩ := h
      obtain rfl := Option.some.inj ((wraps_value.part?_node v).symm.trans
        ((congrArg Node.value? heq).trans (wraps_value.part?_node v')))
      exact ⟨hv, fun w ws hw htakes => ⟨w, rfl, hw, htakes a rfl hvalue⟩⟩
  | property p =>
      obtain ⟨v', heq, hv⟩ := h
      obtain rfl := Option.some.inj ((wraps_value.part?_node v).symm.trans
        ((congrArg Node.value? heq).trans (wraps_value.part?_node v')))
      exact ⟨hv, fun w ws hw _ => ⟨w, rfl, hw⟩⟩
  | collection c =>
      obtain ⟨v', heq, hv⟩ := h
      obtain rfl := Option.some.inj ((wraps_value.part?_node v).symm.trans
        ((congrArg Node.value? heq).trans (wraps_value.part?_node v')))
      exact ⟨hv, fun w ws hw _ => ⟨w, rfl, hw⟩⟩
  | _ => cases v <;> cases h.mayHold

theorem Node.Admits.groupItems {i : GroupItems} (h : parent.Admits vocabulary (.groupItems i) ts) :
    i.WrittenAs ts ∧
      ∀ j ws, GroupItems.WrittenAs j ws → parent.Admits vocabulary (.groupItems j) ws := by
  cases parent with
  | group g =>
      obtain ⟨j, heq, hj⟩ := h
      obtain rfl := Node.groupItems.inj heq
      exact ⟨hj, fun j ws hj => ⟨j, rfl, hj⟩⟩
  | _ => cases h.mayHold

theorem grafts_entry {r : Record} {i : Nat} {e : Entry}
    (h : parent.Admits vocabulary (.record r) ts) (hi : r.entries[i]? = some e) :
    Grafts (parent.Admits vocabulary) (Node.Admits vocabulary (.record r))
      ["properties", toString i] (.record r) (Node.ofEntry e) ts := by
  let fill : Entry → Node := fun f => .record ⟨r.range, r.entries.set i f⟩
  have hsite : Site (parent.Admits vocabulary) Entry.WrittenAs fill e ts := by
    obtain ⟨range, entries⟩ := r
    obtain ⟨hv, hreplace⟩ := Node.Admits.value (v := .record ⟨range, entries⟩) h
    rw [Value.WrittenAs] at hv
    obtain ⟨opening, closing, us, rfl, ho, hc, _, hentries⟩ := hv
    obtain ⟨front, vs, back, rfl, he, hfront, hback, hfit⟩ :=
      exists_site_of_commaSeparated ((entriesWrittenAs_iff entries us).mp hentries) hi
    refine ⟨opening :: front, vs, back ++ [closing], ?_, he, opened_cons ho hfront,
      hback.append (delimited_cons hc (by decide) []), fun f ws hf => ?_⟩
    · simp only [List.cons_append, List.append_assoc]
    · refine ⟨Node.ofValue (.record ⟨⟨opening.range.start, closing.range.stop⟩, entries.set i f⟩),
        hreplace _ _ ?_ fun a _ htakes => htakes.of_kind fun r _ => ⟨_, rfl⟩, rfl, rfl⟩
      rw [Value.WrittenAs]
      refine ⟨opening, closing, front ++ (ws ++ back), ?_, ho, hc, rfl,
        (entriesWrittenAs_iff _ _).mpr (hfit f ws hf)⟩
      simp only [List.cons_append, List.append_assoc]
  have hrenews : ∀ f, Node.Renews ["properties", toString i] (.record r) (Node.ofEntry f) (fill f) :=
    fun f => Node.renews_numbered [] rfl rfl (List.getElem?_eq_some_iff.mp hi).1
  refine hsite.grafts Node.wraps_entry (Node.mem_numbered_map hi) hrenews id (fun _ => rfl)
    (fun us hus => ⟨e, rfl, hus⟩) (fun m ws hm => hm) ?_ ?_
  · intro a b hab
    exact congrArg (fun es => Node.record ⟨default, es⟩) (map_set_of_eq hab r.entries i)
  · intro b
    rw [Node.setChild_recordEntry, changeAt_toString hi, Node.wraps_entry.part?_node]
    rfl

theorem grafts_collectionItem {c : Collection} {i : Nat} {v : Value}
    (h : parent.Admits vocabulary (.collection c) ts) (hi : c.items[i]? = some v) :
    Grafts (parent.Admits vocabulary) (Node.Admits vocabulary (.collection c))
      ["items", toString i] (.collection c) (Node.ofValue v) ts := by
  let fill : Value → Node := fun w => .collection ⟨c.range, c.items.set i w⟩
  have hsite : Site (parent.Admits vocabulary) Value.WrittenAs fill v ts := by
    obtain ⟨range, items⟩ := c
    obtain ⟨hv, hreplace⟩ := Node.Admits.value (v := .collection ⟨range, items⟩) h
    rw [Value.WrittenAs] at hv
    obtain ⟨opening, closing, us, rfl, ho, hc, _, hitems⟩ := hv
    obtain ⟨front, vs, back, rfl, he, hfront, hback, hfit⟩ :=
      exists_site_of_commaSeparated ((valuesWrittenAs_iff items us).mp hitems) hi
    refine ⟨opening :: front, vs, back ++ [closing], ?_, he, opened_cons ho hfront,
      hback.append (delimited_cons hc (by decide) []), fun w ws hw => ?_⟩
    · simp only [List.cons_append, List.append_assoc]
    · refine ⟨Node.ofValue (.collection ⟨⟨opening.range.start, closing.range.stop⟩,
        items.set i w⟩), hreplace _ _ ?_ (fun _ _ _ r hr => nomatch hr), rfl, rfl⟩
      rw [Value.WrittenAs]
      refine ⟨opening, closing, front ++ (ws ++ back), ?_, ho, hc, rfl,
        (valuesWrittenAs_iff _ _).mpr (hfit w ws hw)⟩
      simp only [List.cons_append, List.append_assoc]
  have hrenews : ∀ w, Node.Renews ["items", toString i] (.collection c) (Node.ofValue w) (fill w) :=
    fun w => Node.renews_numbered [] rfl rfl (List.getElem?_eq_some_iff.mp hi).1
  refine hsite.grafts Node.wraps_value (Node.mem_numbered_map hi) hrenews id (fun _ => rfl)
    (fun us hus => ⟨v, rfl, hus⟩) (fun m ws hm => hm) ?_ ?_
  · intro a b hab
    exact congrArg (fun vs => Node.collection ⟨default, vs⟩) (map_set_of_eq hab c.items i)
  · intro b
    rw [Node.setChild_collectionItem, changeAt_toString hi, Node.wraps_value.part?_node]
    rfl

theorem grafts_propertyValue {p : Property} {v : Value}
    (h : parent.Admits vocabulary (.property p) ts) (hv : p.value = some v) :
    Grafts (parent.Admits vocabulary) (Node.Admits vocabulary (.property p))
      ["value"] (.property p) (Node.ofValue v) ts := by
  let fill : Value → Node := fun w => .property { p with value := some w }
  have hsite : Site (parent.Admits vocabulary) Value.WrittenAs fill v ts := by
    obtain ⟨range, name, colon, value⟩ := p
    obtain rfl : value = some v := hv
    cases parent with
    | record r =>
        obtain ⟨e, heq, he⟩ := h
        cases e with
        | embedded a => cases heq
        | property q =>
            obtain rfl := Node.property.inj heq
            rw [Entry.WrittenAs] at he
            obtain ⟨us, vs, rfl, hname, hvalue, _⟩ := he
            obtain ⟨c, vs, rfl, hc, hvs, hfit⟩ := exists_site_of_afterColon hvalue
            refine ⟨us ++ [c], vs, [], ?_, hvs, (opened_singleton hc).append us, delimited_nil,
              fun w ws hw => ?_⟩
            · rw [List.append_nil, List.append_assoc, List.singleton_append]
            · refine ⟨Node.ofEntry (.property ⟨⟨name.range.start,
                Parser.endOf (some w) name.range.stop⟩, name, colon, some w⟩), ⟨_, rfl, ?_⟩, rfl, rfl⟩
              rw [Entry.WrittenAs]
              refine ⟨us, c :: ws, ?_, hname, hfit w ws hw, rfl⟩
              rw [List.append_nil, List.append_assoc, List.singleton_append]
    | _ => cases h.mayHold
  have hmem : (["value"], Node.ofValue v) ∈ (Node.property p).children :=
    List.mem_map_of_mem (Option.mem_toList.mpr hv)
  have hrenews : ∀ w, Node.Renews ["value"] (.property p) (Node.ofValue w) (fill w) := fun w =>
    Node.renews_value [] p.value rfl rfl
  refine hsite.grafts Node.wraps_value hmem hrenews id (fun _ => rfl)
    (fun us hus => ⟨v, rfl, hus⟩) (fun m ws hm => hm) ?_ ?_
  · intro a b hab
    exact congrArg (fun v => Node.property ⟨default, p.name.content, unplaced p.colon, some v⟩) hab
  · intro b
    rw [Node.setChild_propertyValue, Node.wraps_value.part?_node]
    rfl

/-! ## Annotations and groups -/

theorem Annotation.WrittenAs.exists_site {a : Annotation} {v : Value} (h : a.WrittenAs ts)
    (hv : a.value = some v) : ∃ front us, ts = front ++ us ∧ v.WrittenAs us ∧ Opened front ∧
      ∀ w ws, Value.WrittenAs w ws → ∃ r : Range, Annotation.WrittenAs
        { a with range := r, value := some w } (front ++ ws) := by
  obtain ⟨us, qs, vs, rfl, hterm, hqualifier, hvalue, _, hembedded⟩ := h
  rw [hv] at hvalue
  obtain ⟨c, vs, rfl, hc, hvs, hfit⟩ := exists_site_of_afterColon hvalue
  refine ⟨us ++ (qs ++ [c]), vs, ?_, hvs, ((opened_singleton hc).append qs).append us,
    fun w ws hw => ?_⟩
  · simp only [List.append_assoc, List.singleton_append]
  · refine ⟨⟨a.term.range.start, Parser.endOf (some w) a.headEnd⟩, us, qs, c :: ws, ?_, hterm,
      hqualifier, hfit w ws hw, rfl, hembedded⟩
    simp only [List.append_assoc, List.singleton_append]

theorem Annotation.exists_site_of_embedded {a : Annotation} {v : Value}
    (h : (Entry.embedded a).WrittenAs ts) (hv : a.value = some v) :
    ∃ front us, ts = front ++ us ∧ v.WrittenAs us ∧ Opened front ∧
      ∀ w ws, Value.WrittenAs w ws → ∃ r : Range,
        (Entry.embedded { a with range := r, value := some w }).WrittenAs (front ++ ws) := by
  obtain ⟨range, atSign, term, qualifier, colon, value, embedded⟩ := a
  obtain rfl : value = some v := hv
  rw [Entry.WrittenAs] at h
  obtain ⟨mark, opening, sign, us, qs, closing, vs, rfl, hmark, hopening, hsign, hterm, hqualifier,
    hclosing, hvalue, _, hatSign, hembedded⟩ := h
  obtain ⟨c, vs, rfl, hc, hvs, hfit⟩ := exists_site_of_afterColon hvalue
  have hopened := (opened_singleton hc).append (mark :: opening :: sign :: (us ++ (qs ++ [closing])))
  refine ⟨mark :: opening :: sign :: (us ++ (qs ++ [closing, c])), vs, ?_, hvs, ?_,
    fun w ws hw => ?_⟩
  · simp only [List.append_assoc, List.cons_append, List.nil_append]
  · simpa only [List.append_assoc, List.cons_append, List.nil_append] using hopened
  · refine ⟨⟨mark.range.start, Parser.endOf (some w) closing.range.stop⟩, ?_⟩
    rw [Entry.WrittenAs]
    refine ⟨mark, opening, sign, us, qs, closing, c :: ws, ?_, hmark, hopening, hsign, hterm,
      hqualifier, hclosing, hfit w ws hw, rfl, hatSign, hembedded⟩
    simp only [List.append_assoc, List.cons_append, List.nil_append]

/-- An annotation that takes another value stays a single one. -/
theorem Annotation.Takes.isSingle {a : Annotation} {v : Value} (h : a.Takes vocabulary v)
    (ha : a.IsSingle vocabulary) (r : Range) :
    ({ a with range := r, value := some v } : Annotation).IsSingle vocabulary := by
  intro hlength halias hqualifier e he
  obtain rfl := Option.some.inj he
  rcases h e rfl with ⟨e', he'⟩ | hnot
  · exact ha hlength halias hqualifier e' he'
  · exact hnot ⟨hlength, halias, hqualifier⟩

theorem grafts_annotationValue {a : Annotation} {v : Value}
    (h : parent.Admits vocabulary (Node.annotation a) ts) (hv : a.value = some v) :
    Grafts (parent.Admits vocabulary) (Node.Admits vocabulary (Node.annotation a))
      ["value"] (Node.annotation a) (Node.ofValue v) ts := by
  have hold : a.Takes vocabulary v := by
    rintro r rfl
    exact Or.inl ⟨r, hv⟩
  let written : Value → List Token → Prop := fun w ws => w.WrittenAs ws ∧ a.Takes vocabulary w
  let fill : Value → Node := fun w => Node.annotation { a with value := some w }
  have hsite : Site (parent.Admits vocabulary) written fill v ts := by
    have hcontent : ∀ (r : Range) (w : Value),
        (Node.annotation { a with range := r, value := some w }).content = (fill w).content :=
      fun r w => congrArg Node.annotation (a.content_of_value r rfl)
    cases parent with
    | target t =>
        obtain ⟨b, s, heq, hb⟩ := h
        cases b with
        | group g => cases heq
        | single b =>
            obtain rfl := Node.annotation.inj heq
            obtain ⟨hwritten, hsign, hsingle⟩ := hb
            obtain ⟨front, us, rfl, hvs, hopened, hfit⟩ := hwritten.exists_site hv
            refine ⟨front, us, [], by rw [List.append_nil], ⟨hvs, hold⟩, hopened, delimited_nil,
              fun w ws hw => ?_⟩
            obtain ⟨r, hr⟩ := hfit w ws hw.1
            refine ⟨_, ⟨.single { a with range := r, value := some w }, s, rfl, ?_, hsign,
              hw.2.isSingle hsingle r⟩, hcontent r w, rfl⟩
            rw [List.append_nil]
            exact hr
    | groupItems i =>
        obtain ⟨b, heq, hb⟩ := h
        obtain rfl := Node.annotation.inj heq
        obtain ⟨front, us, rfl, hvs, hopened, hfit⟩ := hb.exists_site hv
        refine ⟨front, us, [], by rw [List.append_nil], ⟨hvs, hold⟩, hopened, delimited_nil,
          fun w ws hw => ?_⟩
        obtain ⟨r, hr⟩ := hfit w ws hw.1
        refine ⟨_, ⟨_, rfl, ?_⟩, hcontent r w, rfl⟩
        rw [List.append_nil]
        exact hr
    | record r =>
        obtain ⟨e, heq, he⟩ := h
        cases e with
        | property p => cases heq
        | embedded b =>
            obtain rfl := Node.annotation.inj heq
            obtain ⟨front, us, rfl, hvs, hopened, hfit⟩ := Annotation.exists_site_of_embedded he hv
            refine ⟨front, us, [], by rw [List.append_nil], ⟨hvs, hold⟩, hopened, delimited_nil,
              fun w ws hw => ?_⟩
            obtain ⟨r, hr⟩ := hfit w ws hw.1
            refine ⟨_, ⟨.embedded _, rfl, ?_⟩, hcontent r w, rfl⟩
            rw [List.append_nil]
            exact hr
    | _ => cases h.mayHold
  have hmem : (["value"], Node.ofValue v) ∈ (Node.annotation a).children :=
    List.mem_append_right _ (List.mem_map_of_mem (Option.mem_toList.mpr hv))
  have hrenews : ∀ w, Node.Renews ["value"] (Node.annotation a) (Node.ofValue w) (fill w) := fun w =>
    Node.renews_value (a.qualifier.toList.map fun q => (["qualifier"], .qualifier q)) a.value rfl rfl
  refine hsite.grafts Node.wraps_value hmem hrenews id (fun _ => rfl)
    (fun us hus => ⟨v, rfl, hus⟩) (fun m ws hm => hm) ?_ ?_
  · intro w w' hw
    exact congrArg Node.annotation (a.content_of_value a.range hw)
  · intro w
    rw [Node.setChild_annotationValue, Node.wraps_value.part?_node]
    rfl

/-- The items of a group, which stand below a target. -/
theorem grafts_groupItems {g : Group} (h : parent.Admits vocabulary (.group g) ts) :
    Grafts (parent.Admits vocabulary) (Node.Admits vocabulary (.group g))
      ["items"] (.group g) (.groupItems g.items) ts := by
  let fill : GroupItems → Node := fun i => .group { g with items := i }
  have hsite : Site (parent.Admits vocabulary) GroupItems.WrittenAs fill g.items ts := by
    cases parent with
    | target t =>
        obtain ⟨b, s, heq, hb⟩ := h
        cases b with
        | single b => cases heq
        | group g' =>
            obtain rfl := Node.group.inj heq
            obtain ⟨term, us, colon, opening, vs, closing, rfl, hterm, hlength, halias, hcolon,
              hopening, hclosing, hitems, hg⟩ := hb
            obtain ⟨range, sign, name, colonRange, itemsRange, items⟩ := g
            obtain ⟨_, rfl, rfl, rfl, hrange⟩ := Group.mk.inj hg
            refine ⟨us ++ [colon], opening :: (vs ++ [closing]), [], ?_,
              ⟨opening, vs, closing, rfl, hopening, hclosing,
                congrArg GroupItems.range hrange, hitems⟩, (opened_singleton hcolon).append us,
              delimited_nil, ?_⟩
            · simp only [List.append_assoc, List.singleton_append, List.append_nil]
            · rintro ⟨range', items'⟩ ws ⟨opening', vs', closing', rfl, hopening', hclosing', rfl,
                hitems'⟩
              refine ⟨.group ⟨⟨term.range.start, closing'.range.stop⟩, sign, ⟨term.text, term.range⟩,
                colon.range, ⟨_, items'⟩⟩, ⟨.group _, sign, rfl, term, us, colon, opening', vs',
                closing', ?_, hterm, hlength, halias, hcolon, hopening', hclosing', hitems', rfl⟩,
                rfl, rfl⟩
              simp only [List.append_assoc, List.singleton_append, List.append_nil]
    | _ => cases h.mayHold
  have hrenews : ∀ i, Node.Renews ["items"] (.group g) (.groupItems i) (fill i) := by
    intro i
    refine Node.Renews.of_children (fun front hne c => ?_) (List.mem_singleton_self _)
    simp [fill, Node.children, hne]
  refine hsite.grafts Node.wraps_groupItems (List.mem_singleton_self _) hrenews id (fun _ => rfl)
    (fun us hus => ⟨_, rfl, hus⟩) (fun m ws hm => hm) ?_ (fun _ => rfl)
  intro i j hij
  exact congrArg (fun i => Node.group ⟨default, unplaced g.atSign, g.name.content, default, i⟩) hij

theorem grafts_groupItem {i : GroupItems} {k : Nat} {a : Annotation}
    (h : parent.Admits vocabulary (.groupItems i) ts) (hk : i.items[k]? = some a) :
    Grafts (parent.Admits vocabulary) (Node.Admits vocabulary (.groupItems i))
      ["items", toString k] (.groupItems i) (Node.annotation a) ts := by
  let fill : Annotation → Node := fun b => .groupItems ⟨i.range, i.items.set k b⟩
  obtain ⟨⟨opening, us, closing, rfl, hopening, hclosing, _, hitems⟩, hreplace⟩ := h.groupItems
  obtain ⟨front, vs, back, rfl, ha, hfront, hback, hfit⟩ := exists_site_of_commaSeparated hitems hk
  have hsite : Site (parent.Admits vocabulary)
      (fun b ws => Annotation.WrittenAs b ws ∧ b.atSign = none) fill a
      (opening :: (front ++ (vs ++ back) ++ [closing])) := by
    refine ⟨opening :: front, vs, back ++ [closing], ?_, ha, opened_cons hopening hfront,
      hback.append (delimited_cons hclosing (by decide) []), fun b ws hb => ?_⟩
    · simp only [List.cons_append, List.append_assoc]
    · refine ⟨.groupItems ⟨⟨opening.range.start, closing.range.stop⟩, i.items.set k b⟩,
        hreplace _ _ ⟨opening, front ++ (ws ++ back), closing, ?_, hopening, hclosing, rfl,
          hfit b ws hb⟩, rfl, rfl⟩
      simp only [List.cons_append, List.append_assoc]
  have hrenews : ∀ b, Node.Renews ["items", toString k] (.groupItems i) (Node.annotation b)
      (fill b) := fun b =>
    Node.renews_numbered [] rfl rfl (List.getElem?_eq_some_iff.mp hk).1
  refine hsite.grafts Node.wraps_annotation (Node.mem_numbered_map hk) hrenews (·.withSign none)
    (fun _ => rfl) (fun us hus => ⟨a, rfl, hus.1⟩) ?_ ?_ ?_
  · rintro m ws ⟨b, rfl, hb⟩
    exact ⟨b, rfl, hb, rfl⟩
  · intro b b' hb
    refine congrArg (fun as => Node.groupItems ⟨default, as⟩) ?_
    rw [membersWithout_none, membersWithout_none]
    exact map_set_of_eq ( Annotation.content_withSign hb rfl) i.items k
  · intro b
    rw [Node.setChild_groupItem, changeAt_toString hk, ha.2]
    rfl

/-! ## Targets -/

theorem Assignment.WrittenAs.withSign {a : Assignment} {s : Option Range}
    (h : a.WrittenAs vocabulary s ts) (s' : Option Range) :
    (a.withSign s').WrittenAs vocabulary s' ts := by
  cases a with
  | single a => exact ⟨h.1, rfl, h.2.2⟩
  | group g =>
      obtain ⟨term, us, colon, opening, vs, closing, rfl, hterm, hlength, halias, hcolon, hopening,
        hclosing, hitems, hg⟩ := h
      exact ⟨term, us, colon, opening, vs, closing, rfl, hterm, hlength, halias, hcolon, hopening,
        hclosing, hitems, congrArg (fun g : Group => { g with atSign := s' }) hg⟩

theorem AssignmentsWrittenAs.delimited {as : List Assignment} {compound : Option Range}
    (h : AssignmentsWrittenAs vocabulary as compound ts) : Delimited ts := by
  cases h with
  | nil => exact delimited_nil
  | bare hsign => exact delimited_cons hsign (by decide) _
  | compound hsign => exact delimited_cons hsign (by decide) _

theorem AssignmentsWrittenAs.exists_site {as : List Assignment} {compound : Option Range}
    (h : AssignmentsWrittenAs vocabulary as compound ts) : ∀ {i : Nat} {a : Assignment},
      as[i]? = some a → ∃ front us back, ts = front ++ (us ++ back) ∧
        a.WrittenAs vocabulary a.atSign us ∧ Opened front ∧ Delimited back ∧
        ∀ b ws, Assignment.WrittenAs vocabulary a.atSign b ws →
          AssignmentsWrittenAs vocabulary (as.set i b) compound (front ++ (ws ++ back)) := by
  induction h with
  | nil =>
      intro i a hi
      cases hi
  | @bare sign b as compound us vs hsign hb has ih =>
      intro i a hi
      cases i with
      | zero =>
          obtain rfl := Option.some.inj hi
          have hatSign := hb.atSign_eq
          rw [hatSign]
          exact ⟨[sign], us, vs, rfl, hb, opened_singleton hsign, has.delimited,
            fun c ws hc => (AssignmentsWrittenAs.bare hsign hc has :)⟩
      | succ i =>
          obtain ⟨front, ws, back, rfl, ha, hopened, hback, hfit⟩ := ih hi
          refine ⟨sign :: (us ++ front), ws, back, ?_, ha, hopened.append (sign :: us), hback,
            fun c xs hc => ?_⟩
          · simp only [List.cons_append, List.append_assoc]
          · rw [List.set_cons_succ, List.cons_append, List.append_assoc]
            exact .bare hsign hb (hfit c xs hc)
  | @compound sign opening closing items as more us vs hsign hopening hitems hclosing has ih =>
      intro i a hi
      by_cases hlt : i < items.length
      · rw [List.getElem?_append_left hlt] at hi
        obtain ⟨front, ws, back, rfl, ha, hfront, hback, hfit⟩ :=
          exists_site_of_commaSeparated hitems hi
        have hatSign := ha.atSign_eq
        rw [hatSign]
        refine ⟨sign :: opening :: front, ws, back ++ closing :: vs, ?_, ha,
          (opened_cons hopening hfront).append [sign],
          hback.append (delimited_cons hclosing (by decide) vs), fun c xs hc => ?_⟩
        · simp only [List.cons_append, List.append_assoc]
        · rw [List.set_append_left i c hlt]
          have hwritten := AssignmentsWrittenAs.compound hsign hopening (hfit c xs hc) hclosing has
          simp only [List.cons_append, List.append_assoc] at hwritten ⊢
          exact hwritten
      · rw [List.getElem?_append_right (Nat.le_of_not_lt hlt)] at hi
        obtain ⟨front, ws, back, rfl, ha, hopened, hback, hfit⟩ := ih hi
        refine ⟨sign :: opening :: (us ++ closing :: front), ws, back, ?_, ha, ?_, hback,
          fun c xs hc => ?_⟩
        · simp only [List.cons_append, List.append_assoc]
        · simpa only [List.cons_append, List.append_assoc, List.nil_append] using
            hopened.append (sign :: opening :: (us ++ [closing]))
        · rw [List.set_append_right i c (Nat.le_of_not_lt hlt)]
          have hwritten := AssignmentsWrittenAs.compound hsign hopening hitems hclosing
            (hfit c xs hc)
          simp only [List.cons_append, List.append_assoc] at hwritten ⊢
          exact hwritten

def Target.AssignedAs (vocabulary : Vocabulary) (t : Target) (m : Node) (ts : List Token) : Prop :=
  ∃ as compound, m = .target { t with assignments := as, compound := compound } ∧
    (as = [] → t.assignments = []) ∧ AssignmentsWrittenAs vocabulary as compound ts

theorem Assignment.content_withSign {a b : Assignment}
    (h : a.contentWithout .none = b.contentWithout .none) {s s' : Option Range}
    (hs : unplaced s = unplaced s') :
    (a.withSign s).contentWithout .none = (b.withSign s').contentWithout .none := by
  cases a with
  | single a =>
      cases b with
      | single b => exact congrArg Assignment.single ( Annotation.content_withSign (single.inj h) hs)
      | group g => cases h
  | group g =>
      cases b with
      | single b => cases h
      | group g' =>
          simp only [withSign, contentWithout, Group.contentWithout, hs]
          exact congrArg (·.withSign (unplaced s')) h

theorem grafts_assignment {t : Target} {i : Nat} {a : Assignment}
    (h : t.AssignedAs vocabulary (.target t) ts) (hi : t.assignments[i]? = some a) :
    Grafts (t.AssignedAs vocabulary) (Node.Admits vocabulary (.target t))
      ["assignments", toString i] (.target t) (Node.ofAssignment a) ts := by
  obtain ⟨as, compound, heq, _, has⟩ := h
  obtain ⟨kind, name, nameRange, range, compound', as'⟩ := t
  obtain ⟨_, _, _, _, rfl, rfl⟩ := Target.mk.inj (Node.target.inj heq)
  obtain ⟨front, us, back, rfl, ha, hopened, hback, hfit⟩ := has.exists_site hi
  let t : Target := ⟨kind, name, nameRange, range, compound', as'⟩
  let fill : Assignment → Node := fun b => .target { t with assignments := as'.set i b }
  have hsite : Site (t.AssignedAs vocabulary)
      (Assignment.WrittenAs vocabulary a.atSign · ·) fill a (front ++ (us ++ back)) := by
    refine ⟨front, us, back, rfl, ha, hopened, hback, fun b ws hb => ⟨fill b,
      ⟨as'.set i b, compound', rfl, ?_, hfit b ws hb⟩, rfl, rfl⟩⟩
    exact fun hnil => (List.set_eq_nil_iff _ _).mp hnil
  have hrenews : ∀ b, Node.Renews ["assignments", toString i] (.target t) (Node.ofAssignment b)
      (fill b) := fun b =>
    Node.renews_numbered [] rfl rfl (List.getElem?_eq_some_iff.mp hi).1
  have hadjust : ∀ b : Assignment,
      (Node.ofAssignment (b.withSign a.atSign)).children = (Node.ofAssignment b).children := by
    rintro (b | g) <;> rfl
  refine hsite.grafts Node.wraps_assignment (Node.mem_numbered_map hi) hrenews
    (·.withSign a.atSign) hadjust (fun us hus => ⟨a, a.atSign, rfl, hus⟩) ?_ ?_ ?_
  · rintro m ws ⟨b, s, rfl, hb⟩
    exact ⟨b, rfl, hb.withSign a.atSign⟩
  · intro b b' hb
    refine congrArg (fun as => Node.target ⟨kind, name, default, default, unplaced compound', as⟩) ?_
    rw [membersWithout_none, membersWithout_none]
    exact map_set_of_eq (Assignment.content_withSign hb rfl) as' i
  · intro b
    rw [Node.setChild_assignment, changeAt_toString hi, Node.wraps_assignment.part?_node]
    rfl

/-! ## Files -/

theorem exists_site_of_consecutive {α : Type} {written : α → List Token → Prop} :
    ∀ {es : List α} {ts : List Token} {i : Nat} {e : α}, consecutive written es ts →
      es[i]? = some e → ∃ front us back, ts = front ++ (us ++ back) ∧ written e us ∧
        ∀ f ws, written f ws → consecutive written (es.set i f) (front ++ (ws ++ back))
  | d :: es, ts, 0, e, h, hi => by
      obtain rfl := Option.some.inj hi
      obtain ⟨us, vs, rfl, hd, hes⟩ := h
      exact ⟨[], us, vs, rfl, hd, fun f ws hf => ⟨ws, vs, rfl, hf, hes⟩⟩
  | d :: es, ts, i + 1, e, h, hi => by
      rw [List.getElem?_cons_succ] at hi
      obtain ⟨us, vs, rfl, hd, hes⟩ := h
      obtain ⟨front, ws, back, rfl, he, hfit⟩ := exists_site_of_consecutive hes hi
      refine ⟨us ++ front, ws, back, by rw [List.append_assoc], he, fun f xs hf => ?_⟩
      exact ⟨us, front ++ (xs ++ back), by rw [List.append_assoc], hd, hfit f xs hf⟩

def Target.SitedIn (vocabulary : Vocabulary) (t : Target) (ts : List Token)
    (rewritten : Target → List Token → Prop) : Prop :=
  ∃ front us back, ts = front ++ (us ++ back) ∧ back ≠ [] ∧ Delimited back ∧
    AssignmentsWrittenAs vocabulary t.assignments t.compound us ∧
    ∀ as compound ws, AssignmentsWrittenAs vocabulary as compound ws →
      (as = [] → t.assignments = []) → ∃ u, rewritten u (front ++ (ws ++ back)) ∧
        u.assignments = as ∧ u.contentWithout .none =
          ({ t with assignments := as, compound := compound } : Target).contentWithout .none

theorem Target.SitedIn.mono {t : Target} {us : List Token}
    {rewritten : Target → List Token → Prop} (h : t.SitedIn vocabulary us rewritten)
    (P : Target → List Token → Prop) (front back : List Token)
    (himp : ∀ u ws, rewritten u ws → P u (front ++ (ws ++ back))) :
    t.SitedIn vocabulary (front ++ (us ++ back)) P := by
  obtain ⟨front', vs, back', rfl, hne, hback, has, hfit⟩ := h
  refine ⟨front ++ front', vs, back' ++ back, ?_, List.append_ne_nil_of_left_ne_nil hne back,
    hback.append_of_ne_nil hne back, has, fun as compound ws hws hnil => ?_⟩
  · simp only [List.append_assoc]
  · obtain ⟨u, hu, hassignments, hcontent⟩ := hfit as compound ws hws hnil
    refine ⟨u, ?_, hassignments, hcontent⟩
    have hp := himp u _ hu
    simp only [List.append_assoc] at hp ⊢
    exact hp

theorem sitedIn_member {entity : String} {m : Target}
    (h : memberWrittenAs vocabulary entity m ts) :
    m.SitedIn vocabulary ts (memberWrittenAs vocabulary entity) := by
  obtain ⟨i, t, us, closing, as, compound, rfl, hi, has, hclosing, rfl⟩ := h
  refine ⟨[t], us, [closing], rfl, List.cons_ne_nil _ _, delimited_cons hclosing (by decide) [], has,
    fun as' compound' ws hws _ => ?_⟩
  exact ⟨_, ⟨i, t, ws, closing, as', compound', rfl, hi, hws, hclosing, rfl⟩, rfl, rfl⟩

theorem sitedIn_statement {s : Statement} {i : Nat} {t : Target} (h : s.WrittenAs vocabulary ts)
    (hi : s.targets[i]? = some t) : t.SitedIn vocabulary ts fun u ws =>
      ∃ s' : Statement, s'.WrittenAs vocabulary ws ∧ s'.targets = s.targets.set i u := by
  obtain ⟨first, us, ws, as, bs, closing, rfl, hfirst, hentity, hwith, has, hblock, hclosing⟩ := h
  by_cases hlt : i < s.entityTargets.length
  · -- the entity itself
    rw [Statement.targets, List.getElem?_append_left hlt] at hi
    have hone : (!s.assignments.isEmpty || s.members.isNone) = true := by
      rw [Statement.entityTargets] at hlt
      split at hlt
      · assumption
      · exact absurd hlt (Nat.not_lt_zero i)
    have htargets : s.entityTargets = [Parser.targetOf .entity s.entity.text s.entity.range
        (s.assignments, s.compound)] := by
      rw [Statement.entityTargets, if_pos hone]
    rw [htargets] at hi hlt
    obtain rfl : i = 0 := Nat.lt_one_iff.mp hlt
    obtain rfl := Option.some.inj hi
    have hblocked : Delimited bs := by
      cases hmembers : s.members with
      | none =>
          rw [hmembers, blockWrittenAs] at hblock
          rw [hblock]
          exact delimited_nil
      | some members =>
          rw [hmembers] at hblock
          obtain ⟨opening, ms, closer, rfl, hopening, _⟩ := hblock
          exact delimited_cons hopening (by decide) _
    refine ⟨first :: (us ++ ws), as, bs ++ [closing], ?_,
      List.append_ne_nil_of_right_ne_nil bs (List.cons_ne_nil _ _),
      hblocked.append (delimited_cons hclosing (by decide) []), has,
      fun as' compound' vs hvs hnil => ?_⟩
    · simp only [List.cons_append, List.append_assoc]
    · have hone' : (!as'.isEmpty || s.members.isNone) = true := by
        cases as' with
        | nil =>
            have hempty : s.assignments = [] := hnil rfl
            rw [hempty] at hone
            exact hone
        | cons a as' => rfl
      refine ⟨Parser.targetOf .entity s.entity.text s.entity.range (as', compound'),
        ⟨⟨s.entity, as', compound', s.members⟩, ⟨first, us, ws, vs, bs, closing, ?_, hfirst,
          hentity, hwith, hvs, hblock, hclosing⟩, ?_⟩, rfl, rfl⟩
      · simp only [List.cons_append, List.append_assoc]
      · rw [Statement.targets, Statement.targets, htargets, Statement.entityTargets, if_pos hone']
        rfl
  · -- a member of it
    have hle := Nat.le_of_not_lt hlt
    rw [Statement.targets, List.getElem?_append_right hle] at hi
    cases hmembers : s.members with
    | none =>
        rw [hmembers] at hi
        cases hi
    | some members =>
        rw [hmembers] at hi hblock
        obtain ⟨opening, ms, closer, rfl, hopening, hcloser, hms⟩ := hblock
        obtain ⟨front, vs, back, rfl, hm, hfit⟩ := exists_site_of_consecutive hms hi
        have hsited := (sitedIn_member hm).mono
          (fun u vs => ∃ s' : Statement, s'.WrittenAs vocabulary vs ∧
            s'.targets = s.targets.set i u)
          (first :: (us ++ (ws ++ (as ++ opening :: front)))) (back ++ [closer, closing]) ?_
        · simp only [List.cons_append, List.append_assoc, List.nil_append] at hsited ⊢
          exact hsited
        · intro u vs hu
          let s' : Statement :=
            ⟨s.entity, s.assignments, s.compound, some (members.set (i - s.entityTargets.length) u)⟩
          have hentityTargets : s'.entityTargets = s.entityTargets := by
            rw [Statement.entityTargets, Statement.entityTargets, hmembers]
            rfl
          refine ⟨s', ⟨first, us, ws, as, opening :: (front ++ (vs ++ back) ++ [closer]), closing,
            ?_, hfirst, hentity, hwith, has, ⟨opening, _, closer, rfl, hopening, hcloser,
              hfit u vs hu⟩, hclosing⟩, ?_⟩
          · simp only [List.cons_append, List.append_assoc, List.nil_append]
          · rw [Statement.targets, Statement.targets, hentityTargets, hmembers,
              List.set_append_right i u hle]
            rfl

theorem sitedIn_items : ∀ {items : List Item} {ts : List Token} {i : Nat} {t : Target},
    consecutive (Item.WrittenAs vocabulary) items ts → (targetsOf items)[i]? = some t →
    t.SitedIn vocabulary ts fun u ws => ∃ items', consecutive (Item.WrittenAs vocabulary) items' ws ∧
      declarationsOf items' = declarationsOf items ∧ targetsOf items' = (targetsOf items).set i u
  | .inl d :: items, ts, i, t, h, hi => by
      obtain ⟨us, vs, rfl, hd, hitems⟩ := h
      have hsited := (sitedIn_items hitems hi).mono
        (fun u ws => ∃ items', consecutive (Item.WrittenAs vocabulary) items' ws ∧
          declarationsOf items' = declarationsOf (.inl d :: items) ∧
          targetsOf items' = (targetsOf (.inl d :: items)).set i u) us [] ?_
      · rw [List.append_nil] at hsited
        exact hsited
      · rintro u ws ⟨items', hwritten, hdeclarations, htargets⟩
        rw [List.append_nil]
        refine ⟨.inl d :: items', ⟨us, ws, rfl, hd, hwritten⟩, ?_, htargets⟩
        exact congrArg (d :: ·) hdeclarations
  | .inr s :: items, ts, i, t, h, hi => by
      obtain ⟨us, vs, rfl, hs, hitems⟩ := h
      have hall : targetsOf (.inr s :: items) = s.targets ++ targetsOf items := rfl
      rw [hall] at hi ⊢
      by_cases hlt : i < s.targets.length
      · rw [List.getElem?_append_left hlt] at hi
        have hsited := (sitedIn_statement hs hi).mono
          (fun u ws => ∃ items', consecutive (Item.WrittenAs vocabulary) items' ws ∧
            declarationsOf items' = declarationsOf (.inr s :: items) ∧
            targetsOf items' = (s.targets ++ targetsOf items).set i u) [] vs ?_
        · exact hsited
        · rintro u ws ⟨s', hwritten, htargets⟩
          refine ⟨.inr s' :: items, ⟨ws, vs, rfl, hwritten, hitems⟩, rfl, ?_⟩
          rw [List.set_append_left i u hlt, ← htargets]
          rfl
      · have hle := Nat.le_of_not_lt hlt
        rw [List.getElem?_append_right hle] at hi
        have hsited := (sitedIn_items hitems hi).mono
          (fun u ws => ∃ items', consecutive (Item.WrittenAs vocabulary) items' ws ∧
            declarationsOf items' = declarationsOf (.inr s :: items) ∧
            targetsOf items' = (s.targets ++ targetsOf items).set i u) us [] ?_
        · rw [List.append_nil] at hsited
          exact hsited
        · rintro u ws ⟨items', hwritten, hdeclarations, htargets⟩
          rw [List.append_nil]
          refine ⟨.inr s :: items', ⟨us, ws, rfl, hs, hwritten⟩, hdeclarations, ?_⟩
          rw [List.set_append_right i u hle, ← htargets]
          rfl

theorem grafts_target {f : File} {i : Nat} {t : Target}
    (h : (Node.file f).WrittenAs vocabulary ts) (hi : f.targets[i]? = some t) :
    Grafts (Node.WrittenAs vocabulary) (t.AssignedAs vocabulary)
      ["targets", toString i] (.file f) (.target t) ts := by
  have hmem := Node.target_mem_children hi
  obtain ⟨items, hitems, hdeclarations, htargets⟩ := h
  rw [htargets] at hi
  obtain ⟨front, us, back, rfl, _, hback, has, hfit⟩ := sitedIn_items hitems hi
  refine ⟨front, us, back, rfl, ⟨_, _, rfl, id, has⟩, hback, fun hne => absurd rfl (hne t), ?_⟩
  rintro m m' ws ⟨as, compound, rfl, hnil, hws⟩ hcontent
  obtain ⟨u, ⟨items', hwritten, hdeclarations', htargets'⟩, hassignments, hu⟩ :=
    hfit as compound ws hws hnil
  obtain ⟨t', rfl, ht'⟩ := Node.wraps_target.exists_of_content hcontent
  rw [← htargets] at hi
  refine ⟨.file ⟨f.uri, f.range, declarationsOf items', targetsOf items'⟩,
    ⟨items', hwritten, rfl, rfl⟩, ?_, ?_⟩
  rotate_left
  · have hchildren : Node.children (.file ⟨f.uri, f.range, declarationsOf items', targetsOf items'⟩) =
        Node.numbered "usings" (f.declarations.map .declaration) ++
          Node.numbered "targets" ((f.targets.set i u).map .target) := by
      rw [Node.children, hdeclarations', htargets', hdeclarations, htargets]
    refine (Node.renews_numbered _ rfl hchildren (List.getElem?_eq_some_iff.mp hi).1).congr ?_ rfl
      (Node.ne_nil_of_mem_children hmem)
    rw [Node.children, Node.children, hassignments]
  rw [Node.graft_child hmem, Node.setChild_target, changeAt_toString hi]
  refine congrArg Node.file ?_
  rw [File.content, File.content, File.contentWithout, File.contentWithout]
  have hall : ∀ ts : List Target, membersWithout "targets" Target.contentWithout
      (fun _ => false) 0 ts = ts.map (·.contentWithout .none) := membersWithout_none "targets" _ 0
  rw [hall, hall, hdeclarations', hdeclarations, htargets', htargets]
  refine congrArg (File.mk _ _ _) (map_set_of_eq ?_ _ i)
  exact hu.trans ht'.symm

/-! ## Paths -/

theorem grafts_child {n c : Node} {path : List String} (h : parent.Admits vocabulary n ts)
    (hc : (path, c) ∈ n.children) (hq : ∀ q, c ≠ .qualifier q) :
    Grafts (parent.Admits vocabulary) (n.Admits vocabulary) path n c ts := by
  cases n with
  | annotation a =>
      rcases Node.cases_of_mem_annotation hc with ⟨q, _, _, rfl⟩ | ⟨v, hv, rfl, rfl⟩
      · exact absurd rfl (hq q)
      · exact grafts_annotationValue h hv
  | group g =>
      obtain ⟨rfl, rfl⟩ := Prod.mk.inj (List.mem_singleton.mp hc)
      exact grafts_groupItems h
  | groupItems i =>
      obtain ⟨k, a, ha, rfl, rfl⟩ := Node.exists_of_mem_numbered hc
      exact grafts_groupItem h ha
  | record r =>
      obtain ⟨k, e, he, rfl, rfl⟩ := Node.exists_of_mem_numbered hc
      exact grafts_entry h he
  | property p =>
      obtain ⟨v, hv, rfl, rfl⟩ := Node.exists_of_mem_part hc
      exact grafts_propertyValue h hv
  | collection v =>
      obtain ⟨k, w, hw, rfl, rfl⟩ := Node.exists_of_mem_numbered hc
      exact grafts_collectionItem h hw
  | declaration d => exact absurd hc List.not_mem_nil
  | primitive p => exact absurd hc List.not_mem_nil
  | qualifier q => exact absurd hc List.not_mem_nil
  | file f => cases parent <;> cases h.mayHold
  | target t => cases parent <;> cases h.mayHold

theorem ne_qualifier_of_resolve? {n p c : Node} {path last : List String}
    (hp : n.resolve? path = some p) (hc : (last, c) ∈ p.children) : ∀ q, n ≠ .qualifier q := by
  rintro q rfl
  rcases resolve?_eq_some_first hp with ⟨_, rfl⟩ | ⟨_, _, _, _, hmem, _⟩
  · exact List.not_mem_nil hc
  · exact List.not_mem_nil hmem

theorem grafts_below {n p c : Node} {path last : List String}
    (h : parent.Admits vocabulary n ts) (hp : n.resolve? path = some p)
    (hc : (last, c) ∈ p.children) (hq : ∀ q, c ≠ .qualifier q) (ht : ∀ t, c ≠ .target t) :
    Grafts (parent.Admits vocabulary) (p.Admits vocabulary) (path ++ last) n c ts := by
  induction hlength : path.length using Nat.strongRecOn generalizing parent n ts path with
  | ind k ih =>
    rcases resolve?_eq_some_first hp with ⟨rfl, rfl⟩ | ⟨first, rest, d, rfl, hd, hrest⟩
    · rw [List.nil_append]
      exact grafts_child h hc hq
    · have hshort : rest.length < k := hlength ▸ Node.length_lt_of_mem_children hd rest
      rw [List.append_assoc]
      exact (grafts_child h hd (ne_qualifier_of_resolve? hrest hc)).trans hd ht
        fun us hus => ih rest.length hshort hus hrest rfl

/-- A node below a target, among the tokens of the assignments of the target. -/
theorem grafts_below_target {t : Target} {p c : Node} {path last : List String}
    (h : t.AssignedAs vocabulary (.target t) ts) (hp : (Node.target t).resolve? path = some p)
    (hc : (last, c) ∈ p.children) (hq : ∀ q, c ≠ .qualifier q) (ht : ∀ t, c ≠ .target t) :
    Grafts (t.AssignedAs vocabulary) (p.Admits vocabulary) (path ++ last) (.target t) c ts := by
  rcases resolve?_eq_some_first hp with ⟨rfl, rfl⟩ | ⟨first, rest, d, rfl, hd, hrest⟩
  · rw [List.nil_append]
    obtain ⟨k, a, ha, rfl, rfl⟩ := Node.exists_of_mem_numbered hc
    exact grafts_assignment h ha
  · rw [List.append_assoc]
    have hassignment := hd
    obtain ⟨k, a, ha, rfl, rfl⟩ := Node.exists_of_mem_numbered hd
    exact (grafts_assignment h ha).trans hassignment ht
      fun us hus => grafts_below hus hrest hc hq ht

/-- A node below a target can be replaced among the tokens of the file by what may stand there. -/
theorem grafts_file {f : File} {p : Pointer} {parent c : Node} {last : List String}
    (h : (Node.file f).WrittenAs vocabulary ts) (hp : f.resolve? p = some parent)
    (hc : (last, c) ∈ parent.children) (hq : ∀ q, c ≠ .qualifier q)
    (hfile : ∀ g, parent ≠ .file g) : Grafts (Node.WrittenAs vocabulary)
      (parent.Admits vocabulary) (p.append last).segments (.file f) c ts := by
  rcases resolve?_eq_some_first hp with ⟨_, rfl⟩ | ⟨first, rest, d, hpath, hd, hrest⟩
  · exact absurd rfl (hfile f)
  · have hnotTarget := Node.ne_target_of_mem_children hfile hc
    rw [Pointer.append, hpath, List.append_assoc]
    have hmem := hd
    rcases Node.cases_of_mem_file hd with ⟨_, _, _, rfl, rfl⟩ | ⟨k, t, ht, rfl, rfl⟩
    · rcases resolve?_eq_some_first hrest with ⟨_, rfl⟩ | ⟨_, _, _, _, hmem, _⟩
      · exact absurd hc List.not_mem_nil
      · exact absurd hmem List.not_mem_nil
    · exact (grafts_target h ht).trans hmem hnotTarget
        fun us hus => grafts_below_target hus hrest hc hq hnotTarget

end

end AnnotationEdit.Syntax

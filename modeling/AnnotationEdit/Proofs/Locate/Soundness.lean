import AnnotationEdit.Locate
import AnnotationEdit.Proofs.PointerOrder
import AnnotationEdit.Proofs.Syntax.Layout

/-!
# Located nodes

What a search returns: a pointer that resolves in the concrete tree, to a node around the range
that is looked for. This holds of every file, however it is laid out; whether a search returns at
all does not.
-/

namespace AnnotationEdit

/-! ## Pointers along children -/

theorem Text.eq_of_toString {i j : Nat} (h : toString i = toString j) : i = j := by
  rw [Nat.toString_eq_ofList_toDigits, Nat.toString_eq_ofList_toDigits, String.ofList_inj] at h
  have hdigits := congrArg (Nat.ofDigitChars 10 · 0) h
  rwa [Nat.ofDigitChars_ten_toDigits, Nat.ofDigitChars_ten_toDigits] at hdigits

namespace Syntax.Node

theorem mem_numbered {name : String} {nodes : List Node} {path : List String} {n : Node} :
    (path, n) ∈ numbered name nodes ↔
      ∃ i : Nat, nodes[i]? = some n ∧ path = [name, toString i] := by
  simp only [numbered, List.mem_map, Prod.mk.injEq, Prod.exists, List.mem_zipIdx_iff_getElem?]
  constructor
  · rintro ⟨m, i, hm, rfl, rfl⟩
    exact ⟨i, hm, rfl⟩
  · rintro ⟨i, hn, rfl⟩
    exact ⟨n, i, hn, rfl, rfl⟩

@[simp] theorem length_numbered (name : String) (nodes : List Node) :
    (numbered name nodes).length = nodes.length := by
  rw [numbered, List.length_map, List.length_zipIdx]

theorem map_fst_numbered (name : String) (nodes : List Node) :
    (numbered name nodes).map (·.1) = (List.range nodes.length).map fun i => [name, toString i] := by
  rw [numbered, List.map_map, List.zipIdx_eq_zip_range', ← List.range_eq_range']
  show List.map ((fun i => [name, toString i]) ∘ Prod.snd) _ = _
  have hlength : (List.range nodes.length).length ≤ nodes.length := Nat.le_of_eq List.length_range
  rw [← List.map_map, List.map_snd_zip hlength]

theorem mem_numbered_map {α : Type} {name : String} {node : α → Node} {es : List α} {i : Nat} {e : α}
    (h : es[i]? = some e) : ([name, toString i], node e) ∈ numbered name (es.map node) :=
  mem_numbered.mpr ⟨i, by rw [List.getElem?_map, h]; rfl, rfl⟩

/-- A member of a list is led to by its number. -/
theorem exists_of_mem_numbered {α : Type} {name : String} {node : α → Node} {es : List α}
    {path : List String} {c : Node} (h : (path, c) ∈ numbered name (es.map node)) :
    ∃ (i : Nat) (e : α), es[i]? = some e ∧ path = [name, toString i] ∧ c = node e := by
  obtain ⟨i, hi, hpath⟩ := mem_numbered.mp h
  rw [List.getElem?_map] at hi
  obtain ⟨e, he, rfl⟩ := Option.map_eq_some_iff.mp hi
  exact ⟨i, e, he, hpath, rfl⟩

/-- A part that may be missing is led to by its name. -/
theorem exists_of_mem_part {α : Type} {name : String} {node : α → Node} {e? : Option α}
    {path : List String} {c : Node} (h : (path, c) ∈ e?.toList.map fun e => ([name], node e)) :
    ∃ e, e? = some e ∧ path = [name] ∧ c = node e := by
  obtain ⟨e, he, heq⟩ := List.mem_map.mp h
  obtain ⟨rfl, rfl⟩ := Prod.mk.inj heq
  exact ⟨e, Option.mem_toList.mp he, rfl, rfl⟩

theorem cases_of_mem_file {f : Syntax.File} {path : List String} {c : Node}
    (h : (path, c) ∈ (file f).children) :
    (∃ (i : Nat) (d : Declaration), f.declarations[i]? = some d ∧ path = ["usings", toString i] ∧
        c = declaration d) ∨
      ∃ (i : Nat) (t : Syntax.Target), f.targets[i]? = some t ∧ path = ["targets", toString i] ∧
        c = target t := by
  rcases List.mem_append.mp h with h | h
  · exact Or.inl (exists_of_mem_numbered h)
  · exact Or.inr (exists_of_mem_numbered h)

theorem cases_of_mem_annotation {a : Annotation} {path : List String} {c : Node}
    (h : (path, c) ∈ (Node.annotation a).children) :
    (∃ q, a.qualifier = some q ∧ path = ["qualifier"] ∧ c = qualifier q) ∨
      ∃ v, a.value = some v ∧ path = ["value"] ∧ c = ofValue v := by
  rcases List.mem_append.mp h with h | h
  · exact Or.inl (exists_of_mem_part h)
  · exact Or.inr (exists_of_mem_part h)

theorem target_mem_children {f : Syntax.File} {i : Nat} {t : Syntax.Target}
    (h : f.targets[i]? = some t) : (["targets", toString i], target t) ∈ (file f).children :=
  List.mem_append_right _ (mem_numbered_map h)

theorem assignment_mem_children {t : Syntax.Target} {i : Nat} {a : Syntax.Assignment}
    (h : t.assignments[i]? = some a) :
    (["assignments", toString i], ofAssignment a) ∈ (target t).children :=
  mem_numbered_map h

theorem eq_of_mem_numbered {name : String} {nodes : List Node} {path : List String} {n m : Node}
    (hn : (path, n) ∈ numbered name nodes) (hm : (path, m) ∈ numbered name nodes) : n = m := by
  obtain ⟨i, hi, rfl⟩ := mem_numbered.mp hn
  obtain ⟨j, hj, hpath⟩ := mem_numbered.mp hm
  have hij := Text.eq_of_toString (List.cons.inj (List.cons.inj hpath).2).1
  rw [← hij, hi] at hj
  exact Option.some.inj hj

/-- The segments lead to one child. -/
theorem eq_of_mem_children {n c d : Node} {path : List String} (hc : (path, c) ∈ n.children)
    (hd : (path, d) ∈ n.children) : c = d := by
  cases n with
  | file f =>
      rcases List.mem_append.mp hc with hc | hc <;> rcases List.mem_append.mp hd with hd | hd
      · exact eq_of_mem_numbered hc hd
      · obtain ⟨i, _, rfl⟩ := mem_numbered.mp hc
        obtain ⟨j, _, hpath⟩ := mem_numbered.mp hd
        exact absurd (List.cons.inj hpath).1 (by decide)
      · obtain ⟨i, _, rfl⟩ := mem_numbered.mp hc
        obtain ⟨j, _, hpath⟩ := mem_numbered.mp hd
        exact absurd (List.cons.inj hpath).1 (by decide)
      · exact eq_of_mem_numbered hc hd
  | annotation a => grind [children]
  | property p => grind [children]
  | group g => grind [children]
  | target t => exact eq_of_mem_numbered hc hd
  | groupItems i => exact eq_of_mem_numbered hc hd
  | record r => exact eq_of_mem_numbered hc hd
  | collection c => exact eq_of_mem_numbered hc hd
  | declaration d => exact absurd hc List.not_mem_nil
  | primitive p => exact absurd hc List.not_mem_nil
  | qualifier q => exact absurd hc List.not_mem_nil

theorem length_of_mem_numbered {name : String} {nodes : List Node} :
    ∀ e ∈ numbered name nodes, e.1.length = 2 := by
  rintro ⟨path, c⟩ h
  obtain ⟨i, _, rfl⟩ := mem_numbered.mp h
  rfl

/-- All children of a node are led to by a name, or all by a name and a number. -/
theorem length_of_mem_children (n : Node) :
    (∀ e ∈ n.children, e.1.length = 2) ∨ ∀ e ∈ n.children, e.1.length = 1 := by
  cases n with
  | file f =>
      exact Or.inl (List.forall_mem_append.mpr ⟨length_of_mem_numbered, length_of_mem_numbered⟩)
  | annotation a => exact Or.inr (by grind [children])
  | property p => exact Or.inr (by grind [children])
  | group g => exact Or.inr (by grind [children])
  | target t => exact Or.inl length_of_mem_numbered
  | groupItems i => exact Or.inl length_of_mem_numbered
  | record r => exact Or.inl length_of_mem_numbered
  | collection c => exact Or.inl length_of_mem_numbered
  | declaration d => exact Or.inl fun e he => absurd he List.not_mem_nil
  | primitive p => exact Or.inl fun e he => absurd he List.not_mem_nil
  | qualifier q => exact Or.inl fun e he => absurd he List.not_mem_nil

theorem length_eq_of_mem_children {n : Node} {c d : List String × Node} (hc : c ∈ n.children)
    (hd : d ∈ n.children) : c.1.length = d.1.length := by
  rcases length_of_mem_children n with hlength | hlength <;> rw [hlength c hc, hlength d hd]

theorem child?_of_mem {n c : Node} {path : List String} (h : (path, c) ∈ n.children) :
    n.child? path = some c := by
  have hsome : (n.child? path).isSome = true := by
    rw [child?, Option.isSome_map, List.find?_isSome]
    exact ⟨(path, c), h, beq_self_eq_true path⟩
  obtain ⟨d, hd⟩ := Option.isSome_iff_exists.mp hsome
  rw [hd, eq_of_mem_children h (mem_children_of_child? hd)]

/-- The segments in front of the rest of a path lead to the child. -/
theorem resolve?_of_mem_children {n c : Node} {path : List String} (h : (path, c) ∈ n.children)
    (rest : List String) : n.resolve? (path ++ rest) = c.resolve? rest := by
  rcases length_of_mem_children n with hlength | hlength
  · obtain ⟨s, t, rfl⟩ := List.length_eq_two.mp (hlength _ h)
    have hnone : n.child? [s] = none := by
      refine Option.eq_none_iff_forall_ne_some.mpr ?_
      intro d hd
      exact absurd (hlength _ (mem_children_of_child? hd)) (Nat.succ_ne_self 1).symm
    rw [List.cons_append, List.cons_append, List.nil_append, resolve?.eq_def]
    simp only [hnone, child?_of_mem h]
  · obtain ⟨s, rfl⟩ := List.length_eq_one_iff.mp (hlength _ h)
    rw [List.cons_append, List.nil_append, resolve?.eq_def]
    simp only [child?_of_mem h]

theorem resolve?_append {n m : Node} {path rest : List String} (h : n.resolve? path = some m) :
    n.resolve? (path ++ rest) = m.resolve? rest := by
  fun_induction resolve? n path with
  | case1 n => rw [List.nil_append, Option.some.inj h]
  | case2 n s path c hc ih =>
      rw [List.cons_append, resolve?.eq_def]
      simp only [hc]
      exact ih h
  | case3 => cases h
  | case4 n s t path hnone c hc ih =>
      rw [List.cons_append, List.cons_append, resolve?.eq_def]
      simp only [hnone, hc]
      exact ih h
  | case5 => cases h

end Syntax.Node

theorem Syntax.Record.getElem?_of_property? {r : Record} {name : String} {i : Nat}
    {p : Property} (h : r.property? name = some (i, p)) :
    r.entries[i]? = some (.property p) ∧ p.name.text = name := by
  obtain ⟨⟨entry, j⟩, hmem, hentry⟩ := List.exists_of_findSome?_eq_some h
  cases entry with
  | embedded a => cases hentry
  | property q =>
      simp only at hentry
      split at hentry
      · next hname =>
        obtain ⟨rfl, rfl⟩ := Prod.mk.inj (Option.some.inj hentry)
        exact ⟨List.mem_zipIdx_iff_getElem?.mp hmem, beq_iff_eq.mp hname⟩
      · cases hentry

/-! ## Walks -/

namespace Tree

open Syntax (Node)

/-- The element is where a number leads among the content of `e`. -/
def Addressed (e c : Element) : Prop := ∃ i : Nat, i < Text.wordBound ∧ e.content[i]? = some (.element c)

/-- The elements lead down from `e`, each among the content of the one before. -/
def Descends : Element → List Element → Prop
  | _, [] => True
  | e, c :: cs => Addressed e c ∧ Descends c cs

namespace View

/-- A node with a place of its own in the source: a reference, a target or an element. -/
def isPlaced : View → Bool
  | reference _ | target _ | element _ => true
  | _ => false

theorem number?_lt {key : String} {i : Nat} (h : Text.number? key = some i) : i < Text.wordBound := by
  simp only [Text.number?, Option.ite_none_left_eq_some, Option.ite_none_right_eq_some,
    Option.some.injEq] at h
  exact h.2.2 ▸ h.2.1

theorem child?_element {e : Element} {name key : String} {w : View}
    (h : (element e).child? name key = some w) :
    (∃ c, w = element c ∧ Addressed e c) ∨ (∃ t, w = text t e) ∨ ∃ a, w = attr a e := by
  rw [child?.eq_def] at h
  split at h
  · next heq => cases heq
  · next heq => cases heq
  · next heq => cases heq
  · next heq =>
    obtain rfl := View.element.inj heq
    obtain ⟨i, hi, hget⟩ := Option.bind_eq_some_iff.mp h
    obtain ⟨node, hnode, rfl⟩ := Option.map_eq_some_iff.mp hget
    cases node with
    | element c => exact Or.inl ⟨c, rfl, i, number?_lt hi, hnode⟩
    | text t => exact Or.inr (Or.inl ⟨t, rfl⟩)
  · next heq =>
    obtain rfl := View.element.inj heq
    obtain ⟨a, _, rfl⟩ := Option.map_eq_some_iff.mp h
    exact Or.inr (Or.inr ⟨a, rfl⟩)
  · cases h

theorem child?_file {f : File} {name key : String} {w : View}
    (h : (file f).child? name key = some w) :
    (∃ r ∈ f.references, w = reference r) ∨ ∃ t ∈ f.targets, w = target t := by
  rw [child?.eq_def] at h
  split at h
  · next heq =>
    obtain rfl := View.file.inj heq
    obtain ⟨i, _, hget⟩ := Option.bind_eq_some_iff.mp h
    obtain ⟨t, ht, rfl⟩ := Option.map_eq_some_iff.mp hget
    exact Or.inr ⟨t, List.mem_of_getElem? ht, rfl⟩
  · next heq =>
    obtain rfl := View.file.inj heq
    obtain ⟨i, _, hget⟩ := Option.bind_eq_some_iff.mp h
    obtain ⟨r, hr, rfl⟩ := Option.map_eq_some_iff.mp hget
    exact Or.inl ⟨r, List.mem_of_getElem? hr, rfl⟩
  · next heq => cases heq
  · next heq => cases heq
  · next heq => cases heq
  · cases h

theorem child?_target {t : Target} {name key : String} {w : View}
    (h : (target t).child? name key = some w) : ∃ e ∈ t.terms, w = element e := by
  rw [child?.eq_def] at h
  split at h
  · next heq => cases heq
  · next heq => cases heq
  · next heq =>
    obtain rfl := View.target.inj heq
    obtain ⟨i, _, hget⟩ := Option.bind_eq_some_iff.mp h
    obtain ⟨e, he, rfl⟩ := Option.map_eq_some_iff.mp hget
    exact ⟨e, List.mem_of_getElem? he, rfl⟩
  · next heq => cases heq
  · next heq => cases heq
  · cases h

theorem child?_targets (f : File) (key : String) :
    (file f).child? "targets" key = (Text.number? key).bind fun i => f.targets[i]?.map .target := rfl

theorem child?_terms (t : Target) (key : String) :
    (target t).child? "terms" key = (Text.number? key).bind fun i => t.terms[i]?.map .element := rfl

theorem child?_content (e : Element) (key : String) :
    (element e).child? "content" key =
      (Text.number? key).bind fun i => e.content[i]?.map (ofNode e) := rfl

theorem child?_reference (r : Reference) (name key : String) :
    (reference r).child? name key = none := rfl

theorem child?_text (t : TextNode) (e : Element) (name key : String) :
    (text t e).child? name key = none := rfl

theorem child?_attr (a : Attribute) (e : Element) (name key : String) :
    (attr a e).child? name key = none := rfl

theorem walkFrom?_cons {v w : View} : ∀ {path : List String} {views : List View},
    v.walkFrom? path = some (w :: views) →
      ∃ name key rest, v.child? name key = some w ∧ w.walkFrom? rest = some views
  | [], _, h => by cases h
  | [_], _, h => by cases h
  | name :: key :: rest, views, h => by
      rw [walkFrom?] at h
      split at h
      · next w' hchild =>
        obtain ⟨views', hrest, heq⟩ := Option.map_eq_some_iff.mp h
        obtain ⟨rfl, rfl⟩ := List.cons.inj heq
        exact ⟨name, key, rest, hchild, hrest⟩
      · cases h

/-- Without children a walk ends where it starts. -/
theorem walkFrom?_of_leaf {v : View} (hv : ∀ name key, v.child? name key = none)
    {path : List String} : ∀ {views : List View}, v.walkFrom? path = some views → views = []
  | [], _ => rfl
  | _ :: _, h => by
      obtain ⟨name, key, _, hchild, _⟩ := walkFrom?_cons h
      rw [hv name key] at hchild
      cases hchild

/-- A walk from an element to another one passes through elements only. -/
theorem walkFrom?_element : ∀ {views : List View} {path : List String} {e : Element},
    (element e).walkFrom? path = some views → (∀ w, views.getLast? = some w → w.isPlaced = true) →
      ∃ es, views = es.map element ∧ Descends e es
  | [], _, _, _, _ => ⟨[], rfl, trivial⟩
  | w :: views, path, e, h, hlast => by
      obtain ⟨name, key, rest, hchild, hrest⟩ := walkFrom?_cons h
      rcases child?_element hchild with ⟨c, rfl, haddressed⟩ | ⟨t, rfl⟩ | ⟨a, rfl⟩
      · have hlastRest : ∀ w, views.getLast? = some w → w.isPlaced = true := by
          intro w hw
          refine hlast w ?_
          rw [List.getLast?_cons, hw, Option.getD_some]
        obtain ⟨es, rfl, hes⟩ := walkFrom?_element hrest hlastRest
        exact ⟨c :: es, rfl, haddressed, hes⟩
      · obtain rfl := walkFrom?_of_leaf (child?_text t e) hrest
        cases hlast _ rfl
      · obtain rfl := walkFrom?_of_leaf (child?_attr a e) hrest
        cases hlast _ rfl

theorem exists_walkFrom? : ∀ {es : List Element} {e : Element}, Descends e es →
    ∃ path, (element e).walkFrom? path = some (es.map element)
  | [], _, _ => ⟨[], rfl⟩
  | c :: cs, e, ⟨⟨i, hi, hget⟩, hcs⟩ => by
      obtain ⟨path, hpath⟩ := exists_walkFrom? hcs
      refine ⟨"content" :: toString i :: path, ?_⟩
      have hchild : (element e).child? "content" (toString i) = some (element c) := by
        rw [child?_content, Text.number?_toString, if_pos hi, Option.bind_some, hget]
        rfl
      rw [walkFrom?, hchild]
      simp only [hpath]
      rfl

end View

namespace File

variable {f : File}

theorem walk?_cases {p : Pointer} {views : List View} {v : View} (h : f.walk? p = some views)
    (hlast : views.getLast? = some v) (hv : v.isPlaced = true) :
    (∃ r ∈ f.references, views = [.file f, .reference r]) ∨
      (∃ t ∈ f.targets, views = [.file f, .target t]) ∨
      ∃ t ∈ f.targets, ∃ e ∈ t.terms, ∃ es, Descends e es ∧
        views = .file f :: .target t :: (e :: es).map .element := by
  obtain ⟨rest, hrest, rfl⟩ := Option.map_eq_some_iff.mp h
  rcases rest with _ | ⟨w, rest⟩
  · obtain rfl := Option.some.inj hlast
    cases hv
  obtain ⟨_, _, path, hchild, hrest⟩ := View.walkFrom?_cons hrest
  rcases View.child?_file hchild with ⟨r, hr, rfl⟩ | ⟨t, ht, rfl⟩
  · obtain rfl := View.walkFrom?_of_leaf (View.child?_reference r) hrest
    exact Or.inl ⟨r, hr, rfl⟩
  rcases rest with _ | ⟨w, rest⟩
  · exact Or.inr (Or.inl ⟨t, ht, rfl⟩)
  obtain ⟨_, _, path', hchild', hrest'⟩ := View.walkFrom?_cons hrest
  obtain ⟨e, he, rfl⟩ := View.child?_target hchild'
  have hplaced : ∀ w, rest.getLast? = some w → w.isPlaced = true := by
    intro w hw
    rw [List.getLast?_cons, List.getLast?_cons, List.getLast?_cons, hw] at hlast
    obtain rfl := Option.some.inj hlast
    exact hv
  obtain ⟨es, rfl, hes⟩ := View.walkFrom?_element hrest' hplaced
  exact Or.inr (Or.inr ⟨t, ht, e, he, es, hes, rfl⟩)

theorem exists_walk? {i j : Nat} {t : Target} {e : Element} {es : List Element} (hi : i < Text.wordBound)
    (ht : f.targets[i]? = some t) (hj : j < Text.wordBound) (he : t.terms[j]? = some e)
    (hes : Descends e es) :
    ∃ p, f.walk? p = some (.file f :: .target t :: (e :: es).map .element) := by
  obtain ⟨path, hpath⟩ := View.exists_walkFrom? hes
  have htarget : (View.file f).child? "targets" (toString i) = some (.target t) := by
    rw [View.child?_targets, Text.number?_toString, if_pos hi, Option.bind_some, ht]
    rfl
  have hterm : (View.target t).child? "terms" (toString j) = some (.element e) := by
    rw [View.child?_terms, Text.number?_toString, if_pos hj, Option.bind_some, he]
    rfl
  refine ⟨⟨"targets" :: toString i :: "terms" :: toString j :: path⟩, ?_⟩
  rw [walk?, View.walkFrom?, htarget]
  simp only [View.walkFrom?, hterm, hpath]
  rfl

end File

end Tree

/-! ## Searches -/

open Syntax (Node)
open AnnotationEdit.Tree (View Element ElementKind)

namespace Locate

/-- The pointer of the search leads to its node. -/
def State.Resolves (f : Syntax.File) (s : State) : Prop := f.resolve? s.pointer = some s.node

/-- The search stands, in the file, at a node around the range that is looked for. -/
def Goal.Reached (g : Goal) (f : Syntax.File) (s : State) : Prop :=
  s.Resolves f ∧ s.node.range.contains g.range = true

/-- What holds of a result, if there is one. -/
def Yields {α : Type} (P : α → Prop) (r : Except Error α) : Prop := ∀ a, r = .ok a → P a

namespace Yields

variable {α β : Type} {P : α → Prop} {Q : β → Prop}

theorem error {e : Error} : Yields P (.error e) := by
  intro _ h
  cases h

theorem ok {a : α} (h : P a) : Yields P (.ok a) := by
  intro b hb
  rwa [← Except.ok.inj hb]

theorem imp {Q : α → Prop} {r : Except Error α} (hr : Yields P r) (h : ∀ a, P a → Q a) :
    Yields Q r := fun a ha => h a (hr a ha)

theorem bind {r : Except Error α} {k : α → Except Error β} (hr : Yields P r)
    (hk : ∀ a, P a → Yields Q (k a)) : Yields Q (r >>= k) := by
  cases r with
  | error e => exact .error
  | ok a => exact hk a (hr a rfl)

end Yields

/-- A check that looks into a result shows that there is one. -/
theorem exists_ok_of_any {ε α : Type} {r : Except ε α} {check : α → Bool}
    (h : r.toOption.any check = true) : ∃ a, r = .ok a ∧ check a = true := by
  cases r with
  | error e => cases h
  | ok a => exact ⟨a, rfl, h⟩

theorem resolves_child {f : Syntax.File} {p : Pointer} {n c : Node} {path : List String}
    (hn : f.resolve? p = some n) (hc : (path, c) ∈ n.children) :
    f.resolve? (p.append path) = some c := by
  have h := @Node.resolve?_append _ _ _ path hn
  rw [← List.append_nil path, Node.resolve?_of_mem_children hc, List.append_nil] at h
  exact h

namespace Goal

variable {g : Goal} {f : Syntax.File}

theorem enter_reached {accept : Node → Bool} {what : String} {s : State} (hs : s.Resolves f) :
    Yields (g.Reached f) (g.enter accept what s) := by
  intro t ht
  rw [enter] at ht
  split at ht
  · next path c hfind =>
    obtain rfl := Except.ok.inj ht
    have hcontains := List.find?_some hfind
    rw [Bool.and_eq_true] at hcontains
    exact ⟨resolves_child hs (List.mem_of_find?_eq_some hfind), hcontains.2⟩
  · cases ht

theorem enterValue_reached {accept : Node → Bool} {s : State} (hs : s.Resolves f) :
    Yields (g.Reached f) (g.enterValue accept s) := by
  rw [enterValue]
  split
  · exact enter_reached hs
  · exact enter_reached hs
  · exact .error

theorem unwrapValue_reached {s : State} (hs : g.Reached f s) :
    g.Reached f (g.unwrapValue s) := by
  rw [unwrapValue]
  split
  · next r hr =>
    split
    · next i range name colon v hentry =>
      split
      · next hcontains =>
        obtain ⟨hentry, _⟩ := r.getElem?_of_property? hentry
        have hproperty : (["properties", toString i], Node.property ⟨range, name, colon, some v⟩) ∈
            (Node.record r).children := Node.mem_numbered_map hentry
        have hvalue : (["value"], Node.ofValue v) ∈
            (Node.property ⟨range, name, colon, some v⟩).children := List.mem_singleton_self _
        have h := resolves_child (resolves_child (hs.1.trans (congrArg some hr)) hproperty) hvalue
        refine ⟨?_, ?_⟩
        · rwa [Pointer.append, Pointer.append, List.append_assoc] at h
        · cases v <;> exact hcontains
      · exact hs
    · exact hs
  · exact hs

theorem enterEmbedded_reached {e : Element} {s : State} (hs : s.Resolves f) :
    Yields (g.Reached f) (g.enterEmbedded e s) := by
  refine Yields.bind (enter_reached hs) fun t ht => ?_
  split
  · exact .ok ht
  · exact .ok ht

theorem enterAssignment_reached {e : Element} {s : State} (hs : s.Resolves f) :
    Yields (g.Reached f) (g.enterAssignment e s) := by
  refine Yields.bind (enter_reached hs) fun t ht => ?_
  intro u hu
  simp only at hu
  split at hu
  · refine Yields.bind (enter_reached ht.1) (fun v hv => ?_) u hu
    exact Yields.bind (enter_reached hv.1) fun w hw => .ok hw
  · obtain rfl := Except.ok.inj hu
    exact ht

theorem enterProperty_reached {e : Element} {s : State} (hs : g.Reached f s) :
    Yields (g.Reached f) (g.enterProperty e s) := by
  rw [enterProperty]
  split
  · split
    · exact .ok hs
    · exact .error
  · refine Yields.bind (enter_reached hs.1) fun t ht => ?_
    split
    · exact .ok ht
    · exact .ok ht

theorem enterContent_reached {kind : ElementKind} {s : State} (hs : g.Reached f s) :
    Yields (g.Reached f) (g.enterContent kind s) := by
  rw [enterContent]
  split
  · exact Yields.bind (enterValue_reached hs.1) fun t ht => .ok (unwrapValue_reached ht)
  · split
    · exact .ok hs
    · exact .error

theorem enterElement_reached {parent : Option ElementKind} {e : Element} {s : State}
    (hs : g.Reached f s) : Yields (g.Reached f) (g.enterElement parent e s) := by
  rw [enterElement.eq_def]
  split
  · exact enterAssignment_reached hs.1
  · exact Yields.bind (enterValue_reached hs.1) fun t ht => enterEmbedded_reached ht.1
  · split
    · exact enterEmbedded_reached hs.1
    · exact .error
  · exact enterContent_reached hs
  · exact enterContent_reached hs
  · exact enterProperty_reached hs
  · exact enter_reached hs.1
  · exact .error

theorem step_reached {parent : View} {e : Element} {s : State} (hs : g.Reached f s) :
    Yields (g.Reached f) (g.step parent (.element e) s) := by
  have hclear : g.Reached f { s with collapsed := false } := hs
  cases parent with
  | target t => exact enterElement_reached hclear
  | element p => exact enterElement_reached hclear
  | _ => exact .error

theorem step_reference_reached {parent : View} {r : Tree.Reference} {s : State}
    (hs : s.Resolves f) : Yields (g.Reached f) (g.step parent (.reference r) s) := by
  have hclear : State.Resolves f { s with collapsed := false } := hs
  rw [step]
  exact enter_reached hclear

theorem step_target_reached {parent : View} {t : Tree.Target} {s : State}
    (hs : s.Resolves f) : Yields (g.Reached f) (g.step parent (.target t) s) := by
  have hclear : State.Resolves f { s with collapsed := false } := hs
  rw [step]
  exact enter_reached hclear

/-- A search along elements stays around the range. -/
theorem steps_reached : ∀ {es : List Element} {parent : View} {s : State}, g.Reached f s →
    Yields (g.Reached f) (g.steps parent (es.map .element) s)
  | [], _, _, hs => .ok hs
  | c :: cs, parent, s, hs => by
      rw [List.map_cons, steps]
      split
      · next t ht => exact steps_reached (step_reached hs t ht)
      · exact .error

/-- The start of a search. -/
def start (file : Syntax.File) : State := ⟨.file file, .root, [], false, false⟩

theorem start_resolves (file : Syntax.File) : (start file).Resolves file := rfl

end Goal

end Locate

open Locate (Goal State Yields)

section Locate

variable {p : Pointer} {tree : Tree.File} {file : Syntax.File} {vocabulary : Vocabulary}

/-- A search along the nodes of a walk. -/
theorem locate_eq {first second last : View} {rest : List View} {range : Range}
    (h : tree.walk? p = some (first :: second :: rest))
    (hlast : (second :: rest).getLast? = some last) (hrange : last.range = some range) :
    locate p tree file vocabulary =
      (Goal.steps ⟨p, vocabulary, range⟩ first (second :: rest) (Goal.start file)).map fun s =>
        ⟨s.pointer, s.flattened, s.collapsed⟩ := by
  rw [locate, h]
  simp only [hlast, Option.bind_some, hrange]
  rfl

/-- Where the search of a node with a place of its own returns, it returns a pointer to a node
around it. -/
theorem locate_sound {l : Located} {v : View} (h : locate p tree file vocabulary = .ok l)
    (hv : tree.resolve? p = some v) (hplaced : v.isPlaced = true) :
    ∃ node range, file.resolve? l.pointer = some node ∧ v.range = some range ∧
      node.range.contains range = true := by
  obtain ⟨views, hviews, hlast⟩ := Option.bind_eq_some_iff.mp hv
  have hrest : ∃ first second rest, views = first :: second :: rest ∧ ∀ g : Goal,
      Yields (g.Reached file) (g.steps first (second :: rest) (Goal.start file)) := by
    rcases tree.walk?_cases hviews hlast hplaced with ⟨r, _, rfl⟩ | ⟨t, _, rfl⟩ |
      ⟨t, _, e, _, es, _, rfl⟩
    · refine ⟨_, _, _, rfl, fun g => ?_⟩
      rw [Goal.steps]
      split
      · next s hs => exact .ok (Goal.step_reference_reached (Goal.start_resolves file) s hs)
      · exact .error
    · refine ⟨_, _, _, rfl, fun g => ?_⟩
      rw [Goal.steps]
      split
      · next s hs => exact .ok (Goal.step_target_reached (Goal.start_resolves file) s hs)
      · exact .error
    · refine ⟨_, _, _, rfl, fun g => ?_⟩
      rw [Goal.steps]
      split
      · next s hs =>
        exact Goal.steps_reached (Goal.step_target_reached (Goal.start_resolves file) s hs)
      · exact .error
  obtain ⟨first, second, rest, rfl, hsteps⟩ := hrest
  rw [List.getLast?_cons_cons] at hlast
  cases hrange : v.range with
  | none =>
      rw [locate, hviews] at h
      simp only [hlast, Option.bind_some, hrange] at h
      cases h
  | some range =>
      rw [locate_eq hviews hlast hrange] at h
      cases hs : Goal.steps ⟨p, vocabulary, range⟩ first (second :: rest) (Goal.start file) with
      | error e =>
          rw [hs] at h
          cases h
      | ok s =>
          rw [hs] at h
          obtain rfl := Except.ok.inj h
          obtain ⟨hresolves, hcontains⟩ := hsteps _ s hs
          exact ⟨s.node, range, hresolves, rfl, hcontains⟩

end Locate

end AnnotationEdit

import AnnotationEdit.Proofs.Batch.Containers
import AnnotationEdit.Proofs.Syntax.Renewal

/-!
# Routes through the concrete tree

A route says at every node which of its children comes next, by its place in the list of children.
A pointer resolves exactly when it is made up of the segments along a route, and there is only one
such route, so it makes no difference that a step is taken to the first child that fits
(`Node.resolve?_iff_route`). The node around another one is found by taking off the segments of the
last step: two if the pointer ends in a number, and else one (`File.exists_parent`).
-/

namespace AnnotationEdit

open Syntax (Node)

namespace Syntax

namespace Node

variable {n m c d : Node} {path first rest : List String} {route : List Nat} {i j : Nat}

/-! ## Following a route -/

/-- The segments along a route and the node at its end. -/
def follow? (n : Node) : List Nat → Option (List String × Node)
  | [] => some ([], n)
  | i :: route => do
    let (first, c) ← n.children[i]?
    let (rest, m) ← c.follow? route
    return (first ++ rest, m)

theorem follow?_cons_eq_some : n.follow? (i :: route) = some (path, m) ↔
    ∃ first rest c, n.children[i]? = some (first, c) ∧ c.follow? route = some (rest, m) ∧
      path = first ++ rest := by
  simp only [follow?, Option.bind_eq_bind, Option.bind_eq_some_iff, Prod.exists, Option.pure_def,
    Option.some.injEq, Prod.mk.injEq]
  constructor
  · rintro ⟨first, c, hc, rest, m, hm, rfl, rfl⟩
    exact ⟨first, rest, c, hc, hm, rfl⟩
  · rintro ⟨first, rest, c, hc, hm, rfl⟩
    exact ⟨first, c, hc, rest, m, hm, rfl, rfl⟩

/-- The segments along a route resolve to the node at its end. -/
theorem resolve?_of_follow? (h : n.follow? route = some (path, m)) : n.resolve? path = some m := by
  induction route generalizing n path with
  | nil =>
      obtain ⟨rfl, rfl⟩ := Prod.mk.inj (Option.some.inj h)
      rfl
  | cons i route ih =>
      obtain ⟨first, rest, c, hc, hm, rfl⟩ := follow?_cons_eq_some.mp h
      rw [resolve?_of_mem_children (List.mem_of_getElem? hc)]
      exact ih hm

/-- What resolves is at the end of a route. By induction along the steps of the resolution, each of
which takes one child. -/
theorem exists_follow? (h : n.resolve? path = some m) :
    ∃ route, n.follow? route = some (path, m) := by
  fun_induction resolve? n path with
  | case1 n => exact ⟨[], by rw [follow?, Option.some.inj h]⟩
  | case2 n s c rest hc ih =>
      obtain ⟨i, hi⟩ := List.mem_iff_getElem?.mp (mem_children_of_child? hc)
      obtain ⟨route, hroute⟩ := ih h
      exact ⟨i :: route, follow?_cons_eq_some.mpr ⟨[s], rest, c, hi, hroute, rfl⟩⟩
  | case3 => cases h
  | case4 n s t rest _ c hc ih =>
      obtain ⟨i, hi⟩ := List.mem_iff_getElem?.mp (mem_children_of_child? hc)
      obtain ⟨route, hroute⟩ := ih h
      exact ⟨i :: route, follow?_cons_eq_some.mpr ⟨[s, t], rest, c, hi, hroute, rfl⟩⟩
  | case5 => cases h

/-! ## One route only -/

theorem nodup_numbered (name : String) (nodes : List Node) :
    ((numbered name nodes).map (·.1)).Nodup := by
  rw [map_fst_numbered]
  exact List.nodup_range.map fun i j hij =>
    Text.eq_of_toString (List.cons.inj (List.cons.inj hij).2).1

/-- The segments tell the children of a node apart. -/
theorem nodup_children (n : Node) : (n.children.map (·.1)).Nodup := by
  cases n with
  | file f =>
      rw [children, List.map_append, List.nodup_append]
      refine ⟨nodup_numbered _ _, nodup_numbered _ _, ?_⟩
      intro a ha b hb hab
      obtain ⟨⟨_, _⟩, hc, rfl⟩ := List.mem_map.mp ha
      obtain ⟨⟨_, _⟩, hd, rfl⟩ := List.mem_map.mp hb
      obtain ⟨_, _, rfl⟩ := mem_numbered.mp hc
      obtain ⟨_, _, rfl⟩ := mem_numbered.mp hd
      exact absurd (List.cons.inj hab).1 (by decide)
  | annotation a =>
      obtain ⟨range, atSign, term, qualifier, colon, value, embedded⟩ := a
      cases qualifier <;> cases value <;> simp [children]
  | property p =>
      obtain ⟨range, name, colon, value⟩ := p
      cases value <;> simp [children]
  | group g => exact List.nodup_singleton _
  | target | groupItems | record | collection => exact nodup_numbered _ _
  | declaration | primitive | qualifier => exact List.nodup_nil

theorem eq_of_getElem?_children (hi : n.children[i]? = some (path, c))
    (hj : n.children[j]? = some (path, d)) : i = j := by
  have hlength : i < (n.children.map (·.1)).length := by
    rw [List.length_map]
    exact (List.getElem?_eq_some_iff.mp hi).1
  refine (List.getElem?_inj hlength n.nodup_children).mp ?_
  rw [List.getElem?_map, List.getElem?_map, hi, hj]
  rfl

/-- Segments lead along one route only. By induction on the route: the next child is known from the
segments in front, and the place of the child from its segments. -/
theorem route_unique {route' : List Nat} (h : n.follow? route = some (path, m))
    (h' : n.follow? route' = some (path, d)) : route = route' := by
  induction route generalizing n path route' with
  | nil =>
      obtain ⟨rfl, _⟩ := Prod.mk.inj (Option.some.inj h)
      cases route' with
      | nil => rfl
      | cons j route' =>
          obtain ⟨first, rest, c, hc, _, hnil⟩ := follow?_cons_eq_some.mp h'
          have hempty := (List.append_eq_nil_iff.mp hnil.symm).1
          exact absurd hempty (ne_nil_of_mem_children (List.mem_of_getElem? hc))
  | cons i route ih =>
      obtain ⟨first, rest, c, hc, hm, rfl⟩ := follow?_cons_eq_some.mp h
      cases route' with
      | nil =>
          have hempty := (Prod.mk.inj (Option.some.inj h')).1.symm
          exact absurd (List.append_eq_nil_iff.mp hempty).1
            (ne_nil_of_mem_children (List.mem_of_getElem? hc))
      | cons j route' =>
          obtain ⟨first', rest', c', hc', hd, heq⟩ := follow?_cons_eq_some.mp h'
          have hmem := List.mem_of_getElem? hc
          have hmem' := List.mem_of_getElem? hc'
          obtain ⟨rfl, rfl⟩ := append_inj_of_mem_children hmem hmem' heq
          obtain rfl := eq_of_getElem?_children hc hc'
          obtain rfl := eq_of_mem_children hmem hmem'
          rw [ih hm hd]

theorem resolve?_iff_route :
    n.resolve? path = some m ↔ ∃! route, n.follow? route = some (path, m) := by
  constructor
  · intro h
    obtain ⟨route, hroute⟩ := exists_follow? h
    exact ⟨route, hroute, fun route' hroute' => route_unique hroute' hroute⟩
  · rintro ⟨route, hroute, _⟩
    exact resolve?_of_follow? hroute

/-! ## The last step -/

/-- A step takes one name that is no number, or a name and a number below that of the children. -/
theorem step_cases (h : (path, c) ∈ n.children) :
    (∃ name, path = [name] ∧ Text.number? name = none) ∨
      ∃ name i, path = [name, toString i] ∧ i < n.children.length := by
  have hnumbered : ∀ {name : String} {nodes : List Node}, (path, c) ∈ numbered name nodes →
      ∃ i, path = [name, toString i] ∧ i < (numbered name nodes).length := by
    intro name nodes hmem
    obtain ⟨i, hi, hpath⟩ := mem_numbered.mp hmem
    rw [length_numbered]
    exact ⟨i, hpath, (List.getElem?_eq_some_iff.mp hi).1⟩
  cases n with
  | file f =>
      rw [children, List.length_append]
      rcases List.mem_append.mp h with h | h
      · obtain ⟨i, hpath, hi⟩ := hnumbered h
        exact Or.inr ⟨_, i, hpath, by omega⟩
      · obtain ⟨i, hpath, hi⟩ := hnumbered h
        exact Or.inr ⟨_, i, hpath, by omega⟩
  | target | groupItems | record | collection => exact Or.inr ⟨_, hnumbered h⟩
  | annotation a =>
      rcases cases_of_mem_annotation h with ⟨_, _, hpath, _⟩ | ⟨_, _, hpath, _⟩
      · exact Or.inl ⟨_, hpath, by decide⟩
      · exact Or.inl ⟨_, hpath, by decide⟩
  | group g => exact Or.inl ⟨_, (Prod.mk.inj (List.mem_singleton.mp h)).1, by decide⟩
  | property p =>
      obtain ⟨_, _, hpath, _⟩ := exists_of_mem_part h
      exact Or.inl ⟨_, hpath, by decide⟩
  | declaration | primitive | qualifier => exact absurd h List.not_mem_nil

end Node

namespace File

/-- No node of the file has so many children that their numbers exceed 64 bits, as none in memory
has. -/
def ChildrenFit (f : File) : Prop :=
  ∀ p n, f.resolve? p = some n → n.children.length ≤ Text.wordBound

/-- The node around another one is where its pointer leads without the segments of the last step,
which are two if the last of them is a number, and else one. -/
theorem exists_parent {f : File} (hfit : f.ChildrenFit) {p : Pointer} {n : Node}
    (hn : f.resolve? p = some n) (hp : p ≠ .root) :
    ∃ q parent path, (if p.lastIndex?.isSome then p.ancestor? 2 else p.parent?) = some q ∧
      f.resolve? q = some parent ∧ (path, n) ∈ parent.children ∧ p = q.append path := by
  rcases Node.resolve?_eq_some_cases hn with ⟨hroot, _⟩ | ⟨front, last, parent, hsegments, hfront,
    hlast⟩
  · cases p
    exact absurd (congrArg Pointer.mk hroot) hp
  · obtain rfl : p = (Pointer.mk front).append last := by
      cases p
      exact congrArg Pointer.mk hsegments
    refine ⟨⟨front⟩, parent, last, ?_, hfront, hlast, rfl⟩
    rcases Node.step_cases hlast with ⟨name, rfl, hname⟩ | ⟨name, i, rfl, hi⟩
    · have hindex : ((Pointer.mk front).append [name]).lastIndex? = none := by
        rw [Pointer.lastIndex?, Pointer.last?_append (s := name) rfl, Option.bind_some, hname]
      rw [hindex, Option.isSome_none, if_neg Bool.false_ne_true]
      exact Pointer.ancestor?_append _ [name]
    · have hbound : i < Text.wordBound := Nat.lt_of_lt_of_le hi (hfit ⟨front⟩ parent hfront)
      rw [Pointer.lastIndex?_append_toString hbound, Option.isSome_some, if_pos rfl]
      exact Pointer.ancestor?_append _ [name, toString i]

end File

end Syntax

theorem Document.childrenFit {uri text : String} {c : Configuration} {d : Document}
    (h : parse uri text c = .ok d) (hlength : 2 * text.length ≤ Text.wordBound) :
    d.syntaxTree.ChildrenFit := by
  intro p n hn
  have hnumbered : ∀ {name : String} {nodes : List Node}, Node.numbered name nodes ⊆ n.children →
      (Node.numbered name nodes).length ≤ text.length := by
    intro name nodes hchildren
    rw [Node.length_numbered]
    exact length_le_of_numbered h hn hchildren
  have htwo : 2 ≤ Text.wordBound := by decide
  cases n with
  | file f =>
      have hdeclarations := hnumbered (List.subset_append_left _ _)
      have htargets := hnumbered (List.subset_append_right _ _)
      rw [Node.children, List.length_append]
      omega
  | target | groupItems | record | collection =>
      have := hnumbered (List.Subset.refl _)
      rw [Node.children]
      omega
  | annotation a =>
      have hqualifier := a.qualifier.length_toList_le
      have hvalue := a.value.length_toList_le
      rw [Node.children, List.length_append, List.length_map, List.length_map]
      omega
  | property p =>
      have hvalue := p.value.length_toList_le
      rw [Node.children, List.length_map]
      omega
  | group g => exact Nat.le_trans (Nat.le_succ 1) htwo
  | declaration | primitive | qualifier => exact Nat.zero_le _

namespace Syntax.File

/-- The pointers that resolve are those made up of the segments along a route, each along one route
only; what a pointer leads to may be looked up in steps; and the node around another one is found by
taking off two segments if the last one is a number, and else one. -/
theorem resolve?_along_routes (f : File) :
    (∀ p n, f.resolve? p = some n ↔
      ∃! route, (Node.file f).follow? route = some (p.segments, n)) ∧
    (∀ p path n, f.resolve? p = some n → f.resolve? (p.append path) = n.resolve? path) ∧
    (f.ChildrenFit → ∀ p n, f.resolve? p = some n → p ≠ .root → ∃ q parent path,
      (if p.lastIndex?.isSome then p.ancestor? 2 else p.parent?) = some q ∧
        f.resolve? q = some parent ∧ (path, n) ∈ parent.children ∧ p = q.append path) :=
  ⟨fun _ _ => Node.resolve?_iff_route, fun _ _ _ h => Node.resolve?_append h,
    fun hfit _ _ hn hp => exists_parent hfit hn hp⟩

/-- The collection that an item of a group has as its value. -/
def collectionPointer : Pointer :=
  ⟨["targets", "0", "assignments", "0", "items", "items", "0", "value"]⟩

/-- A member of the collection: `items` leads to the braces, to what stands in them, and to the
members of a collection. -/
theorem resolve?_along_routes_items :
    ∃ d n, Document.parse "a.cds" "annotate E with @UI : \x7b A : [1] \x7d;" .default = .ok d ∧
      d.syntaxTree.resolve? (collectionPointer.append ["items", "0"]) = some n ∧
      (∃! route, (Node.file d.syntaxTree).follow? route =
        some (collectionPointer.segments ++ ["items", "0"], n)) ∧
      ∃ parent, d.syntaxTree.resolve? collectionPointer = some parent ∧
        parent.resolve? ["items", "0"] = some n ∧ (["items", "0"], n) ∈ parent.children := by
  have hchecks : ((Document.parse "a.cds" "annotate E with @UI : \x7b A : [1] \x7d;"
      .default).toOption.any fun d =>
        (d.syntaxTree.resolve? (collectionPointer.append ["items", "0"])).isSome) = true := by
    decide +kernel
  obtain ⟨d, hd, hmember⟩ := Locate.exists_ok_of_any hchecks
  obtain ⟨n, hn⟩ := Option.isSome_iff_exists.mp hmember
  obtain ⟨hroutes, hsteps, hparents⟩ := resolve?_along_routes d.syntaxTree
  obtain ⟨q, parent, path, hq, hparent, hmem, hpointer⟩ :=
    hparents (Document.childrenFit hd (by decide)) _ n hn (by decide)
  have hcut : (if (collectionPointer.append ["items", "0"]).lastIndex?.isSome
      then (collectionPointer.append ["items", "0"]).ancestor? 2
      else (collectionPointer.append ["items", "0"]).parent?) = some collectionPointer := by decide
  obtain rfl := Option.some.inj (hcut.symm.trans hq)
  obtain rfl : ["items", "0"] = path :=
    List.append_cancel_left (congrArg Pointer.segments hpointer)
  have hstep := hsteps collectionPointer ["items", "0"] parent hparent
  exact ⟨d, n, hd, hn, (hroutes _ _).mp hn, parent, hparent, hstep.symm.trans hn, hmem⟩

end Syntax.File

end AnnotationEdit

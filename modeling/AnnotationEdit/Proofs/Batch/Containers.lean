import AnnotationEdit.Proofs.Batch.Preparation
import AnnotationEdit.Proofs.Syntax.Pruning

/-!
# Containers and what they hold

A container is given up when everything that it holds is deleted. What a node holds is a list of
nodes with the segments that lead to them (`Node.held`), and this module says that the deletions
that count for a container are those of what it holds, and that as many of them as the container has
children are the deletions of all its children (`Emptied`).
-/

namespace AnnotationEdit

open Syntax (Node)

/-! ## What a container holds -/

/-- What must go before a node is empty, with the segments that lead to it: the members of a list,
the items of a group, the value of an annotation or property. A qualifier is not counted, and
collections are never emptied. -/
def Syntax.Node.held : Node → List (List String × Node)
  | .target t => (Node.target t).children
  | .groupItems i => (Node.groupItems i).children
  | .record r => (Node.record r).children
  | .group g => (Node.group g).children
  | .property p => (Node.property p).children
  | Node.annotation a => a.value.toList.map fun v => (["value"], .ofValue v)
  | _ => []

/-- What a node is deleted as. -/
def Syntax.Node.deletable? : Node → Option Deletable
  | .target _ => some .target
  | Node.annotation a =>
    some (if a.embedded then Deletable.embeddedAnnotation else Deletable.annotation)
  | .group _ => some .annotationGroup
  | .groupItems _ => some .annotationGroupItems
  | .record _ => some .record
  | .property _ => some .recordProperty
  | .collection _ => some .collection
  | .primitive _ => some .primitiveValue
  | .qualifier _ => some .qualifier
  | .file _ | .declaration _ => none

/-- The pointer leads to a node, and what is deleted there is what stands there. -/
def Operation.Matches (file : Syntax.File) (o : Operation) : Prop :=
  ∃ n, file.resolve? o.pointer = some n ∧
    ∀ what, o.action = .delete what → n.deletable? = some what

instance Operation.decidableMatches (file : Syntax.File) (o : Operation) :
    Decidable (o.Matches file) :=
  decidable_of_iff ((file.resolve? o.pointer).any (fun n => match o.action with
      | .delete what => n.deletable? == some what
      | _ => true) = true) <| by
    rw [Option.any_eq_true]
    refine exists_congr fun n => and_congr_right fun _ => ?_
    cases o.action with
    | delete what => simp only [beq_iff_eq, Action.delete.injEq, forall_eq']
    | _ => simp only [reduceCtorEq, false_implies, implies_true]

theorem Operation.Matches.placed {file : Syntax.File} {o : Operation} (h : o.Matches file) :
    o.Placed file := by
  obtain ⟨n, hn, hkind⟩ := h
  refine ⟨n, hn, ?_⟩
  intro what hwhat
  have hdeletable := hkind what hwhat
  constructor
  · rintro rfl
    cases n with
    | qualifier q => exact ⟨q, rfl⟩
    | annotation a =>
        rw [Node.deletable?] at hdeletable
        split at hdeletable <;> cases hdeletable
    | _ => cases hdeletable
  · rintro ⟨q, rfl⟩
    exact (Option.some.inj hdeletable).symm

/-- The lists of the file are short enough for their members to have numbers of 64 bits. -/
def Syntax.File.ListsFit (file : Syntax.File) : Prop :=
  ∀ p n k, file.resolve? p = some n → n.listLength? = some k → k ≤ Text.wordBound

namespace Syntax.Node

variable {n : Node}

theorem mem_children_of_mem_held {c : List String × Node} (h : c ∈ n.held) : c ∈ n.children := by
  cases n with
  | annotation a => exact List.mem_append_right _ h
  | target | groupItems | record | group | property => exact h
  | _ => exact absurd h List.not_mem_nil

/-- Containers hold all their children but qualifiers. -/
theorem held_of_mem_children (hn : n.held ≠ []) {path : List String} {c : Node}
    (hc : (path, c) ∈ n.children) : (path, c) ∈ n.held ∨ ∃ q, c = .qualifier q := by
  cases n with
  | annotation a =>
      rcases List.mem_append.mp hc with hc | hc
      · obtain ⟨q, _, _, rfl⟩ := exists_of_mem_part hc
        exact Or.inr ⟨q, rfl⟩
      · exact Or.inl hc
  | target | groupItems | record | group | property => exact Or.inl hc
  | _ => exact absurd rfl hn

/-- The name under which a container that is no list holds what it holds. -/
def heldName : Node → String
  | .group _ => "items"
  | _ => "value"

theorem number?_heldName (n : Node) : Text.number? n.heldName = none := by
  rw [heldName.eq_def]
  split
  · decide
  · decide

theorem exists_members {k : Nat} (h : n.listLength? = some k) :
    ∃ name nodes, n.children = numbered name nodes ∧ nodes.length = k := by
  cases n with
  | target | groupItems | record | collection =>
      refine ⟨_, _, rfl, ?_⟩
      simpa only [listLength?, memberRanges?, Option.map_some, List.length_map,
        Option.some.injEq] using h
  | _ => cases h

/-- A container is a list, or holds one thing under a name. -/
theorem held_cases (hn : n.held ≠ []) :
    (∃ name nodes, n.held = numbered name nodes ∧ n.listLength? = some nodes.length) ∨
      n.listLength? = none ∧ ∃ c, n.held = [([n.heldName], c)] := by
  cases n with
  | target t =>
      obtain ⟨name, nodes, hchildren, hlength⟩ := exists_members (n := target t) rfl
      exact Or.inl ⟨name, nodes, hchildren, congrArg some hlength.symm⟩
  | groupItems i =>
      obtain ⟨name, nodes, hchildren, hlength⟩ := exists_members (n := groupItems i) rfl
      exact Or.inl ⟨name, nodes, hchildren, congrArg some hlength.symm⟩
  | record r =>
      obtain ⟨name, nodes, hchildren, hlength⟩ := exists_members (n := record r) rfl
      exact Or.inl ⟨name, nodes, hchildren, congrArg some hlength.symm⟩
  | group g => exact Or.inr ⟨rfl, _, rfl⟩
  | property p =>
      obtain ⟨range, name, colon, value⟩ := p
      cases value with
      | none => exact absurd rfl hn
      | some v => exact Or.inr ⟨rfl, _, rfl⟩
  | annotation a =>
      obtain ⟨range, atSign, term, qualifier, colon, value, embedded⟩ := a
      cases value with
      | none => exact absurd rfl hn
      | some v => exact Or.inr ⟨rfl, _, rfl⟩
  | _ => exact absurd rfl hn

theorem childCount_eq (hn : n.held ≠ []) : Batch.childCount n = n.held.length := by
  cases n with
  | target | groupItems | record =>
      rw [held, children, length_numbered, List.length_map]
      exact List.length_map _
  | group g => rfl
  | property p =>
      obtain ⟨range, name, colon, value⟩ := p
      cases value <;> rfl
  | annotation a =>
      obtain ⟨range, atSign, term, qualifier, colon, value, embedded⟩ := a
      cases value <;> rfl
  | _ => exact absurd rfl hn

theorem emptiedKind?_eq (hn : n.held ≠ []) : Batch.emptiedKind? n = n.deletable? := by
  cases n with
  | target | groupItems | record | group | property | annotation => rfl
  | _ => exact absurd rfl hn

theorem exists_emptiedKind? (hn : n.held ≠ []) :
    ∃ kind, Batch.emptiedKind? n = some kind ∧ kind ≠ .qualifier := by
  cases n with
  | annotation a =>
      refine ⟨_, rfl, ?_⟩
      split <;> exact Deletable.noConfusion
  | target | groupItems | record | group | property => exact ⟨_, rfl, Deletable.noConfusion⟩
  | _ => exact absurd rfl hn

/-- The last segments tell apart what a container holds. -/
theorem nodup_keys (hn : n.held ≠ []) :
    (n.held.filterMap fun c => c.1.getLast?).Nodup := by
  rcases held_cases hn with ⟨name, nodes, hheld, _⟩ | ⟨_, c, hheld⟩
  · have hkeys : (numbered name nodes).filterMap (fun c => c.1.getLast?) =
        (List.range nodes.length).map toString := by
      show List.filterMap (List.getLast? ∘ fun c : List String × Node => c.1) _ = _
      rw [← List.filterMap_map, map_fst_numbered, List.filterMap_map]
      exact congrFun (List.filterMap_eq_map (f := toString)) _
    rw [hheld, hkeys]
    exact List.nodup_range.map fun _ _ => Text.eq_of_toString
  · rw [hheld]
    exact List.nodup_singleton n.heldName

theorem length_keys (hn : n.held ≠ []) :
    (n.held.filterMap fun c => c.1.getLast?).length = n.held.length := by
  rcases held_cases hn with ⟨name, nodes, hheld, _⟩ | ⟨_, c, hheld⟩
  · rw [hheld, numbered, List.filterMap_map]
    show (List.filterMap (some ∘ fun q : Node × Nat => toString q.2) _).length = _
    rw [List.filterMap_eq_map, List.length_map, List.length_map]
  · rw [hheld]
    rfl

/-- What a container holds is found by its last segment. -/
theorem eq_of_getLast? {c d : List String × Node} (hc : c ∈ n.held) (hd : d ∈ n.held)
    (h : c.1.getLast? = d.1.getLast?) : c.1 = d.1 := by
  obtain ⟨path, c⟩ := c
  obtain ⟨path', d⟩ := d
  rcases held_cases (List.ne_nil_of_mem hc) with ⟨name, nodes, hheld, _⟩ | ⟨_, b, hheld⟩
  · rw [hheld] at hc hd
    obtain ⟨i, _, rfl⟩ := mem_numbered.mp hc
    obtain ⟨j, _, rfl⟩ := mem_numbered.mp hd
    have hkey : toString i = toString j := Option.some.inj h
    exact congrArg (fun key => [name, key]) hkey
  · rw [hheld, List.mem_singleton] at hc hd
    rw [hc, hd]

/-- What is no list has its children under names. -/
theorem length_of_listLength? (hfile : ∀ f, n ≠ file f) (hn : n.listLength? = none) :
    ∀ c ∈ n.children, c.1.length = 1 := by
  cases n with
  | file f => exact absurd rfl (hfile f)
  | target | groupItems | record | collection => cases hn
  | _ => grind [children]

theorem ne_nil_of_mem_held {path : List String} {c : Node} (h : (path, c) ∈ n.held) :
    path ≠ [] := by
  rcases length_of_mem_children n with hlength | hlength
  all_goals
    rintro rfl
    cases hlength _ (mem_children_of_mem_held h)

theorem of_qualifier_mem_children {path : List String} {q : Identifier}
    (h : (path, qualifier q) ∈ n.children) : path = ["qualifier"] ∧ ∃ a, n = Node.annotation a := by
  cases holds_of_mem_children h with
  | qualifier a => exact ⟨rfl, a, rfl⟩
  | assignment _ _ a ha => cases a <;> cases ha
  | entry _ _ e he => cases e <;> cases he
  | annotationValue _ v hv | propertyValue _ v hv | member _ _ v hv => cases v <;> cases hv

end Syntax.Node

theorem Document.length_le_of_numbered {uri text : String} {c : Configuration} {d : Document}
    (h : parse uri text c = .ok d) {p : Pointer} {n : Node} (hn : d.syntaxTree.resolve? p = some n)
    {name : String} {nodes : List Node} (hchildren : Node.numbered name nodes ⊆ n.children) :
    nodes.length ≤ text.length := by
  refine Nat.le_of_not_lt fun hlt => ?_
  have hmem := hchildren (Node.mem_numbered.mpr ⟨_, List.getElem?_eq_getElem hlt, rfl⟩)
  obtain ⟨ts, hts, hwritten⟩ := exists_written h hn
  have hcode := Nat.le_trans hts.length_le (length_code_le h)
  have hstep := Node.step_of_mem_children hwritten hmem
  generalize hpath : [name, toString text.length] = path at hstep
  generalize nodes[text.length] = m at hstep
  cases hstep with
  | member _ i hi _ =>
      have hkey := Text.eq_of_toString (List.cons.inj (List.cons.inj hpath).2).1
      omega
  | _ => cases hpath

theorem Document.listsFit {uri text : String} {c : Configuration} {d : Document}
    (h : parse uri text c = .ok d) (hlength : text.length < Text.wordBound) :
    d.syntaxTree.ListsFit := by
  intro p n k hn hk
  obtain ⟨name, nodes, hchildren, rfl⟩ := Node.exists_members hk
  have hsub : Node.numbered name nodes ⊆ n.children := by
    rw [hchildren]
    exact List.Subset.refl _
  exact Nat.le_trans (length_le_of_numbered h hn hsub) (Nat.le_of_lt hlength)

namespace Batch

variable {file : Syntax.File} {batch l : List Operation} {o : Operation}

/-! ## Pointers to what a container holds -/

theorem eq_child_of_isPrefixOf {p q : Pointer} {n c m : Node} {path : List String}
    (hn : file.resolve? p = some n) (hc : (path, c) ∈ n.children)
    (hq : file.resolve? q = some m) (hunder : q.isPrefixOf (p.append path) = true)
    (hnot : q.isPrefixOf p = false) : q = p.append path := by
  rcases Pointer.isPrefixOf_or hunder (Pointer.isPrefixOf_append p path) with hqp | hpq
  · rw [hnot] at hqp
    cases hqp
  obtain ⟨front, rfl⟩ := Pointer.isPrefixOf_iff.mp hpq
  obtain ⟨back, hback⟩ := Pointer.isPrefixOf_iff.mp hunder
  rw [Pointer.append_append] at hback
  have hpath : path = front ++ back :=
    List.append_cancel_left (congrArg Pointer.segments hback)
  rw [Syntax.File.resolve?, Pointer.append, Node.resolve?_append hn] at hq
  rcases Syntax.resolve?_eq_some_first hq with ⟨rfl, _⟩ | ⟨first, rest, d, rfl, hd, _⟩
  · rw [Pointer.append_nil, Pointer.isPrefixOf_refl] at hnot
    cases hnot
  have hlength : path.length = first.length := Node.length_eq_of_mem_children hc hd
  rw [hpath, List.length_append, List.length_append] at hlength
  obtain rfl : back = [] := List.length_eq_zero_iff.mp (by omega)
  rw [hpath, List.append_nil]

/-- What lies strictly below a node lies at or below one of its children. -/
theorem exists_child_isPrefixOf {p q : Pointer} {n m : Node} (hn : file.resolve? p = some n)
    (hq : file.resolve? q = some m) (hbelow : p.isAncestorOf q = true) :
    ∃ path c, (path, c) ∈ n.children ∧ (p.append path).isPrefixOf q = true ∧
      (q = p.append path → m = c) := by
  obtain ⟨hunder, hne⟩ := Pointer.isAncestorOf_iff.mp hbelow
  obtain ⟨path, rfl⟩ := Pointer.isPrefixOf_iff.mp hunder
  have hresolve := hq
  rw [Syntax.File.resolve?, Pointer.append, Node.resolve?_append hn] at hresolve
  rcases Syntax.resolve?_eq_some_first hresolve with ⟨rfl, _⟩ | ⟨first, rest, c, rfl, hc, _⟩
  · exact absurd (Pointer.append_nil p).symm hne
  · refine ⟨first, c, hc, ?_, ?_⟩
    · rw [← Pointer.append_append]
      exact Pointer.isPrefixOf_append _ rest
    · intro heq
      rw [heq, Locate.resolves_child hn hc] at hq
      exact (Option.some.inj hq).symm

/-- What lies strictly below a container and is no qualifier lies at or below what it holds. -/
theorem exists_held_isPrefixOf {p q : Pointer} {n m : Node} (hn : file.resolve? p = some n)
    (hne : n.held ≠ []) (hq : file.resolve? q = some m) (hqualifier : ∀ r, m ≠ .qualifier r)
    (hbelow : p.isAncestorOf q = true) :
    ∃ c ∈ n.held, (p.append c.1).isPrefixOf q = true := by
  obtain ⟨path, c, hc, hunder, hsame⟩ := exists_child_isPrefixOf hn hq hbelow
  rcases Node.held_of_mem_children hne hc with hheld | ⟨r, rfl⟩
  · exact ⟨(path, c), hheld, hunder⟩
  · -- a qualifier is no container, so the pointer is its own
    by_cases heq : q = p.append path
    · exact absurd (hsame heq) (hqualifier r)
    · obtain ⟨_, _, hnone, _⟩ := exists_child_isPrefixOf (Locate.resolves_child hn hc) hq
        (Pointer.isAncestorOf_iff.mpr ⟨hunder, Ne.symm heq⟩)
      exact absurd hnone List.not_mem_nil

theorem exists_annotation_of_qualifier {p : Pointer} {q : Syntax.Identifier}
    (h : file.resolve? p = some (.qualifier q)) :
    ∃ above a, file.resolve? above = some (Node.annotation a) ∧ p = above.child "qualifier" := by
  rcases Node.resolve?_eq_some_cases h with ⟨_, hroot⟩ | ⟨front, last, parent, hp, hfront, hlast⟩
  · cases hroot
  · obtain ⟨rfl, a, rfl⟩ := Node.of_qualifier_mem_children hlast
    refine ⟨⟨front⟩, a, hfront, ?_⟩
    rw [Pointer.child, ← hp]

/-- Segments as many as those of a single step lead to a child. -/
theorem mem_children_of_length {n m : Node} {path : List String} (hm : n.resolve? path = some m)
    (hpath : path ≠ []) (hlength : ∀ c ∈ n.children, c.1.length = path.length) :
    (path, m) ∈ n.children := by
  rcases Syntax.resolve?_eq_some_first hm with ⟨rfl, _⟩ | ⟨first, rest, c, rfl, hc, hrest⟩
  · exact absurd rfl hpath
  · have hfirst : first.length = (first ++ rest).length := hlength _ hc
    rw [List.length_append] at hfirst
    obtain rfl : rest = [] := List.length_eq_zero_iff.mp (by omega)
    rw [List.append_nil, ← Option.some.inj hrest]
    exact hc

/-- A deletion counts for the node two segments up if its pointer ends in a number, and else for the
node one segment up, and that node takes it for what it holds. -/
theorem of_emptiedBy? {container : Pointer} (h : emptiedBy? file o = some container) :
    ∃ last n, o.pointer.last? = some last ∧
      o.pointer.ancestor? (if (Text.number? last).isSome then 2 else 1) = some container ∧
      file.resolve? container = some n ∧
      (match n with
        | .target _ | .groupItems _ | .record _ => (Text.number? last).isSome
        | .group _ => last == "items"
        | Node.annotation _ | .property _ => last == "value"
        | _ => false) = true := by
  have hfound : containerOf? file o.pointer = some container := by
    rw [emptiedBy?] at h
    split at h
    · cases h
    · exact h
    · cases h
  simp only [containerOf?, Option.bind_eq_bind, Option.bind_eq_some_iff] at hfound
  obtain ⟨last, hlast, hfound⟩ := hfound
  have hindex : o.pointer.lastIndex? = Text.number? last := by
    rw [Pointer.lastIndex?, hlast, Option.bind_some]
  rw [hindex] at hfound
  refine ⟨last, ?_⟩
  cases hnumber : (Text.number? last).isSome
  all_goals
    rw [hnumber] at hfound
    obtain ⟨above, habove, hfound⟩ := Option.bind_eq_some_iff.mp hfound
    obtain ⟨n, hn, hfound⟩ := Option.bind_eq_some_iff.mp hfound
    rw [Option.ite_none_right_eq_some, Option.some.injEq] at hfound
    obtain ⟨haccepted, rfl⟩ := hfound
    exact ⟨n, hlast, habove, hn, haccepted⟩

/-- A deletion that counts for a container is below it. -/
theorem depth_lt_of_emptiedBy? {container : Pointer} (h : emptiedBy? file o = some container) :
    container.depth < o.pointer.depth := by
  obtain ⟨last, _, _, habove, _, _⟩ := of_emptiedBy? h
  obtain ⟨path, hpath, hpointer⟩ := Pointer.eq_append_of_ancestor? habove
  rw [hpointer, Pointer.depth_append, hpath]
  split <;> omega

/-- The container that a deletion counts for holds what is deleted. -/
theorem exists_held_of_emptiedBy? (ho : o.Placed file) {container : Pointer}
    (h : emptiedBy? file o = some container) :
    ∃ n path c, file.resolve? container = some n ∧ (path, c) ∈ n.held ∧
      o.pointer = container.append path := by
  obtain ⟨m, hm, _⟩ := ho
  obtain ⟨last, n, hlast, habove, hn, haccepted⟩ := of_emptiedBy? h
  obtain ⟨path, hpath, hpointer⟩ := Pointer.eq_append_of_ancestor? habove
  have hpath' : path ≠ [] := by
    rintro rfl
    split at hpath <;> cases hpath
  rw [hpointer, Syntax.File.resolve?, Pointer.append, Node.resolve?_append hn] at hm
  have hchild : (∀ c ∈ n.children, c.1.length = path.length) → (path, m) ∈ n.children :=
    mem_children_of_length hm hpath'
  rw [hpath] at hchild
  refine ⟨n, path, m, hn, ?_, hpointer⟩
  have hnamed : (last == n.heldName) = true → (Text.number? last).isSome = false := by
    intro hname
    rw [beq_iff_eq.mp hname, n.number?_heldName]
    rfl
  cases n with
  | target | groupItems | record =>
      rw [if_pos haccepted] at hchild
      exact hchild Node.length_of_mem_numbered
  | group | property =>
      rw [hnamed haccepted, if_neg Bool.false_ne_true] at hchild
      exact hchild (Node.length_of_listLength? (fun _ => Node.noConfusion) rfl)
  | annotation a =>
      rw [hnamed haccepted, if_neg Bool.false_ne_true] at hchild
      rcases List.mem_append.mp
        (hchild (Node.length_of_listLength? (fun _ => Node.noConfusion) rfl)) with hother | hvalue
      · -- the segment is the name of the value, not the one of the qualifier
        obtain ⟨_, _, hqualifier, _⟩ := Node.exists_of_mem_part hother
        rw [hpointer, hqualifier, Pointer.last?_append (s := "qualifier") rfl,
          Option.some.injEq] at hlast
        have hname : ("qualifier" == "value") = true := hlast ▸ haccepted
        exact absurd hname (by decide)
      · exact hvalue
  | _ => cases haccepted

/-- Under the name or number of what a container holds, a deletion counts for the container. -/
theorem emptiedBy?_of_held (hlists : file.ListsFit) (ho : o.deletesNode = true) {container : Pointer}
    {n c : Node} {path : List String} (hn : file.resolve? container = some n)
    (hc : (path, c) ∈ n.held) (hpointer : o.pointer = container.append path) :
    emptiedBy? file o = some container := by
  have hne := List.ne_nil_of_mem hc
  have hcontainer : containerOf? file o.pointer = some container := by
    rcases Node.held_cases hne with ⟨name, nodes, hheld, hlength⟩ | ⟨hlength, c, hheld⟩
    · rw [hheld] at hc
      obtain ⟨i, hi, rfl⟩ := Node.mem_numbered.mp hc
      have hbound : i < Text.wordBound :=
        Nat.lt_of_lt_of_le (List.getElem?_eq_some_iff.mp hi).1 (hlists container n _ hn hlength)
      have hindex : o.pointer.lastIndex? = some i := by
        rw [hpointer, Pointer.lastIndex?_append_toString hbound]
      have hlast : o.pointer.last? = some (toString i) := by
        rw [hpointer]
        exact Pointer.last?_append rfl
      have habove : o.pointer.ancestor? 2 = some container := by
        rw [hpointer]
        exact container.ancestor?_append [name, toString i]
      simp only [containerOf?, hlast, hindex, habove, hn, Option.isSome_some, if_true,
        Option.bind_eq_bind, Option.bind_some]
      cases n with
      | target | groupItems | record => rfl
      | collection => exact absurd rfl hne
      | _ => cases hlength
    · rw [hheld, List.mem_singleton] at hc
      obtain ⟨rfl, rfl⟩ := Prod.mk.inj hc
      have hlast : o.pointer.last? = some n.heldName := by
        rw [hpointer]
        exact Pointer.last?_append rfl
      have hindex : o.pointer.lastIndex? = none := by
        rw [Pointer.lastIndex?, hlast, Option.bind_some, n.number?_heldName]
      have habove : o.pointer.parent? = some container := by
        rw [hpointer]
        exact container.ancestor?_append [n.heldName]
      simp only [containerOf?, hlast, hindex, habove, hn, Option.isSome_none, Bool.false_eq_true,
        if_false, Option.bind_eq_bind, Option.bind_some]
      cases n with
      | group | annotation | property => rfl
      | target | groupItems | record => cases hlength
      | _ => exact absurd rfl hne
  obtain ⟨p, action⟩ := o
  cases action with
  | delete what => cases what <;> first | exact hcontainer | cases ho
  | _ => cases ho

theorem deletesNode_of_emptiedBy? {container : Pointer} (h : emptiedBy? file o = some container) :
    o.deletesNode = true := by
  obtain ⟨p, action⟩ := o
  cases action with
  | delete what => cases what <;> first | rfl | cases h
  | _ => cases h

/-! ## Emptying one container -/

/-- Everything that the node at `p` holds is deleted, and the deletions count for it. -/
def Emptied (file : Syntax.File) (l : List Operation) (p : Pointer) (n : Node) : Prop :=
  ∀ c ∈ n.held, ∃ o ∈ l, emptiedBy? file o = some p ∧ o.pointer = p.append c.1

/-- The last segments of the deletions that count for a container. -/
def emptyingKeys (file : Syntax.File) (p : Pointer) (l : List Operation) : List String :=
  ((l.filter fun o => emptiedBy? file o == some p).filterMap fun o => o.pointer.last?).eraseDups

theorem mem_emptyingKeys {p : Pointer} {key : String} : key ∈ emptyingKeys file p l ↔
    ∃ o ∈ l, emptiedBy? file o = some p ∧ o.pointer.last? = some key := by
  rw [emptyingKeys, List.mem_eraseDups, List.mem_filterMap]
  constructor
  · rintro ⟨o, ho, hlast⟩
    obtain ⟨ho, hcounts⟩ := List.mem_filter.mp ho
    exact ⟨o, ho, beq_iff_eq.mp hcounts, hlast⟩
  · rintro ⟨o, ho, hcounts, hlast⟩
    exact ⟨o, List.mem_filter.mpr ⟨ho, beq_iff_eq.mpr hcounts⟩, hlast⟩

theorem last?_of_held {n : Node} {c : List String × Node} (hc : c ∈ n.held) {p : Pointer} :
    ∃ key, c.1.getLast? = some key ∧ (p.append c.1).last? = some key := by
  obtain ⟨key, hkey⟩ := Option.isSome_iff_exists.mp
    (List.getLast?_isSome.mpr (Node.ne_nil_of_mem_held hc))
  exact ⟨key, hkey, Pointer.last?_append hkey⟩

/-- As many deletions as a container holds nodes delete all of them. -/
theorem emptied_of_length (hl : ∀ o ∈ l, o.Placed file) {p : Pointer} {n : Node}
    (hn : file.resolve? p = some n) (hne : n.held ≠ [])
    (hlength : n.held.length ≤ (emptyingKeys file p l).length) : Emptied file l p n := by
  have hat : ∀ key ∈ emptyingKeys file p l, ∃ o ∈ l, emptiedBy? file o = some p ∧ ∃ c ∈ n.held,
      c.1.getLast? = some key ∧ o.pointer = p.append c.1 := by
    intro key hkey
    obtain ⟨o, ho, hcounts, hlast⟩ := mem_emptyingKeys.mp hkey
    obtain ⟨n', path, c, hn', hc, hpointer⟩ := exists_held_of_emptiedBy? (hl o ho) hcounts
    obtain rfl : n = n' := Option.some.inj (hn.symm.trans hn')
    obtain ⟨key', hkey', hlast'⟩ := last?_of_held (p := p) hc
    rw [hpointer, hlast', Option.some.injEq] at hlast
    exact ⟨o, ho, hcounts, (path, c), hc, hlast ▸ hkey', hpointer⟩
  have hsub : emptyingKeys file p l ⊆ n.held.filterMap fun c => c.1.getLast? := by
    intro key hkey
    obtain ⟨_, _, _, c, hc, hlast, _⟩ := hat key hkey
    exact List.mem_filterMap.mpr ⟨c, hc, hlast⟩
  rw [← Node.length_keys hne] at hlength
  have hperm := (List.subperm_of_subset (nodup_eraseDups _) hsub).perm_of_length_le hlength
  intro c hc
  obtain ⟨key, hkey, _⟩ := last?_of_held (p := p) hc
  obtain ⟨o, ho, hcounts, c', hc', hkey', hpointer⟩ :=
    hat key (hperm.mem_iff.mpr (List.mem_filterMap.mpr ⟨c, hc, hkey⟩))
  rw [Node.eq_of_getLast? hc' hc (hkey'.trans hkey.symm)] at hpointer
  exact ⟨o, ho, hcounts, hpointer⟩

/-- A container is deleted when all that it holds is deleted and nothing else happens there. -/
theorem of_emptied? (hl : ∀ o ∈ l, o.Placed file) {p : Pointer} {d : Operation}
    (hcounts : ∃ o ∈ l, emptiedBy? file o = some p) (h : emptied? file p l = some d) :
    ∃ n kind, file.resolve? p = some n ∧ n.held ≠ [] ∧ n.deletable? = some kind ∧
      d = ⟨p, .delete kind⟩ ∧ kind ≠ .qualifier ∧ Emptied file l p n ∧
      ∀ o ∈ l, keeps p o = false := by
  obtain ⟨o, ho, hcounts⟩ := hcounts
  obtain ⟨n, path, c, hn, hc, _⟩ := exists_held_of_emptiedBy? (hl o ho) hcounts
  have hne := List.ne_nil_of_mem hc
  obtain ⟨kind, hkind, hqualifier⟩ := Node.exists_emptiedKind? hne
  simp only [emptied?, hn, hkind, Option.bind_eq_bind, Option.bind_some,
    Option.ite_none_left_eq_some, Bool.or_eq_true, decide_eq_true_eq, not_or] at h
  obtain ⟨⟨hlength, hkeeps⟩, hd⟩ := h
  refine ⟨n, kind, hn, hne, ?_, (Option.some.inj hd).symm, hqualifier, ?_, ?_⟩
  · rw [← Node.emptiedKind?_eq hne]
    exact hkind
  · rw [Node.childCount_eq hne] at hlength
    exact emptied_of_length hl hn hne (Nat.le_of_not_lt hlength)
  · intro o ho
    rw [Bool.not_eq_true] at hkeeps
    exact Bool.eq_false_iff.mpr (List.any_eq_false.mp hkeeps o ho)

theorem exists_emptied? {p : Pointer} {n : Node} (hn : file.resolve? p = some n)
    (hne : n.held ≠ []) (hall : Emptied file l p n) (hquiet : ∀ o ∈ l, keeps p o = false) :
    ∃ d, emptied? file p l = some d := by
  obtain ⟨kind, hkind, _⟩ := Node.exists_emptiedKind? hne
  have hsub : (n.held.filterMap fun c => c.1.getLast?) ⊆ emptyingKeys file p l := by
    intro key hkey
    obtain ⟨c, hc, hlast⟩ := List.mem_filterMap.mp hkey
    obtain ⟨o, ho, hcounts, hpointer⟩ := hall c hc
    refine mem_emptyingKeys.mpr ⟨o, ho, hcounts, ?_⟩
    rw [hpointer]
    exact Pointer.last?_append hlast
  have hlength := (List.subperm_of_subset (Node.nodup_keys hne) hsub).length_le
  rw [Node.length_keys hne, ← Node.childCount_eq hne] at hlength
  have hkeeps : l.any (keeps p) = false :=
    List.any_eq_false.mpr fun o ho => Bool.eq_false_iff.mp (hquiet o ho)
  refine ⟨⟨p, .delete kind⟩, ?_⟩
  simp only [emptied?, hn, hkind, hkeeps, Option.bind_eq_bind, Option.bind_some, Bool.or_false,
    decide_eq_true_eq]
  exact if_neg (Nat.not_lt.mpr hlength)

/-! ## Looking at containers -/

theorem mem_bubbleContainer {p : Pointer} (h : o ∈ bubbleContainer file l p) :
    o ∈ l ∨ o.pointer = p := by
  rw [bubbleContainer] at h
  split at h
  · next d hd =>
    rcases List.mem_append.mp h with h | h
    · exact Or.inl (List.mem_filter.mp h).1
    · rw [List.mem_singleton.mp h]
      exact Or.inr (emptied?_eq_some hd).2.1
  · exact Or.inl h

theorem mem_bubbleContainer_of_ne {p : Pointer} (h : o ∈ l) (hother : emptiedBy? file o ≠ some p) :
    o ∈ bubbleContainer file l p := by
  rw [bubbleContainer]
  split
  · exact List.mem_append_left _ (List.mem_filter.mpr ⟨h, bne_iff_ne.mpr hother⟩)
  · exact h

theorem mem_containersAt {p : Pointer} {depth : Nat} :
    p ∈ containersAt file l depth ↔ (∃ o ∈ l, emptiedBy? file o = some p) ∧ p.depth = depth := by
  rw [containersAt, List.mem_mergeSort, List.mem_eraseDups, List.mem_filter, List.mem_filterMap,
    beq_iff_eq]

theorem nodup_containersAt (l : List Operation) (depth : Nat) :
    (containersAt file l depth).Nodup :=
  (List.mergeSort_perm _ _).nodup_iff.mpr (nodup_eraseDups _)

end Batch

end AnnotationEdit

import AnnotationEdit.Proofs.Locate.Soundness

/-!
# Located nodes are covered

A search never lands on a node beside the one that is looked for, however little the two trees have
to do with each other. Every step of a search either enters a node around the range or stays where
it is, so the invariant "the pointer leads to the node, and the node is around the range" holds from
the first step on. The one step that takes the range on trust is the one to the name of a record's
type.

The main result is `locate_covers`. It is about all nodes with a range: `locate_sound` says the same
of those with a place of their own, for searches that are compared with the text.
-/

namespace AnnotationEdit

open Syntax (Node)
open AnnotationEdit.Tree (View Element ElementKind)

/-! ## Walks to texts and attributes -/

namespace Tree.View

def namesType : View → Bool
  | attr a _ => a.name == typeKey
  | _ => false

theorem namesType_iff {v : View} :
    v.namesType = true ↔ ∃ a e, v = attr a e ∧ a.name = typeKey := by
  cases v <;> simp [namesType]

theorem getLast?_of_namesType {w : View} (hw : w.namesType = true) :
    ∀ {views : List View} {v : View} {path : List String}, v.walkFrom? path = some views →
      w ∈ views → views.getLast? = some w
  | [], _, _, _, hmem => absurd hmem List.not_mem_nil
  | u :: views, v, path, h, hmem => by
      obtain ⟨_, _, rest, _, hrest⟩ := walkFrom?_cons h
      rcases List.mem_cons.mp hmem with rfl | hmem
      · obtain ⟨a, e, rfl, _⟩ := namesType_iff.mp hw
        rw [walkFrom?_of_leaf (child?_attr a e) hrest, List.getLast?_singleton]
      · rw [List.getLast?_cons, getLast?_of_namesType hw hrest hmem, Option.getD_some]

end Tree.View

namespace Locate

/-! ## Folded levels -/

/-- A search that ends at a folded level says that it passed one. -/
def State.Honest (s : State) : Prop := s.collapsed = true → s.flattened = true

namespace Goal

variable {g : Goal} {f : Syntax.File}

theorem enter_honest {accept : Node → Bool} {what : String} {s : State} (hs : s.Honest) :
    Yields State.Honest (g.enter accept what s) := by
  rw [enter]
  split
  · exact .ok hs
  · exact .error

theorem enterValue_honest {accept : Node → Bool} {s : State} (hs : s.Honest) :
    Yields State.Honest (g.enterValue accept s) := by
  rw [enterValue]
  split
  · exact enter_honest hs
  · exact enter_honest hs
  · exact .error

theorem unwrapValue_honest {s : State} (hs : s.Honest) : (g.unwrapValue s).Honest := by
  rw [unwrapValue]
  split
  · split
    · split
      · exact hs
      · exact hs
    · exact hs
  · exact hs

theorem enterEmbedded_honest {e : Element} {s : State} (hs : s.Honest) :
    Yields State.Honest (g.enterEmbedded e s) := by
  refine Yields.bind (enter_honest hs) fun t ht => ?_
  split
  · exact .ok ht
  · exact .ok ht

theorem enterAssignment_honest {e : Element} {s : State} (hs : s.Honest) :
    Yields State.Honest (g.enterAssignment e s) := by
  refine Yields.bind (enter_honest hs) fun t ht => ?_
  intro u hu
  simp only at hu
  split at hu
  · refine Yields.bind (enter_honest ht) (fun v hv => ?_) u hu
    exact Yields.bind (enter_honest hv) fun w hw => .ok hw
  · obtain rfl := Except.ok.inj hu
    exact ht

theorem enterType_honest {s : State} (hs : s.Honest) : Yields State.Honest (g.enterType s) := by
  rw [enterType]
  split
  · split
    · exact .ok hs
    · exact .error
    · exact .error
  · exact .error

/-- Staying at a folded level is what sets both marks. -/
theorem fold_honest (s : State) : (fold s).Honest := fun _ => rfl

theorem enterProperty_honest {e : Element} {s : State} (hs : s.Honest) :
    Yields State.Honest (g.enterProperty e s) := by
  rw [enterProperty]
  split
  · split
    · exact .ok (fold_honest _)
    · exact .error
  · refine Yields.bind (enter_honest hs) fun t ht => ?_
    split
    · exact .ok ht
    · exact .ok ht

theorem enterContent_honest {kind : ElementKind} {s : State} (hs : s.Honest) :
    Yields State.Honest (g.enterContent kind s) := by
  rw [enterContent]
  split
  · exact Yields.bind (enterValue_honest hs) fun t ht => .ok (unwrapValue_honest ht)
  · split
    · exact .ok (fold_honest s)
    · exact .error

theorem enterElement_honest {parent : Option ElementKind} {e : Element} {s : State}
    (hs : s.Honest) : Yields State.Honest (g.enterElement parent e s) := by
  rw [enterElement.eq_def]
  split
  · exact enterAssignment_honest hs
  · exact Yields.bind (enterValue_honest hs) fun t ht => enterEmbedded_honest ht
  · split
    · exact enterEmbedded_honest hs
    · exact .error
  · exact enterContent_honest hs
  · exact enterContent_honest hs
  · exact enterProperty_honest hs
  · exact enter_honest hs
  · exact .error

/-- Every step starts unfolded, whatever the step before it did. -/
theorem step_honest {parent child : View} {s : State} :
    Yields State.Honest (g.step parent child s) := by
  have hclear : State.Honest { s with collapsed := false } := Bool.noConfusion
  cases child with
  | file _ => exact .ok hclear
  | text _ _ => exact .ok hclear
  | reference _ =>
      rw [step]
      exact enter_honest hclear
  | target _ =>
      rw [step]
      exact enter_honest hclear
  | element e =>
      cases parent with
      | target _ => exact enterElement_honest hclear
      | element _ => exact enterElement_honest hclear
      | _ => exact .error
  | attr a _ =>
      rw [step]
      split
      · exact enter_honest hclear
      · split
        · exact enterType_honest hclear
        · exact .ok hclear

/-! ## Steps around the range -/

/-- The search stands at a node around the range, and its marks agree. -/
structure Covers (g : Goal) (f : Syntax.File) (s : State) : Prop where
  reached : g.Reached f s
  honest : s.Honest

/-- What one step keeps: only the step to the name of a type may leave the range. -/
theorem step_covers {parent child : View} {s : State} (hchild : child.namesType = false)
    (hs : g.Reached f s) : Yields (g.Covers f) (g.step parent child s) := by
  have hclear : g.Reached f { s with collapsed := false } := hs
  have hreached : Yields (g.Reached f) (g.step parent child s) := by
    cases child with
    | file _ => exact .ok hclear
    | text _ _ => exact .ok hclear
    | reference _ => exact step_reference_reached hs.1
    | target _ => exact step_target_reached hs.1
    | element e => exact step_reached hs
    | attr a e =>
        have hname : (a.name == Tree.typeKey) = false := hchild
        rw [step]
        simp only [hname]
        split
        · exact enter_reached hclear.1
        · exact .ok hclear
  exact fun t ht => ⟨hreached t ht, step_honest t ht⟩

/-- What a whole search keeps. -/
theorem steps_covers : ∀ {views : List View} {parent : View} {s : State},
    (∀ v ∈ views, v.namesType = false) → g.Covers f s →
      Yields (g.Covers f) (g.steps parent views s)
  | [], _, _, _, hs => .ok hs
  | v :: views, parent, s, hviews, hs => by
      obtain ⟨hv, hviews⟩ := List.forall_mem_cons.mp hviews
      rw [steps]
      split
      · next t ht => exact steps_covers hviews (step_covers hv hs.reached t ht)
      · exact .error

/-- The first step of a search leaves the file, whose own range is never asked for. -/
theorem first_covers {tree : Tree.File} {name key : String} {v : View}
    (hv : (View.file tree).child? name key = some v) :
    Yields (g.Covers f) (g.step (.file tree) v (start f)) := by
  intro t ht
  refine ⟨?_, step_honest t ht⟩
  rcases View.child?_file hv with ⟨r, _, rfl⟩ | ⟨u, _, rfl⟩
  · exact step_reference_reached (start_resolves f) t ht
  · exact step_target_reached (start_resolves f) t ht

end Goal

end Locate

open Locate (Goal Yields)

/-- For every two trees and every set of names, whether they belong together or not: where the
search for a node returns, and the node is neither the file nor the attribute that names a type, the
node has a range, the pointer that is returned leads to a node of the file, and that node contains
the range. A node that is folded into another one is always reported as passing folded levels. -/
theorem locate_covers (p : Pointer) (tree : Tree.File) (file : Syntax.File)
    (vocabulary : Vocabulary) {l : Located} (h : locate p tree file vocabulary = .ok l)
    (hfile : ∀ f, tree.resolve? p ≠ some (.file f))
    (htype : ∀ a e, tree.resolve? p = some (.attr a e) → a.name ≠ Tree.typeKey) :
    ∃ v range node, tree.resolve? p = some v ∧ v.range = some range ∧
      file.resolve? l.pointer = some node ∧ node.range.contains range = true ∧
      (l.collapsed = true → l.flattened = true) := by
  cases hwalk : tree.walk? p with
  | none =>
      rw [locate, hwalk] at h
      cases h
  | some views =>
    obtain ⟨rest, hrest, rfl⟩ := Option.map_eq_some_iff.mp hwalk
    rcases rest with _ | ⟨v, rest⟩
    · refine absurd ?_ (hfile tree)
      rw [Tree.File.resolve?, hwalk]
      rfl
    obtain ⟨last, hlast⟩ : ∃ last, (v :: rest).getLast? = some last :=
      Option.isSome_iff_exists.mp (by rw [List.getLast?_isSome]; exact List.cons_ne_nil v rest)
    have hresolve : tree.resolve? p = some last := by
      rw [Tree.File.resolve?, hwalk, Option.bind_some, List.getLast?_cons_cons, hlast]
    have hviews : ∀ w ∈ v :: rest, w.namesType = false := by
      intro w hw
      rw [Bool.eq_false_iff]
      intro hnames
      obtain ⟨a, e, rfl, hname⟩ := View.namesType_iff.mp hnames
      have hends := View.getLast?_of_namesType hnames hrest hw
      rw [hlast, Option.some.injEq] at hends
      exact htype a e (hends ▸ hresolve) hname
    cases hrange : last.range with
    | none =>
        rw [locate, hwalk] at h
        simp only [hlast, Option.bind_some, hrange] at h
        cases h
    | some range =>
        rw [locate_eq hwalk hlast hrange] at h
        obtain ⟨name, key, _, hchild, _⟩ := View.walkFrom?_cons hrest
        have hsteps : Yields (Goal.Covers ⟨p, vocabulary, range⟩ file)
            (Goal.steps ⟨p, vocabulary, range⟩ (.file tree) (v :: rest) (Goal.start file)) := by
          rw [Goal.steps]
          split
          · next s hs =>
            exact Goal.steps_covers (List.forall_mem_cons.mp hviews).2
              (Goal.first_covers hchild s hs)
          · exact .error
        cases hs : Goal.steps ⟨p, vocabulary, range⟩ (.file tree) (v :: rest)
            (Goal.start file) with
        | error e =>
            rw [hs] at h
            cases h
        | ok s =>
            rw [hs] at h
            obtain rfl := Except.ok.inj h
            obtain ⟨⟨hresolves, hcontains⟩, hhonest⟩ := hsteps s hs
            exact ⟨last, range, s.node, hresolve, hrange, hresolves, hcontains, hhonest⟩

/-- The record that a dotted name of one text stands for. -/
def foldedRecord : Pointer :=
  ⟨["targets", "0", "terms", "0", "content", "0", "content", "0", "content", "0"]⟩

/-- It is found in the tree of another text, under other names, folded into a wider property. -/
theorem locate_covers_strangers :
    ∃ document other l v range node,
      Document.parse "a.cds" "annotate E with @A : \x7bp.q : 1\x7d;" .default = .ok document ∧
      Document.parse "b.cds" "annotate E with @B :\x7bx.q  : 12\x7d;" .default = .ok other ∧
      locate foldedRecord document.tree other.syntaxTree ⟨[]⟩ = .ok l ∧ l.collapsed = true ∧
      document.tree.resolve? foldedRecord = some v ∧ v.range = some range ∧
      other.syntaxTree.resolve? l.pointer = some node ∧ node.range.contains range = true ∧
      l.flattened = true := by
  have hfound : ((Document.parse "a.cds" "annotate E with @A : \x7bp.q : 1\x7d;"
      .default).toOption.any fun document =>
        (Document.parse "b.cds" "annotate E with @B :\x7bx.q  : 12\x7d;" .default).toOption.any
          fun other => (locate foldedRecord document.tree other.syntaxTree ⟨[]⟩).toOption.any
            fun l => l.collapsed && (document.tree.resolve? foldedRecord).any (·.isPlaced)) =
      true := by decide +kernel
  obtain ⟨document, hdocument, hfound⟩ := Locate.exists_ok_of_any hfound
  obtain ⟨other, hother, hfound⟩ := Locate.exists_ok_of_any hfound
  obtain ⟨l, hl, hfound⟩ := Locate.exists_ok_of_any hfound
  obtain ⟨hcollapsed, hplaced⟩ := Bool.and_eq_true_iff.mp hfound
  obtain ⟨v, hv, hplaced⟩ := (Option.any_eq_true _ _).mp hplaced
  obtain ⟨v', range, node, hv', hrange, hnode, hcontains, hflattened⟩ :=
    locate_covers foldedRecord document.tree other.syntaxTree ⟨[]⟩ hl
      (by
        intro f hf
        rw [hv, Option.some.injEq] at hf
        rw [hf] at hplaced
        cases hplaced)
      (by
        intro a e ha
        rw [hv, Option.some.injEq] at ha
        rw [ha] at hplaced
        cases hplaced)
  exact ⟨document, other, l, v', range, node, hdocument, hother, hl, hcollapsed, hv',
    hrange, hnode, hcontains, hflattened hcollapsed⟩

end AnnotationEdit

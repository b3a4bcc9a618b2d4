import AnnotationEdit.Proofs.Syntax.Parts

/-!
# Nodes with another one below them

What it is for a node to be another one with something else in the place that a path leads to, as
far as pointers can tell: what they lead to off the path is the same, and what they lead to past the
end of it is what stands there now (`Node.Renews`). Ranges along the path may differ.
-/

namespace AnnotationEdit.Syntax.Node

variable {n m k c : Node} {path rest : List String}

theorem ne_nil_of_mem_children (h : (path, c) ∈ n.children) : path ≠ [] := by
  rintro rfl
  rcases length_of_mem_children n with hlength | hlength <;> cases hlength _ h

/-- Segments that start with a step to a child start with no other one. -/
theorem append_inj_of_mem_children {d : Node} {path' rest' : List String}
    (hc : (path, c) ∈ n.children) (hd : (path', d) ∈ n.children)
    (h : path ++ rest = path' ++ rest') : path = path' ∧ rest = rest' :=
  List.append_inj h (length_eq_of_mem_children hc hd)

/-- A path splits in one way only into one to a node and a step to one of its children. By induction
on the path. -/
theorem step_unique {a b d : Node} {q last last' : List String} (ha : n.resolve? path = some a)
    (hc : (last, c) ∈ a.children) (hb : n.resolve? q = some b) (hd : (last', d) ∈ b.children)
    (h : path ++ last = q ++ last') : path = q ∧ last = last' := by
  induction hlength : path.length using Nat.strongRecOn generalizing n path q with
  | ind k ih =>
    rcases resolve?_eq_some_first ha with ⟨rfl, rfl⟩ | ⟨first, rest, e, rfl, he, hrest⟩
    · rcases resolve?_eq_some_first hb with ⟨rfl, rfl⟩ | ⟨first', rest', e', rfl, he', hrest'⟩
      · exact ⟨rfl, h⟩
      · rw [List.nil_append, List.append_assoc] at h
        have hnil := (append_inj_of_mem_children hc he' ((List.append_nil last).trans h)).2
        exact absurd (List.append_eq_nil_iff.mp hnil.symm).2 (ne_nil_of_mem_children hd)
    · rcases resolve?_eq_some_first hb with ⟨rfl, rfl⟩ | ⟨first', rest', e', rfl, he', hrest'⟩
      · rw [List.nil_append, List.append_assoc] at h
        have hnil := (append_inj_of_mem_children he hd (h.trans (List.append_nil last').symm)).2
        exact absurd (List.append_eq_nil_iff.mp hnil).2 (ne_nil_of_mem_children hc)
      · rw [List.append_assoc, List.append_assoc] at h
        obtain ⟨rfl, hmore⟩ := append_inj_of_mem_children he he' h
        obtain rfl := eq_of_mem_children he he'
        have hshort : rest.length < k := hlength ▸ length_lt_of_mem_children he rest
        obtain ⟨rfl, rfl⟩ := ih rest.length hshort hrest hrest' hmore rfl
        exact ⟨rfl, rfl⟩

/-- `k` is `n` with `m` in the place that the path leads to. -/
structure Renews (path : List String) (n m k : Node) : Prop where
  keeps : ∀ q, ¬ path <+: q → ¬ q <+: path → k.resolve? q = n.resolve? q
  holds : ∀ rest, rest ≠ [] → k.resolve? (path ++ rest) = m.resolve? rest

theorem resolve?_child (h : (path, c) ∈ n.children) : n.resolve? path = some c := by
  have hresolve := resolve?_of_mem_children h []
  rwa [List.append_nil, resolve?.eq_def c] at hresolve

/-- A node is asked for its children only. -/
theorem resolve?_congr (h : m.children = n.children) (hpath : path ≠ []) :
    m.resolve? path = n.resolve? path := by
  obtain ⟨s, rest, rfl⟩ := List.exists_cons_of_ne_nil hpath
  have hchild : ∀ front, m.child? front = n.child? front := fun front => by rw [child?, child?, h]
  rw [resolve?.eq_def, resolve?.eq_def]
  simp only [hchild]

theorem Renews.congr {m' k' : Node} (h : Renews path n m k) (hm : m'.children = m.children)
    (hk : k'.children = k.children) (hpath : path ≠ []) : Renews path n m' k' where
  keeps q hq hq' := by
    have hne : q ≠ [] := fun hnil => hq' (hnil ▸ List.nil_prefix)
    rw [resolve?_congr hk hne, h.keeps q hq hq']
  holds rest hrest := by
    rw [resolve?_congr hk (List.append_ne_nil_of_left_ne_nil hpath rest), resolve?_congr hm hrest,
      h.holds rest hrest]

/-- A node with another child in the place of one. -/
theorem Renews.of_children (hkept : ∀ front, front ≠ path → ∀ c,
    (front, c) ∈ k.children ↔ (front, c) ∈ n.children) (hnew : (path, m) ∈ k.children) :
    Renews path n m k where
  keeps q hq hq' := by
    have hchild : ∀ front, front ≠ path → k.child? front = n.child? front := by
      intro front hne
      apply Option.ext
      intro c
      constructor <;> intro hc
      · exact child?_of_mem ((hkept front hne c).mp (mem_children_of_child? hc))
      · exact child?_of_mem ((hkept front hne c).mpr (mem_children_of_child? hc))
    cases q with
    | nil => exact absurd List.nil_prefix hq'
    | cons s q =>
        have hone : [s] ≠ path := by
          rintro rfl
          exact hq ⟨q, rfl⟩
        have hfirst := hchild [s] hone
        rw [resolve?.eq_def, resolve?.eq_def]
        cases hc : n.child? [s] with
        | some c => simp only [hfirst, hc]
        | none =>
            cases q with
            | nil => simp only [hfirst, hc]
            | cons t q =>
                have htwo : [s, t] ≠ path := by
                  rintro rfl
                  exact hq ⟨q, rfl⟩
                simp only [hfirst, hc, hchild [s, t] htwo]
  holds rest _ := resolve?_of_mem_children hnew rest

/-- Something in the place of a child, and something else in a place below that child. -/
theorem Renews.trans {c' : Node} (h : Renews path n c' k) (hc : n.resolve? path = some c)
    (h' : Renews rest c m c') : Renews (path ++ rest) n m k where
  keeps q hq hq' := by
    by_cases hbelow : path <+: q
    · obtain ⟨q, rfl⟩ := hbelow
      rw [List.prefix_append_right_inj] at hq hq'
      have hne : q ≠ [] := fun hnil => hq' (hnil ▸ List.nil_prefix)
      rw [h.holds q hne, h'.keeps q hq hq', resolve?_append hc]
    · exact h.keeps q hbelow fun habove => hq' (habove.trans (List.prefix_append path rest))
  holds q hne := by
    rw [List.append_assoc, h.holds _ (List.append_ne_nil_of_right_ne_nil rest hne), h'.holds q hne]

/-- The members of a list, behind other children, with another one in the place of one. -/
theorem renews_numbered {α : Type} {name : String} {node : α → Node} {es : List α} {i : Nat} {e : α}
    (others : List (List String × Node)) (hn : n.children = others ++ numbered name (es.map node))
    (hk : k.children = others ++ numbered name ((es.set i e).map node)) (hi : i < es.length) :
    Renews [name, toString i] n (node e) k := by
  refine Renews.of_children (fun front hne c => ?_) ?_
  · rw [hk, hn, List.mem_append, List.mem_append, mem_numbered, mem_numbered]
    refine or_congr_right ?_
    have hget : ∀ j : Nat, front = [name, toString j] →
        ((es.set i e).map node)[j]? = (es.map node)[j]? := by
      rintro j rfl
      have hij : i ≠ j := by
        rintro rfl
        exact hne rfl
      rw [List.map_set, List.getElem?_set_ne hij]
    constructor
    · rintro ⟨j, hj, hfront⟩
      exact ⟨j, (hget j hfront).symm.trans hj, hfront⟩
    · rintro ⟨j, hj, hfront⟩
      exact ⟨j, (hget j hfront).trans hj, hfront⟩
  · rw [hk]
    refine List.mem_append_right _ (mem_numbered_map ?_)
    rw [List.getElem?_set_self hi]

theorem renews_value (others : List (List String × Node)) (value : Option Value) {w : Value}
    (hn : n.children = others ++ value.toList.map fun v => (["value"], ofValue v))
    (hk : k.children = others ++ [(["value"], ofValue w)]) : Renews ["value"] n (ofValue w) k := by
  refine Renews.of_children (fun front hne c => ?_) ?_
  · rw [hk, hn, List.mem_append, List.mem_append]
    refine or_congr_right ⟨fun h => ?_, fun h => ?_⟩
    · exact absurd (Prod.mk.inj (List.mem_singleton.mp h)).1 hne
    · obtain ⟨_, _, hname, _⟩ := exists_of_mem_part h
      exact absurd hname hne
  · rw [hk]
    exact List.mem_append_right _ (List.mem_singleton_self _)

end AnnotationEdit.Syntax.Node

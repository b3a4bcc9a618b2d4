import AnnotationEdit.Proofs.Locate.Exactness
import AnnotationEdit.Proofs.Syntax.Brackets
import AnnotationEdit.Proofs.Syntax.Refilling

/-!
# Children and members

A child of a record or a collection has a number in the annotation tree, and the member it is written
as has one in the node of the list. The two differ: an entry that names the type of a record is no
child of it, and a dotted name is one member for several levels. The place in the list that belongs to
the number of a child is found by ranges (`insertIndex?`), and it is the place of the member that this
child is written as (`Document.insertIndex?_child`).
-/

namespace AnnotationEdit

open Syntax (Node Value Entry)
open AnnotationEdit.Tree (Element)

/-- The first member around a range is the one with this range. -/
theorem insertIndex?_eq_some {children : List (Option Range)} {members : List Range} {i j : Nat}
    {r : Range} (hi : children[i]? = some (some r)) (hj : members[j]? = some r)
    (hr : r.Proper) (hapart : members.Pairwise Range.Before) :
    insertIndex? (some i) children members = some j := by
  obtain ⟨hlt, hget⟩ := List.getElem?_eq_some_iff.mp hj
  have hfirst : members.findIdx? (fun m => m.contains r) = some j := by
    refine List.findIdx?_eq_some_iff_getElem.mpr ⟨hlt, hget ▸ Range.contains_refl r, ?_⟩
    intro k hk hcontains
    have hbefore : members[k].Before r := hget ▸ List.pairwise_iff_getElem.mp hapart k j _ hlt hk
    exact absurd (hr.trans_le (Range.contains_iff.mp hcontains).2) (not_lt_of_ge hbefore)
  rw [insertIndex?, Option.bind_some, hi, Option.join_some]
  show some ((members.findIdx? fun m => m.contains r).getD members.length) = _
  rw [hfirst, Option.getD_some]

namespace Locate

variable {k i : Nat} {w : Value} {c : Tree.Node}

theorem exists_member_of_child (h : w.Tidy k) (hlist : (Node.ofValue w).isBracketed = true)
    (hc : (w.element .standard).content[i]? = some c) : ∃ (x : Element) (j : Nat) (m : Node),
      c = .element x ∧ (Node.ofValue w).members[j]? = some m ∧ m.Writes .standard x ∧
        m.range.Proper := by
  cases w with
  | record r =>
      obtain ⟨range, entries⟩ := r
      rw [Value.element, content_record, List.getElem?_map, Option.map_eq_some_iff] at hc
      obtain ⟨x, hx, rfl⟩ := hc
      obtain ⟨e, he, hx⟩ := List.mem_filterMap.mp (List.mem_of_getElem? hx)
      obtain ⟨j, hj⟩ := List.mem_iff_getElem?.mp he
      obtain ⟨ts, hts, hwritten⟩ := (Syntax.tidy_record h).2 e he
      refine ⟨x, j, .ofEntry e, rfl, ?_, writes_entry h he hx, ?_⟩
      · rw [Node.members_eq_of_numbered rfl, List.getElem?_map, hj]
        rfl
      · rw [range_ofEntry]
        exact (Syntax.spans_entry hwritten).proper hts
  | collection l =>
      obtain ⟨range, items⟩ := l
      rw [Value.element, Syntax.elementsOf_eq, List.map_map, List.getElem?_map,
        Option.map_eq_some_iff] at hc
      obtain ⟨w, hw, rfl⟩ := hc
      have htidy := (Syntax.tidy_collection h).2 w (List.mem_of_getElem? hw)
      refine ⟨w.element .standard, i, .ofValue w, rfl, ?_, Node.writes_ofValue _ w, ?_⟩
      · rw [Node.members_eq_of_numbered rfl, List.getElem?_map, hw]
        rfl
      · rw [range_ofValue]
        exact htidy.proper
  | primitive p => cases hlist

theorem pairwise_memberRanges (h : w.Tidy k) (hlist : (Node.ofValue w).isBracketed = true) :
    (Node.ofValue w).memberRanges.Pairwise Range.Before := by
  cases w with
  | record r =>
      obtain ⟨range, entries⟩ := r
      exact List.pairwise_map.mpr (Syntax.tidy_record h).1.apart
  | collection l =>
      obtain ⟨range, items⟩ := l
      exact List.pairwise_map.mpr (Syntax.tidy_collection h).1.apart
  | primitive p => cases hlist

end Locate

namespace Document

variable {uri text : String} {c : Configuration} {d : Document} {p : Pointer}

theorem tidy_value (h : parse uri text c = .ok d) {w : Value}
    (hw : d.syntaxTree.resolve? p = some (.ofValue w)) : w.Tidy d.tokens.size := by
  obtain ⟨ts, hts, hwritten⟩ := exists_written h hw
  refine ⟨ts, (ordered_code h).sublist hts, ?_⟩
  cases w <;> exact hwritten

/-- The place that belongs to a child of a record or a collection is that of the member the child is
written as. -/
theorem insertIndex?_child (h : parse uri text c = .ok d) {n : Node} {e : Element}
    (hn : d.syntaxTree.resolve? p = some n) (hlist : n.isBracketed = true)
    (hvalue : n.isValue = true) (hwrites : n.Writes .standard e) {i : Nat}
    (hi : i < e.content.length) : ∃ child j m, e.content[i]? = some (.element child) ∧
      n.members[j]? = some m ∧ m.Represents child ∧
      insertIndex? (some i) (e.content.map (·.range)) n.memberRanges = some j := by
  obtain ⟨w, rfl⟩ : ∃ w, n = .ofValue w := by
    cases n with
    | record r => exact ⟨.record r, rfl⟩
    | collection l => exact ⟨.collection l, rfl⟩
    | primitive p => exact ⟨.primitive p, rfl⟩
    | _ => cases hvalue
  obtain rfl := hwrites.element w rfl
  have htidy := tidy_value h hn
  have hget := List.getElem?_eq_getElem hi
  obtain ⟨child, j, m, hchild, hj, hm, hproper⟩ := Locate.exists_member_of_child htidy hlist hget
  obtain ⟨hrange, _⟩ := hm.represents
  obtain ⟨_, _, hranges⟩ := Node.exists_numbered_members (Node.isList_of_isBracketed hlist)
  rw [hchild] at hget
  refine ⟨child, j, m, hget, hj, hm.represents, ?_⟩
  refine insertIndex?_eq_some (r := m.range) ?_ ?_ hproper
    (Locate.pairwise_memberRanges htidy hlist)
  · rw [List.getElem?_map, hget]
    exact congrArg some hrange
  · rw [hranges, List.getElem?_map, hj]
    rfl

end Document

end AnnotationEdit

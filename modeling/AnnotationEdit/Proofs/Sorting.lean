import Mathlib.Data.List.Basic
import Mathlib.Data.List.Pairwise
import Mathlib.Order.Lattice

/-!
# Sorting

Merge sort is stable: members that are in order among each other keep their order. So a list is
sorted into its first and its second kind when only the kinds are compared
(`mergeSort_eq_filter_append`), and two lists are sorted the same when the members of each key come
in the same order in both (`mergeSort_eq_of_filter_key`).
-/

namespace AnnotationEdit

variable {α : Type} {le : α → α → Bool}

/-! ## Kinds -/

section

variable {f : α → Bool} {l : List α}
variable (htrans : ∀ a b c, le a b = true → le b c = true → le a c = true)
variable (htotal : ∀ a b, (le a b || le b a) = true)

include htrans htotal

/-- Members that are in order among each other keep it. -/
theorem filter_mergeSort_of_pairwise (h : (l.filter f).Pairwise fun a b => le a b = true) :
    (l.mergeSort le).filter f = l.filter f := by
  have hsub : (l.filter f).Sublist (l.mergeSort le) :=
    List.sublist_mergeSort htrans htotal h List.filter_sublist
  -- they survive the sort, and there are no others like them to go between them
  have hfilter := hsub.filter f
  simp only [List.filter_filter, Bool.and_self] at hfilter
  exact (hfilter.eq_of_length ((List.mergeSort_perm l le).filter _).length_eq.symm).symm

omit htrans htotal in
/-- A list in which some members stand in front of all others is cut in two by them. -/
theorem eq_filter_append : ∀ {l : List α}, (l.Pairwise fun a b => (f a || !f b) = true) →
    l = l.filter f ++ l.filter (!f ·)
  | [], _ => rfl
  | a :: l, h => by
      obtain ⟨ha, hl⟩ := List.pairwise_cons.mp h
      cases hfa : f a with
      | true =>
          rw [List.filter_cons_of_pos hfa, List.filter_cons_of_neg (by simp [hfa]),
            List.cons_append, ← eq_filter_append hl]
      | false =>
          have hnone : ∀ b ∈ l, f b = false := by
            intro b hb
            have hor := ha b hb
            rwa [hfa, Bool.false_or, Bool.not_eq_true'] at hor
          have hfirst : (a :: l).filter f = [] := by
            refine List.filter_eq_nil_iff.mpr (List.forall_mem_cons.mpr ⟨?_, fun b hb => ?_⟩)
            · rw [hfa]
              exact Bool.false_ne_true
            · rw [hnone b hb]
              exact Bool.false_ne_true
          have hlast : (a :: l).filter (!f ·) = a :: l := by
            refine List.filter_eq_self.mpr (List.forall_mem_cons.mpr ⟨?_, fun b hb => ?_⟩)
            · rw [hfa]
              rfl
            · rw [hnone b hb]
              rfl
          rw [hfirst, hlast, List.nil_append]

/-- Sorting by whether a member is of the first kind puts these in front, and nothing else. -/
theorem mergeSort_eq_filter_append (h : ∀ a ∈ l, ∀ b ∈ l, le a b = (f a || !f b)) :
    l.mergeSort le = l.filter f ++ l.filter (!f ·) := by
  have hfirst : (l.filter f).Pairwise fun a b => le a b = true := by
    refine List.pairwise_of_forall_mem_list fun a ha b hb => ?_
    obtain ⟨ha, hfa⟩ := List.mem_filter.mp ha
    rw [h a ha b (List.mem_filter.mp hb).1, hfa, Bool.true_or]
  have hlast : (l.filter (!f ·)).Pairwise fun a b => le a b = true := by
    refine List.pairwise_of_forall_mem_list fun a ha b hb => ?_
    obtain ⟨hb, hfb⟩ := List.mem_filter.mp hb
    rw [h a (List.mem_filter.mp ha).1 b hb, hfb, Bool.or_true]
  have hsorted : (l.mergeSort le).Pairwise fun a b => (f a || !f b) = true := by
    refine (List.pairwise_mergeSort htrans htotal l).imp_of_mem fun {a b} ha hb hab => ?_
    rwa [h a (List.mem_mergeSort.mp ha) b (List.mem_mergeSort.mp hb)] at hab
  rw [← filter_mergeSort_of_pairwise htrans htotal hfirst,
    ← filter_mergeSort_of_pairwise htrans htotal hlast]
  exact eq_filter_append hsorted

end

/-! ## Keys -/

section

variable {κ : Type} [LinearOrder κ] {key : α → κ} {l m : List α}

/-- Sorted lists are known from their members of each key. -/
theorem eq_of_filter_key : ∀ {l m : List α}, (l.Pairwise fun a b => key a ≤ key b) →
    (m.Pairwise fun a b => key a ≤ key b) →
    (∀ k, l.filter (key · = k) = m.filter (key · = k)) → l = m
  | [], m, _, _, h => by
      refine (List.eq_nil_iff_forall_not_mem.mpr fun e he => ?_).symm
      have hmem : e ∈ m.filter (key · = key e) := List.mem_filter.mpr ⟨he, decide_eq_true rfl⟩
      rw [← h (key e)] at hmem
      exact absurd hmem List.not_mem_nil
  | a :: l, [], _, _, h => by
      have hmem : a ∈ (a :: l).filter (key · = key a) :=
        List.mem_filter.mpr ⟨List.mem_cons_self, decide_eq_true rfl⟩
      rw [h (key a)] at hmem
      exact absurd hmem List.not_mem_nil
  | a :: l, b :: m, hl, hm, h => by
      have hmem : ∀ {e : α}, e ∈ a :: l ↔ e ∈ b :: m := by
        intro e
        have hfilter := h (key e)
        constructor
        · intro he
          exact (List.mem_filter.mp (hfilter ▸ List.mem_filter.mpr ⟨he, decide_eq_true rfl⟩)).1
        · intro he
          exact (List.mem_filter.mp (hfilter ▸ List.mem_filter.mpr ⟨he, decide_eq_true rfl⟩)).1
      have hle : key a ≤ key b := by
        rcases List.mem_cons.mp (hmem.mpr (List.mem_cons_self (a := b))) with rfl | hb
        · exact le_refl _
        · exact (List.pairwise_cons.mp hl).1 b hb
      have hge : key b ≤ key a := by
        rcases List.mem_cons.mp (hmem.mp (List.mem_cons_self (a := a))) with rfl | ha
        · exact le_refl _
        · exact (List.pairwise_cons.mp hm).1 a ha
      have hkey : key b = key a := le_antisymm hge hle
      have hfirst := h (key a)
      rw [List.filter_cons, List.filter_cons, if_pos (decide_eq_true rfl),
        if_pos (decide_eq_true hkey)] at hfirst
      obtain ⟨rfl, _⟩ := List.cons.inj hfirst
      congr 1
      refine eq_of_filter_key (List.pairwise_cons.mp hl).2 (List.pairwise_cons.mp hm).2 fun k => ?_
      have hk := h k
      rw [List.filter_cons, List.filter_cons] at hk
      split at hk
      · exact (List.cons.inj hk).2
      · exact hk

variable (hle : ∀ a b, le a b = true ↔ key a ≤ key b)

include hle

theorem pairwise_mergeSort_key (l : List α) : (l.mergeSort le).Pairwise fun a b => key a ≤ key b := by
  refine (List.pairwise_mergeSort (fun a b c hab hbc => ?_) (fun a b => ?_) l).imp (hle _ _).mp
  · exact (hle a c).mpr (le_trans ((hle a b).mp hab) ((hle b c).mp hbc))
  · rw [Bool.or_eq_true, hle, hle]
    exact le_total _ _

/-- Members with one key keep their order. -/
theorem filter_mergeSort_key (l : List α) (k : κ) :
    (l.mergeSort le).filter (key · = k) = l.filter (key · = k) := by
  refine filter_mergeSort_of_pairwise (fun a b c hab hbc => ?_) (fun a b => ?_) ?_
  · exact (hle a c).mpr (le_trans ((hle a b).mp hab) ((hle b c).mp hbc))
  · rw [Bool.or_eq_true, hle, hle]
    exact le_total _ _
  · refine List.pairwise_of_forall_mem_list fun a ha b hb => (hle a b).mpr ?_
    rw [of_decide_eq_true (List.mem_filter.mp ha).2, of_decide_eq_true (List.mem_filter.mp hb).2]

/-- It makes no difference whether members are dropped before sorting or after it. -/
theorem filter_mergeSort (l : List α) (f : α → Bool) :
    (l.mergeSort le).filter f = (l.filter f).mergeSort le := by
  refine eq_of_filter_key ((pairwise_mergeSort_key hle l).filter f)
    (pairwise_mergeSort_key hle (l.filter f)) fun k => ?_
  rw [List.filter_comm, filter_mergeSort_key hle, filter_mergeSort_key hle, List.filter_comm]

/-- Lists are sorted the same when the members of each key come in the same order. -/
theorem mergeSort_eq_of_filter_key (h : ∀ k, l.filter (key · = k) = m.filter (key · = k)) :
    l.mergeSort le = m.mergeSort le := by
  refine eq_of_filter_key (pairwise_mergeSort_key hle l) (pairwise_mergeSort_key hle m) fun k => ?_
  rw [filter_mergeSort_key hle, filter_mergeSort_key hle, h]

end

end AnnotationEdit

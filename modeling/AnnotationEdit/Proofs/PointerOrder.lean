import AnnotationEdit.Syntax.Node
import Mathlib.Data.List.Basic

/-!
# The order of pointers

Pointers are compared segment by segment, numbers before names. The comparison is a total preorder
(`Pointer.transCmp`), but not an order: `1`, `01` and `+1` are one number. A pointer that resolves
in a concrete tree is made of names and of numbers as they are printed, and on such pointers
comparing equal means being equal (`eq_of_compare_eq`).
-/

namespace AnnotationEdit

open Std

namespace Text

theorem isDigit_eq (c : Char) : isDigit c = c.isDigit := rfl

/-- A printed number is read back, unless it is too large to be read at all. -/
theorem number?_toString (n : Nat) :
    number? (toString n) = if n < wordBound then some n else none := by
  have hlist : (toString n).toList = Nat.toDigits 10 n := by
    rw [Nat.toString_eq_ofList_toDigits, String.toList_ofList]
  have hdigit : ∀ c ∈ Nat.toDigits 10 n, isDigit c = true := by
    intro c hc
    rw [isDigit_eq]
    exact Nat.isDigit_of_mem_toDigits (by decide) (by decide) hc
  have hall : (Nat.toDigits 10 n).all isDigit = true := List.all_eq_true.mpr hdigit
  have hvalue : (Nat.toDigits 10 n).foldl (fun m c => 10 * m + (c.toNat - 48)) 0 = n :=
    Nat.ofDigitChars_eq_foldl.symm.trans Nat.ofDigitChars_ten_toDigits
  have hempty : Nat.toDigits 10 n ≠ [] := Nat.toDigits_ne_nil
  unfold number?
  rw [hlist]
  split
  · next rest heq =>
    have hplus := hdigit '+' (by rw [heq]; exact List.mem_cons_self)
    exact absurd hplus (by decide)
  · simp [hempty, hall, hvalue]

/-- A printed number holds digits only. -/
theorem toString_ne {n : Nat} {s : String} {c : Char} (hc : c ∈ s.toList)
    (hdigit : isDigit c = false) : toString n ≠ s := by
  rintro rfl
  rw [Nat.toString_eq_ofList_toDigits, String.toList_ofList] at hc
  rw [isDigit_eq, Nat.isDigit_of_mem_toDigits (by decide) (by decide) hc] at hdigit
  cases hdigit

end Text

namespace Pointer

/-! ## A total preorder -/

/-- What segments are compared by: numbers come before names. -/
def segmentKey (s : String) : Nat × Nat × String :=
  match Text.number? s with
  | some n => (0, n, "")
  | none => (1, 0, s)

def compareKeys : Nat × Nat × String → Nat × Nat × String → Ordering :=
  compareLex (compareOn (·.1)) (compareLex (compareOn (·.2.1)) (compareOn (·.2.2)))

instance transCmp_keys : TransCmp compareKeys :=
  inferInstanceAs (TransCmp (compareLex _ (compareLex _ _)))

theorem compareSegments_eq_keys (a b : String) :
    compareSegments a b = compareKeys (segmentKey a) (segmentKey b) := by
  unfold compareSegments segmentKey
  cases Text.number? a <;> cases Text.number? b <;>
    simp [compareKeys, compareLex, compareOn, ReflOrd.compare_self] <;> rfl

instance transCmp_segments : TransCmp compareSegments where
  eq_swap {a b} := by
    rw [compareSegments_eq_keys, compareSegments_eq_keys]
    exact OrientedCmp.eq_swap
  isLE_trans {a b c} := by
    rw [compareSegments_eq_keys, compareSegments_eq_keys, compareSegments_eq_keys]
    exact TransCmp.isLE_trans

theorem compareLists_eq_compareLex : ∀ as bs : List String,
    compareLists as bs = as.compareLex compareSegments bs
  | [], [] => rfl
  | [], _ :: _ => rfl
  | _ :: _, [] => rfl
  | a :: as, b :: bs => by
      rw [compareLists, List.compareLex_cons_cons, compareLists_eq_compareLex as bs]

instance transCmp : TransCmp Pointer.compare where
  eq_swap {p q} := by
    rw [Pointer.compare, Pointer.compare, compareLists_eq_compareLex, compareLists_eq_compareLex]
    exact OrientedCmp.eq_swap
  isLE_trans {p q r} := by
    simp only [Pointer.compare, compareLists_eq_compareLex]
    exact TransCmp.isLE_trans

/-! ## Pointers with one way to write them -/

/-- The segment is a name, or a number as it is printed. -/
def IsCanonical (s : String) : Prop := ∀ n, Text.number? s = some n → s = toString n

theorem isCanonical_toString (n : Nat) : IsCanonical (toString n) := by
  intro m hm
  rw [Text.number?_toString] at hm
  split at hm
  · rw [Option.some.inj hm]
  · exact absurd hm (by simp)

theorem isCanonical_of_number?_eq_none {s : String} (h : Text.number? s = none) :
    IsCanonical s := by
  intro n hn
  rw [h] at hn
  exact absurd hn (by simp)

theorem eq_of_compareSegments_eq {a b : String} (ha : IsCanonical a) (hb : IsCanonical b)
    (h : compareSegments a b = .eq) : a = b := by
  unfold compareSegments at h
  split at h
  · next m n hm hn =>
    rw [ha m hm, hb n hn, Std.compare_eq_iff_eq.mp h]
  · exact absurd h (by simp)
  · exact absurd h (by simp)
  · exact Std.compare_eq_iff_eq.mp h

theorem eq_of_compareLists_eq : ∀ {as bs : List String}, (∀ s ∈ as, IsCanonical s) →
    (∀ s ∈ bs, IsCanonical s) → compareLists as bs = .eq → as = bs
  | [], [], _, _, _ => rfl
  | [], _ :: _, _, _, h => absurd h (by simp [compareLists])
  | _ :: _, [], _, _, h => absurd h (by simp [compareLists])
  | a :: as, b :: bs, ha, hb, h => by
      rw [compareLists, Ordering.then_eq_eq] at h
      have hhead : a = b := eq_of_compareSegments_eq (ha a List.mem_cons_self)
        (hb b List.mem_cons_self) h.1
      have htail : as = bs := eq_of_compareLists_eq
        (fun s hs => ha s (List.mem_cons_of_mem _ hs))
        (fun s hs => hb s (List.mem_cons_of_mem _ hs)) h.2
      rw [hhead, htail]

end Pointer

/-! ## Pointers that resolve -/

namespace Syntax.Node

theorem isCanonical_of_mem_numbered {name : String} (hname : Text.number? name = none)
    {nodes : List Node} {path : List String} {n : Node} (h : (path, n) ∈ numbered name nodes) :
    ∀ s ∈ path, Pointer.IsCanonical s := by
  simp only [numbered, List.mem_map, Prod.mk.injEq] at h
  obtain ⟨⟨m, i⟩, _, rfl, _⟩ := h
  intro s hs
  simp only [List.mem_cons, List.not_mem_nil, or_false] at hs
  rcases hs with rfl | rfl
  · exact Pointer.isCanonical_of_number?_eq_none hname
  · exact Pointer.isCanonical_toString i

/-- The segments that lead from a node to a child are names and printed numbers. -/
theorem isCanonical_of_mem_children {n c : Node} {path : List String} (h : (path, c) ∈ n.children) :
    ∀ s ∈ path, Pointer.IsCanonical s := by
  have single : ∀ name : String, Text.number? name = none →
      ∀ s ∈ [name], Pointer.IsCanonical s := by
    intro name hname s hs
    rw [List.mem_singleton.mp hs]
    exact Pointer.isCanonical_of_number?_eq_none hname
  cases n with
  | file f =>
      rcases List.mem_append.mp h with h | h
      · exact isCanonical_of_mem_numbered (by decide) h
      · exact isCanonical_of_mem_numbered (by decide) h
  | target t => exact isCanonical_of_mem_numbered (by decide) h
  | annotation a =>
      rcases List.mem_append.mp h with h | h
      · obtain ⟨q, _, hq⟩ := List.mem_map.mp h
        obtain ⟨rfl, _⟩ := Prod.mk.inj hq
        exact single "qualifier" (by decide)
      · obtain ⟨v, _, hv⟩ := List.mem_map.mp h
        obtain ⟨rfl, _⟩ := Prod.mk.inj hv
        exact single "value" (by decide)
  | group g =>
      obtain ⟨rfl, _⟩ := Prod.mk.inj (List.mem_singleton.mp h)
      exact single "items" (by decide)
  | groupItems i => exact isCanonical_of_mem_numbered (by decide) h
  | record r => exact isCanonical_of_mem_numbered (by decide) h
  | property p =>
      obtain ⟨v, _, hv⟩ := List.mem_map.mp h
      obtain ⟨rfl, _⟩ := Prod.mk.inj hv
      exact single "value" (by decide)
  | collection c => exact isCanonical_of_mem_numbered (by decide) h
  | declaration d => exact absurd h (by simp [children])
  | primitive p => exact absurd h (by simp [children])
  | qualifier q => exact absurd h (by simp [children])

theorem mem_children_of_child? {n c : Node} {path : List String} (h : n.child? path = some c) :
    (path, c) ∈ n.children := by
  obtain ⟨⟨q, d⟩, hfind, rfl⟩ := Option.map_eq_some_iff.mp h
  have heq : q = path := by simpa using List.find?_some hfind
  rw [← heq]
  exact List.mem_of_find?_eq_some hfind

theorem isCanonical_of_resolve? {n m : Node} {path : List String} (h : n.resolve? path = some m) :
    ∀ s ∈ path, Pointer.IsCanonical s := by
  fun_induction resolve? n path with
  | case1 n => simp
  | case2 n s rest c hc ih =>
      have hs := isCanonical_of_mem_children (mem_children_of_child? hc)
      intro t ht
      rcases List.mem_cons.mp ht with rfl | ht
      · exact hs t (by simp)
      · exact ih h t ht
  | case3 n s hc => exact absurd h (by simp)
  | case4 n s hc t rest c hc' ih =>
      have hs := isCanonical_of_mem_children (mem_children_of_child? hc')
      intro u hu
      rcases List.mem_cons.mp hu with rfl | hu
      · exact hs u (by simp)
      · rcases List.mem_cons.mp hu with rfl | hu
        · exact hs u (by simp)
        · exact ih h u hu
  | case5 n s hc t rest hc' => exact absurd h (by simp)

end Syntax.Node

namespace Syntax.File

/-- A node of the file stands at the pointer. -/
def Resolves (f : File) (p : Pointer) : Prop := (f.resolve? p).isSome = true

/-- Pointers that resolve in one file are equal when they compare equal. -/
theorem eq_of_compare_eq {f : File} {p q : Pointer} (hp : f.Resolves p) (hq : f.Resolves q)
    (h : p.compare q = .eq) : p = q := by
  obtain ⟨n, hn⟩ := Option.isSome_iff_exists.mp hp
  obtain ⟨m, hm⟩ := Option.isSome_iff_exists.mp hq
  have hsegments : p.segments = q.segments := Pointer.eq_of_compareLists_eq
    (Node.isCanonical_of_resolve? hn) (Node.isCanonical_of_resolve? hm) h
  cases p
  cases q
  exact congrArg Pointer.mk hsegments

end Syntax.File

end AnnotationEdit

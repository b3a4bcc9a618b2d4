import AnnotationEdit.Proofs.Batch.Containers
import Mathlib.Data.List.Induction

/-!
# The order of containers

Containers can be told apart in two ways: a sorted collection compares their pointers, a set asks
whether they are equal. The two differ, since `/01` and `/1` compare equal, but not on the nodes of
one file. So deletions may be collected in a map that compares (`getD_collected`), containers may
wait in a queue that compares (`workOrder_eq_iff`), and those of a level come in a strict order
(`pairwise_containersAt`).
-/

namespace AnnotationEdit

open Std

namespace Pointer

theorem compareLists_append_cons : ∀ (as : List String) (b : String) (bs : List String),
    compareLists as (as ++ b :: bs) = .lt
  | [], _, _ => rfl
  | a :: as, b, bs => by
      have hself : compareSegments a a = .eq := ReflCmp.compare_self
      rw [List.cons_append, compareLists, hself, Ordering.eq_then, compareLists_append_cons as b bs]

/-- A pointer comes before everything below it. -/
theorem compare_of_isAncestorOf {p q : Pointer} (h : p.isAncestorOf q = true) :
    p.compare q = .lt := by
  obtain ⟨hunder, hne⟩ := isAncestorOf_iff.mp h
  obtain ⟨path, rfl⟩ := isPrefixOf_iff.mp hunder
  cases path with
  | nil => exact absurd (append_nil p).symm hne
  | cons s path => exact compareLists_append_cons p.segments s path

end Pointer

theorem Syntax.File.compare_eq_iff {file : File} {p q : Pointer} (hp : file.Resolves p)
    (hq : file.Resolves q) : p.compare q = .eq ↔ p = q := by
  constructor
  · exact eq_of_compare_eq hp hq
  · rintro rfl
    exact ReflCmp.compare_self

namespace Batch

variable {file : Syntax.File} {p q : Pointer} {l : List Operation}

/-! ## Waiting for their turn -/

/-- The deepest pointers first, and those of one depth in their order. -/
def workOrder (p q : Pointer) : Ordering := (Ord.compare q.depth p.depth).then (p.compare q)

theorem workOrder_eq_iff (hp : file.Resolves p) (hq : file.Resolves q) :
    workOrder p q = .eq ↔ p = q := by
  rw [workOrder, Ordering.then_eq_eq, Syntax.File.compare_eq_iff hp hq]
  constructor
  · exact And.right
  · rintro rfl
    exact ⟨ReflCmp.compare_self, rfl⟩

/-- The containers of a level come in a strict order: no two of them compare equal. -/
theorem pairwise_containersAt (file : Syntax.File) (l : List Operation) (depth : Nat) :
    (containersAt file l depth).Pairwise fun p q => p.compare q = .lt := by
  have hresolves : ∀ p ∈ containersAt file l depth, file.Resolves p := by
    intro p hp
    obtain ⟨⟨o, _, ho⟩, _⟩ := mem_containersAt.mp hp
    exact resolves_of_emptiedBy? ho
  have hle : (containersAt file l depth).Pairwise fun p q => (p.compare q).isLE = true :=
    pairwise_mergeSort_cmp _
  refine (hle.and (nodup_containersAt l depth)).imp_of_mem fun {p q} hp hq ⟨hpq, hne⟩ => ?_
  have hne' := mt (Syntax.File.compare_eq_iff (hresolves p hp) (hresolves q hq)).mp hne
  exact (Ordering.isLE_iff_eq_lt_or_eq_eq.mp hpq).resolve_right hne'

/-! ## Collecting deletions -/

/-- The deletions that count for each container, in a map that knows a container by comparing
pointers. -/
def collected (file : Syntax.File) (l : List Operation) :
    TreeMap Pointer (List Operation) Pointer.compare :=
  l.foldl (fun map o => match emptiedBy? file o with
    | some container => map.alter container fun deletions => some (deletions.getD [] ++ [o])
    | none => map) ∅

theorem collected_concat (file : Syntax.File) (l : List Operation) (o : Operation) :
    collected file (l ++ [o]) = match emptiedBy? file o with
      | some container =>
        (collected file l).alter container fun deletions => some (deletions.getD [] ++ [o])
      | none => collected file l := by
  rw [collected, List.foldl_append, List.foldl_cons, List.foldl_nil, ← collected]

/-- The map holds under a container the deletions whose container is equal to it. By induction along
the list, from its end. -/
theorem getD_collected (hp : file.Resolves p) :
    (collected file l).getD p [] = l.filter fun o => emptiedBy? file o == some p := by
  induction l using List.reverseRecOn with
  | nil => exact TreeMap.getD_emptyc
  | append_singleton l o ih =>
      rw [collected_concat, List.filter_append, ← ih, List.filter_singleton]
      cases ho : emptiedBy? file o with
      | none => exact (List.append_nil _).symm
      | some container =>
          have hsame := Syntax.File.compare_eq_iff (resolves_of_emptiedBy? ho) hp
          show (TreeMap.alter _ _ _).getD p [] = _
          rw [TreeMap.getD_alter]
          by_cases heq : container = p
          · rw [if_pos (hsame.mpr heq), heq, beq_self_eq_true, Option.getD_some,
              TreeMap.getD_eq_getD_getElem?]
            rfl
          · rw [if_neg (mt hsame.mp heq), beq_eq_false_iff_ne.mpr (mt Option.some.inj heq)]
            exact (List.append_nil _).symm

/-! ## One order for all pointers -/

/-- The comparison of pointers is a total preorder on all of them, in which a pointer comes before
everything below it. On the nodes of one file it tells apart what is not equal, and so does the
order in which containers are looked at. So a map that compares holds under each container the
deletions that count for it, and the containers of a level come in a strict order. -/
theorem compare_tells_containers_apart :
    (∀ p : Pointer, p.compare p = .eq) ∧
      (∀ p q : Pointer, q.compare p = (p.compare q).swap) ∧
      (∀ p q r : Pointer, (p.compare q).isLE → (q.compare r).isLE → (p.compare r).isLE) ∧
      (∀ p q : Pointer, p.isAncestorOf q = true → p.compare q = .lt) ∧
      ∀ file : Syntax.File,
        (∀ p q, file.Resolves p → file.Resolves q →
          (p.compare q = .eq ↔ p = q) ∧ (workOrder p q = .eq ↔ p = q)) ∧
        ∀ l : List Operation,
          (∀ p, file.Resolves p →
            (collected file l).getD p [] = l.filter fun o => emptiedBy? file o == some p) ∧
          ∀ depth, (containersAt file l depth).Pairwise fun p q => p.compare q = .lt :=
  ⟨fun _ => ReflCmp.compare_self, fun _ _ => OrientedCmp.eq_swap,
    fun _ _ _ => TransCmp.isLE_trans, fun _ _ => Pointer.compare_of_isAncestorOf,
    fun file => ⟨fun _ _ hp hq => ⟨Syntax.File.compare_eq_iff hp hq, workOrder_eq_iff hp hq⟩,
      fun l => ⟨fun _ hp => getD_collected hp, pairwise_containersAt file l⟩⟩⟩

/-- The record of an annotation. -/
def recordPointer : Pointer := ⟨["targets", "0", "assignments", "0", "value"]⟩

/-- Both properties of the record are deleted. -/
def deleteBoth : List Operation :=
  ["0", "1"].map fun i => ⟨recordPointer.append ["properties", i], .delete .recordProperty⟩

/-- One number written in two ways, a number that is too large to be one, a name, and a record from
which two properties are deleted. -/
theorem compare_tells_containers_apart_mixed :
    Pointer.compare ⟨["01"]⟩ ⟨["+1"]⟩ = .eq ∧
      (Pointer.compare ⟨["+1"]⟩ ⟨["18446744073709551616"]⟩).isLE = true ∧
      Pointer.compare ⟨["a"]⟩ ⟨["a", "01"]⟩ = .lt ∧
      ∃ d, Document.parse "a.cds" "annotate E with @A : \x7ba, b\x7d;" .default = .ok d ∧
        (recordPointer.compare ⟨["targets", "0"]⟩ ≠ .eq ∧
          workOrder recordPointer ⟨["targets", "0"]⟩ ≠ .eq) ∧
        (collected d.syntaxTree deleteBoth).getD recordPointer [] = deleteBoth := by
  have hchecks : ((Document.parse "a.cds" "annotate E with @A : \x7ba, b\x7d;"
      .default).toOption.any fun d =>
        (d.syntaxTree.resolve? recordPointer).isSome &&
        (d.syntaxTree.resolve? ⟨["targets", "0"]⟩).isSome &&
        deleteBoth.all fun o => emptiedBy? d.syntaxTree o == some recordPointer) = true := by
    decide +kernel
  obtain ⟨d, hd, hchecks⟩ := Locate.exists_ok_of_any hchecks
  rw [Bool.and_eq_true, Bool.and_eq_true, List.all_eq_true] at hchecks
  obtain ⟨⟨hrecord, htarget⟩, hcounts⟩ := hchecks
  obtain ⟨_, _, htrans, habove, hfile⟩ := compare_tells_containers_apart
  obtain ⟨hsame, hbatch⟩ := hfile d.syntaxTree
  obtain ⟨hcompare, hwork⟩ := hsame recordPointer ⟨["targets", "0"]⟩ hrecord htarget
  have hne : recordPointer ≠ ⟨["targets", "0"]⟩ := by decide
  refine ⟨by decide, htrans _ ⟨["2"]⟩ _ (by decide) (by decide), habove _ _ (by decide), d, hd,
    ⟨mt hcompare.mp hne, mt hwork.mp hne⟩, ?_⟩
  rw [(hbatch deleteBoth).1 recordPointer hrecord, List.filter_eq_self]
  exact hcounts

end Batch

end AnnotationEdit

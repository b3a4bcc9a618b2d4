import AnnotationEdit.Proofs.Sorting
import AnnotationEdit.Proofs.Token.Lookup
import AnnotationEdit.Tree.TargetIndex
import Mathlib

/-!
# Searching and scanning

A look-up halves the stream, and it does so by starts or by ends, with `<` or with `≤`. Each of them
finds what looking at every token finds (`TokenStream.Sorted.agreesWithScans`), because starts and ends both
grow along a stream whose tokens have characters and do not overlap. The targets inside a statement
are found in the same way, although the ranges of targets may overlap
(`Tree.TargetIndex.within_eq_scan`).
-/

namespace AnnotationEdit

/-! ## Where a predicate changes -/

section Front

variable {α : Type} {p q : α → Bool} {l : List α} {i : Nat}

/-- A member of which the predicate holds has no member in front of it of which it fails. -/
def HoldsInFront (p : α → Bool) (l : List α) : Prop := l.Pairwise fun a b => p b = true → p a = true

theorem any_getElem?_iff (h : HoldsInFront p l) :
    l[i]?.any p = true ↔ i < l.findIdx fun a => !p a := by
  rw [List.lt_findIdx_iff, Option.any_eq_true]
  constructor
  · rintro ⟨a, ha, hpa⟩
    obtain ⟨hi, rfl⟩ := List.getElem?_eq_some_iff.mp ha
    refine ⟨hi, fun j hj => ?_⟩
    rw [Bool.not_eq_false']
    rcases Nat.lt_or_eq_of_le hj with hlt | rfl
    · exact List.pairwise_iff_getElem.mp h j i _ hi hlt hpa
    · exact hpa
  · rintro ⟨hi, hfront⟩
    have hlast := hfront i (Nat.le_refl i)
    rw [Bool.not_eq_false'] at hlast
    exact ⟨_, List.getElem?_eq_getElem hi, hlast⟩

/-- Halving finds the first member that fails the predicate. -/
theorem partitionPoint_eq_findIdx {xs : Array α} (h : HoldsInFront p xs.toList) :
    partitionPoint xs p = xs.toList.findIdx fun a => !p a := by
  refine partitionPoint_eq fun i => ?_
  rw [← Array.getElem?_toList, any_getElem?_iff h]

theorem lt_partitionPoint_iff {xs : Array α} (h : HoldsInFront p xs.toList) :
    i < partitionPoint xs p ↔ xs[i]?.any p = true := by
  rw [partitionPoint_eq_findIdx h, ← any_getElem?_iff h, Array.getElem?_toList]

/-- What fails the second test is not missed in front. -/
theorem filter_dropWhile (h : ∀ a ∈ l, p a = true → q a = false) :
    (l.dropWhile p).filter q = l.filter q := by
  have hnone : (l.takeWhile p).filter q = [] := by
    refine List.filter_eq_nil_iff.mpr fun a ha => Bool.not_eq_true _ ▸ ?_
    exact h a ((List.takeWhile_sublist p).subset ha) (List.mem_takeWhile_imp ha)
  conv_rhs => rw [← List.takeWhile_append_dropWhile (p := p) (l := l)]
  rw [List.filter_append, hnone, List.nil_append]

/-- What fails the first test fails it with everything behind it, and is not missed there. -/
theorem filter_takeWhile : ∀ {l : List α}, HoldsInFront p l →
    (∀ a ∈ l, q a = true → p a = true) → (l.takeWhile p).filter q = l.filter q
  | [], _, _ => rfl
  | a :: l, hl, hq => by
      obtain ⟨ha, hl⟩ := List.pairwise_cons.mp hl
      obtain ⟨hqa, hql⟩ := List.forall_mem_cons.mp hq
      cases hpa : p a with
      | true =>
          rw [List.takeWhile_cons_of_pos hpa, List.filter_cons, List.filter_cons,
            filter_takeWhile hl hql]
      | false =>
          rw [List.takeWhile_cons_of_neg (Bool.eq_false_iff.mp hpa)]
          refine (List.filter_eq_nil_iff.mpr (List.forall_mem_cons.mpr ⟨?_, fun b hb hqb => ?_⟩)).symm
          · exact mt hqa (Bool.eq_false_iff.mp hpa)
          · exact Bool.eq_false_iff.mp hpa (ha b hb (hql b hb hqb))

end Front

/-! ## Ascending numbers -/

section Ascending

variable {l m : List Nat} {i : Nat}

theorem head?_eq_some_of_pairwise (h : l.Pairwise (· < ·)) :
    l.head? = some i ↔ i ∈ l ∧ ∀ j ∈ l, i ≤ j := by
  cases l with
  | nil => simp
  | cons a l =>
      have ha := (List.pairwise_cons.mp h).1
      rw [List.head?_cons, Option.some.injEq, List.forall_mem_cons, List.mem_cons]
      constructor
      · rintro rfl
        exact ⟨Or.inl rfl, Nat.le_refl _, fun j hj => Nat.le_of_lt (ha j hj)⟩
      · rintro ⟨rfl | hi, hle, _⟩
        · rfl
        · exact absurd (ha i hi) (Nat.not_lt.mpr hle)

theorem getLast?_eq_some_of_pairwise (h : l.Pairwise (· < ·)) :
    l.getLast? = some i ↔ i ∈ l ∧ ∀ j ∈ l, j ≤ i := by
  cases l using List.reverseRecOn with
  | nil => simp
  | append_singleton l a =>
      have ha : ∀ j ∈ l, j < a := fun j hj =>
        (List.pairwise_append.mp h).2.2 j hj a (List.mem_singleton_self a)
      rw [List.getLast?_concat, Option.some.injEq, List.forall_mem_append, List.mem_append,
        List.mem_singleton, List.forall_mem_singleton]
      constructor
      · rintro rfl
        exact ⟨Or.inr rfl, fun j hj => Nat.le_of_lt (ha j hj), Nat.le_refl _⟩
      · rintro ⟨hi | rfl, _, hle⟩
        · exact absurd (ha i hi) (Nat.not_lt.mpr hle)
        · rfl

theorem eq_of_pairwise_of_mem_iff (hl : l.Pairwise (· < ·)) (hm : m.Pairwise (· < ·))
    (h : ∀ i, i ∈ l ↔ i ∈ m) : l = m := by
  have hperm := (List.perm_ext_iff_of_nodup (hl.imp Nat.ne_of_lt) (hm.imp Nat.ne_of_lt)).mpr h
  exact hperm.eq_of_pairwise (fun a b _ _ hab hba => absurd hab (Nat.lt_asymm hba)) hl hm

end Ascending

namespace TokenStream

variable {s : TokenStream} {p q : Token → Bool} {i j : Nat} {t u : Token}

/-! ## Scans -/

/-- The places of the tokens that satisfy a predicate, found by looking at every token. -/
def scan (s : TokenStream) (p : Token → Bool) : List Nat :=
  (List.range s.size).filter fun i => s.test i p

theorem mem_scan : i ∈ s.scan p ↔ s.test i p = true := by
  rw [scan, List.mem_filter, List.mem_range]
  exact ⟨And.right, fun h => ⟨lt_size_of_test h, h⟩⟩

theorem pairwise_scan (s : TokenStream) (p : Token → Bool) : (s.scan p).Pairwise (· < ·) :=
  List.pairwise_lt_range.filter _

theorem head?_scan_eq_some_iff : (s.scan p).head? = some i ↔
    s.test i p = true ∧ ∀ j < i, s.test j p = false := by
  rw [head?_eq_some_of_pairwise (s.pairwise_scan p), mem_scan]
  refine and_congr_right fun _ => forall_congr' fun j => ?_
  rw [mem_scan, ← Bool.not_eq_true, ← Nat.not_lt]
  exact imp_not_comm

theorem getLast?_scan_eq_some_iff : (s.scan p).getLast? = some i ↔
    s.test i p = true ∧ ∀ j, i < j → s.test j p = false := by
  rw [getLast?_eq_some_of_pairwise (s.pairwise_scan p), mem_scan]
  refine and_congr_right fun _ => forall_congr' fun j => ?_
  rw [mem_scan, ← Bool.not_eq_true, ← Nat.not_lt]
  exact imp_not_comm

theorem exists_get?_of_lt (h : i < s.size) : ∃ t, s.get? i = some t :=
  ⟨_, Array.getElem?_eq_getElem h⟩

theorem test_and : s.test i (fun t => p t && q t) = (s.test i p && s.test i q) := by
  rw [test, test, test]
  cases s.get? i <;> rfl

theorem test_not (hi : i < s.size) : s.test i (fun t => !p t) = !s.test i p := by
  obtain ⟨t, ht⟩ := exists_get?_of_lt hi
  rw [test, test, ht, Option.any_some, Option.any_some]

/-! ## What is found by halving -/

theorem lt_point_iff (h : HoldsInFront p s.tokens.toList) :
    i < partitionPoint s.tokens p ↔ s.test i p = true :=
  lt_partitionPoint_iff h

/-- The place found by halving is that of the first token that fails the predicate. -/
theorem point_eq (h : HoldsInFront p s.tokens.toList) :
    partitionPoint s.tokens p = (s.scan fun t => !p t).head?.getD s.size := by
  have hlt : ∀ i, i < partitionPoint s.tokens p ↔ s.test i p = true := fun i => lt_point_iff h
  have hsize : partitionPoint s.tokens p ≤ s.size := by
    refine Nat.le_of_not_lt fun hsize => ?_
    exact Nat.lt_irrefl _ (lt_size_of_test ((hlt s.size).mp hsize))
  cases hhead : (s.scan fun t => !p t).head? with
  | none =>
      have hnone := List.head?_eq_none_iff.mp hhead
      refine Nat.le_antisymm hsize (Nat.le_of_not_lt fun hshort => ?_)
      have hmem : partitionPoint s.tokens p ∈ s.scan fun t => !p t := by
        rw [mem_scan, test_not hshort, Bool.not_eq_true', ← Bool.not_eq_true, ← hlt]
        exact Nat.lt_irrefl _
      rw [hnone] at hmem
      exact absurd hmem List.not_mem_nil
  | some i =>
      obtain ⟨hi, hbefore⟩ := head?_scan_eq_some_iff.mp hhead
      have hisize := lt_size_of_test hi
      rw [test_not hisize, Bool.not_eq_true', ← Bool.not_eq_true, ← hlt] at hi
      refine Nat.le_antisymm (Nat.le_of_not_lt hi) (Nat.le_of_not_lt fun hshort => ?_)
      have hfails := hbefore _ hshort
      rw [test_not (Nat.lt_trans hshort hisize), Bool.not_eq_false', ← hlt] at hfails
      exact Nat.lt_irrefl _ hfails

/-- A token with a given key is found by going to the first one whose key is not below it, where the
keys grow along the stream. -/
theorem search_eq {κ : Type} [LinearOrder κ] {key : Token → κ} {k : κ} {below hit : Token → Bool}
    (hkey : s.tokens.toList.Pairwise fun t u => key t ≤ key u)
    (hbelow : ∀ t, below t = true ↔ key t < k) (hhit : ∀ t, hit t = true ↔ key t = k) :
    (if s.test (partitionPoint s.tokens below) hit then some (partitionPoint s.tokens below)
      else none) = (s.scan hit).head? := by
  have hfront : HoldsInFront below s.tokens.toList := by
    refine hkey.imp fun {t u} hle hu => ?_
    rw [hbelow] at hu ⊢
    exact lt_of_le_of_lt hle hu
  have hlt : ∀ i, i < partitionPoint s.tokens below ↔ s.test i below = true :=
    fun i => lt_point_iff hfront
  refine Option.ext fun i => ?_
  rw [Option.ite_none_right_eq_some, Option.some.injEq, head?_scan_eq_some_iff]
  constructor
  · rintro ⟨hfound, rfl⟩
    refine ⟨hfound, fun j hj => Bool.eq_false_iff.mpr fun hjhit => ?_⟩
    obtain ⟨t, ht, hbelowt⟩ := test_eq_true.mp ((hlt j).mp hj)
    obtain ⟨t', ht', hhitt⟩ := test_eq_true.mp hjhit
    obtain rfl := Option.some.inj (ht.symm.trans ht')
    exact ne_of_lt ((hbelow t).mp hbelowt) ((hhit t).mp hhitt)
  · rintro ⟨hi, hbefore⟩
    obtain ⟨u, hu, hku⟩ := test_eq_true.mp hi
    rw [hhit] at hku
    have hnot : s.test i below ≠ true := by
      intro hbelowi
      obtain ⟨u', hu', hbelowu⟩ := test_eq_true.mp hbelowi
      obtain rfl := Option.some.inj (hu.symm.trans hu')
      exact ne_of_lt ((hbelow u).mp hbelowu) hku
    have hfirst : ∀ j < i, s.test j below = true := by
      intro j hj
      obtain ⟨t, ht⟩ := exists_get?_of_lt (Nat.lt_trans hj (lt_size_of_test hi))
      have hne : key t ≠ k := by
        intro heq
        exact Bool.eq_false_iff.mp (hbefore j hj) (test_eq_true.mpr ⟨t, ht, (hhit t).mpr heq⟩)
      have hle := pairwise_get? hkey hj ht hu
      rw [hku] at hle
      exact test_eq_true.mpr ⟨t, ht, (hbelow t).mpr (lt_of_le_of_ne hle hne)⟩
    have hle : partitionPoint s.tokens below ≤ i :=
      Nat.le_of_not_lt fun hshort => hnot ((hlt i).mp hshort)
    have hge : i ≤ partitionPoint s.tokens below :=
      Nat.le_of_not_lt fun hshort => Nat.lt_irrefl _ ((hlt _).mpr (hfirst _ hshort))
    obtain rfl := Nat.le_antisymm hle hge
    exact ⟨hi, rfl⟩

/-! ## The look-ups -/

/-- Every look-up finds what looking at every token finds: the first token or the last one that is
asked for, and the tokens inside a range as an interval. -/
structure AgreesWithScans (s : TokenStream) : Prop where
  firstOnLine : ∀ line, s.firstOnLine? line = (s.scan fun t => t.range.start.line == line).head?
  atOrAfter : ∀ p, s.atOrAfter p = (s.scan fun t => p ≤ t.range.start).head?.getD s.size
  startingAt : ∀ p, s.startingAt? p = (s.scan fun t => t.range.start == p).head?
  endingAt : ∀ p, s.endingAt? p = (s.scan fun t => t.range.stop == p).head?
  codeBefore : ∀ p, s.codeBefore? p = (s.scan fun t => t.isCode && t.range.stop ≤ p).getLast?
  codeAfter : ∀ p, s.codeAfter? p = (s.scan fun t => t.isCode && p ≤ t.range.start).head?
  within : ∀ r, List.range' (s.within r).1 ((s.within r).2 - (s.within r).1) =
    s.scan fun t => r.contains t.range

section

variable (hs : s.Sorted)

include hs

theorem Sorted.pairwise_start :
    s.tokens.toList.Pairwise fun t u => t.range.start ≤ u.range.start :=
  (Token.Ordered.apart hs).imp_of_mem fun ht _ hbefore =>
    le_trans (le_of_lt (Token.Ordered.proper hs _ ht)) hbefore

theorem Sorted.pairwise_stop :
    s.tokens.toList.Pairwise fun t u => t.range.stop ≤ u.range.stop :=
  (Token.Ordered.apart hs).imp_of_mem fun _ hu hbefore =>
    le_trans hbefore (le_of_lt (Token.Ordered.proper hs _ hu))

theorem Sorted.holdsInFront_start (p : Position) :
    HoldsInFront (fun t => t.range.start < p) s.tokens.toList := by
  refine hs.pairwise_start.imp fun hle hlt => ?_
  rw [decide_eq_true_iff] at hlt ⊢
  exact lt_of_le_of_lt hle hlt

theorem Sorted.holdsInFront_stop (p : Position) :
    HoldsInFront (fun t => t.range.stop ≤ p) s.tokens.toList := by
  refine hs.pairwise_stop.imp fun hle hstop => ?_
  rw [decide_eq_true_iff] at hstop ⊢
  exact le_trans hle hstop

theorem Sorted.lt_atOrAfter_iff {p : Position} :
    i < s.atOrAfter p ↔ s.test i (fun t => t.range.start < p) = true :=
  lt_point_iff (hs.holdsInFront_start p)

/-- The tokens from the place on are those that start at or after the position. -/
theorem Sorted.atOrAfter_le_iff {p : Position} (hi : i < s.size) :
    s.atOrAfter p ≤ i ↔ s.test i (fun t => p ≤ t.range.start) = true := by
  obtain ⟨t, ht⟩ := exists_get?_of_lt hi
  rw [← Nat.not_lt, hs.lt_atOrAfter_iff, test, test, ht, Option.any_some, Option.any_some,
    decide_eq_true_iff, decide_eq_true_iff, not_lt]

theorem Sorted.codeBefore?_eq (p : Position) :
    s.codeBefore? p = (s.scan fun t => t.isCode && t.range.stop ≤ p).getLast? := by
  have hlt : ∀ i, i < partitionPoint s.tokens (fun t => t.range.stop ≤ p) ↔
      s.test i (fun t => t.range.stop ≤ p) = true := fun i => lt_point_iff (hs.holdsInFront_stop p)
  refine Option.ext fun i => ?_
  rw [codeBefore?, prevCode?_eq_some_iff, getLast?_scan_eq_some_iff, hlt, test_and,
    Bool.and_eq_true, and_assoc, and_left_comm]
  refine and_congr_right fun _ => and_congr_right fun _ => forall_congr' fun j => ?_
  rw [test_and, Bool.and_eq_false_imp, hlt, ← Bool.not_eq_true (s.test j _),
    ← Bool.not_eq_true (s.test j _)]
  exact imp_congr_right fun _ => imp_not_comm

theorem Sorted.codeAfter?_eq (p : Position) :
    s.codeAfter? p = (s.scan fun t => t.isCode && p ≤ t.range.start).head? := by
  refine Option.ext fun i => ?_
  rw [codeAfter?, firstCode?_eq_some_iff, head?_scan_eq_some_iff, test_and, Bool.and_eq_true]
  constructor
  · rintro ⟨hle, _, hcode, hbefore⟩
    have hsize := lt_size_of_test hcode
    refine ⟨⟨hcode, (hs.atOrAfter_le_iff hsize).mp hle⟩, fun j hj => ?_⟩
    rw [test_and, Bool.and_eq_false_imp]
    intro hcodej
    refine Bool.eq_false_iff.mpr fun hafter => ?_
    have hlej := (hs.atOrAfter_le_iff (Nat.lt_trans hj hsize)).mpr hafter
    exact Bool.eq_false_iff.mp (hbefore j hlej hj) hcodej
  · rintro ⟨⟨hcode, hafter⟩, hbefore⟩
    have hsize := lt_size_of_test hcode
    have hle := (hs.atOrAfter_le_iff hsize).mpr hafter
    refine ⟨hle, by omega, hcode, fun j hlej hj => Bool.eq_false_iff.mpr fun hcodej => ?_⟩
    have hafterj := (hs.atOrAfter_le_iff (Nat.lt_trans hj hsize)).mp hlej
    have hnot := hbefore j hj
    rw [test_and, hcodej, hafterj] at hnot
    cases hnot

/-- A token is inside the range if it starts at its start or later and ends at its end or
earlier. -/
theorem Sorted.within_eq_scan (r : Range) :
    List.range' (s.within r).1 ((s.within r).2 - (s.within r).1) =
      s.scan fun t => r.contains t.range := by
  refine eq_of_pairwise_of_mem_iff List.pairwise_lt_range' (s.pairwise_scan _) fun i => ?_
  have hstop : i < partitionPoint s.tokens (fun t => t.range.stop ≤ r.stop) ↔
      s.test i (fun t => t.range.stop ≤ r.stop) = true := lt_point_iff (hs.holdsInFront_stop r.stop)
  have hcontains : s.test i (fun t => r.contains t.range) =
      (s.test i (fun t => r.start ≤ t.range.start) && s.test i fun t => t.range.stop ≤ r.stop) :=
    test_and
  rw [List.mem_range'_1, mem_scan, hcontains, Bool.and_eq_true, ← hstop, within]
  simp only [Nat.max_def]
  constructor
  · rintro ⟨hfirst, hlast⟩
    have hi : i < partitionPoint s.tokens (fun t => t.range.stop ≤ r.stop) := by
      split at hlast <;> omega
    exact ⟨(hs.atOrAfter_le_iff (lt_size_of_test (hstop.mp hi))).mp hfirst, hi⟩
  · rintro ⟨hfirst, hi⟩
    have hle := (hs.atOrAfter_le_iff (lt_size_of_test hfirst)).mpr hfirst
    refine ⟨hle, ?_⟩
    split <;> omega

theorem Sorted.agreesWithScans : s.AgreesWithScans where
  firstOnLine line := by
    have hline : s.tokens.toList.Pairwise fun t u => t.range.start.line ≤ u.range.start.line := by
      refine hs.pairwise_start.imp fun hle => ?_
      rw [Position.le_def] at hle
      omega
    exact search_eq hline (fun _ => decide_eq_true_iff) fun _ => beq_iff_eq
  atOrAfter p := by
    have hnot : (fun t : Token => decide (p ≤ t.range.start)) =
        fun t => !decide (t.range.start < p) := by
      funext t
      rw [← decide_not, decide_eq_decide, not_lt]
    rw [hnot]
    exact point_eq (hs.holdsInFront_start p)
  startingAt _ :=
    search_eq hs.pairwise_start (fun _ => decide_eq_true_iff) fun _ => beq_iff_eq
  endingAt _ := search_eq hs.pairwise_stop (fun _ => decide_eq_true_iff) fun _ => beq_iff_eq
  codeBefore := hs.codeBefore?_eq
  codeAfter := hs.codeAfter?_eq
  within := hs.within_eq_scan

end

/-- Tokens that have characters and do not overlap come one after the other once they are sorted,
whatever order they are given in. -/
theorem sorted_ofTokens {tokens : List Token} (hproper : ∀ t ∈ tokens, t.range.Proper)
    (happart : tokens.Pairwise fun t u => t.range.overlaps u.range = false) :
    (ofTokens tokens).Sorted := by
  have hperm := List.mergeSort_perm tokens fun a b => a.range.start ≤ b.range.start
  have hproper' : ∀ t ∈ tokens.mergeSort fun a b => a.range.start ≤ b.range.start,
      t.range.Proper := fun t ht => hproper t (hperm.mem_iff.mp ht)
  have hsymm : ∀ {t u : Token}, t.range.overlaps u.range = false →
      u.range.overlaps t.range = false := by
    intro t u h
    rw [Range.overlaps, Bool.and_comm]
    exact h
  refine ⟨Nat.le_refl _, hproper', ?_⟩
  have hstarts := Token.pairwise_mergeSort tokens
  have hapart := (hperm.pairwise_iff hsymm).mpr happart
  refine (hstarts.and hapart).imp_of_mem fun {t u} _ hu ⟨hle, hnot⟩ => ?_
  rw [Range.overlaps, Bool.and_eq_false_imp, decide_eq_true_iff, decide_eq_false_iff_not] at hnot
  exact not_lt.mp (hnot (lt_of_le_of_lt hle (hproper' u hu)))

end TokenStream

/-! ## Targets inside a statement -/

namespace Tree.TargetIndex

/-- The targets inside a statement, found by looking at every target. -/
def scan (f : File) (statement : Range) : List TargetEntry :=
  (f.targets.filterMap fun t => t.range.map fun r => TargetEntry.mk t.name r).filter
    fun e => statement.contains e.range

theorem within_eq_filter {entries : Array TargetEntry} {statement : Range}
    (hproper : ∀ e ∈ entries.toList, e.range.Proper)
    (hsorted : entries.toList.Pairwise fun a b => a.range.start ≤ b.range.start) :
    (TargetIndex.mk entries).within statement =
      entries.toList.filter fun e => statement.contains e.range := by
  have hfront : ∀ p : Position, HoldsInFront (fun e => e.range.start < p) entries.toList := by
    intro p
    refine hsorted.imp fun hle hlt => ?_
    rw [decide_eq_true_iff] at hlt ⊢
    exact lt_of_le_of_lt hle hlt
  have hdrop := List.dropWhile_sublist (l := entries.toList)
    fun e => decide (e.range.start < statement.start)
  simp only [within, partitionPoint_eq_findIdx (hfront _), ← List.dropWhile_eq_drop_findIdx_not]
  rw [filter_takeWhile ((hfront _).sublist hdrop), filter_dropWhile]
  · -- in front of the statement nothing is inside of it
    intro e _ hstart
    rw [Range.contains, Bool.and_eq_false_imp, decide_eq_true_iff]
    intro hle
    exact absurd (decide_eq_true_iff.mp hstart) (not_lt_of_ge hle)
  · -- what is inside starts before the statement ends
    intro e he hcontains
    have hstop := (Range.contains_iff.mp hcontains).2
    exact decide_eq_true_iff.mpr (lt_of_lt_of_le (hproper e (hdrop.subset he)) hstop)

/-- The targets inside a statement are those that are found by looking at every target, sorted by
where they start. -/
theorem within_eq_scan {f : File} (hproper : ∀ t ∈ f.targets, ∀ r, t.range = some r → r.Proper)
    (statement : Range) : (ofFile f).within statement =
      (scan f statement).mergeSort fun a b => a.range.start ≤ b.range.start := by
  have hle : ∀ a b : TargetEntry, decide (a.range.start ≤ b.range.start) = true ↔
      a.range.start ≤ b.range.start := fun a b => decide_eq_true_iff
  rw [scan, ← filter_mergeSort hle]
  refine within_eq_filter (fun e he => ?_) (pairwise_mergeSort_key hle _)
  obtain ⟨t, ht, hentry⟩ := List.mem_filterMap.mp (List.mem_mergeSort.mp he)
  obtain ⟨r, hr, rfl⟩ := Option.map_eq_some_iff.mp hentry
  exact hproper t ht r hr

end Tree.TargetIndex

/-- In a stream of tokens that have characters and do not overlap, given in any order, every look-up
finds what a scan finds. The targets inside a statement are those that a scan finds, by their
starts. -/
theorem lookups_agree_with_scans :
    (∀ tokens : List Token, (∀ t ∈ tokens, t.range.Proper) →
      (tokens.Pairwise fun t u => t.range.overlaps u.range = false) →
      (TokenStream.ofTokens tokens).tokens.toList.Perm tokens ∧
        (TokenStream.ofTokens tokens).Sorted ∧ (TokenStream.ofTokens tokens).AgreesWithScans) ∧
    ∀ f : Tree.File, (∀ t ∈ f.targets, ∀ r, t.range = some r → r.Proper) → ∀ statement : Range,
      (Tree.TargetIndex.ofFile f).within statement =
        (Tree.TargetIndex.scan f statement).mergeSort fun a b => a.range.start ≤ b.range.start := by
  refine ⟨fun tokens hproper hapart => ?_, fun f hproper statement =>
    Tree.TargetIndex.within_eq_scan hproper statement⟩
  have hsorted := TokenStream.sorted_ofTokens hproper hapart
  exact ⟨List.mergeSort_perm tokens _, hsorted, hsorted.agreesWithScans⟩

/-- The tokens of `@UI // note` and, on the next line, `, x`, from the last to the first. -/
def scatteredTokens : List Token :=
  [⟨.identifier, "x", ⟨⟨1, 4⟩, ⟨1, 5⟩⟩, none⟩, ⟨.punctuation, ",", ⟨⟨1, 2⟩, ⟨1, 3⟩⟩, none⟩,
    ⟨.lineComment, "// note", ⟨⟨0, 4⟩, ⟨0, 11⟩⟩, none⟩, ⟨.identifier, "UI", ⟨⟨0, 1⟩, ⟨0, 3⟩⟩, none⟩,
    ⟨.punctuation, "@", ⟨⟨0, 0⟩, ⟨0, 1⟩⟩, none⟩]

/-- An entity whose range holds that of its element, behind another one, and one without a range. -/
def nestedTargets : Tree.File :=
  ⟨"a.cds", none, [], [⟨"F", some ⟨⟨5, 0⟩, ⟨5, 9⟩⟩, none, []⟩, ⟨"E/x", some ⟨⟨1, 4⟩, ⟨1, 9⟩⟩, none, []⟩,
    ⟨"E", some ⟨⟨0, 0⟩, ⟨3, 1⟩⟩, none, []⟩, ⟨"G", none, none, []⟩]⟩

/-- Look-ups at places between tokens, at their starts and at their ends. -/
theorem lookups_agree_with_scans_scattered :
    let s := TokenStream.ofTokens scatteredTokens
    s.firstOnLine? 1 = some 3 ∧ s.firstOnLine? 2 = none ∧ s.atOrAfter ⟨0, 2⟩ = 2 ∧
      s.startingAt? ⟨0, 4⟩ = some 2 ∧ s.endingAt? ⟨0, 11⟩ = some 2 ∧ s.endingAt? ⟨0, 10⟩ = none ∧
      s.codeBefore? ⟨1, 0⟩ = some 1 ∧ s.codeAfter? ⟨0, 4⟩ = some 3 ∧
      List.range' (s.within ⟨⟨0, 1⟩, ⟨1, 3⟩⟩).1
        ((s.within ⟨⟨0, 1⟩, ⟨1, 3⟩⟩).2 - (s.within ⟨⟨0, 1⟩, ⟨1, 3⟩⟩).1) = [1, 2, 3] ∧
      ((Tree.TargetIndex.ofFile nestedTargets).within ⟨⟨0, 0⟩, ⟨3, 2⟩⟩).map (·.name) =
        ["E", "E/x"] := by
  have hproper : ∀ t ∈ scatteredTokens, t.range.start < t.range.stop := by decide
  have htargets : ∀ t ∈ nestedTargets.targets, ∀ r ∈ t.range, r.start < r.stop := by decide
  obtain ⟨_, _, h⟩ := lookups_agree_with_scans.1 scatteredTokens hproper (by decide)
  refine ⟨(h.firstOnLine 1).trans ?_, (h.firstOnLine 2).trans ?_, (h.atOrAfter _).trans ?_,
    (h.startingAt _).trans ?_, (h.endingAt _).trans ?_, (h.endingAt _).trans ?_,
    (h.codeBefore _).trans ?_, (h.codeAfter _).trans ?_, (h.within _).trans ?_,
    (congrArg _ (lookups_agree_with_scans.2 nestedTargets htargets _)).trans ?_⟩
  all_goals cbv

end AnnotationEdit

import AnnotationEdit.Deletion.Merge
import AnnotationEdit.Deletion.Edits
import AnnotationEdit.Proofs.Token.Lookup

/-!
# Growing and merging

What a round of growing and merging does to the ranges of a batch. A range only gets larger
(`expand_grows`), nothing that a range covers is lost when ranges are merged, and the merged
ranges come in order with something between them (`merged_merge`). No range leaves the tokens in any
round (`inBounds_iterate`).
-/

namespace AnnotationEdit

theorem narrow_le {α : Type} (xs : Array α) (p : α → Bool) (base size : Nat) :
    narrow xs p base size ≤ base + size := by
  fun_induction narrow xs p base size with
  | case1 base size _ => exact Nat.le_add_right base size
  | case2 base size h ih =>
      refine Nat.le_trans ih ?_
      split <;> omega

theorem partitionPoint_le {α : Type} (xs : Array α) (p : α → Bool) :
    partitionPoint xs p ≤ xs.size := by
  rw [partitionPoint]
  split
  · next h =>
    obtain ⟨a, ha, _⟩ := (Option.any_eq_true _ _).mp h
    exact (Array.getElem?_eq_some_iff.mp ha).1
  · exact Nat.le_trans (narrow_le xs p 0 xs.size) (Nat.le_of_eq (Nat.zero_add _))

namespace DeletionRange

/-- The range has a first and a last token. -/
structure InBounds (tokens : TokenStream) (r : DeletionRange) : Prop where
  first_le_last : r.tokens.first ≤ r.tokens.last
  last_lt : r.tokens.last < tokens.size

/-- The range takes in all tokens of another one. -/
structure Covers (s r : DeletionRange) : Prop where
  first_le : s.tokens.first ≤ r.tokens.first
  last_le : r.tokens.last ≤ s.tokens.last

theorem Covers.refl (r : DeletionRange) : r.Covers r := ⟨Nat.le_refl _, Nat.le_refl _⟩

theorem Covers.trans {r s t : DeletionRange} (hst : s.Covers t) (hrs : r.Covers s) : r.Covers t :=
  ⟨Nat.le_trans hrs.first_le hst.first_le, Nat.le_trans hst.last_le hrs.last_le⟩

/-- The range has grown into another one without leaving the tokens. -/
structure Grows (tokens : TokenStream) (r s : DeletionRange) : Prop extends s.Covers r where
  last_lt : r.tokens.last < tokens.size → s.tokens.last < tokens.size

variable {tokens : TokenStream} {context : DeletionContext} {r s : DeletionRange}

theorem Grows.refl (r : DeletionRange) : Grows tokens r r := ⟨.refl r, id⟩

theorem Grows.trans {t : DeletionRange} (hrs : Grows tokens r s) (hst : Grows tokens s t) :
    Grows tokens r t :=
  ⟨hrs.toCovers.trans hst.toCovers, hst.last_lt ∘ hrs.last_lt⟩

theorem Grows.inBounds (hgrows : Grows tokens r s) (h : r.InBounds tokens) : s.InBounds tokens :=
  ⟨Nat.le_trans hgrows.first_le (Nat.le_trans h.first_le_last hgrows.last_le),
    hgrows.last_lt h.last_lt⟩

/-- A range grows towards a token in front of it and one behind it. -/
theorem Grows.withTokens {first last : Nat} (hfirst : first ≤ r.tokens.first)
    (hlast : r.tokens.last ≤ last) (hlt : last = r.tokens.last ∨ last < tokens.size)
    (hs : s.tokens = ⟨first, last⟩) : Grows tokens r s := by
  refine ⟨⟨hs ▸ hfirst, hs ▸ hlast⟩, fun h => ?_⟩
  rw [hs]
  rcases hlt with rfl | hlt
  · exact h
  · exact hlt

/-! ## Growing -/

theorem ofNode?_inBounds {node : Range} {term : Option String} {vocabulary : Vocabulary}
    {pattern : PrintPattern} {sibling : Nat}
    (h : ofNode? tokens node term vocabulary pattern sibling = some r) : r.InBounds tokens := by
  simp only [ofNode?] at h
  split at h
  · next hlt =>
    obtain rfl := Option.some.inj h
    have hstop := partitionPoint_le tokens.tokens fun t => decide (t.range.stop ≤ node.stop)
    have hfirst := partitionPoint_le tokens.tokens fun t => decide (t.range.start < node.start)
    have hbound : (tokens.within node).2 ≤ tokens.size := Nat.max_le.mpr ⟨hstop, hfirst⟩
    exact ⟨Nat.le_sub_one_of_lt hlt, by show (tokens.within node).2 - 1 < tokens.size; omega⟩
  · cases h

/-- What a comment at the edge of a range is taken in for. -/
theorem absorbComment?_eq_some (h : absorbComment? tokens r = some s) :
    (0 < r.tokens.first ∧ tokens.test (r.tokens.first - 1) Token.isComment = true ∧
      tokens.isFirstOnLine (r.tokens.first - 1) = true ∧
      s = r.withTokens (r.tokens.first - 1) r.tokens.last) ∨
    ((tokens.trailingComment? r.tokens.last).isSome = true ∧
      s = r.withTokens r.tokens.first (r.tokens.last + 1)) := by
  simp only [absorbComment?] at h
  split at h
  · next habove =>
    simp only [Bool.and_eq_true, decide_eq_true_eq] at habove
    exact Or.inl ⟨habove.1.1.1, habove.1.1.2, habove.1.2, (Option.some.inj h).symm⟩
  · split at h
    · next hbehind => exact Or.inr ⟨hbehind, (Option.some.inj h).symm⟩
    · cases h

theorem lt_size_of_trailingComment? {i : Nat} (h : (tokens.trailingComment? i).isSome = true) :
    i + 1 < tokens.size := by
  simp only [TokenStream.trailingComment?] at h
  split at h
  · next hnext => exact TokenStream.lt_size_of_get? hnext
  · cases h

theorem absorbComment?_grows (h : absorbComment? tokens r = some s) : Grows tokens r s := by
  rcases absorbComment?_eq_some h with ⟨_, _, _, rfl⟩ | ⟨hbehind, rfl⟩
  · exact .withTokens (Nat.sub_le _ _) (Nat.le_refl _) (Or.inl rfl) rfl
  · exact .withTokens (Nat.le_refl _) (Nat.le_succ _)
      (Or.inr (lt_size_of_trailingComment? hbehind)) rfl

theorem follower?_lt {i : Nat} (h : follower? tokens r = some i) : i < tokens.size := by
  simp only [follower?] at h
  split at h
  · next next hnext =>
    split at h
    · exact (TokenStream.nextCode?_bounds h).2
    · exact Option.some.inj h ▸ (TokenStream.nextCode?_bounds hnext).2
  · cases h

theorem absorbBrackets?_grows (h : absorbBrackets? tokens r = some s) : Grows tokens r s := by
  simp only [absorbBrackets?] at h
  split at h
  · split at h
    · next opening closing hopening hclosing =>
      have hfirst := Nat.le_of_lt (TokenStream.prevCode?_lt hopening)
      have hlast := Nat.le_of_lt (follower?_gt hclosing)
      have hlt := follower?_lt hclosing
      simp only [enclose?] at h
      split at h
      · next sign _ hsign =>
        have hbefore := TokenStream.prevCode?_lt (Option.filter_eq_some_iff.mp hsign).1
        obtain rfl := Option.some.inj h
        exact .withTokens (Nat.le_trans (Nat.le_of_lt hbefore) hfirst) hlast (Or.inr hlt) rfl
      · split at h
        · obtain rfl := Option.some.inj h
          exact .withTokens hfirst hlast (Or.inr hlt) rfl
        · cases h
    · cases h
  · cases h

theorem absorbSign?_grows (h : absorbSign? tokens r = some s) : Grows tokens r s := by
  simp only [absorbSign?] at h
  split at h
  · obtain rfl := Option.some.inj h
    exact .withTokens (Nat.sub_le _ _) (Nat.le_refl _) (Or.inl rfl) rfl
  · cases h

theorem absorbName?_grows (h : absorbName? tokens r = some s) : Grows tokens r s := by
  simp only [absorbName?] at h
  split at h
  · rcases Option.or_eq_some_iff.mp h with h | ⟨_, h⟩
    · simp only [nameBefore?, Option.bind_eq_bind, Option.bind_eq_some_iff] at h
      obtain ⟨i, hi, kind, _, h⟩ := h
      split at h
      · obtain rfl := Option.some.inj h
        exact .withTokens (Nat.le_of_lt (TokenStream.prevCode?_lt hi)) (Nat.le_refl _)
          (Or.inl rfl) rfl
      · cases h
    · simp only [nameAfter?, Option.bind_eq_bind, Option.bind_eq_some_iff] at h
      obtain ⟨i, hi, kind, _, h⟩ := h
      split at h
      · obtain rfl := Option.some.inj h
        have hbounds := TokenStream.nextCode?_bounds hi
        exact .withTokens (Nat.le_refl _) (Nat.le_of_lt hbounds.1) (Or.inr hbounds.2) rfl
      · cases h
  · cases h

theorem absorbClause?_grows (h : absorbClause? context r = some s) :
    Grows context.tokens r s := by
  simp only [absorbClause?] at h
  split at h
  · simp only [Option.bind_eq_bind, Option.bind_eq_some_iff] at h
    obtain ⟨previous, hprevious, ⟨name, clause⟩, hname, start, hstart, h⟩ := h
    have hfirst := TokenStream.prevCode?_lt hprevious
    have hle := clauseName?_le hname
    have hlt := TokenStream.annotateBefore?_lt hstart
    simp only [absorbClauseFrom?] at h
    split at h
    · split at h
      · obtain rfl := Option.some.inj h
        exact .withTokens (Nat.le_of_lt hfirst) (Nat.le_refl _) (Or.inl rfl) rfl
      · cases h
    · split at h
      · obtain rfl := Option.some.inj h
        exact .withTokens (by omega) (Nat.le_refl _) (Or.inl rfl) rfl
      · cases h
  · cases h

/-- Whatever rule applies, the range grows. -/
theorem grow?_grows (h : grow? context r = some s) : Grows context.tokens r s := by
  simp only [grow?, Option.or_eq_some_iff] at h
  rcases h with h | ⟨_, h | ⟨_, h | ⟨_, h | ⟨_, h⟩⟩⟩⟩
  · exact absorbComment?_grows h
  · exact absorbBrackets?_grows h
  · exact absorbSign?_grows h
  · exact absorbName?_grows h
  · exact absorbClause?_grows h

/-- What holds of a range and is kept by every step of growth holds in the end. -/
theorem expand_induction {P : DeletionRange → Prop}
    (hgrow : ∀ r s, grow? context r = some s → P r → P s)
    (hmark : ∀ r, P r → P { r with expanded := true }) (r : DeletionRange) (h : P r) :
    P (expand context r) := by
  fun_induction expand context r with
  | case1 r s hs ih => exact ih (hgrow r s hs h)
  | case2 r _ => exact hmark r h

theorem expand_grows (r : DeletionRange) : Grows context.tokens r (expand context r) :=
  expand_induction (fun _ _ hgrow h => h.trans (grow?_grows hgrow))
    (fun _ h => h.trans (.withTokens (Nat.le_refl _) (Nat.le_refl _) (Or.inl rfl) rfl)) r (.refl r)

/-! ## Merging -/

/-- The first tokens come in order. -/
def Ascending (ranges : List DeletionRange) : Prop :=
  ranges.Pairwise fun r s => r.tokens.first ≤ s.tokens.first

theorem comesFirst_eq_true {a b : DeletionRange} : comesFirst a b = true ↔
    a.tokens.first < b.tokens.first ∨
      a.tokens.first = b.tokens.first ∧ a.tokens.last ≤ b.tokens.last := by
  have hle : ∀ o : Ordering, (o != .gt) = o.isLE := by decide
  rw [comesFirst, hle, Ordering.isLE_then_iff_or, Nat.compare_eq_lt, Nat.compare_eq_eq,
    Nat.isLE_compare]

theorem ascending_mergeSort (ranges : List DeletionRange) :
    Ascending (ranges.mergeSort comesFirst) := by
  refine (List.pairwise_mergeSort ?_ ?_ ranges).imp ?_
  · intro a b c hab hbc
    rw [comesFirst_eq_true] at hab hbc ⊢
    omega
  · intro a b
    rw [Bool.or_eq_true, comesFirst_eq_true, comesFirst_eq_true]
    omega
  · intro a b hab
    rcases comesFirst_eq_true.mp hab with h | ⟨h, _⟩
    · exact Nat.le_of_lt h
    · exact Nat.le_of_eq h

theorem dropRepeated_sublist (ranges : List DeletionRange) :
    (dropRepeated ranges).Sublist ranges := by
  fun_induction dropRepeated ranges with
  | case1 => exact List.Sublist.refl []
  | case2 r => exact List.Sublist.refl [r]
  | case3 r rest ih => exact ih.cons r
  | case4 r s rest _ ih => exact ih.cons_cons r

theorem mem_dropRepeated {ranges : List DeletionRange} {r : DeletionRange} :
    r ∈ dropRepeated ranges ↔ r ∈ ranges := by
  refine ⟨fun h => (dropRepeated_sublist ranges).subset h, fun h => ?_⟩
  fun_induction dropRepeated ranges with
  | case1 => exact h
  | case2 => exact h
  | case3 r' rest ih =>
      rcases List.mem_cons.mp h with rfl | h
      · exact ih List.mem_cons_self
      · exact ih h
  | case4 r' s rest _ ih =>
      rcases List.mem_cons.mp h with rfl | h
      · exact List.mem_cons_self
      · exact List.mem_cons_of_mem _ (ih h)

theorem combine_covers_left (l r : DeletionRange) : (combine l r).Covers l :=
  ⟨Nat.min_le_left _ _, Nat.le_max_left _ _⟩

theorem combine_covers_right (l r : DeletionRange) : (combine l r).Covers r :=
  ⟨Nat.min_le_right _ _, Nat.le_max_right _ _⟩

theorem combine_first {l r : DeletionRange} (h : l.tokens.first ≤ r.tokens.first) :
    (combine l r).tokens.first = l.tokens.first :=
  Nat.min_eq_left h

/-- What holds of all ranges and is kept when neighbours are combined holds after a sweep, and the
first tokens still come in order. -/
theorem sweepFrom_induction {P : DeletionRange → Prop}
    (hcombine : ∀ l r, l.tokens.first ≤ r.tokens.first → adjacent tokens l r = true → P l → P r →
      P (combine l r)) :
    ∀ {ranges : List DeletionRange} {current : DeletionRange}, Ascending (current :: ranges) →
      (∀ r ∈ current :: ranges, P r) →
      Ascending (sweepFrom tokens current ranges) ∧
        ∀ r ∈ sweepFrom tokens current ranges, P r ∧ current.tokens.first ≤ r.tokens.first
  | [], current, _, hall => by
      refine ⟨List.pairwise_singleton _ _, fun r hr => ?_⟩
      obtain rfl := List.mem_singleton.mp hr
      exact ⟨hall r List.mem_cons_self, Nat.le_refl _⟩
  | next :: ranges, current, hasc, hall => by
      obtain ⟨hbefore, hrest⟩ := List.pairwise_cons.mp hasc
      obtain ⟨hcurrent, hall⟩ := List.forall_mem_cons.mp hall
      obtain ⟨hnext, hranges⟩ := List.forall_mem_cons.mp hall
      have hle := hbefore next List.mem_cons_self
      rw [sweepFrom]
      split
      · next hadjacent =>
        have hfirst := combine_first hle
        have hasc' : Ascending (combine current next :: ranges) := by
          refine List.pairwise_cons.mpr ⟨fun r hr => ?_, (List.pairwise_cons.mp hrest).2⟩
          rw [hfirst]
          exact hbefore r (List.mem_cons_of_mem _ hr)
        have hstep := sweepFrom_induction hcombine hasc' (List.forall_mem_cons.mpr
          ⟨hcombine current next hle hadjacent hcurrent hnext, hranges⟩)
        rw [hfirst] at hstep
        exact hstep
      · obtain ⟨hasc', hall'⟩ := sweepFrom_induction hcombine hrest hall
        have hafter : ∀ r ∈ sweepFrom tokens next ranges,
            current.tokens.first ≤ r.tokens.first :=
          fun r hr => Nat.le_trans hle (hall' r hr).2
        refine ⟨List.pairwise_cons.mpr ⟨hafter, hasc'⟩, ?_⟩
        refine List.forall_mem_cons.mpr ⟨⟨hcurrent, Nat.le_refl _⟩, fun r hr => ?_⟩
        exact ⟨(hall' r hr).1, hafter r hr⟩

/-- A sweep loses nothing. -/
theorem exists_covers_sweepFrom (tokens : TokenStream) :
    ∀ {ranges : List DeletionRange} {current r : DeletionRange}, r ∈ current :: ranges →
      ∃ s ∈ sweepFrom tokens current ranges, s.Covers r
  | [], current, r, hr => ⟨r, hr, .refl r⟩
  | next :: ranges, current, r, hr => by
      rw [sweepFrom]
      split
      · -- the combined range stands for both
        have hcombined : ∃ s ∈ combine current next :: ranges, s.Covers r := by
          rcases List.mem_cons.mp hr with rfl | hr
          · exact ⟨_, List.mem_cons_self, combine_covers_left r next⟩
          · rcases List.mem_cons.mp hr with rfl | hr
            · exact ⟨_, List.mem_cons_self, combine_covers_right current r⟩
            · exact ⟨r, List.mem_cons_of_mem _ hr, .refl r⟩
        obtain ⟨s, hs, hcovers⟩ := hcombined
        obtain ⟨t, ht, hcovers'⟩ := exists_covers_sweepFrom tokens hs
        exact ⟨t, ht, hcovers.trans hcovers'⟩
      · rcases List.mem_cons.mp hr with rfl | hr
        · exact ⟨r, List.mem_cons_self, .refl r⟩
        · obtain ⟨s, hs, hcovers⟩ := exists_covers_sweepFrom tokens hr
          exact ⟨s, List.mem_cons_of_mem _ hs, hcovers⟩

/-- A sweep that joins nothing has met no neighbours that are adjacent. -/
theorem isChain_of_length_sweepFrom (tokens : TokenStream) :
    ∀ (ranges : List DeletionRange) (current : DeletionRange),
      (sweepFrom tokens current ranges).length ≤ ranges.length + 1 ∧
      ((sweepFrom tokens current ranges).length = ranges.length + 1 →
        sweepFrom tokens current ranges = current :: ranges ∧
          (current :: ranges).IsChain fun r s => adjacent tokens r s = false)
  | [], current => ⟨Nat.le_refl _, fun _ => ⟨rfl, List.IsChain.singleton _⟩⟩
  | next :: ranges, current => by
      rw [sweepFrom]
      split
      · have hlength := (isChain_of_length_sweepFrom tokens ranges (combine current next)).1
        exact ⟨Nat.le_succ_of_le hlength, fun h => by rw [List.length_cons] at h; omega⟩
      · next hadjacent =>
        obtain ⟨hlength, hsame⟩ := isChain_of_length_sweepFrom tokens ranges next
        refine ⟨Nat.succ_le_succ hlength, fun h => ?_⟩
        obtain ⟨heq, hchain⟩ := hsame (Nat.succ.inj h)
        rw [heq]
        exact ⟨rfl, List.isChain_cons_cons.mpr ⟨Bool.eq_false_iff.mpr hadjacent, hchain⟩⟩

/-- What holds of the ranges of a batch when they are merged. -/
structure Merged (tokens : TokenStream) (P : DeletionRange → Prop)
    (ranges merged : List DeletionRange) : Prop where
  ascending : Ascending merged
  apart : merged.IsChain fun r s => adjacent tokens r s = false
  all : ∀ r ∈ merged, P r
  covers : ∀ r ∈ ranges, ∃ s ∈ merged, s.Covers r

theorem merged_mergeSorted {P : DeletionRange → Prop}
    (hcombine : ∀ l r, l.tokens.first ≤ r.tokens.first → adjacent tokens l r = true → P l → P r →
      P (combine l r)) (ranges : List DeletionRange) (hasc : Ascending ranges)
    (hall : ∀ r ∈ ranges, P r) : Merged tokens P ranges (mergeSorted tokens ranges) := by
  fun_induction mergeSorted tokens ranges with
  | case1 ranges next hlt ih =>
      cases ranges with
      | nil => cases hlt
      | cons current rest =>
          obtain ⟨hasc', hall'⟩ := sweepFrom_induction hcombine hasc hall
          have hmerged := ih hasc' fun r hr => (hall' r hr).1
          refine ⟨hmerged.ascending, hmerged.apart, hmerged.all, fun r hr => ?_⟩
          obtain ⟨s, hs, hcovers⟩ := exists_covers_sweepFrom tokens hr
          obtain ⟨t, ht, hcovers'⟩ := hmerged.covers s hs
          exact ⟨t, ht, hcovers.trans hcovers'⟩
  | case2 ranges next hge =>
      cases ranges with
      | nil => exact ⟨hasc, .nil, hall, fun r hr => absurd hr List.not_mem_nil⟩
      | cons current rest =>
          have hsweep := isChain_of_length_sweepFrom tokens rest current
          obtain ⟨heq, hchain⟩ := hsweep.2 (Nat.le_antisymm hsweep.1 (Nat.le_of_not_lt hge))
          show Merged tokens P (current :: rest) (sweepFrom tokens current rest)
          rw [heq]
          exact ⟨hasc, hchain, hall, fun r hr => ⟨r, hr, .refl r⟩⟩

theorem merged_merge {P : DeletionRange → Prop}
    (hcombine : ∀ l r, l.tokens.first ≤ r.tokens.first → adjacent tokens l r = true → P l → P r →
      P (combine l r)) {ranges : List DeletionRange} (hall : ∀ r ∈ ranges, P r) :
    Merged tokens P ranges (merge tokens ranges) := by
  have hmem : ∀ r, r ∈ dropRepeated (ranges.mergeSort comesFirst) ↔ r ∈ ranges := fun r => by
    rw [mem_dropRepeated, (List.mergeSort_perm ranges comesFirst).mem_iff]
  have hasc := (ascending_mergeSort ranges).sublist (dropRepeated_sublist _)
  have hmerged := merged_mergeSorted hcombine _ hasc fun r hr => hall r ((hmem r).mp hr)
  exact ⟨hmerged.ascending, hmerged.apart, hmerged.all,
    fun r hr => hmerged.covers r ((hmem r).mpr hr)⟩

/-! ## Rounds -/

theorem exists_lastRound {P : List DeletionRange → Prop}
    (hstep : ∀ ranges, P ranges → P (expandAndMerge context ranges)) :
    ∀ (n : Nat) {ranges : List DeletionRange}, P ranges →
      ∃ last, P last ∧ settleWithin context (n + 1) ranges = expandAndMerge context last
  | 0, ranges, h => by
      refine ⟨ranges, h, ?_⟩
      rw [settleWithin]
      split
      · next heq => exact heq.symm
      · rfl
  | n + 1, ranges, h => by
      rw [settleWithin]
      split
      · next heq => exact ⟨ranges, h, heq.symm⟩
      · exact exists_lastRound hstep n (hstep ranges h)

/-- The ranges that are written come out of a round. -/
theorem exists_settle {P : List DeletionRange → Prop}
    (hstep : ∀ ranges, P ranges → P (expandAndMerge context ranges))
    {ranges : List DeletionRange} (h : P ranges) :
    ∃ last, P last ∧ settle context ranges = expandAndMerge context last :=
  exists_lastRound hstep _ h

theorem combine_inBounds {l r : DeletionRange} (hl : l.InBounds tokens) (hr : r.InBounds tokens) :
    (combine l r).InBounds tokens :=
  ⟨Nat.le_trans (Nat.min_le_left _ _) (Nat.le_trans hl.first_le_last (Nat.le_max_left _ _)),
    Nat.max_lt.mpr ⟨hl.last_lt, hr.last_lt⟩⟩

theorem expandAndMerge_inBounds {ranges : List DeletionRange}
    (h : ∀ r ∈ ranges, r.InBounds context.tokens) :
    ∀ r ∈ expandAndMerge context ranges, r.InBounds context.tokens := by
  refine (merged_merge (fun l r _ _ hl hr => combine_inBounds hl hr) ?_).all
  intro s hs
  obtain ⟨r, hr, rfl⟩ := List.mem_map.mp hs
  exact (expand_grows r).inBounds (h r hr)

/-- No range leaves the tokens, however many rounds are made. -/
theorem inBounds_iterate {ranges : List DeletionRange}
    (h : ∀ r ∈ ranges, r.InBounds context.tokens) (n : Nat) :
    ∀ r ∈ (expandAndMerge context)^[n] ranges, r.InBounds context.tokens := by
  induction n generalizing ranges with
  | zero => exact h
  | succ n ih => exact ih (expandAndMerge_inBounds h)

theorem settle_inBounds {ranges : List DeletionRange}
    (h : ∀ r ∈ ranges, r.InBounds context.tokens) :
    ∀ r ∈ settle context ranges, r.InBounds context.tokens := by
  obtain ⟨last, hlast, heq⟩ := exists_settle
    (P := fun ranges => ∀ r ∈ ranges, r.InBounds context.tokens)
    (fun _ h => expandAndMerge_inBounds h) h
  rw [heq]
  exact expandAndMerge_inBounds hlast

theorem lastWithSeparator_lt (h : r.InBounds tokens) : r.lastWithSeparator tokens < tokens.size := by
  rw [lastWithSeparator]
  split
  · next next hnext =>
    split
    · split
      · next hcomment => exact lt_size_of_trailingComment? hcomment
      · exact (TokenStream.nextCode?_bounds hnext).2
    · exact h.last_lt
  · exact h.last_lt

end DeletionRange

end AnnotationEdit

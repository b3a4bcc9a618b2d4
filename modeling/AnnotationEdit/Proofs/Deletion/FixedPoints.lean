import AnnotationEdit.Proofs.Deletion.Settling
import AnnotationEdit.Token.Lexer
import Mathlib.Data.List.Chain
import Mathlib.Data.List.Pairwise

/-!
# Where growing and merging end

Growing a range and settling a list of ranges are loops that run until nothing changes. `Expands` and
`Settles` are these loops without a bound on their turns. Both come to an end on every input: a step
of growth leaves fewer tokens to take in, and a round in which no range takes in a token and no two
are joined is followed by at most one more (`settles_settle`). Where the loops have ended nothing is
left to do: no rule applies to any range, neighbours are apart, and neither another round nor all of
them once more change anything (`settled_settle`).
-/

namespace AnnotationEdit.DeletionRange

variable {tokens : TokenStream} {context : DeletionContext} {r s t : DeletionRange}
  {ranges result : List DeletionRange}

/-! ## The end of growth -/

/-- The range with the mark that it has been grown. -/
def marked (r : DeletionRange) : DeletionRange := { r with expanded := true }

/-- One rule after another until none applies; the range is then marked. -/
inductive Expands (context : DeletionContext) : DeletionRange → DeletionRange → Prop
  | done {r : DeletionRange} (h : grow? context r = none) : Expands context r r.marked
  | step {r s t : DeletionRange} (h : grow? context r = some s) (hs : Expands context s t) :
      Expands context r t

theorem expands_expand (r : DeletionRange) : Expands context r (expand context r) := by
  fun_induction expand context r with
  | case1 r s h ih => exact .step h ih
  | case2 r h => exact .done h

theorem expand_of_none (h : grow? context r = none) : expand context r = r.marked := by
  rw [expand]
  split
  · next hs => rw [h] at hs; cases hs
  · rfl

theorem expand_of_some (h : grow? context r = some s) : expand context r = expand context s := by
  rw [expand]
  split
  · next hs => rw [h] at hs; cases hs; rfl
  · next hs => rw [h] at hs; cases hs

/-! The mark has no part in the rules. -/

theorem absorbComment?_marked (h : absorbComment? tokens r = none) :
    absorbComment? tokens r.marked = none := by
  simp only [absorbComment?] at h ⊢
  split_ifs at h with habove hbehind
  exact (if_neg habove).trans (if_neg hbehind)

theorem enclose?_marked {opening closing : Nat} (h : enclose? tokens r opening closing = none) :
    enclose? tokens r.marked opening closing = none := by
  simp only [enclose?] at h ⊢
  split at h
  · cases h
  · next hcompound =>
    split_ifs at h with hblock
    split
    · next hsome hsign => exact (hcompound _ hsome hsign).elim
    · exact if_neg hblock

theorem absorbBrackets?_marked (h : absorbBrackets? tokens r = none) :
    absorbBrackets? tokens r.marked = none := by
  simp only [absorbBrackets?] at h ⊢
  by_cases htarget : r.includeTarget = true
  · rw [if_pos htarget] at h
    refine (if_pos htarget).trans ?_
    have hprev : tokens.prevCode? r.marked.tokens.first = tokens.prevCode? r.tokens.first := rfl
    have hfollower : follower? tokens r.marked = follower? tokens r := rfl
    rw [hprev, hfollower]
    cases hopening : tokens.prevCode? r.tokens.first with
    | none => rfl
    | some opening =>
      cases hclosing : follower? tokens r with
      | none => rfl
      | some closing =>
        rw [hopening, hclosing] at h
        exact enclose?_marked h
  · exact if_neg htarget

theorem absorbSign?_marked (h : absorbSign? tokens r = none) :
    absorbSign? tokens r.marked = none := by
  simp only [absorbSign?] at h ⊢
  split_ifs at h with hsign
  exact if_neg hsign

theorem absorbName?_marked (h : absorbName? tokens r = none) :
    absorbName? tokens r.marked = none := by
  simp only [absorbName?, nameBefore?, nameAfter?, Option.bind_eq_bind] at h ⊢
  by_cases hkind : (r.includeTarget &&
      (r.kind == DeletionKind.annotation || r.kind == .assignments)) = true
  · rw [if_pos hkind] at h
    refine (if_pos hkind).trans ?_
    simp only [Option.or_eq_none_iff, Option.bind_eq_none_iff] at h ⊢
    refine ⟨fun i hi kind hmember => ?_, fun i hi kind hmember => ?_⟩
    · have hends := h.1 i hi kind hmember
      split_ifs at hends with hend
      exact if_neg hend
    · have hends := h.2 i hi kind hmember
      split_ifs at hends with hend
      exact if_neg hend
  · exact if_neg hkind

theorem absorbClause?_marked (h : absorbClause? context r = none) :
    absorbClause? context r.marked = none := by
  simp only [absorbClause?, Option.bind_eq_bind] at h ⊢
  by_cases hkind : (r.includeTarget &&
      decide ( DeletionKind.annotation.rank ≤ r.kind.rank)) = true
  · rw [if_pos hkind] at h
    refine (if_pos hkind).trans ?_
    simp only [Option.bind_eq_none_iff] at h ⊢
    intro previous hprevious name hname start hstart
    have hfrom := h previous hprevious name hname start hstart
    simp only [absorbClauseFrom?] at hfrom ⊢
    split_ifs at hfrom with hsurvivor hword hend
    · exact (if_pos hsurvivor).trans (if_neg hword)
    · exact (if_neg hsurvivor).trans (if_neg hend)
  · exact if_neg hkind

theorem grow?_marked (h : grow? context r = none) : grow? context r.marked = none := by
  simp only [grow?, Option.or_eq_none_iff] at h ⊢
  obtain ⟨hcomment, hbrackets, hsign, hname, hclause⟩ := h
  exact ⟨absorbComment?_marked hcomment, absorbBrackets?_marked hbrackets,
    absorbSign?_marked hsign, absorbName?_marked hname, absorbClause?_marked hclause⟩

/-- No rule applies to a range that has been grown. -/
theorem grow?_expand (r : DeletionRange) : grow? context (expand context r) = none := by
  fun_induction expand context r with
  | case1 r s _ ih => exact ih
  | case2 r h => exact grow?_marked h

theorem expanded_expand (r : DeletionRange) : (expand context r).expanded = true := by
  fun_induction expand context r with
  | case1 r s _ ih => exact ih
  | case2 r h => rfl

theorem marked_eq_self (h : r.expanded = true) : r.marked = r := by
  cases r
  cases h
  rfl

theorem expand_eq_self (h : grow? context r = none) (hmark : r.expanded = true) :
    expand context r = r := by
  rw [expand_of_none h, marked_eq_self hmark]

theorem expand_expand (r : DeletionRange) :
    expand context (expand context r) = expand context r :=
  expand_eq_self (grow?_expand r) (expanded_expand r)

/-! ## The kind along the growth -/

theorem rank_le_target (k : DeletionKind) : k.rank ≤ DeletionKind.target.rank := by
  cases k <;> decide

/-- No rule lowers the kind. -/
theorem rank_le_of_grow? (h : grow? context r = some s) : r.kind.rank ≤ s.kind.rank := by
  simp only [grow?, Option.or_eq_some_iff] at h
  rcases h with h | ⟨_, h | ⟨_, h | ⟨_, h | ⟨_, h⟩⟩⟩⟩
  · rcases absorbComment?_eq_some h with ⟨_, _, _, rfl⟩ | ⟨_, rfl⟩ <;> exact Nat.le_refl _
  · simp only [absorbBrackets?, enclose?] at h
    split at h
    · split at h
      · split at h
        · next hcompound _ =>
          obtain rfl := Option.some.inj h
          simp only [Bool.and_eq_true, decide_eq_true_eq] at hcompound
          exact Nat.le_of_lt hcompound.2
        · split at h
          · obtain rfl := Option.some.inj h
            exact Nat.le_refl _
          · cases h
      · cases h
    · cases h
  · simp only [absorbSign?] at h
    split at h
    · next hsign =>
      obtain rfl := Option.some.inj h
      simp only [Bool.and_eq_true, decide_eq_true_eq] at hsign
      have hle : DeletionKind.qualifiedTerm.rank ≤ DeletionKind.annotation.rank := by decide
      exact Nat.le_trans hsign.1.1.1 hle
    · cases h
  · simp only [absorbName?, nameBefore?, nameAfter?, Option.bind_eq_bind] at h
    split at h
    · simp only [Option.or_eq_some_iff, Option.bind_eq_some_iff] at h
      rcases h with ⟨_, _, kind, _, h⟩ | ⟨_, _, _, kind, _, h⟩
      all_goals
        split at h
        · obtain rfl := Option.some.inj h
          exact rank_le_target _
        · cases h
    · cases h
  · simp only [absorbClause?, absorbClauseFrom?, Option.bind_eq_bind] at h
    split at h
    · simp only [Option.bind_eq_some_iff] at h
      obtain ⟨_, _, _, _, _, _, h⟩ := h
      split_ifs at h
      all_goals
        obtain rfl := Option.some.inj h
        exact rank_le_target _
    · cases h

theorem rank_le_expand (r : DeletionRange) : r.kind.rank ≤ (expand context r).kind.rank :=
  expand_induction (P := fun s => r.kind.rank ≤ s.kind.rank)
    (fun _ _ hgrow h => Nat.le_trans h (rank_le_of_grow? hgrow)) (fun _ h => h) r (Nat.le_refl _)

/-! ## The room that is left -/

/-- How much the ranges can still take in, and how often they can be joined. -/
def room (tokens : TokenStream) (ranges : List DeletionRange) : Nat :=
  Text.total (ranges.map fun r => r.measure tokens + 1)

@[simp] theorem room_cons (r : DeletionRange) (ranges : List DeletionRange) :
    room tokens (r :: ranges) = (r.measure tokens + 1) + room tokens ranges :=
  rfl

theorem room_perm {left right : List DeletionRange} (h : left.Perm right) :
    room tokens left = room tokens right :=
  (h.map _).sum_nat

theorem Covers.measure_le (h : s.Covers r) (tokens : TokenStream) :
    s.measure tokens ≤ r.measure tokens := by
  have hfirst := h.first_le
  have hlast := h.last_le
  rw [measure, measure]
  omega

theorem measure_expand_lt (h : grow? context r = some s) :
    (expand context r).measure context.tokens < r.measure context.tokens := by
  rw [expand_of_some h]
  exact Nat.lt_of_le_of_lt ((expand_grows s).measure_le _) (grow?_measure h)

/-- Growing leaves less room, unless there was nothing to grow. -/
theorem map_expand_eq_or_room_lt (context : DeletionContext) (ranges : List DeletionRange) :
    ((∀ r ∈ ranges, grow? context r = none) ∧ ranges.map (expand context) = ranges.map marked) ∨
      room context.tokens (ranges.map (expand context)) < room context.tokens ranges := by
  induction ranges with
  | nil => exact Or.inl ⟨fun r hr => absurd hr List.not_mem_nil, rfl⟩
  | cons r ranges ih =>
      have hle := (@expand_grows context r).measure_le context.tokens
      rw [List.map_cons, room_cons, room_cons]
      cases hgrow : grow? context r with
      | some s =>
          have hlt := measure_expand_lt hgrow
          rcases ih with ⟨_, heq⟩ | hroom
          · have hmarked : room context.tokens (ranges.map marked) = room context.tokens ranges := by
              rw [room, List.map_map]
              rfl
            rw [heq]
            right
            omega
          · right
            omega
      | none =>
          rcases ih with ⟨hnone, heq⟩ | hroom
          · left
            refine ⟨List.forall_mem_cons.mpr ⟨hgrow, hnone⟩, ?_⟩
            rw [heq, expand_of_none hgrow, List.map_cons]
          · right
            omega

theorem dropRepeated_eq_or_room_lt (tokens : TokenStream) (ranges : List DeletionRange) :
    dropRepeated ranges = ranges ∨ room tokens (dropRepeated ranges) < room tokens ranges := by
  fun_induction dropRepeated ranges with
  | case1 => exact Or.inl rfl
  | case2 r => exact Or.inl rfl
  | case3 r rest ih =>
      right
      rw [room_cons]
      rcases ih with heq | hlt
      · rw [heq]
        omega
      · omega
  | case4 r s rest _ ih =>
      rcases ih with heq | hlt
      · exact Or.inl (congrArg _ heq)
      · right
        rw [room_cons, room_cons _ (s :: rest)]
        omega

/-- A sweep leaves less room, unless it joined nothing. -/
theorem sweepFrom_eq_or_room_lt (tokens : TokenStream) :
    ∀ (ranges : List DeletionRange) (current : DeletionRange),
      sweepFrom tokens current ranges = current :: ranges ∨
        room tokens (sweepFrom tokens current ranges) < room tokens (current :: ranges)
  | [], current => Or.inl rfl
  | next :: ranges, current => by
      rw [sweepFrom]
      split
      · right
        have hle := (combine_covers_left current next).measure_le tokens
        have hcombined : room tokens (combine current next :: ranges) <
            room tokens (current :: next :: ranges) := by
          simp only [room_cons]
          omega
        rcases sweepFrom_eq_or_room_lt tokens ranges (combine current next) with heq | hlt
        · rwa [heq]
        · exact Nat.lt_trans hlt hcombined
      · rcases sweepFrom_eq_or_room_lt tokens ranges next with heq | hlt
        · exact Or.inl (congrArg _ heq)
        · exact Or.inr (by simp only [room_cons] at hlt ⊢; omega)

theorem sweep_eq_or_room_lt (tokens : TokenStream) (ranges : List DeletionRange) :
    sweep tokens ranges = ranges ∨ room tokens (sweep tokens ranges) < room tokens ranges := by
  cases ranges with
  | nil => exact Or.inl rfl
  | cons current rest => exact sweepFrom_eq_or_room_lt tokens rest current

theorem mergeSorted_eq_or_room_lt (tokens : TokenStream) (ranges : List DeletionRange) :
    mergeSorted tokens ranges = ranges ∨
      room tokens (mergeSorted tokens ranges) < room tokens ranges := by
  fun_induction mergeSorted tokens ranges with
  | case1 ranges next hlt ih =>
      right
      have hroom : room tokens next < room tokens ranges := by
        rcases sweep_eq_or_room_lt tokens ranges with heq | hroom
        · have hlength : next.length = ranges.length := congrArg List.length heq
          omega
        · exact hroom
      rcases ih with heq | ih
      · rwa [heq]
      · exact Nat.lt_trans ih hroom
  | case2 ranges next _ => exact sweep_eq_or_room_lt tokens ranges

/-- Merging leaves less room, unless it only sorted the ranges. -/
theorem merge_eq_or_room_lt (tokens : TokenStream) (ranges : List DeletionRange) :
    merge tokens ranges = ranges.mergeSort comesFirst ∨
      room tokens (merge tokens ranges) < room tokens ranges := by
  have hsort : room tokens (ranges.mergeSort comesFirst) = room tokens ranges :=
    room_perm (List.mergeSort_perm ranges comesFirst)
  rw [merge]
  rcases dropRepeated_eq_or_room_lt tokens (ranges.mergeSort comesFirst) with hdrop | hdrop
  · rw [hdrop, ← hsort]
    exact mergeSorted_eq_or_room_lt tokens _
  · right
    rcases mergeSorted_eq_or_room_lt tokens (dropRepeated (ranges.mergeSort comesFirst)) with heq | hlt
    · rw [heq, ← hsort]
      exact hdrop
    · rw [← hsort]
      exact Nat.lt_trans hlt hdrop

/-- A round leaves less room, unless it took in no token and joined no ranges. -/
theorem expandAndMerge_eq_or_room_lt (context : DeletionContext) (ranges : List DeletionRange) :
    ((∀ r ∈ ranges, grow? context r = none) ∧
        expandAndMerge context ranges = (ranges.map marked).mergeSort comesFirst) ∨
      room context.tokens (expandAndMerge context ranges) < room context.tokens ranges := by
  have hmarked : room context.tokens (ranges.map marked) = room context.tokens ranges := by
    rw [room, List.map_map]
    rfl
  rw [expandAndMerge]
  rcases map_expand_eq_or_room_lt context ranges with ⟨hnone, heq⟩ | hlt
  · rw [heq, ← hmarked]
    exact (merge_eq_or_room_lt context.tokens _).imp_left fun hmerge => ⟨hnone, hmerge⟩
  · right
    rcases merge_eq_or_room_lt context.tokens (ranges.map (expand context)) with heq | hroom
    · rwa [heq, room_perm (List.mergeSort_perm _ comesFirst)]
    · exact Nat.lt_trans hroom hlt

/-! ## The end of the rounds -/

/-- Round after round until one changes nothing. -/
inductive Settles (context : DeletionContext) : List DeletionRange → List DeletionRange → Prop
  | done {ranges : List DeletionRange} (h : expandAndMerge context ranges = ranges) :
      Settles context ranges ranges
  | step {ranges result : List DeletionRange} (h : expandAndMerge context ranges ≠ ranges)
      (hs : Settles context (expandAndMerge context ranges) result) :
      Settles context ranges result

/-- The ranges have been grown and come in order, so that only joining some of them could change
them. -/
structure Resting (context : DeletionContext) (ranges : List DeletionRange) : Prop where
  grown : ∀ r ∈ ranges, expand context r = r
  sorted : ranges.Pairwise fun r s => comesFirst r s = true

theorem pairwise_mergeSort_comesFirst (ranges : List DeletionRange) :
    (ranges.mergeSort comesFirst).Pairwise fun r s => comesFirst r s = true := by
  refine List.pairwise_mergeSort ?_ ?_ ranges
  · intro a b c hab hbc
    rw [comesFirst_eq_true] at hab hbc ⊢
    omega
  · intro a b
    rw [Bool.or_eq_true, comesFirst_eq_true, comesFirst_eq_true]
    omega

theorem resting_marked (h : ∀ r ∈ ranges, grow? context r = none) :
    Resting context ((ranges.map marked).mergeSort comesFirst) := by
  refine ⟨fun s hs => ?_, pairwise_mergeSort_comesFirst _⟩
  obtain ⟨r, hr, rfl⟩ := List.mem_map.mp ((List.mergeSort_perm _ comesFirst).mem_iff.mp hs)
  exact expand_eq_self (grow?_marked (h r hr)) rfl

/-- Resting ranges stay as they are, or some of them are joined. -/
theorem Resting.expandAndMerge_eq_or_room_lt (h : Resting context ranges) :
    expandAndMerge context ranges = ranges ∨
      room context.tokens (expandAndMerge context ranges) < room context.tokens ranges := by
  have hgrown : ranges.map (expand context) = ranges := by
    conv_rhs => rw [← List.map_id ranges]
    exact List.map_congr_left h.grown
  have hsorted : ranges.mergeSort comesFirst = ranges := List.mergeSort_of_pairwise h.sorted
  rw [expandAndMerge, hgrown]
  exact (merge_eq_or_room_lt context.tokens ranges).imp_left fun heq => heq.trans hsorted

/-- The rounds suffice: each leaves less room, or it comes to rest, and from rest the next one leaves
less room or is the last. -/
theorem settles_settleWithin (n : Nat) (ranges : List DeletionRange)
    (h : 2 * room context.tokens ranges + 2 ≤ n ∨
      Resting context ranges ∧ 2 * room context.tokens ranges + 1 ≤ n) :
    Settles context ranges (settleWithin context n ranges) := by
  induction n generalizing ranges with
  | zero => omega
  | succ n ih =>
      rw [settleWithin]
      split
      · next heq => exact .done heq
      · next hne =>
        refine .step hne (ih _ ?_)
        rcases h with hn | ⟨hrest, hn⟩
        · rcases expandAndMerge_eq_or_room_lt context ranges with ⟨hnone, heq⟩ | hlt
          · right
            have hroom : room context.tokens (expandAndMerge context ranges) =
                room context.tokens ranges := by
              rw [heq, room_perm (List.mergeSort_perm _ comesFirst), room, List.map_map]
              rfl
            refine ⟨heq ▸ resting_marked hnone, ?_⟩
            omega
          · left
            omega
        · rcases hrest.expandAndMerge_eq_or_room_lt with heq | hlt
          · exact absurd heq hne
          · left
            omega

theorem settles_settle (context : DeletionContext) (ranges : List DeletionRange) :
    Settles context ranges (settle context ranges) :=
  settles_settleWithin _ ranges (Or.inl (Nat.le_refl _))

theorem Settles.expandAndMerge_eq (h : Settles context ranges result) :
    expandAndMerge context result = result := by
  induction h with
  | done h => exact h
  | step _ _ ih => exact ih

/-- What a round does to the grown ranges, whatever they are. -/
theorem merged_expandAndMerge (ranges : List DeletionRange) :
    Merged context.tokens (fun _ => True) (ranges.map (expand context))
      (expandAndMerge context ranges) :=
  merged_merge (fun _ _ _ _ _ _ => trivial) fun _ _ => trivial

theorem Settles.exists_covers (h : Settles context ranges result) (hr : r ∈ ranges) :
    ∃ s ∈ result, s.Covers r := by
  induction h generalizing r with
  | done _ => exact ⟨r, hr, .refl r⟩
  | step _ _ ih =>
      obtain ⟨s, hs, hcovers⟩ := (merged_expandAndMerge _).covers _ (List.mem_map_of_mem hr)
      obtain ⟨t, ht, hcovers'⟩ := ih hs
      exact ⟨t, ht, ((expand_grows r).toCovers.trans hcovers).trans hcovers'⟩

/-! ## Settled ranges -/

/-- The tokens of one range end before those of another start, with a token between them. -/
def Detached (r s : DeletionRange) : Prop := r.tokens.last + 1 < s.tokens.first

/-- What one range has become when it has been grown. -/
structure Expanded (context : DeletionContext) (r s : DeletionRange) : Prop where
  expands : Expands context r s
  covers : s.Covers r
  inBounds : s.InBounds context.tokens
  rank_le : r.kind.rank ≤ s.kind.rank
  fixed : expand context s = s

/-- What a list of ranges has become when growing and merging have come to their end. -/
structure Settled (context : DeletionContext) (ranges result : List DeletionRange) : Prop where
  settles : Settles context ranges result
  inBounds : ∀ s ∈ result, s.InBounds context.tokens
  existsUnique_covers : ∀ r ∈ ranges, ∃! s, s ∈ result ∧ s.Covers r
  pairwise_detached : result.Pairwise Detached
  isChain_adjacent : result.IsChain fun r s => adjacent context.tokens r s = false
  fixed : ∀ s ∈ result, expand context s = s
  settle_eq : settle context result = result

theorem detached_of_adjacent (h : adjacent tokens r s = false) : Detached r s := by
  rw [adjacent] at h
  split at h
  · cases h
  · next hlt => exact Nat.lt_of_not_le hlt

theorem Detached.trans (hrs : Detached r s) (hs : s.InBounds tokens) (hst : Detached s t) :
    Detached r t :=
  Nat.lt_trans hrs (Nat.lt_of_le_of_lt hs.first_le_last (Nat.lt_of_succ_lt hst))

theorem pairwise_detached (hbounds : ∀ r ∈ ranges, r.InBounds tokens)
    (hchain : ranges.IsChain fun r s => adjacent tokens r s = false) : ranges.Pairwise Detached := by
  let R (r s : DeletionRange) : Prop := Detached r s ∧ s.InBounds tokens
  have : Trans R R R := ⟨fun hrs hst => ⟨hrs.1.trans hrs.2 hst.1, hst.2⟩⟩
  refine (List.isChain_iff_pairwise.mp (hchain.imp_of_mem_imp (S := R) ?_)).imp And.left
  intro r s _ hs hadjacent
  exact ⟨detached_of_adjacent hadjacent, hbounds s hs⟩

/-- Ranges apart from each other cover no token in common. -/
theorem eq_of_covers (hdetached : ranges.Pairwise Detached) (hr : r.InBounds tokens)
    (hs : s ∈ ranges) (ht : t ∈ ranges) (hsr : s.Covers r) (htr : t.Covers r) : s = t := by
  by_contra hne
  have hrange := hr.first_le_last
  obtain ⟨hsfirst, hslast⟩ := hsr
  obtain ⟨htfirst, htlast⟩ := htr
  have hsides : Detached s t ∨ Detached t s := by
    let R (a b : DeletionRange) : Prop := Detached a b ∨ Detached b a
    have : Std.Symm R := ⟨fun _ _ => Or.symm⟩
    exact (hdetached.imp (S := R) Or.inl).forall hs ht hne
  simp only [Detached] at hsides
  omega

theorem expanded_range (h : r.InBounds context.tokens) :
    Expanded context r (expand context r) where
  expands := expands_expand r
  covers := (expand_grows r).toCovers
  inBounds := (expand_grows r).inBounds h
  rank_le := rank_le_expand r
  fixed := expand_expand r

/-- A round that changes nothing has found nothing to grow and nothing to join. -/
theorem expand_eq_of_expandAndMerge_eq (h : expandAndMerge context ranges = ranges) :
    ∀ r ∈ ranges, expand context r = r := by
  rcases expandAndMerge_eq_or_room_lt context ranges with ⟨hnone, heq⟩ | hlt
  · intro r hr
    rw [← h, heq] at hr
    exact (resting_marked hnone).grown r hr
  · rw [h] at hlt
    exact absurd hlt (Nat.lt_irrefl _)

theorem settle_eq_of_expandAndMerge_eq (h : expandAndMerge context ranges = ranges) :
    settle context ranges = ranges := by
  rw [settle, rounds, settleWithin, if_pos h]

/-- Growing one range and settling a list of them come to an end, and leave nothing to do. -/
theorem settled_settle (context : DeletionContext) (ranges : List DeletionRange)
    (hbounds : ∀ r ∈ ranges, r.InBounds context.tokens) :
    (∀ r ∈ ranges, Expanded context r (expand context r)) ∧
      Settled context ranges (settle context ranges) := by
  refine ⟨fun r hr => expanded_range (hbounds r hr), ?_⟩
  have hsettles := settles_settle context ranges
  have hstable := hsettles.expandAndMerge_eq
  have hresult := settle_inBounds hbounds
  have hchain : (settle context ranges).IsChain fun r s => adjacent context.tokens r s = false := by
    have hbetween := (@merged_expandAndMerge context (settle context ranges)).apart
    rwa [hstable] at hbetween
  have hpairwise := pairwise_detached hresult hchain
  refine ⟨hsettles, hresult, fun r hr => ?_, hpairwise, hchain,
    expand_eq_of_expandAndMerge_eq hstable, settle_eq_of_expandAndMerge_eq hstable⟩
  obtain ⟨s, hs, hcovers⟩ := hsettles.exists_covers hr
  exact ⟨s, ⟨hs, hcovers⟩, fun t ht => eq_of_covers hpairwise (hbounds r hr) ht.1 hs ht.2 hcovers⟩

/-- Three of four items, one of them with a comment behind it, in no order. -/
theorem settled_settle_items :
    ∃ context : DeletionContext, ∃ ranges : List DeletionRange,
      Lexer.tokenize "@A : [1, 2 /* two */, 3, 4]" = .ok context.tokens.tokens.toList ∧
      ranges.map (·.tokens) = [⟨6, 6⟩, ⟨11, 11⟩, ⟨4, 4⟩] ∧
      (∀ r ∈ ranges, r.InBounds context.tokens) ∧
      (∀ r ∈ ranges, Expanded context r (expand context r)) ∧
      Settled context ranges (settle context ranges) := by
  let text := "@A : [1, 2 /* two */, 3, 4]"
  let context : DeletionContext :=
    ⟨⟨((Lexer.tokenize text).toOption.getD []).toArray⟩, .ofString text, ⟨#[]⟩, []⟩
  let item (i : Nat) : DeletionRange := ⟨.term, .commaList, ⟨i, i⟩, ⟨i, i⟩, false, false⟩
  have hbounds : ∀ r ∈ [item 6, item 11, item 4], r.InBounds context.tokens := by
    have hsize : context.tokens.size = 13 := by decide +kernel
    intro r hr
    simp only [List.mem_cons, List.not_mem_nil, or_false] at hr
    rcases hr with rfl | rfl | rfl
    all_goals exact ⟨Nat.le_refl _, by rw [hsize]; decide⟩
  exact ⟨context, [item 6, item 11, item 4], by decide +kernel, rfl, hbounds,
    settled_settle context _ hbounds⟩

end AnnotationEdit.DeletionRange

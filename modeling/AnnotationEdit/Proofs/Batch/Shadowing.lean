import AnnotationEdit.Proofs.Batch.Preparation

/-!
# What shadowing keeps of a batch

An operation is dropped because of operations that may be dropped themselves: by a later one at the
same pointer, or by one that removes a node above. The chain ends at the topmost of these nodes, so
every operation that is dropped is dropped for one that is kept, or for a later one at its own node.
What is kept of a batch keeps its order, nothing of it would be dropped again, and of the operations
that overwrite one node it is the last one that may be kept (`shadowing_keeps_last_and_topmost`).
-/

namespace AnnotationEdit

namespace Batch

variable {l : List Operation} {o r : Operation} {i j : Nat}

/-! ## Positions in a batch -/

/-- The operation `o` stands at `i` in the batch and is kept. -/
def Kept (l : List Operation) (i : Nat) (o : Operation) : Prop :=
  l[i]? = some o ∧ (shadowing l)[i]? = some .pick

/-- The operation `o` stands at `i` in the batch and is dropped. -/
def Dropped (l : List Operation) (i : Nat) (o : Operation) : Prop :=
  l[i]? = some o ∧ (shadowing l)[i]? = some .drop

/-- An operation after `i` in the batch overwrites the node that `o` overwrites. -/
def OverriddenAfter (l : List Operation) (i : Nat) (o : Operation) : Prop :=
  ∃ j later, i < j ∧ l[j]? = some later ∧ Collide o later

theorem overridden_drop_iff : overridden o (l.drop (i + 1)) = true ↔ OverriddenAfter l i o := by
  rw [overridden_iff]
  constructor
  · rintro ⟨later, hlater, hcollide⟩
    obtain ⟨k, hk⟩ := List.mem_iff_getElem?.mp hlater
    rw [List.getElem?_drop] at hk
    exact ⟨i + 1 + k, later, by omega, hk, hcollide⟩
  · rintro ⟨j, later, hij, hj, hcollide⟩
    refine ⟨later, List.mem_iff_getElem?.mpr ⟨j - (i + 1), ?_⟩, hcollide⟩
    rwa [List.getElem?_drop, Nat.add_sub_cancel' hij]

theorem getElem?_lastAtPointer : ∀ (l : List Operation) (i : Nat),
    (lastAtPointer l)[i]? = (l[i]?).map fun o => !overridden o (l.drop (i + 1))
  | [], _ => rfl
  | _ :: _, 0 => rfl
  | o :: l, i + 1 => by
      rw [lastAtPointer, List.getElem?_cons_succ, List.getElem?_cons_succ, List.drop_succ_cons]
      exact getElem?_lastAtPointer l i

/-- What becomes of the operation at `i`. -/
theorem getElem?_shadowing (h : l[i]? = some o) : (shadowing l)[i]? =
    some (if !overridden o (l.drop (i + 1)) && !isShadowed (removedPointers l) o then .pick
      else .drop) := by
  have hlast : (lastAtPointer l)[i]? = some (!overridden o (l.drop (i + 1))) := by
    rw [getElem?_lastAtPointer, h, Option.map_some]
  have hpair : (l.zip (lastAtPointer l))[i]? = some (o, !overridden o (l.drop (i + 1))) :=
    List.getElem?_zip_eq_some.mpr ⟨h, hlast⟩
  rw [shadowing, List.getElem?_map, hpair, Option.map_some]

/-- An operation is kept when no later one overrides it and it is not shadowed. -/
theorem kept_iff : Kept l i o ↔
    l[i]? = some o ∧ ¬OverriddenAfter l i o ∧ isShadowed (removedPointers l) o = false := by
  refine and_congr_right fun hi => ?_
  rw [getElem?_shadowing hi, ← overridden_drop_iff]
  cases overridden o (l.drop (i + 1)) <;> cases isShadowed (removedPointers l) o <;> simp

theorem dropped_iff : Dropped l i o ↔
    l[i]? = some o ∧ (OverriddenAfter l i o ∨ isShadowed (removedPointers l) o = true) := by
  refine and_congr_right fun hi => ?_
  rw [getElem?_shadowing hi, ← overridden_drop_iff]
  cases overridden o (l.drop (i + 1)) <;> cases isShadowed (removedPointers l) o <;> simp

theorem kept_or_dropped (h : l[i]? = some o) : Kept l i o ∨ Dropped l i o := by
  rw [kept_iff, dropped_iff]
  by_cases hover : OverriddenAfter l i o
  · exact Or.inr ⟨h, Or.inl hover⟩
  · cases hshadowed : isShadowed (removedPointers l) o
    · exact Or.inl ⟨h, hover, rfl⟩
    · exact Or.inr ⟨h, Or.inr rfl⟩

theorem not_dropped_of_kept (h : Kept l i o) : ¬Dropped l i o := by
  intro hdropped
  cases Option.some.inj (h.2.symm.trans hdropped.2)

/-! ## Topmost removals -/

/-- A removed node is that of an operation which removes a subtree and is not overridden. -/
theorem mem_removedPointers {p : Pointer} : p ∈ removedPointers l ↔
    ∃ i r, l[i]? = some r ∧ ¬OverriddenAfter l i r ∧ r.removesSubtree = true ∧ r.pointer = p := by
  simp only [removedPointers, List.mem_map, List.mem_filter, Bool.and_eq_true, Prod.exists]
  constructor
  · rintro ⟨r, last, ⟨hmem, rfl, hremoves⟩, rfl⟩
    obtain ⟨i, hi⟩ := List.mem_iff_getElem?.mp hmem
    obtain ⟨hr, hlast⟩ := List.getElem?_zip_eq_some.mp hi
    refine ⟨i, r, hr, ?_, hremoves, rfl⟩
    rw [getElem?_lastAtPointer, hr, Option.map_some, Option.some_inj, Bool.not_eq_true'] at hlast
    rw [← overridden_drop_iff, hlast]
    exact Bool.false_ne_true
  · rintro ⟨i, r, hr, hlast, hremoves, rfl⟩
    refine ⟨r, true, ⟨List.mem_iff_getElem?.mpr ⟨i, ?_⟩, rfl, hremoves⟩, rfl⟩
    refine List.getElem?_zip_eq_some.mpr ⟨hr, ?_⟩
    rw [← overridden_drop_iff, Bool.not_eq_true] at hlast
    rw [getElem?_lastAtPointer, hr, Option.map_some, hlast, Bool.not_false]

/-- Above every removed node, or at it, is one with no removed node above. -/
theorem exists_topmost {removed : List Pointer} {p : Pointer} (hp : p ∈ removed) :
    ∃ q ∈ removed, q.isPrefixOf p = true ∧ ∀ r ∈ removed, r.isAncestorOf q = false := by
  -- every step up makes the pointer shorter
  induction hdepth : p.depth using Nat.strongRecOn generalizing p with
  | _ depth ih =>
    by_cases habove : ∃ r ∈ removed, r.isAncestorOf p = true
    · obtain ⟨r, hr, hrp⟩ := habove
      have hshorter : r.depth < depth := by
        rw [Pointer.isAncestorOf, Bool.and_eq_true, decide_eq_true_eq] at hrp
        omega
      obtain ⟨q, hq, hqr, htop⟩ := ih r.depth hshorter hr rfl
      exact ⟨q, hq, Pointer.isPrefixOf_trans hqr (Pointer.isAncestorOf_iff.mp hrp).1, htop⟩
    · refine ⟨p, hp, p.isPrefixOf_refl, fun r hr => ?_⟩
      rw [Bool.eq_false_iff]
      exact fun hrp => habove ⟨r, hr, hrp⟩

/-- What removes a topmost node is kept: only nodes above could shadow it. -/
theorem exists_kept_of_mem_removedPointers {p : Pointer} (hp : p ∈ removedPointers l) :
    ∃ i r, Kept l i r ∧ r.removesSubtree = true ∧ r.pointer.isPrefixOf p = true := by
  obtain ⟨q, hq, hqp, htop⟩ := exists_topmost hp
  obtain ⟨i, r, hr, hlast, hremoves, rfl⟩ := mem_removedPointers.mp hq
  refine ⟨i, r, kept_iff.mpr ⟨hr, hlast, ?_⟩, hremoves, hqp⟩
  rw [isShadowed, if_pos (Operation.isDestructive_of_removesSubtree hremoves), List.any_eq_false]
  intro above habove
  rw [htop above habove]
  exact Bool.false_ne_true

/-! ## Operations that are kept -/

/-- The last operation that overwrites a node is the only one that may be kept. -/
theorem Kept.last {a b : Operation} (ha : Kept l i a) (hb : l[j]? = some b) (h : Collide a b) :
    j ≤ i := by
  by_contra hlater
  exact (kept_iff.mp ha).2.1 ⟨j, b, by omega, hb, h⟩

theorem Kept.clear (hr : Kept l i r) (ho : Kept l j o) (hremoves : r.removesSubtree = true) :
    isShadowed [r.pointer] o = false := by
  obtain ⟨hi, hlast, _⟩ := kept_iff.mp hr
  obtain ⟨_, _, hclear⟩ := kept_iff.mp ho
  rw [Bool.eq_false_iff] at hclear ⊢
  intro hshadowed
  have hremoved : r.pointer ∈ removedPointers l :=
    mem_removedPointers.mpr ⟨i, r, hi, hlast, hremoves, rfl⟩
  exact hclear (isShadowed_iff.mpr ⟨r.pointer, hremoved, hshadowed⟩)

/-- Nothing below a removed node is kept. -/
theorem Kept.not_below (hr : Kept l i r) (ho : Kept l j o) (hremoves : r.removesSubtree = true) :
    r.pointer.isAncestorOf o.pointer = false := by
  have hclear := hr.clear ho hremoves
  cases hd : o.isDestructive
  · rw [isShadowed_of_not_isDestructive hd, Bool.or_eq_false_iff] at hclear
    rw [Pointer.isAncestorOf, hclear.1, Bool.and_false]
  · rwa [isShadowed_of_isDestructive hd] at hclear

/-- Nothing but what overwrites the removed node itself is kept there, and nothing is moved away
from it. -/
theorem Kept.not_at (hr : Kept l i r) (ho : Kept l j o) (hremoves : r.removesSubtree = true)
    (hd : o.isDestructive = false) :
    r.pointer.isPrefixOf o.pointer = false ∧ ∀ p ∈ o.sources, r.pointer.isPrefixOf p = false := by
  have hclear := hr.clear ho hremoves
  rw [isShadowed_of_not_isDestructive hd, Bool.or_eq_false_iff, List.any_eq_false] at hclear
  exact ⟨hclear.1, fun p hp => Bool.eq_false_iff.mpr (hclear.2 p hp)⟩

/-! ## Operations that are dropped -/

/-- The operation `o` is at or below the node, or moves something from there. -/
def Touches (p : Pointer) (o : Operation) : Prop :=
  p.isPrefixOf o.pointer = true ∨
    o.isDestructive = false ∧ ∃ source ∈ o.sources, p.isPrefixOf source = true

theorem Touches.above {p q : Pointer} (h : Touches p o) (hqp : q.isPrefixOf p = true) :
    Touches q o := by
  rcases h with h | ⟨hd, source, hsource, h⟩
  · exact Or.inl (Pointer.isPrefixOf_trans hqp h)
  · exact Or.inr ⟨hd, source, hsource, Pointer.isPrefixOf_trans hqp h⟩

theorem touches_of_isShadowed {p : Pointer} (h : isShadowed [p] o = true) : Touches p o := by
  cases hd : o.isDestructive
  · rw [isShadowed_of_not_isDestructive hd, Bool.or_eq_true, List.any_eq_true] at h
    exact h.imp_right fun hsource => ⟨hd, hsource⟩
  · rw [isShadowed_of_isDestructive hd] at h
    exact Or.inl (Pointer.isAncestorOf_iff.mp h).1

/-- What is dropped is overridden later or touches a node that a kept operation removes. -/
theorem Dropped.justified (h : Dropped l i o) :
    OverriddenAfter l i o ∨ ∃ j r, Kept l j r ∧ r.removesSubtree = true ∧ Touches r.pointer o := by
  obtain ⟨_, hover | hshadowed⟩ := dropped_iff.mp h
  · exact Or.inl hover
  · obtain ⟨p, hp, hshadowed⟩ := isShadowed_iff.mp hshadowed
    obtain ⟨j, r, hr, hremoves, hrp⟩ := exists_kept_of_mem_removedPointers hp
    exact Or.inr ⟨j, r, hr, hremoves, (touches_of_isShadowed hshadowed).above hrp⟩

/-! ## The batch that is left -/

/-- Where every operation is kept or dropped, those that are kept are left in their order. -/
theorem exists_picked : ∀ (l : List Operation) (commands : List Command),
    (∀ c ∈ commands, c = .pick ∨ c = .drop) →
    ∃ positions : List Nat, positions.Pairwise (· < ·) ∧
      (∀ i, i ∈ positions ↔ ∃ o, l[i]? = some o ∧ commands[i]? = some .pick) ∧
      positions.map (l[·]?) = (Command.runAll l commands).map some
  | [], _, _ => ⟨[], List.Pairwise.nil, by simp, rfl⟩
  | _ :: _, [], _ => ⟨[], List.Pairwise.nil, by simp, rfl⟩
  | o :: l, c :: commands, h => by
      obtain ⟨positions, hsorted, hmem, hmap⟩ :=
        exists_picked l commands fun c hc => h c (List.mem_cons_of_mem _ hc)
      have hshifted : (positions.map (· + 1)).Pairwise (· < ·) :=
        List.pairwise_map.mpr (hsorted.imp fun hij => Nat.succ_lt_succ hij)
      have hlater : (positions.map (· + 1)).map ((o :: l)[·]?) =
          (Command.runAll l commands).map some := by
        rw [List.map_map, ← hmap]
        exact List.map_congr_left fun i _ => List.getElem?_cons_succ
      rcases h c List.mem_cons_self with rfl | rfl
      · refine ⟨0 :: positions.map (· + 1), ?_, ?_, ?_⟩
        · refine List.pairwise_cons.mpr ⟨fun i hi => ?_, hshifted⟩
          obtain ⟨k, _, rfl⟩ := List.mem_map.mp hi
          exact Nat.succ_pos k
        · rintro (_ | i)
          · simp
          · simp [hmem]
        · rw [List.map_cons, hlater]
          rfl
      · refine ⟨positions.map (· + 1), hshifted, ?_, hlater⟩
        rintro (_ | i)
        · simp
        · simp [hmem]

/-- What is left is what is kept, in the order of the batch. -/
theorem exists_kept_positions (l : List Operation) : ∃ positions : List Nat,
    positions.Pairwise (· < ·) ∧ (∀ i, i ∈ positions ↔ ∃ o, Kept l i o) ∧
      positions.map (l[·]?) = (removeShadowed l).map some := by
  refine exists_picked l (shadowing l) fun c hc => ?_
  obtain ⟨⟨o, last⟩, _, rfl⟩ := List.mem_map.mp hc
  dsimp only
  split
  · exact Or.inl rfl
  · exact Or.inr rfl

/-- Nothing of what is left would be dropped. -/
theorem removeShadowed_removeShadowed (l : List Operation) :
    removeShadowed (removeShadowed l) = removeShadowed l := by
  have hdistinct := distinct_removeShadowed l
  rw [removeShadowed_eq (removeShadowed l), survivors_of_distinct hdistinct, List.filter_eq_self]
  intro o ho
  rw [Bool.not_eq_true', Bool.eq_false_iff, Ne, isShadowed_iff]
  rintro ⟨p, hp, hshadowed⟩
  rw [removedPointers_eq, survivors_of_distinct hdistinct] at hp
  obtain ⟨r, hr, rfl⟩ := List.mem_map.mp hp
  obtain ⟨hr, hremoves⟩ := List.mem_filter.mp hr
  rw [clear_removeShadowed hr hremoves ho] at hshadowed
  cases hshadowed

/-- Shadowing leaves operations of the batch in their order. Of the operations that overwrite one
node only the last is kept, nothing is kept below a node that a kept operation removes, nor at it
unless it overwrites the node as well, and every operation that is dropped is overridden by a later
one or touches a node that a kept operation removes. What is left is not reduced any further. -/
theorem shadowing_keeps_last_and_topmost (l : List Operation) :
    (∃ positions : List Nat, positions.Pairwise (· < ·) ∧
      (∀ i, i ∈ positions ↔ ∃ o, Kept l i o) ∧
      positions.map (l[·]?) = (removeShadowed l).map some) ∧
    (∀ i o, l[i]? = some o → (Kept l i o ↔ ¬Dropped l i o)) ∧
    (∀ i a j b, Kept l i a → Kept l j b → Collide a b → i = j) ∧
    (∀ i a j b, Kept l i a → l[j]? = some b → Collide a b → j ≤ i) ∧
    (∀ i r j o, Kept l i r → Kept l j o → r.removesSubtree = true →
      r.pointer.isAncestorOf o.pointer = false ∧
      (o.isDestructive = false → r.pointer.isPrefixOf o.pointer = false ∧
        ∀ source ∈ o.sources, r.pointer.isPrefixOf source = false)) ∧
    (∀ i o, Dropped l i o → OverriddenAfter l i o ∨
      ∃ j r, Kept l j r ∧ r.removesSubtree = true ∧ Touches r.pointer o) ∧
    removeShadowed (removeShadowed l) = removeShadowed l := by
  refine ⟨exists_kept_positions l, ?_, ?_, ?_, ?_, ?_, removeShadowed_removeShadowed l⟩
  · intro i o hi
    exact ⟨not_dropped_of_kept, (kept_or_dropped hi).resolve_right⟩
  · intro i a j b ha hb hcollide
    exact Nat.le_antisymm (hb.last ha.1 hcollide.symm) (ha.last hb.1 hcollide)
  · intro i a j b ha hb hcollide
    exact ha.last hb hcollide
  · intro i r j o hr ho hremoves
    exact ⟨hr.not_below ho hremoves, hr.not_at ho hremoves⟩
  · intro i o hdropped
    exact hdropped.justified

end Batch

end AnnotationEdit

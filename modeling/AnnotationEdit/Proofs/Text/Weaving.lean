import AnnotationEdit.Proofs.Text.Cutting

/-!
# Texts put in among characters

Edits that are applied take the characters of their ranges away and put their texts in at the starts
of their ranges (`TextEdit.splice_eq_woven`). Up to the first place nothing is put in
(`woven_append`), and texts without characters change nothing (`woven_filter`).
-/

namespace AnnotationEdit

theorem mem_remain_of {removed : Nat → Bool} {d : Char} : ∀ {cs : List Char} {i j : Nat},
    cs[j]? = some d → removed (i + j) = false → d ∈ remain removed i cs
  | c :: cs, i, 0, h, hkept => by
      obtain rfl := Option.some.inj h
      have hkept : removed i = false := hkept
      rw [remain, if_neg (Bool.eq_false_iff.mp hkept)]
      exact List.mem_cons_self
  | c :: cs, i, j + 1, h, hkept => by
      have hrest : d ∈ remain removed (i + 1) cs := mem_remain_of h (by
        rw [Nat.add_assoc, Nat.add_comm 1 j]
        exact hkept)
      rw [remain]
      split
      · exact hrest
      · exact List.mem_cons_of_mem c hrest

theorem length_remain_le {removed : Nat → Bool} : ∀ {cs : List Char} {i : Nat},
    (remain removed i cs).length ≤ cs.length
  | [], _ => Nat.le_refl 0
  | c :: cs, i => by
      have hrest : (remain removed (i + 1) cs).length ≤ cs.length := length_remain_le
      rw [remain]
      split
      · exact Nat.le_succ_of_le hrest
      · exact Nat.succ_le_succ hrest

theorem remain_front {removed : Nat → Bool} {cs ds : List Char} {i : Nat}
    (h : remain removed i (cs ++ ds) = cs ++ ds) : remain removed i cs = cs := by
  rw [remain_append] at h
  have hlength := congrArg List.length h
  rw [List.length_append, List.length_append] at hlength
  have hcs : (remain removed i cs).length ≤ cs.length := length_remain_le
  have hds : (remain removed (i + cs.length) ds).length ≤ ds.length := length_remain_le
  exact (List.append_inj h (by omega)).1

/-- The characters that are not removed, with texts put in at places that come one after the
other. -/
def woven (removed : Nat → Bool) : List (Nat × List Char) → Nat → List Char → List Char
  | [], i, cs => remain removed i cs
  | (j, text) :: puts, i, cs =>
      remain removed i (cs.take (j - i)) ++ (text ++ woven removed puts j (cs.drop (j - i)))

section

variable {removed removed' : Nat → Bool} {puts : List (Nat × List Char)} {i j : Nat}
variable {cs ds text : List Char}

/-- Nothing is put in among the characters in front of the first place. -/
theorem woven_append (h : ∀ p ∈ puts, i + cs.length ≤ p.1) :
    woven removed puts i (cs ++ ds) =
      remain removed i cs ++ woven removed puts (i + cs.length) ds := by
  cases puts with
  | nil => exact remain_append
  | cons p puts =>
      have hle := h p List.mem_cons_self
      have htake : (cs ++ ds).take (p.1 - i) = cs ++ ds.take (p.1 - (i + cs.length)) := by
        rw [List.take_append, List.take_of_length_le (by omega), Nat.sub_sub]
      have hdrop : (cs ++ ds).drop (p.1 - i) = ds.drop (p.1 - (i + cs.length)) := by
        rw [List.drop_append, List.drop_eq_nil_of_le (by omega), List.nil_append, Nat.sub_sub]
      rw [woven, woven, htake, hdrop, remain_append, List.append_assoc]

theorem woven_here : woven removed ((i, text) :: puts) i cs = text ++ woven removed puts i cs := by
  rw [woven, Nat.sub_self, List.take_zero, List.drop_zero]
  rfl

/-- Texts without characters change nothing. -/
theorem woven_nil_text (hij : i ≤ j) (hj : j ≤ i + cs.length) (h : ∀ p ∈ puts, j ≤ p.1) :
    woven removed ((j, []) :: puts) i cs = woven removed puts i cs := by
  have hlength : (cs.take (j - i)).length = j - i := List.length_take_of_le (by omega)
  have hplace : i + (cs.take (j - i)).length = j := by omega
  have hsplit : woven removed puts i (cs.take (j - i) ++ cs.drop (j - i)) = _ :=
    woven_append (by rw [hplace]; exact h)
  rw [List.take_append_drop, hplace] at hsplit
  rw [woven, hsplit]
  rfl

theorem woven_congr : ∀ {puts : List (Nat × List Char)} {i : Nat} {cs : List Char},
    (∀ j, i ≤ j → removed j = removed' j) → (∀ p ∈ puts, i ≤ p.1) →
    puts.Pairwise (fun p q => p.1 ≤ q.1) → woven removed puts i cs = woven removed' puts i cs
  | [], _, _, h, _, _ => remain_congr h
  | (j, text) :: puts, i, cs, h, hle, hsorted => by
      obtain ⟨hij, _⟩ := List.forall_mem_cons.mp hle
      obtain ⟨hfirst, hsorted⟩ := List.pairwise_cons.mp hsorted
      rw [woven, woven, remain_congr h,
        woven_congr (fun k hk => h k (Nat.le_trans hij hk)) hfirst hsorted]

theorem woven_filter : ∀ {puts : List (Nat × List Char)} {i : Nat} {cs : List Char},
    (∀ p ∈ puts, i ≤ p.1 ∧ p.1 ≤ i + cs.length) → puts.Pairwise (fun p q => p.1 ≤ q.1) →
    woven removed puts i cs = woven removed (puts.filter fun p => !p.2.isEmpty) i cs
  | [], _, _, _, _ => rfl
  | (j, text) :: puts, i, cs, hle, hsorted => by
      obtain ⟨⟨hij, hj⟩, hputs⟩ := List.forall_mem_cons.mp hle
      obtain ⟨hfirst, hrest⟩ := List.pairwise_cons.mp hsorted
      have hlength : (cs.drop (j - i)).length = cs.length - (j - i) := List.length_drop
      have hbehind : ∀ p ∈ puts, j ≤ p.1 ∧ p.1 ≤ j + (cs.drop (j - i)).length := by
        intro p hp
        have hlast := (hputs p hp).2
        have hnext : j ≤ p.1 := hfirst p hp
        have hij : i ≤ j := hij
        exact ⟨hnext, by omega⟩
      cases text with
      | nil =>
          rw [woven_nil_text hij hj hfirst, List.filter_cons_of_neg (by simp)]
          exact woven_filter hputs hrest
      | cons c text =>
          rw [List.filter_cons_of_pos (by rfl), woven, woven, woven_filter hbehind hrest]

end

namespace TextEdit

def put (lines : Lines) (e : TextEdit) : Nat × List Char :=
  (lines.index e.range.start, e.newText.toList)

theorem pairwise_of_splice {lines : Lines} : ∀ {es : List TextEdit} {cursor : Nat} {cs : List Char},
    splice lines cursor es = .ok cs →
      (es.map (put lines)).Pairwise fun p q => p.1 ≤ q.1
  | [], _, _, _ => List.Pairwise.nil
  | e :: es, _, _, h => by
      obtain ⟨_, rest, hrest, _⟩ := splice_cons_eq_ok h
      refine List.pairwise_cons.mpr ⟨fun p hp => ?_, pairwise_of_splice hrest⟩
      obtain ⟨f, hf, rfl⟩ := List.mem_map.mp hp
      exact Nat.le_trans (Nat.le_max_right _ _) (le_index_of_splice hrest f hf)

theorem splice_eq_woven {lines : Lines} : ∀ {es : List TextEdit} {cursor : Nat} {cs : List Char},
    splice lines cursor es = .ok cs →
      cs = woven (removes lines es) (es.map (put lines)) cursor (lines.chars.drop cursor)
  | [], cursor, cs, h => by
      have hkept : remain (removes lines []) cursor (lines.chars.drop cursor) =
          lines.chars.drop cursor := remain_eq_self fun j _ _ => rfl
      rw [List.map_nil, woven, hkept]
      exact (Except.ok.inj h).symm
  | e :: es, cursor, cs, h => by
      have hall := pairwise_of_splice h
      obtain ⟨hfirst, rest, hsplice, rfl⟩ := splice_cons_eq_ok h
      have hlater := le_index_of_splice hsplice
      have hstart := lines.index_le_length e.range.start
      have hstop := lines.index_le_length e.range.stop
      have hsorted := (List.pairwise_cons.mp hall).2
      rw [splice_eq_woven hsplice, List.map_cons, put, woven, List.drop_drop,
        Nat.add_sub_cancel' hfirst]
      set first := lines.index e.range.start
      set next := Nat.max (lines.index e.range.stop) first
      have hnext : first ≤ next := Nat.le_max_right _ _
      have hlength : next ≤ lines.chars.length := Nat.max_le.mpr ⟨hstop, hstart⟩
      have hputs : ∀ p ∈ es.map (put lines), next ≤ p.1 := by
        intro p hp
        obtain ⟨f, hf, rfl⟩ := List.mem_map.mp hp
        exact hlater f hf
      have hbefore : remain (removes lines (e :: es)) cursor
          ((lines.chars.drop cursor).take (first - cursor)) = lines.between cursor first := by
        refine remain_eq_self fun j _ hj => ?_
        have hle := List.length_take_le (first - cursor) (lines.chars.drop cursor)
        rw [← Bool.not_eq_true, removes_eq_true]
        rintro ⟨f, hf, hle, _⟩
        rcases List.mem_cons.mp hf with rfl | hf
        · omega
        · have := Nat.le_trans hnext (hlater f hf)
          omega
      have hbetween : (lines.between first next).length = next - first :=
        length_between lines hlength
      have hinside : remain (removes lines (e :: es)) first (lines.between first next) = [] := by
        refine remain_eq_nil fun j hij hj => removes_eq_true.mpr ⟨e, List.mem_cons_self, hij, ?_⟩
        rw [hbetween, Nat.add_sub_cancel' hnext] at hj
        refine Nat.lt_of_not_le fun hle => ?_
        exact Nat.not_lt.mpr (Nat.max_le.mpr ⟨hle, hij⟩) hj
      have hbehind : woven (removes lines (e :: es)) (es.map (put lines)) next
          (lines.chars.drop next) = woven (removes lines es) (es.map (put lines)) next
            (lines.chars.drop next) := by
        refine woven_congr (fun j hij => ?_) hputs hsorted
        have hnot : ¬ j < lines.index e.range.stop :=
          Nat.not_lt.mpr (Nat.le_trans (Nat.le_max_left _ _) hij)
        rw [removes, removes, List.any_cons, decide_eq_false fun h => hnot h.2, Bool.false_or]
      rw [hbefore, drop_eq_between_append lines hnext, woven_append, hinside, hbetween,
        Nat.add_sub_cancel' hnext, hbehind, List.nil_append]
      rw [hbetween, Nat.add_sub_cancel' hnext]
      exact hputs

end TextEdit

end AnnotationEdit

import AnnotationEdit.Proofs.Deletion.Settling
import AnnotationEdit.Proofs.Syntax.Commas
import AnnotationEdit.Proofs.Syntax.Nodes

/-!
# Runs of members

Members of lists that are deleted flag their tokens. A run is a range of flagged tokens with nothing
but commas and comments among them and around them. The range of a member is a run, and growing and
merging make larger runs of runs. When the ranges are settled, every flagged token is in a run, and
between any two runs stands a token that is no comma (`settle_runs`).
-/

namespace AnnotationEdit

namespace TokenStream

def codeIn (s : TokenStream) (i j : Nat) : List Token :=
  ((s.tokens.toList.drop i).take (j - i)).filter Token.isCode

variable {s : TokenStream} {i j k : Nat} {t : Token}

theorem test_of_get? {p : Token → Bool} (h : s.get? i = some t) : s.test i p = p t := by
  rw [test, h]
  rfl

theorem codeIn_zero (s : TokenStream) :
    s.codeIn 0 s.size = s.tokens.toList.filter Token.isCode := by
  rw [codeIn, List.drop_zero, Nat.sub_zero, List.take_of_length_le]
  exact Nat.le_refl _

theorem mem_codeIn : t ∈ s.codeIn i j ↔
    t.isCode = true ∧ ∃ k, i ≤ k ∧ k < j ∧ s.get? k = some t := by
  rw [codeIn, List.mem_filter, and_comm]
  refine and_congr_right fun _ => ?_
  rw [List.mem_iff_getElem?]
  constructor
  · rintro ⟨k, hk⟩
    rw [List.getElem?_take] at hk
    split at hk
    · next hlt =>
      rw [List.getElem?_drop, ← get?_eq] at hk
      exact ⟨i + k, by omega, by omega, hk⟩
    · cases hk
  · rintro ⟨k, hik, hkj, ht⟩
    refine ⟨k - i, ?_⟩
    rw [List.getElem?_take, if_pos (by omega), List.getElem?_drop, Nat.add_sub_cancel' hik,
      ← get?_eq, ht]

theorem codeIn_append (hik : i ≤ k) (hkj : k ≤ j) :
    s.codeIn i k ++ s.codeIn k j = s.codeIn i j := by
  have hsplit : j - i = (k - i) + (j - k) := by omega
  rw [codeIn, codeIn, codeIn, ← List.filter_append, hsplit, List.take_add, List.drop_drop,
    Nat.add_sub_cancel' hik]

theorem codeIn_eq_nil :
    s.codeIn i j = [] ↔ ∀ k, i ≤ k → k < j → s.test k Token.isCode = false := by
  rw [List.eq_nil_iff_forall_not_mem]
  constructor
  · intro h k hik hkj
    rw [← Bool.not_eq_true]
    intro htest
    obtain ⟨t, ht, hcode⟩ := test_eq_true.mp htest
    exact h t (mem_codeIn.mpr ⟨hcode, k, hik, hkj, ht⟩)
  · intro h t ht
    obtain ⟨hcode, k, hik, hkj, hk⟩ := mem_codeIn.mp ht
    have hnone := h k hik hkj
    rw [test_of_get? hk, hcode] at hnone
    cases hnone

theorem codeIn_eq_cons (h : s.get? i = some t) (hcode : t.isCode = true) (hij : i < j) :
    s.codeIn i j = t :: s.codeIn (i + 1) j := by
  rw [← codeIn_append (Nat.le_succ i) hij]
  have hone : s.codeIn i (i + 1) = [t] := by
    obtain ⟨hlt, heq⟩ := List.getElem?_eq_some_iff.mp ((get?_eq s i).symm.trans h)
    rw [codeIn, Nat.add_sub_cancel_left, List.drop_eq_getElem_cons hlt, List.take_succ_cons,
      List.take_zero, heq, List.filter_cons_of_pos hcode]
    rfl
  rw [hone]
  rfl

theorem codeIn_eq_concat (h : s.get? j = some t) (hcode : t.isCode = true) (hij : i ≤ j) :
    s.codeIn i (j + 1) = s.codeIn i j ++ [t] := by
  rw [← codeIn_append hij (Nat.le_succ j), codeIn_eq_cons h hcode (Nat.lt_succ_self j)]
  rw [codeIn_eq_nil.mpr fun k hjk hkj => absurd hjk (Nat.not_le_of_lt hkj)]

theorem exists_index {front rest : List Token} (h : s.codeIn i j = front ++ t :: rest) :
    ∃ k, i ≤ k ∧ k < j ∧ s.get? k = some t ∧ t.isCode = true ∧ front = s.codeIn i k ∧
      rest = s.codeIn (k + 1) j := by
  rw [codeIn] at h
  obtain ⟨us, vs, htokens, rfl, hrest⟩ := List.filter_eq_append_iff.mp h
  obtain ⟨ws, xs, rfl, hws, hcode, rfl⟩ := List.filter_eq_cons_iff.mp hrest
  rw [← List.append_assoc] at htokens
  have hlength := congrArg List.length htokens
  rw [List.length_take, List.length_append, List.length_cons] at hlength
  refine ⟨i + (us ++ ws).length, Nat.le_add_right _ _, by omega, ?_, hcode, ?_, ?_⟩
  · have hget : ((s.tokens.toList.drop i).take (j - i))[(us ++ ws).length]? = some t := by
      rw [htokens, List.getElem?_append_right (Nat.le_refl _), Nat.sub_self]
      rfl
    rw [List.getElem?_take, if_pos (by omega), List.getElem?_drop, ← get?_eq] at hget
    exact hget
  · have htake := congrArg (List.take (us ++ ws).length) htokens
    rw [List.take_take, Nat.min_eq_left (by omega), List.take_left' rfl] at htake
    rw [codeIn, Nat.add_sub_cancel_left, htake, List.filter_append]
    rw [List.filter_eq_nil_iff.mpr hws, List.append_nil]
  · have hdrop := congrArg (List.drop ((us ++ ws).length + 1)) htokens
    rw [List.append_cons, List.drop_left' (by rw [List.length_append]; rfl), List.drop_take,
      List.drop_drop, ← Nat.sub_add_eq] at hdrop
    rw [codeIn, Nat.add_assoc, hdrop]

theorem nextCode?_of_codeIn (hij : i < j) (h : s.get? j = some t) (hcode : t.isCode = true)
    (hnil : s.codeIn (i + 1) j = []) : s.nextCode? i = some j := by
  refine nextCode?_eq_some_iff.mpr ⟨hij, ?_, codeIn_eq_nil.mp hnil⟩
  rw [test_of_get? h, hcode]

/-- The places of two tokens that stand next to each other in the code. -/
theorem exists_neighbours {u : Token} {front rest : List Token}
    (h : s.tokens.toList.filter Token.isCode = front ++ t :: u :: rest) :
    ∃ i j, s.get? i = some t ∧ s.get? j = some u ∧ t.isCode = true ∧ u.isCode = true ∧
      s.nextCode? i = some j ∧ rest = s.codeIn (j + 1) s.size := by
  rw [← codeIn_zero] at h
  obtain ⟨i, _, _, ht, htcode, _, hrest⟩ := exists_index h
  have hnext : s.codeIn (i + 1) s.size = [] ++ u :: rest := hrest.symm
  obtain ⟨j, hij, _, hu, hucode, hnil, hrest⟩ := exists_index hnext
  exact ⟨i, j, ht, hu, htcode, hucode, nextCode?_of_codeIn hij hu hucode hnil.symm, hrest⟩

/-- What holds of neighbours in the code. -/
theorem rel_of_nextCode? {R : Token → Token → Prop} {u : Token}
    (hchain : (s.tokens.toList.filter Token.isCode).IsChain R) (h : s.nextCode? i = some j)
    (ht : s.get? i = some t) (htcode : t.isCode = true) (hu : s.get? j = some u) : R t u := by
  obtain ⟨hij, hcode, hnone⟩ := nextCode?_eq_some_iff.mp h
  rw [test_of_get? hu] at hcode
  have hi := lt_size_of_get? ht
  have hj := lt_size_of_get? hu
  have hsplit : s.codeIn (i + 1) s.size = u :: s.codeIn (j + 1) s.size := by
    rw [← codeIn_append hij (Nat.le_of_lt hj), codeIn_eq_nil.mpr hnone, List.nil_append,
      codeIn_eq_cons hu hcode hj]
  rw [← codeIn_zero, ← codeIn_append (Nat.zero_le i) (Nat.le_of_lt hi),
    codeIn_eq_cons ht htcode hi, hsplit] at hchain
  exact (List.isChain_cons_cons.mp (List.isChain_append.mp hchain).2.1).1

end TokenStream

namespace DeletionRange

/-- The range has flagged tokens as its first and last code; the code between them is flagged too or
a comma. -/
structure Run (tokens : TokenStream) (flagged : Token → Bool) (r : DeletionRange) : Prop where
  last_lt : r.tokens.last < tokens.size
  pattern : r.pattern = .commaList
  keepsTarget : r.includeTarget = false
  core : ∃ a b, r.tokens.first ≤ a ∧ a ≤ b ∧ b ≤ r.tokens.last ∧
    tokens.test a (fun t => t.isCode && flagged t) = true ∧
    tokens.test b (fun t => t.isCode && flagged t) = true ∧
    ∀ i t, r.tokens.first ≤ i → i ≤ r.tokens.last → tokens.get? i = some t → t.isCode = true →
      a ≤ i ∧ i ≤ b ∧ (flagged t = true ∨ t.is "," = true)

variable {tokens : TokenStream} {context : DeletionContext} {flagged : Token → Bool}
variable {r s : DeletionRange}

theorem Run.first_le_last (h : r.Run tokens flagged) : r.tokens.first ≤ r.tokens.last := by
  obtain ⟨a, b, hfirst, hab, hlast, _⟩ := h.core
  omega

theorem Run.flagged_or_comma (h : r.Run tokens flagged) {i : Nat} {t : Token}
    (hfirst : r.tokens.first ≤ i) (hlast : i ≤ r.tokens.last) (ht : tokens.get? i = some t)
    (hcode : t.isCode = true) : flagged t = true ∨ t.is "," = true := by
  obtain ⟨_, _, _, _, _, _, _, hall⟩ := h.core
  exact (hall i t hfirst hlast ht hcode).2.2

/-! ## Growing -/

theorem isCode_eq_false {t : Token} (h : t.isComment = true) : t.isCode = false := by
  rw [Token.isCode, h]
  rfl

theorem Run.mark (h : r.Run tokens flagged) : ({ r with expanded := true }).Run tokens flagged :=
  ⟨h.last_lt, h.pattern, h.keepsTarget, h.core⟩

/-- A run takes in comments and nothing else. -/
theorem Run.withTokens (h : r.Run tokens flagged) {first last : Nat} (hfirst : first ≤ r.tokens.first)
    (hlast : r.tokens.last ≤ last) (hlt : last < tokens.size)
    (hcomments : ∀ i t, first ≤ i → i ≤ last → (i < r.tokens.first ∨ r.tokens.last < i) →
      tokens.get? i = some t → t.isCode = false) :
    (r.withTokens first last).Run tokens flagged := by
  refine ⟨hlt, h.pattern, h.keepsTarget, ?_⟩
  obtain ⟨a, b, ha, hab, hb, hta, htb, hall⟩ := h.core
  refine ⟨a, b, Nat.le_trans hfirst ha, hab, Nat.le_trans hb hlast, hta, htb, ?_⟩
  intro i t hi hi' ht hcode
  by_cases hinside : r.tokens.first ≤ i ∧ i ≤ r.tokens.last
  · exact hall i t hinside.1 hinside.2 ht hcode
  · rw [hcomments i t hi hi' (by omega) ht] at hcode
    cases hcode

theorem Run.grow (h : r.Run context.tokens flagged) (hgrow : grow? context r = some s) :
    s.Run context.tokens flagged := by
  have hcomment : absorbComment? context.tokens r = some s := by
    have hbrackets : absorbBrackets? context.tokens r = none := by
      rw [absorbBrackets?, h.keepsTarget]
      rfl
    have hsign : absorbSign? context.tokens r = none := by
      rw [absorbSign?, h.pattern]
      simp
    have hname : absorbName? context.tokens r = none := by
      rw [absorbName?, h.keepsTarget]
      rfl
    have hclause : absorbClause? context r = none := by
      rw [absorbClause?, h.keepsTarget]
      rfl
    rw [grow?, hbrackets, hsign, hname, hclause] at hgrow
    simpa using hgrow
  rcases absorbComment?_eq_some hcomment with ⟨hpos, htest, _, rfl⟩ | ⟨hbehind, rfl⟩
  · refine h.withTokens (Nat.sub_le _ _) (Nat.le_refl _) h.last_lt ?_
    intro i t hi hi' hout ht
    obtain rfl : i = r.tokens.first - 1 := by omega
    obtain ⟨u, hu, hcomment⟩ := TokenStream.test_eq_true.mp htest
    rw [ht] at hu
    rw [Option.some.inj hu]
    exact isCode_eq_false hcomment
  · refine h.withTokens (Nat.le_refl _) (Nat.le_succ _) (lt_size_of_trailingComment? hbehind) ?_
    intro i t hi hi' hout ht
    obtain rfl : i = r.tokens.last + 1 := by omega
    rw [TokenStream.trailingComment?, ht] at hbehind
    split at hbehind
    · next previous next hprevious hnext =>
      obtain rfl := Option.some.inj hnext
      split at hbehind
      · next htrails =>
        rw [Token.trails, Bool.and_eq_true] at htrails
        exact isCode_eq_false htrails.1
      · cases hbehind
    · cases hbehind

theorem Run.expand (h : r.Run context.tokens flagged) :
    (DeletionRange.expand context r).Run context.tokens flagged :=
  expand_induction (fun _ _ hgrow h => Run.grow h hgrow) (fun _ h => h.mark) r h

/-! ## Merging -/

/-- Neighbours that are adjacent make one run. -/
theorem Run.combine (hr : r.Run tokens flagged) (hs : s.Run tokens flagged)
    (hle : r.tokens.first ≤ s.tokens.first) (hadjacent : adjacent tokens r s = true) :
    (DeletionRange.combine r s).Run tokens flagged := by
  refine ⟨Nat.max_lt.mpr ⟨hr.last_lt, hs.last_lt⟩, ?_, ?_, ?_⟩
  · show (if r.kind.rank < s.kind.rank then s.pattern else r.pattern) = .commaList
    rw [hr.pattern, hs.pattern, ite_self]
  · show (r.includeTarget || s.includeTarget) = false
    rw [hr.keepsTarget, hs.keepsTarget]
    rfl
  · -- between the two runs stands a comma at most
    have hgap : ∀ i t, r.tokens.last < i → i < s.tokens.first → tokens.get? i = some t →
        t.isCode = true → t.is "," = true := by
      intro i t hi hi' ht hcode
      have hmem : t ∈ codeBetween tokens r s :=
        TokenStream.mem_codeIn.mpr ⟨hcode, i, hi, hi', ht⟩
      rw [adjacent, if_neg (by omega)] at hadjacent
      split at hadjacent
      · next hnil =>
        rw [hnil] at hmem
        exact absurd hmem List.not_mem_nil
      · next u hsingle =>
        rw [hsingle, List.mem_singleton] at hmem
        rw [hr.pattern, hs.pattern, Bool.or_self] at hadjacent
        rw [hmem]
        exact hadjacent
      · cases hadjacent
    obtain ⟨a, b, ha, hab, hb, hta, htb, hrall⟩ := hr.core
    obtain ⟨a', b', ha', hab', hb', hta', htb', hsall⟩ := hs.core
    have hfirst : (DeletionRange.combine r s).tokens.first = r.tokens.first := combine_first hle
    have hlast : (DeletionRange.combine r s).tokens.last = max r.tokens.last s.tokens.last := rfl
    have hmin : min a a' = a ∨ min a a' = a' := by omega
    have hmax : max b b' = b ∨ max b b' = b' := by omega
    refine ⟨min a a', max b b', by omega, by omega, by omega, ?_, ?_, ?_⟩
    · rcases hmin with h | h
      · rw [h]
        exact hta
      · rw [h]
        exact hta'
    · rcases hmax with h | h
      · rw [h]
        exact htb
      · rw [h]
        exact htb'
    · intro i t hi hi' ht hcode
      rw [hfirst] at hi
      rw [hlast] at hi'
      by_cases hinr : i ≤ r.tokens.last
      · obtain ⟨hai, hib, hflagged⟩ := hrall i t hi hinr ht hcode
        exact ⟨by omega, by omega, hflagged⟩
      · by_cases hins : s.tokens.first ≤ i
        · obtain ⟨hai, hib, hflagged⟩ := hsall i t hins (by omega) ht hcode
          exact ⟨by omega, by omega, hflagged⟩
        · exact ⟨by omega, by omega, Or.inr (hgap i t (by omega) (by omega) ht hcode)⟩

/-! ## Settling -/

/-- Between the ranges stands code that is no comma. -/
def Parted (tokens : TokenStream) (r s : DeletionRange) : Prop :=
  s.tokens.first ≤ s.tokens.last ∧ ∃ k t, r.tokens.last < k ∧ k < s.tokens.first ∧
    tokens.get? k = some t ∧ t.isCode = true ∧ t.is "," = false

theorem Parted.trans {q : DeletionRange} (hqr : Parted tokens q r) (hrs : Parted tokens r s) :
    Parted tokens q s := by
  obtain ⟨hr, k, t, hk, hk', ht⟩ := hqr
  obtain ⟨hs, m, _, hm, hm', _⟩ := hrs
  exact ⟨hs, k, t, hk, by omega, ht⟩

/-- Of two neighbours in the code one is no comma. -/
theorem exists_solid : ∀ {ts : List Token}, ts.IsChain Apart → ts ≠ [] →
    (∀ t, ts = [t] → t.is "," = false) → ∃ t ∈ ts, t.is "," = false
  | [], _, hne, _ => absurd rfl hne
  | [t], _, _, hone => ⟨t, List.mem_cons_self, hone t rfl⟩
  | t :: u :: ts, hchain, _, _ => by
      by_cases ht : t.is "," = true
      · exact ⟨u, List.mem_cons_of_mem t List.mem_cons_self,
          (List.isChain_cons_cons.mp hchain).1 ht⟩
      · exact ⟨t, List.mem_cons_self, Bool.eq_false_iff.mpr ht⟩

theorem parted_of_adjacent (hchain : (tokens.tokens.toList.filter Token.isCode).IsChain Apart)
    (hr : r.Run tokens flagged) (hs : s.Run tokens flagged)
    (h : adjacent tokens r s = false) : Parted tokens r s := by
  rw [adjacent] at h
  split at h
  · cases h
  have hinfix : codeBetween tokens r s <:+: tokens.tokens.toList.filter Token.isCode := by
    refine List.IsInfix.filter _ ?_
    exact (List.take_prefix _ _).isInfix.trans (List.drop_suffix _ _).isInfix
  have hbetween := List.IsChain.infix hchain hinfix
  have hsolid : ∃ t ∈ codeBetween tokens r s, t.is "," = false := by
    refine exists_solid hbetween ?_ ?_
    · intro hnil
      rw [hnil] at h
      cases h
    · intro t hone
      rw [hone, hr.pattern, hs.pattern] at h
      exact (Bool.or_eq_false_iff.mp h).1
  obtain ⟨t, ht, hcomma⟩ := hsolid
  obtain ⟨hcode, k, hk, hk', hget⟩ := TokenStream.mem_codeIn.mp ht
  exact ⟨hs.first_le_last, k, t, hk, hk', hget, hcode, hcomma⟩

/-- Ranges that are settled: runs, with something that stays between any two of them, that cover
what was asked for. -/
structure Runs (tokens : TokenStream) (flagged : Token → Bool) (ranges : List DeletionRange) :
    Prop where
  run : ∀ r ∈ ranges, r.Run tokens flagged
  parted : ranges.Pairwise (Parted tokens)
  covers : ∀ i t, tokens.get? i = some t → t.isCode = true → flagged t = true →
    ∃ r ∈ ranges, r.tokens.first ≤ i ∧ i ≤ r.tokens.last

theorem Runs.eq_or_parted {ranges : List DeletionRange} (h : Runs tokens flagged ranges)
    (hr : r ∈ ranges) (hs : s ∈ ranges) : r = s ∨ Parted tokens r s ∨ Parted tokens s r := by
  have : Std.Symm fun r s => r = s ∨ Parted tokens r s ∨ Parted tokens s r := by
    refine ⟨fun r s hrs => ?_⟩
    rcases hrs with rfl | hrs | hsr
    · exact Or.inl rfl
    · exact Or.inr (Or.inr hrs)
    · exact Or.inr (Or.inl hsr)
  have hpairwise : ranges.Pairwise fun r s => r = s ∨ Parted tokens r s ∨ Parted tokens s r :=
    h.parted.imp fun hrs => Or.inr (Or.inl hrs)
  refine List.Pairwise.forall_of_forall ?_ hpairwise hr hs
  exact fun _ _ => Or.inl rfl

theorem settle_runs
    (hchain : (context.tokens.tokens.toList.filter Token.isCode).IsChain Apart)
    {ranges : List DeletionRange} (hruns : ∀ r ∈ ranges, r.Run context.tokens flagged)
    (hcovers : ∀ i t, context.tokens.get? i = some t → t.isCode = true → flagged t = true →
      ∃ r ∈ ranges, r.tokens.first ≤ i ∧ i ≤ r.tokens.last) :
    Runs context.tokens flagged (settle context ranges) := by
  have hround : ∀ last : List DeletionRange, (∀ r ∈ last, r.Run context.tokens flagged) →
      Merged context.tokens (Run context.tokens flagged) (last.map (DeletionRange.expand context))
        (expandAndMerge context last) := by
    intro last hlast
    refine merged_merge (fun l r hle hadjacent hl hr => hl.combine hr hle hadjacent) ?_
    intro s hs
    obtain ⟨r, hr, rfl⟩ := List.mem_map.mp hs
    exact (hlast r hr).expand
  have hcovered : ∀ last : List DeletionRange, (∀ r ∈ last, r.Run context.tokens flagged) →
      ∀ r ∈ last, ∃ s ∈ expandAndMerge context last, s.Covers r := by
    intro last hlast r hr
    obtain ⟨s, hs, hcovers⟩ := (hround last hlast).covers _ (List.mem_map_of_mem hr)
    exact ⟨s, hs, (expand_grows r).toCovers.trans hcovers⟩
  have hkept : ∀ rs : List DeletionRange,
      ((∀ r ∈ rs, r.Run context.tokens flagged) ∧ ∀ r ∈ ranges, ∃ s ∈ rs, s.Covers r) →
      (∀ r ∈ expandAndMerge context rs, r.Run context.tokens flagged) ∧
        ∀ r ∈ ranges, ∃ s ∈ expandAndMerge context rs, s.Covers r := by
    rintro rs ⟨hrs, hfrom⟩
    refine ⟨(hround rs hrs).all, fun r hr => ?_⟩
    obtain ⟨s, hs, hsr⟩ := hfrom r hr
    obtain ⟨q, hq, hqs⟩ := hcovered rs hrs s hs
    exact ⟨q, hq, hsr.trans hqs⟩
  obtain ⟨last, ⟨hlast, hfrom⟩, heq⟩ :=
    exists_settle hkept ⟨hruns, fun r hr => ⟨r, hr, .refl r⟩⟩
  have hmerged := hround last hlast
  rw [heq]
  refine ⟨hmerged.all, ?_, ?_⟩
  · have : Trans (Parted context.tokens) (Parted context.tokens) (Parted context.tokens) :=
      ⟨Parted.trans⟩
    refine List.isChain_iff_pairwise.mp (hmerged.apart.imp_of_mem_imp ?_)
    intro r s hr hs hadjacent
    exact parted_of_adjacent hchain (hmerged.all r hr) (hmerged.all s hs) hadjacent
  · intro i t hi hcode hflagged
    obtain ⟨r, hr, hfirst, hend⟩ := hcovers i t hi hcode hflagged
    obtain ⟨s, hs, hsr⟩ := hfrom r hr
    obtain ⟨q, hq, hqs⟩ := hcovered last hlast s hs
    have hqr := hsr.trans hqs
    exact ⟨q, hq, Nat.le_trans hqr.first_le hfirst, Nat.le_trans hend hqr.last_le⟩

/-! ## Where a run starts -/

theorem exists_run_ofNode? (hsorted : tokens.Sorted) {node : Range}
    (hnode : Within (tokens.tokens.toList.filter Token.isCode) node)
    (hflagged : ∀ i t, tokens.get? i = some t → node.contains t.range = true → flagged t = true)
    (term : Option String) (vocabulary : Vocabulary) (sibling : Nat) :
    ∃ r, ofNode? tokens node term vocabulary .commaList sibling = some r ∧ r.Run tokens flagged ∧
      ∀ i t, tokens.get? i = some t → node.contains t.range = true →
        r.tokens.first ≤ i ∧ i ≤ r.tokens.last := by
  obtain ⟨a, b, t, u, ha, hb, hab, htcode, hucode, rfl⟩ := hsorted.exists_bounds hnode
  have hwithin := TokenStream.within_eq hsorted ha hb hab
  have hinside : ∀ i v, tokens.get? i = some v →
      ((⟨t.range.start, u.range.stop⟩ : Range).contains v.range = true ↔ a ≤ i ∧ i ≤ b) := by
    intro i v hi
    rw [Range.contains_iff, ← not_lt, ← not_lt, hsorted.start_lt_iff hi ha,
      hsorted.stop_lt_iff hb hi]
    omega
  have hall : ∀ i v, tokens.get? i = some v → a ≤ i → i ≤ b → flagged v = true :=
    fun i v hi hai hib => hflagged i v hi ((hinside i v hi).mpr ⟨hai, hib⟩)
  have hsome : ∃ r, ofNode? tokens ⟨t.range.start, u.range.stop⟩ term vocabulary .commaList
      sibling = some r ∧ r.tokens = ⟨a, b⟩ ∧ r.pattern = .commaList ∧ r.includeTarget = false := by
    rw [ofNode?, hwithin]
    exact ⟨_, if_pos (Nat.lt_succ_of_le hab), rfl, rfl, rfl⟩
  obtain ⟨r, hr, hrange, hpattern, hkeeps⟩ := hsome
  refine ⟨r, hr, ⟨?_, hpattern, hkeeps, a, b, ?_⟩, ?_⟩ <;> rw [hrange]
  · exact TokenStream.lt_size_of_get? hb
  refine ⟨Nat.le_refl a, hab, Nat.le_refl b, ?_, ?_, ?_⟩
  · refine TokenStream.test_eq_true.mpr ⟨t, ha, ?_⟩
    rw [htcode, hall a t ha (Nat.le_refl a) hab]
    rfl
  · refine TokenStream.test_eq_true.mpr ⟨u, hb, ?_⟩
    rw [hucode, hall b u hb hab (Nat.le_refl b)]
    rfl
  · intro i v hai hib hi _
    exact ⟨hai, hib, Or.inl (hall i v hi hai hib)⟩
  · intro i v hi hcontains
    exact (hinside i v hi).mp hcontains

end DeletionRange

end AnnotationEdit

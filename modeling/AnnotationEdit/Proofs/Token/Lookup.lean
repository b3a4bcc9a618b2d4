import AnnotationEdit.Proofs.Text.Places
import Mathlib.Data.List.Sort

/-!
# Looking up tokens

In a stream whose tokens have characters and come one after the other, the halving search finds
what a scan finds: the token that starts or ends at a place (`startingAt?_eq_some`,
`endingAt?_eq_some`), and the tokens inside a range (`within_eq`). The stream of a text that is read
is such a stream: roles aside, it holds the tokens of the text in their order
(`Document.tokens_of_parse`).
-/

namespace AnnotationEdit

/-! ## Searching by halves -/

section Search

variable {α : Type} {xs : Array α} {p : α → Bool} {k : Nat}

/-- The search keeps the place where the predicate changes inside the stretch. -/
theorem narrow_bounds (hk : ∀ i, xs[i]?.any p = true ↔ i < k) (base size : Nat)
    (hbase : base ≤ k) (hsize : k ≤ base + size) :
    narrow xs p base size ≤ k ∧ k ≤ narrow xs p base size + 1 := by
  fun_induction narrow xs p base size with
  | case1 base size h => omega
  | case2 base size h ih =>
      have hhalf := hk (base + size / 2)
      by_cases hany : xs[base + size / 2]?.any p = true
      · rw [dif_pos hany] at ih
        rw [if_pos hany]
        exact ih (Nat.le_of_lt (hhalf.mp hany)) (by omega)
      · rw [dif_neg hany] at ih
        rw [if_neg hany]
        have hle : k ≤ base + size / 2 := Nat.le_of_not_lt fun hlt => hany (hhalf.mpr hlt)
        exact ih hbase (by omega)

/-- A predicate that holds of the first `k` elements only is found to hold of `k` elements. -/
theorem partitionPoint_eq (hk : ∀ i, xs[i]?.any p = true ↔ i < k) : partitionPoint xs p = k := by
  have hsize : k ≤ xs.size := by
    refine Nat.le_of_not_lt fun hlt => ?_
    have hany := (hk xs.size).mpr hlt
    rw [Array.getElem?_eq_none (Nat.le_refl _)] at hany
    cases hany
  have hbounds := narrow_bounds hk 0 xs.size (Nat.zero_le k) (by omega)
  rw [partitionPoint]
  simp only [hk]
  split <;> omega

end Search

namespace TokenStream

/-- The tokens have characters and come one after the other. -/
def Sorted (s : TokenStream) : Prop := Token.Ordered s.size s.tokens.toList

variable {s : TokenStream} {i j : Nat} {t u : Token}

theorem get?_eq (s : TokenStream) (i : Nat) : s.get? i = s.tokens.toList[i]? := by
  rw [get?, Array.getElem?_toList]

theorem lt_size_of_get? (h : s.get? i = some t) : i < s.size := by
  rw [get?] at h
  exact (Array.getElem?_eq_some_iff.mp h).1

theorem mem_of_get? (h : s.get? i = some t) : t ∈ s.tokens.toList := by
  rw [get?_eq] at h
  exact List.mem_of_getElem? h

theorem exists_get? (h : t ∈ s.tokens.toList) : ∃ i, s.get? i = some t := by
  obtain ⟨i, hi⟩ := List.mem_iff_getElem?.mp h
  exact ⟨i, by rw [get?_eq, hi]⟩

theorem rangeAt_of_get? (h : s.get? i = some t) : s.rangeAt i = t.range := by
  rw [rangeAt, h]

theorem test_eq_true {p : Token → Bool} :
    s.test i p = true ↔ ∃ t, s.get? i = some t ∧ p t = true := by
  rw [test, Option.any_eq_true]

theorem Sorted.proper (hs : s.Sorted) (h : s.get? i = some t) : t.range.Proper :=
  Token.Ordered.proper hs t (mem_of_get? h)

theorem pairwise_get? {R : Token → Token → Prop} (h : s.tokens.toList.Pairwise R) (hij : i < j)
    (hi : s.get? i = some t) (hj : s.get? j = some u) : R t u := by
  rw [get?_eq] at hi hj
  exact rel_of_getElem? h hi hj hij

theorem Sorted.before (hs : s.Sorted) (hi : s.get? i = some t) (hj : s.get? j = some u)
    (hij : i < j) : t.range.Before u.range :=
  pairwise_get? (Token.Ordered.apart hs) hij hi hj

theorem Sorted.start_le (hs : s.Sorted) (hi : s.get? i = some t) (hj : s.get? j = some u)
    (hij : i ≤ j) : t.range.start ≤ u.range.start := by
  rcases Nat.lt_or_eq_of_le hij with hlt | rfl
  · exact le_trans (le_of_lt (hs.proper hi)) (hs.before hi hj hlt)
  · rw [hi] at hj
    rw [Option.some.inj hj]

theorem Sorted.stop_le (hs : s.Sorted) (hi : s.get? i = some t) (hj : s.get? j = some u)
    (hij : i ≤ j) : t.range.stop ≤ u.range.stop := by
  rcases Nat.lt_or_eq_of_le hij with hlt | rfl
  · exact le_trans (hs.before hi hj hlt) (le_of_lt (hs.proper hj))
  · rw [hi] at hj
    rw [Option.some.inj hj]

/-- Earlier tokens start earlier. -/
theorem Sorted.start_lt_iff (hs : s.Sorted) (hi : s.get? i = some t) (hj : s.get? j = some u) :
    t.range.start < u.range.start ↔ i < j := by
  refine ⟨fun hlt => Nat.lt_of_not_le fun hji => ?_, fun hij => ?_⟩
  · exact absurd (hs.start_le hj hi hji) (not_le_of_gt hlt)
  · exact lt_of_lt_of_le (hs.proper hi) (hs.before hi hj hij)

/-- Earlier tokens end earlier. -/
theorem Sorted.stop_lt_iff (hs : s.Sorted) (hi : s.get? i = some t) (hj : s.get? j = some u) :
    t.range.stop < u.range.stop ↔ i < j := by
  refine ⟨fun hlt => Nat.lt_of_not_le fun hji => ?_, fun hij => ?_⟩
  · exact absurd (hs.stop_le hj hi hji) (not_le_of_gt hlt)
  · exact lt_of_le_of_lt (hs.before hi hj hij) (hs.proper hj)

/-- A predicate of the tokens that holds of those before a place only is found to hold there. -/
theorem partitionPoint_tokens {p : Token → Bool} {k : Nat} (hk : k ≤ s.size)
    (h : ∀ j u, s.get? j = some u → (p u = true ↔ j < k)) : partitionPoint s.tokens p = k := by
  refine partitionPoint_eq fun j => ?_
  constructor
  · intro hany
    obtain ⟨u, hu, hp⟩ := test_eq_true.mp hany
    exact (h j u hu).mp hp
  · intro hlt
    have hj : j < s.tokens.size := Nat.lt_of_lt_of_le hlt hk
    have hget : s.get? j = some s.tokens[j] := Array.getElem?_eq_getElem hj
    exact test_eq_true.mpr ⟨_, hget, (h j _ hget).mpr hlt⟩

theorem atOrAfter_start (hs : s.Sorted) (hi : s.get? i = some t) :
    s.atOrAfter t.range.start = i := by
  refine partitionPoint_tokens (Nat.le_of_lt (lt_size_of_get? hi)) fun j u hj => ?_
  rw [decide_eq_true_iff, hs.start_lt_iff hj hi]

theorem startingAt?_eq_some (hs : s.Sorted) (hi : s.get? i = some t) :
    s.startingAt? t.range.start = some i := by
  have htest : s.test i (fun u => u.range.start == t.range.start) = true :=
    test_eq_true.mpr ⟨t, hi, beq_self_eq_true _⟩
  rw [startingAt?]
  simp only [atOrAfter_start hs hi, if_pos htest]

theorem endingAt?_eq_some (hs : s.Sorted) (hi : s.get? i = some t) :
    s.endingAt? t.range.stop = some i := by
  have hpoint : partitionPoint s.tokens (fun u => u.range.stop < t.range.stop) = i := by
    refine partitionPoint_tokens (Nat.le_of_lt (lt_size_of_get? hi)) fun j u hj => ?_
    rw [decide_eq_true_iff, hs.stop_lt_iff hj hi]
  have htest : s.test i (fun u => u.range.stop == t.range.stop) = true :=
    test_eq_true.mpr ⟨t, hi, beq_self_eq_true _⟩
  rw [endingAt?]
  simp only [hpoint, if_pos htest]

/-- The tokens from the start of one to the end of another. -/
theorem within_eq (hs : s.Sorted) (hi : s.get? i = some t) (hj : s.get? j = some u)
    (hij : i ≤ j) : s.within ⟨t.range.start, u.range.stop⟩ = (i, j + 1) := by
  have hpoint : partitionPoint s.tokens (fun v => v.range.stop ≤ u.range.stop) = j + 1 := by
    refine partitionPoint_tokens (lt_size_of_get? hj) fun k v hk => ?_
    rw [decide_eq_true_iff, ← not_lt, hs.stop_lt_iff hj hk]
    omega
  rw [within]
  simp only [hpoint, atOrAfter_start hs hi]
  rw [Prod.mk.injEq]
  exact ⟨rfl, Nat.max_eq_left (by omega)⟩

/-! ## Stepping over comments -/

theorem firstCode?_eq_some_iff : ∀ {n i j : Nat}, s.firstCode? i n = some j ↔
    i ≤ j ∧ j < i + n ∧ s.test j Token.isCode = true ∧
      ∀ k, i ≤ k → k < j → s.test k Token.isCode = false
  | 0, i, j => by
      rw [firstCode?]
      constructor
      · intro h
        cases h
      · rintro ⟨h, h', _⟩
        omega
  | n + 1, i, j => by
      rw [firstCode?]
      split
      · next hi =>
        constructor
        · intro h
          obtain rfl := Option.some.inj h
          exact ⟨Nat.le_refl i, by omega, hi, fun k hk hki => absurd hk (by omega)⟩
        · rintro ⟨hij, _, _, hbefore⟩
          rcases Nat.lt_or_eq_of_le hij with hlt | rfl
          · rw [hbefore i (Nat.le_refl i) hlt] at hi
            cases hi
          · rfl
      · next hi =>
        rw [firstCode?_eq_some_iff]
        constructor
        · rintro ⟨hij, hj, hcode, hbefore⟩
          refine ⟨by omega, by omega, hcode, fun k hik hkj => ?_⟩
          rcases Nat.lt_or_eq_of_le hik with hlt | rfl
          · exact hbefore k hlt hkj
          · exact Bool.eq_false_iff.mpr hi
        · rintro ⟨hij, hj, hcode, hbefore⟩
          have hne : i ≠ j := by
            rintro rfl
            exact hi hcode
          exact ⟨by omega, by omega, hcode, fun k hk hkj => hbefore k (by omega) hkj⟩

theorem lt_size_of_test {p : Token → Bool} (h : s.test i p = true) : i < s.size := by
  obtain ⟨t, ht, _⟩ := test_eq_true.mp h
  exact lt_size_of_get? ht

theorem nextCode?_eq_some_iff : s.nextCode? i = some j ↔ i < j ∧ s.test j Token.isCode = true ∧
    ∀ k, i < k → k < j → s.test k Token.isCode = false := by
  rw [nextCode?, firstCode?_eq_some_iff]
  constructor
  · rintro ⟨hij, _, hcode, hbefore⟩
    exact ⟨hij, hcode, hbefore⟩
  · rintro ⟨hij, hcode, hbefore⟩
    have := lt_size_of_test hcode
    exact ⟨hij, by omega, hcode, hbefore⟩

theorem nextCode?_isSome (hij : i < j) (hj : s.test j Token.isCode = true) :
    ∃ k, s.nextCode? i = some k ∧ k ≤ j := by
  induction hd : j - i using Nat.strongRecOn generalizing j with
  | ind d ih =>
    by_cases hbetween : ∃ k, i < k ∧ k < j ∧ s.test k Token.isCode = true
    · obtain ⟨k, hik, hkj, hk⟩ := hbetween
      obtain ⟨m, hm, hmk⟩ := ih (k - i) (by omega) hik hk rfl
      exact ⟨m, hm, by omega⟩
    · refine ⟨j, nextCode?_eq_some_iff.mpr ⟨hij, hj, fun k hik hkj => ?_⟩, Nat.le_refl j⟩
      exact Bool.eq_false_iff.mpr fun hk => hbetween ⟨k, hik, hkj, hk⟩

theorem prevCode?_eq_some_iff {i : Nat} : s.prevCode? i = some j ↔
    j < i ∧ s.test j Token.isCode = true ∧ ∀ k, j < k → k < i → s.test k Token.isCode = false := by
  induction i with
  | zero =>
      rw [prevCode?]
      constructor
      · intro h
        cases h
      · rintro ⟨h, _⟩
        omega
  | succ i ih =>
      rw [prevCode?]
      split
      · next hi =>
        constructor
        · intro h
          obtain rfl := Option.some.inj h
          exact ⟨Nat.lt_succ_self i, hi, fun k hk hki => absurd hk (by omega)⟩
        · rintro ⟨hij, _, hbetween⟩
          rcases Nat.lt_or_eq_of_le (Nat.le_of_lt_succ hij) with hlt | rfl
          · rw [hbetween i hlt (Nat.lt_succ_self i)] at hi
            cases hi
          · rfl
      · next hi =>
        rw [ih]
        constructor
        · rintro ⟨hij, hcode, hbetween⟩
          refine ⟨by omega, hcode, fun k hjk hki => ?_⟩
          rcases Nat.lt_or_eq_of_le (Nat.le_of_lt_succ hki) with hlt | rfl
          · exact hbetween k hjk hlt
          · exact Bool.eq_false_iff.mpr hi
        · rintro ⟨hij, hcode, hbetween⟩
          have hne : j ≠ i := by
            rintro rfl
            exact hi hcode
          exact ⟨by omega, hcode, fun k hjk hki => hbetween k hjk (by omega)⟩

end TokenStream

/-! ## The stream of a text -/

theorem Token.Ordered.eq_of_start {n : Nat} {ts : List Token} (h : Ordered n ts) {t u : Token}
    (ht : t ∈ ts) (hu : u ∈ ts) (hstart : t.range.start = u.range.start) : t = u := by
  obtain ⟨i, hi⟩ := List.mem_iff_getElem?.mp ht
  obtain ⟨j, hj⟩ := List.mem_iff_getElem?.mp hu
  have hne : ∀ {a b : Token}, a ∈ ts → a.range.Before b.range → a.range.start ≠ b.range.start :=
    fun ha hbefore => ne_of_lt (lt_of_lt_of_le (h.proper _ ha) hbefore)
  rcases eq_or_rel_of_getElem? h.apart hi hj with rfl | hbefore | hbefore
  · exact Option.some.inj (hi.symm.trans hj)
  · exact absurd hstart (hne ht hbefore)
  · exact absurd hstart.symm (hne hu hbefore)

/-- Tokens sorted by where they start are in the order of the text. -/
theorem Token.Ordered.eq_of_perm {n : Nat} {ts us : List Token} (h : Ordered n ts)
    (hus : us.Pairwise fun a b => a.range.start ≤ b.range.start) (hperm : us.Perm ts) :
    us = ts := by
  have hts : ts.Pairwise fun a b => a.range.start ≤ b.range.start := by
    refine h.apart.imp_of_mem fun ha _ hab => ?_
    exact le_trans (le_of_lt (h.proper _ ha)) hab
  refine List.Perm.eq_of_pairwise (fun a b ha hb hab hba => ?_) hus hts hperm
  exact h.eq_of_start (hperm.mem_iff.mp ha) hb (le_antisymm hab hba)

theorem Token.pairwise_mergeSort (ts : List Token) :
    (ts.mergeSort fun a b => a.range.start ≤ b.range.start).Pairwise
      fun a b => a.range.start ≤ b.range.start := by
  refine (List.pairwise_mergeSort ?_ ?_ ts).imp decide_eq_true_iff.mp
  · intro a b c hab hbc
    rw [decide_eq_true_iff] at hab hbc ⊢
    exact le_trans hab hbc
  · intro a b
    rw [Bool.or_eq_true, decide_eq_true_iff, decide_eq_true_iff]
    exact le_total _ _

theorem Token.plain_of_identifier {t : Token} (h : t.identifier = none) : t.plain = t := by
  obtain ⟨kind, text, range, identifier⟩ := t
  obtain rfl : identifier = none := h
  rfl

/-- The stream of the comments and of the code tokens with their roles holds the tokens of the text
in their order, and the code tokens in theirs. -/
theorem TokenStream.ofTokens_eq {n : Nat} {tokens code : List Token}
    (hordered : Token.Ordered n tokens) (hplain : ∀ t ∈ tokens, t.identifier = none)
    (hcode : code.map Token.plain = tokens.filter Token.isCode) :
    (ofTokens (tokens.filter Token.isComment ++ code)).tokens.toList.map Token.plain = tokens ∧
      (ofTokens (tokens.filter Token.isComment ++ code)).tokens.toList.filter Token.isCode =
        code := by
  have hcomments : (tokens.filter Token.isComment).map Token.plain =
      tokens.filter Token.isComment := by
    rw [List.map_congr_left (g := id), List.map_id]
    exact fun t ht => Token.plain_of_identifier (hplain t (List.mem_filter.mp ht).1)
  have hsorted := Token.pairwise_mergeSort (tokens.filter Token.isComment ++ code)
  have hperm := List.mergeSort_perm (tokens.filter Token.isComment ++ code)
    fun a b => a.range.start ≤ b.range.start
  constructor
  · refine hordered.eq_of_perm (List.pairwise_map.mpr hsorted) ((hperm.map Token.plain).trans ?_)
    rw [List.map_append, hcomments, hcode]
    exact List.filter_append_perm Token.isComment tokens
  · have hcodeRanges : code.map (·.range) = (tokens.filter Token.isCode).map (·.range) := by
      rw [← hcode, List.map_map]
      rfl
    have hcodeOrdered : Token.Ordered n code :=
      Token.ordered_of_map_range hcodeRanges (hordered.sublist List.filter_sublist)
    refine hcodeOrdered.eq_of_perm (hsorted.filter _) ((hperm.filter _).trans ?_)
    have hnone : (tokens.filter Token.isComment).filter Token.isCode = [] := by
      refine List.filter_eq_nil_iff.mpr fun t ht => ?_
      rw [Token.isCode, (List.mem_filter.mp ht).2]
      decide
    have hall : code.filter Token.isCode = code := by
      refine List.filter_eq_self.mpr fun t ht => ?_
      have hmem : t.plain ∈ tokens.filter Token.isCode := hcode ▸ List.mem_map_of_mem ht
      exact (List.mem_filter.mp hmem).2
    rw [List.filter_append, hnone, hall, List.nil_append]

namespace Document

/-- The tokens of a document that is read from a text: those of the text in their order, where the
code tokens have roles, and the code tokens write the items of the file. -/
theorem tokens_of_parse {uri text : String} {c : Configuration} {d : Document}
    (h : parse uri text c = .ok d) : ∃ tokens items, Lexer.tokenize text = .ok tokens ∧
      d.tokens.tokens.toList.map Token.plain = tokens ∧ d.tokens.Sorted ∧
      Syntax.consecutive (Syntax.Item.WrittenAs c.aliases) items
        (d.tokens.tokens.toList.filter Token.isCode) ∧
      d.lines = Lines.ofString text ∧ d.syntaxTree = fileOf uri text items ∧
      d.tree = (fileOf uri text items).abstraction c.aliases := by
  obtain ⟨tokens, items, code, htokens, hitems, hcode, rfl⟩ := parse_eq_ok_iff.mp h
  have hordered := Lexer.ordered_of_tokenize htokens
  obtain ⟨hall, hsome⟩ := TokenStream.ofTokens_eq hordered (Lexer.identifier_of_tokenize htokens)
    hcode
  refine ⟨tokens, items, htokens, hall, ?_, ?_, rfl, rfl, rfl⟩
  · have hranges := congrArg (List.map Token.range) hall
    rw [List.map_map] at hranges
    obtain ⟨_, hproper, hapart⟩ := Token.ordered_of_map_range hranges hordered
    exact ⟨Nat.le_of_eq Array.length_toList, hproper, hapart⟩
  · rw [hsome]
    exact hitems

end Document

end AnnotationEdit

import AnnotationEdit.Proofs.Deletion.Wrapping
import AnnotationEdit.Proofs.Syntax.Pruning

/-!
# Commas that go and commas that stay

The edits for the runs of a file take the flagged tokens and as many commas as the lists need: the
comma behind each run, or the one in front of the last run of a list (`cutsMembers`). What they leave
is read again token by token (`cleanCut`).
-/

namespace AnnotationEdit

namespace DeletionRange

/-- The runs of a file, whose flagged tokens are those of members of lists. -/
structure Removable (context : DeletionContext) (flagged : Token → Bool)
    (ranges : List DeletionRange) : Prop where
  onLines : context.tokens.OnLines context.lines
  runs : Runs context.tokens flagged ranges
  tame : Tame (context.tokens.tokens.toList.filter Token.isCode)
  stays : Syntax.Stays flagged (context.tokens.tokens.toList.filter Token.isCode)

namespace Removable

variable {context : DeletionContext} {flagged : Token → Bool} {ranges : List DeletionRange}
variable {d : DeletionRange} {i k : Nat} {t : Token}

/-- Code follows what is flagged and the commas. -/
theorem exists_code_after (h : Removable context flagged ranges)
    (ht : context.tokens.get? i = some t) (hcode : t.isCode = true)
    (hflagged : flagged t = true ∨ t.is "," = true) :
    ∃ k, i < k ∧ context.tokens.test k Token.isCode = true := by
  by_contra hnone
  have hrest : context.tokens.codeIn (i + 1) context.tokens.size = [] := by
    refine TokenStream.codeIn_eq_nil.mpr fun k hik _ => Bool.eq_false_iff.mpr fun htest => ?_
    exact hnone ⟨k, hik, htest⟩
  have hlt := TokenStream.lt_size_of_get? ht
  have hlast : (context.tokens.tokens.toList.filter Token.isCode).getLast? = some t := by
    rw [← TokenStream.codeIn_zero, ← TokenStream.codeIn_append (Nat.zero_le i) (Nat.le_of_lt hlt),
      TokenStream.codeIn_eq_cons ht hcode hlt, hrest, List.getLast?_concat]
  rcases hflagged with hflagged | hcomma
  · rw [h.stays.last t hlast] at hflagged
    cases hflagged
  · rw [h.tame.last t hlast] at hcomma
    cases hcomma

theorem exists_next (h : Removable context flagged ranges) (hd : d ∈ ranges) :
    ∃ next, context.tokens.nextCode? d.tokens.last = some next := by
  obtain ⟨a, b, hfirst, hab, hlast, _, htest, hall⟩ := (h.runs.run d hd).core
  obtain ⟨t, ht, hcond⟩ := TokenStream.test_eq_true.mp htest
  rw [Bool.and_eq_true] at hcond
  obtain ⟨k, hbk, hk⟩ := h.exists_code_after ht hcond.1 (Or.inl hcond.2)
  have hbehind : d.tokens.last < k := by
    refine Nat.lt_of_not_le fun hle => ?_
    obtain ⟨u, hu, hcode⟩ := TokenStream.test_eq_true.mp hk
    have := (hall k u (by omega) hle hu hcode).2.1
    omega
  obtain ⟨next, hnext, _⟩ := TokenStream.nextCode?_isSome hbehind hk
  exact ⟨next, hnext⟩

/-- A token follows what goes with a run. -/
theorem lastWithSeparator_succ_lt (h : Removable context flagged ranges) :
    ∀ d ∈ ranges, d.lastWithSeparator context.tokens + 1 < context.tokens.size := by
  intro d hd
  rcases lastWithSeparator_cases context.tokens d with ⟨next, hnext, hcomma, hlast⟩ | ⟨hlast, _⟩
  · rw [(h.runs.run d hd).separates] at hcomma
    obtain ⟨t, ht, hcomma⟩ := TokenStream.test_eq_true.mp hcomma
    obtain ⟨_, hcode, _⟩ := TokenStream.nextCode?_eq_some_iff.mp hnext
    obtain ⟨u, hu, hcode⟩ := TokenStream.test_eq_true.mp hcode
    rw [ht] at hu
    obtain ⟨k, hk, htest⟩ := h.exists_code_after ht (Option.some.inj hu ▸ hcode) (Or.inr hcomma)
    have hsize := TokenStream.lt_size_of_test htest
    rcases hlast with hlast | ⟨hlast, htrails⟩
    · omega
    · have hne : k ≠ next + 1 := by
        rintro rfl
        obtain ⟨v, hv, hcomment⟩ :=
          TokenStream.test_eq_true.mp (test_isComment_of_trailingComment? htrails)
        obtain ⟨w, hw, hcode⟩ := TokenStream.test_eq_true.mp htest
        rw [hv] at hw
        rw [← Option.some.inj hw, isCode_eq_false hcomment] at hcode
        cases hcode
      omega
  · obtain ⟨next, hnext⟩ := h.exists_next hd
    have := TokenStream.nextCode?_bounds hnext
    omega

theorem cut_iff (h : Removable context flagged ranges) (ht : context.tokens.get? i = some t) :
    TextEdit.cuts (allEdits context ranges) t = true ↔
      ∃ d ∈ ranges, d.Takes context.tokens i :=
  cuts_iff h.onLines h.runs h.lastWithSeparator_succ_lt ht

/-- What follows a run, with a comma between at most, is not flagged. -/
theorem flagged_eq_false (h : Removable context flagged ranges) (hd : d ∈ ranges)
    (hi : d.tokens.last < i) (ht : context.tokens.get? i = some t) (hcode : t.isCode = true)
    (hcommas : ∀ k u, d.tokens.last < k → k < i → context.tokens.get? k = some u →
      u.isCode = true → u.is "," = true) : flagged t = false := by
  rw [← Bool.not_eq_true]
  intro hflagged
  obtain ⟨d', hd', hfirst, hlast⟩ := h.runs.covers i t ht hcode hflagged
  have hle := (h.runs.run d hd).first_le_last
  rcases h.runs.eq_or_parted hd hd' with rfl | ⟨_, k, u, hk, hk', hu, hucode, hsolid⟩ |
    ⟨_, k, _, hk, hk', _⟩
  · omega
  · rw [hcommas k u hk (by omega) hu hucode] at hsolid
    cases hsolid
  · omega

theorem flagged_or_comma (h : Removable context flagged ranges) (hd : d ∈ ranges)
    (htakes : d.Takes context.tokens i) (ht : context.tokens.get? i = some t)
    (hcode : t.isCode = true) : flagged t = true ∨ t.is "," = true := by
  have hrun := h.runs.run d hd
  rcases htakes with ⟨hfirst, hlast⟩ | ⟨hprevious, hsome⟩
  · by_cases hinside : i ≤ d.tokens.last
    · exact hrun.flagged_or_comma hfirst hinside ht hcode
    · exact Or.inr (comma_of_le_lastWithSeparator hrun ht hcode (by omega) hlast).2
  · obtain ⟨r, hr⟩ := Option.isSome_iff_exists.mp hsome
    obtain ⟨j, u, hj, hu, hcomma, _⟩ := (commaBefore?_eq_some hrun).mp hr
    rw [hprevious] at hj
    obtain rfl := Option.some.inj hj
    rw [ht] at hu
    rw [Option.some.inj hu]
    exact Or.inr hcomma

/-- The comma in front of a run goes when a bracket follows the run. -/
theorem openRun_of_separator (h : Removable context flagged ranges) (hd : d ∈ ranges)
    (hprevious : context.tokens.prevCode? d.tokens.first = some i)
    (hsome : (d.separatorBefore? context.tokens).isSome = true) :
    OpenRun flagged (context.tokens.codeIn (i + 1) context.tokens.size) := by
  have hrun := h.runs.run d hd
  obtain ⟨r, hr⟩ := Option.isSome_iff_exists.mp hsome
  obtain ⟨_, _, _, _, _, _, hclose⟩ := (commaBefore?_eq_some hrun).mp hr
  obtain ⟨next, hnext⟩ := h.exists_next hd
  obtain ⟨_, hcloser⟩ := hclose next hnext
  obtain ⟨closing, hclosing, hcloser⟩ := TokenStream.test_eq_true.mp hcloser
  obtain ⟨hlt, hcode, hnone⟩ := TokenStream.nextCode?_eq_some_iff.mp hnext
  obtain ⟨hltfirst, _, hnone'⟩ := TokenStream.prevCode?_eq_some_iff.mp hprevious
  obtain ⟨closing', hclosing', hcode⟩ := TokenStream.test_eq_true.mp hcode
  rw [hclosing] at hclosing'
  obtain rfl := Option.some.inj hclosing'
  obtain ⟨a, b, hfirst, hab, hlast, hta, htb, hall⟩ := hrun.core
  obtain ⟨t, ht, hta⟩ := TokenStream.test_eq_true.mp hta
  obtain ⟨u, hu, htb⟩ := TokenStream.test_eq_true.mp htb
  rw [Bool.and_eq_true] at hta htb
  have hsize := TokenStream.lt_size_of_get? hclosing
  have hbefore : context.tokens.codeIn (i + 1) a = [] := by
    refine TokenStream.codeIn_eq_nil.mpr fun k hik hka => Bool.eq_false_iff.mpr fun htest => ?_
    by_cases hk : k < d.tokens.first
    · rw [hnone' k hik hk] at htest
      cases htest
    · obtain ⟨v, hv, hvcode⟩ := TokenStream.test_eq_true.mp htest
      have := (hall k v (by omega) (by omega) hv hvcode).1
      omega
  have hafter : context.tokens.codeIn (b + 1) next = [] := by
    refine TokenStream.codeIn_eq_nil.mpr fun k hbk hk => Bool.eq_false_iff.mpr fun htest => ?_
    by_cases hklast : d.tokens.last < k
    · rw [hnone k hklast hk] at htest
      cases htest
    · obtain ⟨v, hv, hvcode⟩ := TokenStream.test_eq_true.mp htest
      have := (hall k v (by omega) (by omega) hv hvcode).2.1
      omega
  have hsplit : context.tokens.codeIn (i + 1) context.tokens.size =
      context.tokens.codeIn a (b + 1) ++
        closing :: context.tokens.codeIn (next + 1) context.tokens.size := by
    rw [← TokenStream.codeIn_append (k := a) (by omega) (by omega), hbefore, List.nil_append,
      ← TokenStream.codeIn_append (k := b + 1) (by omega) (by omega),
      ← TokenStream.codeIn_append (i := b + 1) (k := next) (by omega) (by omega), hafter,
      List.nil_append, TokenStream.codeIn_eq_cons hclosing hcode hsize]
  refine ⟨_, closing, _, hsplit, hcloser, ?_, ?_, ?_, ?_⟩
  · refine h.flagged_eq_false hd hlt hclosing hcode fun k v hk hk' hv hvcode => ?_
    have htest := TokenStream.test_eq_true.mpr ⟨v, hv, hvcode⟩
    rw [hnone k hk hk'] at htest
    cases htest
  · intro v hv
    rw [TokenStream.codeIn_eq_cons ht hta.1 (by omega)] at hv
    rw [← Option.some.inj hv]
    exact hta.2
  · refine ⟨u, ?_, htb.2⟩
    rw [TokenStream.codeIn_eq_concat hu htb.1 hab, Option.mem_def, List.getLast?_concat]
  · intro v hv
    obtain ⟨hvcode, k, hak, hkb, hk⟩ := TokenStream.mem_codeIn.mp hv
    exact (hall k v (by omega) (by omega) hk hvcode).2.2

theorem cut_after (h : Removable context flagged ranges) {j : Nat} {u : Token}
    (hnext : context.tokens.nextCode? i = some j) (ht : context.tokens.get? i = some t)
    (htcode : t.isCode = true) (hflagged : flagged t = true)
    (hu : context.tokens.get? j = some u) (hcomma : u.is "," = true) :
    TextEdit.cuts (allEdits context ranges) u = true := by
  obtain ⟨d, hd, hfirst, hlast⟩ := h.runs.covers i t ht htcode hflagged
  have hrun := h.runs.run d hd
  obtain ⟨hij, hjcode, hnone⟩ := TokenStream.nextCode?_eq_some_iff.mp hnext
  refine (h.cut_iff hu).mpr ⟨d, hd, ?_⟩
  by_cases hinside : j ≤ d.tokens.last
  · exact takes_of_mem (by omega) hinside
  · -- nothing stands between the run and the comma
    have hbehind : context.tokens.nextCode? d.tokens.last = some j :=
      TokenStream.nextCode?_eq_some_iff.mpr
        ⟨by omega, hjcode, fun k hk hkj => hnone k (by omega) hkj⟩
    rcases lastWithSeparator_cases context.tokens d with ⟨next, hnext, _, hend⟩ | ⟨_, hother⟩
    · rw [hbehind] at hnext
      have heq := Option.some.inj hnext
      exact Or.inl ⟨by omega, by omega⟩
    · have hfalse := hother j hbehind
      rw [hrun.separates, TokenStream.test_of_get? hu, hcomma] at hfalse
      cases hfalse

/-- Of the commas behind a token that stays, only one in front of the last run of a list goes. -/
theorem open_of_cut (h : Removable context flagged ranges) {j : Nat} {u : Token}
    (hnext : context.tokens.nextCode? i = some j) (ht : context.tokens.get? i = some t)
    (htcode : t.isCode = true) (hfree : flagged t = false) (hother : t.is "," = false)
    (hu : context.tokens.get? j = some u) (hufree : flagged u = false)
    (hcut : TextEdit.cuts (allEdits context ranges) u = true) :
    OpenRun flagged (context.tokens.codeIn (j + 1) context.tokens.size) := by
  obtain ⟨d, hd, htakes⟩ := (h.cut_iff hu).mp hcut
  have hrun := h.runs.run d hd
  obtain ⟨hij, hjcode, hnone⟩ := TokenStream.nextCode?_eq_some_iff.mp hnext
  obtain ⟨a, b, hfirst, hab, hlast, hta, htb, hall⟩ := hrun.core
  have hclear : ¬ (d.tokens.first ≤ i ∧ i ≤ d.tokens.last) := by
    rintro ⟨hi, hi'⟩
    rcases hrun.flagged_or_comma hi hi' ht htcode with hflagged | hcomma
    · rw [hfree] at hflagged
      cases hflagged
    · rw [hother] at hcomma
      cases hcomma
  have hafter : ∀ k, i < k → k ≤ j → context.tokens.test k (fun t => t.isCode && flagged t) =
      true → False := by
    intro k hik hkj htest
    obtain ⟨v, hv, hcond⟩ := TokenStream.test_eq_true.mp htest
    rw [Bool.and_eq_true] at hcond
    rcases Nat.lt_or_eq_of_le hkj with hlt | rfl
    · have hcode := hnone k hik hlt
      rw [TokenStream.test_of_get? hv, hcond.1] at hcode
      cases hcode
    · rw [hu] at hv
      rw [Option.some.inj hv, hcond.2] at hufree
      cases hufree
  rw [TokenStream.test_of_get? hu] at hjcode
  rcases htakes with ⟨hj, hj'⟩ | ⟨hprevious, hsome⟩
  · exfalso
    by_cases hinside : j ≤ d.tokens.last
    · exact hafter a (by omega) (hall j u hj hinside hu hjcode).1 hta
    · obtain ⟨hbehind, _⟩ := comma_of_le_lastWithSeparator hrun hu hjcode (by omega) hj'
      obtain ⟨_, _, hgap⟩ := TokenStream.nextCode?_eq_some_iff.mp hbehind
      have hi : i ≤ d.tokens.last := by
        refine Nat.le_of_not_lt fun hlt => ?_
        have hcode := hgap i hlt hij
        rw [TokenStream.test_of_get? ht, htcode] at hcode
        cases hcode
      exact hafter b (by omega) (by omega) htb
  · exact h.openRun_of_separator hd hprevious hsome

/-- When nothing but flagged tokens and commas stands between a run and a place, and no comma is the
last of them, then nothing stands there. -/
theorem nextCode?_eq_some (h : Removable context flagged ranges) (hd : d ∈ ranges) {c : Nat}
    (hc : d.tokens.last < c) (hcode : context.tokens.test c Token.isCode = true)
    (hmember : ∀ k v, d.tokens.last < k → k < c → context.tokens.get? k = some v →
      v.isCode = true → flagged v = true ∨ v.is "," = true)
    (hend : ∀ k v, d.tokens.last < k → k < c → context.tokens.get? k = some v → v.isCode = true →
      context.tokens.codeIn (k + 1) c = [] → flagged v = true) :
    context.tokens.nextCode? d.tokens.last = some c := by
  obtain ⟨next, hnext, hle⟩ := TokenStream.nextCode?_isSome hc hcode
  rcases Nat.lt_or_eq_of_le hle with hlt | rfl
  swap
  · exact hnext
  exfalso
  obtain ⟨hlast, hncode, hnone⟩ := TokenStream.nextCode?_eq_some_iff.mp hnext
  obtain ⟨v, hv, hvcode⟩ := TokenStream.test_eq_true.mp hncode
  have hgap : ∀ k u, d.tokens.last < k → k < next → context.tokens.get? k = some u →
      u.isCode = true → u.is "," = true := by
    intro k u hk hk' hu hucode
    have hfalse := hnone k hk hk'
    rw [TokenStream.test_of_get? hu, hucode] at hfalse
    cases hfalse
  have hvfree := h.flagged_eq_false hd hlast hv hvcode hgap
  have hvcomma : v.is "," = true := by
    rcases hmember next v hlast hlt hv hvcode with hflagged | hcomma
    · rw [hvfree] at hflagged
      cases hflagged
    · exact hcomma
  cases hrest : context.tokens.codeIn (next + 1) c with
  | nil =>
      rw [hend next v hlast hlt hv hvcode hrest] at hvfree
      cases hvfree
  | cons w ws =>
      have hsplit : context.tokens.codeIn (next + 1) c = [] ++ w :: ws := hrest
      obtain ⟨k, hk, hkc, hw, hwcode, hnil, _⟩ := TokenStream.exists_index hsplit
      have hwnext := TokenStream.nextCode?_of_codeIn hk hw hwcode hnil.symm
      have hwcomma := TokenStream.rel_of_nextCode? h.tame.chain hwnext hv hvcode hw hvcomma
      have hwfree : flagged w = false := by
        refine h.flagged_eq_false hd (by omega) hw hwcode fun m u hm hmk hu hucode => ?_
        rcases Nat.lt_trichotomy m next with hlt | rfl | hgt
        · exact hgap m u hm hlt hu hucode
        · rw [hv] at hu
          rw [← Option.some.inj hu]
          exact hvcomma
        · have hfalse := TokenStream.codeIn_eq_nil.mp hnil.symm m hgt hmk
          rw [TokenStream.test_of_get? hu, hucode] at hfalse
          cases hfalse
      rcases hmember k w (by omega) hkc hw hwcode with hflagged | hcomma
      · rw [hwfree] at hflagged
        cases hflagged
      · rw [hwcomma] at hcomma
        cases hcomma

theorem cut_of_open (h : Removable context flagged ranges)
    (ht : context.tokens.get? i = some t) (hcomma : t.is "," = true)
    (hcode : context.tokens.test i Token.isCode = true)
    (hopen : OpenRun flagged (context.tokens.codeIn (i + 1) context.tokens.size)) :
    TextEdit.cuts (allEdits context ranges) t = true := by
  obtain ⟨run, closing, rest, hsplit, hcloser, hfree, hhead, ⟨u, hu, huflagged⟩, hall⟩ := hopen
  obtain ⟨c, hic, hcsize, hclosing, hccode, hrun, _⟩ := TokenStream.exists_index hsplit
  have hmember : ∀ k v, i < k → k < c → context.tokens.get? k = some v → v.isCode = true →
      flagged v = true ∨ v.is "," = true := by
    intro k v hik hkc hv hvcode
    refine hall v ?_
    rw [hrun]
    exact TokenStream.mem_codeIn.mpr ⟨hvcode, k, hik, hkc, hv⟩
  have hnotcomma : closing.is "," = false := by
    rw [← Bool.not_eq_true]
    intro hclosingcomma
    rw [Token.isCloser_eq_false hclosingcomma] at hcloser
    cases hcloser
  obtain ⟨first, run', rfl⟩ := List.exists_cons_of_ne_nil (List.ne_nil_of_mem (List.mem_of_getLast? hu))
  have hstart : context.tokens.codeIn (i + 1) c = [] ++ first :: run' := hrun.symm
  obtain ⟨p, hip, hpc, hp, hpcode, hnil, _⟩ := TokenStream.exists_index hstart
  obtain ⟨d, hd, hfirst, hlast⟩ := h.runs.covers p first hp hpcode (hhead first rfl)
  have hdrun := h.runs.run d hd
  refine (h.cut_iff ht).mpr ⟨d, hd, ?_⟩
  by_cases hinside : d.tokens.first ≤ i
  · exact takes_of_mem hinside (by omega)
  have hprevious : context.tokens.prevCode? d.tokens.first = some i :=
    TokenStream.prevCode?_eq_some_iff.mpr ⟨by omega, hcode, fun k hik hk =>
      TokenStream.codeIn_eq_nil.mp hnil.symm k hik (by omega)⟩
  have hbefore : d.tokens.last < c := by
    refine Nat.lt_of_not_le fun hle => ?_
    rcases hdrun.flagged_or_comma (by omega) hle hclosing hccode with hflagged | hcomma
    · rw [hfree] at hflagged
      cases hflagged
    · rw [hnotcomma] at hcomma
      cases hcomma
  have hnext : context.tokens.nextCode? d.tokens.last = some c := by
    refine h.nextCode?_eq_some hd hbefore (by rw [TokenStream.test_of_get? hclosing, hccode])
      (fun k v hk hkc hv hvcode => hmember k v (by omega) hkc hv hvcode) ?_
    intro k v hk hkc hv hvcode hnone
    rw [hrun, ← TokenStream.codeIn_append (k := k) (by omega) (Nat.le_of_lt hkc),
      TokenStream.codeIn_eq_cons hv hvcode hkc, hnone, Option.mem_def, List.getLast?_concat] at hu
    rw [Option.some.inj hu]
    exact huflagged
  refine Or.inr ⟨hprevious, Option.isSome_iff_exists.mpr ⟨t.range, ?_⟩⟩
  refine (commaBefore?_eq_some hdrun).mpr ⟨i, t, hprevious, ht, hcomma, rfl, fun k hk => ?_⟩
  rw [hnext] at hk
  obtain rfl := Option.some.inj hk
  rw [TokenStream.test_of_get? hclosing, TokenStream.test_of_get? hclosing]
  exact ⟨hnotcomma, hcloser⟩

theorem cutsMembers (h : Removable context flagged ranges) :
    CutsMembers flagged (TextEdit.cuts (allEdits context ranges))
      (context.tokens.tokens.toList.filter Token.isCode) where
  cut_of_flagged t ht hflagged := by
    obtain ⟨hmem, hcode⟩ := List.mem_filter.mp ht
    obtain ⟨i, hi⟩ := TokenStream.exists_get? hmem
    obtain ⟨d, hd, hfirst, hlast⟩ := h.runs.covers i t hi hcode hflagged
    exact (h.cut_iff hi).mpr ⟨d, hd, takes_of_mem hfirst hlast⟩
  comma_of_cut t ht hcut := by
    obtain ⟨hmem, hcode⟩ := List.mem_filter.mp ht
    obtain ⟨i, hi⟩ := TokenStream.exists_get? hmem
    obtain ⟨d, hd, htakes⟩ := (h.cut_iff hi).mp hcut
    exact h.flagged_or_comma hd htakes hi hcode
  cut_after front t comma rest heq hflagged hcomma := by
    obtain ⟨i, j, ht, hu, htcode, _, hnext, _⟩ := TokenStream.exists_neighbours heq
    exact h.cut_after hnext ht htcode hflagged hu hcomma
  open_of_cut front t comma rest heq hfree hother hcommafree hcut := by
    obtain ⟨i, j, ht, hu, htcode, _, hnext, hrest⟩ := TokenStream.exists_neighbours heq
    rw [hrest]
    exact h.open_of_cut hnext ht htcode hfree hother hu hcommafree hcut
  cut_of_open front comma rest heq hcomma hopen := by
    rw [← TokenStream.codeIn_zero] at heq
    obtain ⟨i, _, _, hi, hcode, _, hrest⟩ := TokenStream.exists_index heq
    rw [hrest] at hopen
    exact h.cut_of_open hi hcomma (by rw [TokenStream.test_of_get? hi, hcode]) hopen

/-- A token in front of a run that is no comment is a mark, unless it goes too. -/
theorem punctuation_before (h : Removable context flagged ranges) (hd : d ∈ ranges)
    (hfirst : d.tokens.first = i + 1) (ht : context.tokens.get? i = some t)
    (hcut : TextEdit.cuts (allEdits context ranges) t = false) :
    t.kind = .punctuation ∨ t.isComment = true := by
  cases hcode : t.isCode with
  | false =>
      rw [Token.isCode, Bool.not_eq_false'] at hcode
      exact Or.inr hcode
  | true =>
      left
      obtain ⟨a, b, ha, hab, hb, hta, _, hall⟩ := (h.runs.run d hd).core
      obtain ⟨u, hu, hta⟩ := TokenStream.test_eq_true.mp hta
      rw [Bool.and_eq_true] at hta
      have hnext : context.tokens.nextCode? i = some a := by
        refine TokenStream.nextCode?_eq_some_iff.mpr
          ⟨by omega, by rw [TokenStream.test_of_get? hu, hta.1], fun k hik hka => ?_⟩
        rw [← Bool.not_eq_true]
        intro htest
        obtain ⟨v, hv, hvcode⟩ := TokenStream.test_eq_true.mp htest
        have := (hall k v (by omega) (by omega) hv hvcode).1
        omega
      rcases TokenStream.rel_of_nextCode? h.stays.chain hnext ht hcode hu hta.2 with
        hflagged | hopens
      · have hmem := List.mem_filter.mpr ⟨TokenStream.mem_of_get? ht, hcode⟩
        rw [h.cutsMembers.cut_of_flagged t hmem hflagged] at hcut
        cases hcut
      · simp only [Token.opensMember, Token.is, Bool.or_eq_true, Bool.and_eq_true,
          beq_iff_eq] at hopens
        tauto

/-- Behind the comma in front of the last run of a list, comments come next or the bracket. -/
theorem comment_or_closer (h : Removable context flagged ranges) (hd : d ∈ ranges)
    (hprevious : context.tokens.prevCode? d.tokens.first = some i)
    (hsome : (d.separatorBefore? context.tokens).isSome = true) {m : Nat} (him : i < m)
    (ht : context.tokens.get? m = some t)
    (hcut : TextEdit.cuts (allEdits context ranges) t = false)
    (hall : ∀ k u, i < k → k < m → context.tokens.get? k = some u →
      TextEdit.cuts (allEdits context ranges) u = true) :
    t.isComment = true ∨ t.isCloser = true := by
  have hrun := h.runs.run d hd
  obtain ⟨r, hr⟩ := Option.isSome_iff_exists.mp hsome
  obtain ⟨_, _, _, _, _, _, hclose⟩ := (commaBefore?_eq_some hrun).mp hr
  obtain ⟨next, hnext⟩ := h.exists_next hd
  obtain ⟨hother, hcloser⟩ := hclose next hnext
  obtain ⟨hlast, hcode, hnone⟩ := TokenStream.nextCode?_eq_some_iff.mp hnext
  obtain ⟨hfirst, _, hnone'⟩ := TokenStream.prevCode?_eq_some_iff.mp hprevious
  obtain ⟨closing, hclosing, hcode⟩ := TokenStream.test_eq_true.mp hcode
  rw [TokenStream.test_of_get? hclosing] at hother hcloser
  have hle := hrun.first_le_last
  have hstays : TextEdit.cuts (allEdits context ranges) closing = false := by
    rw [← Bool.not_eq_true]
    intro hcutclosing
    obtain ⟨d', hd', htakes⟩ := (h.cut_iff hclosing).mp hcutclosing
    have hfree := h.flagged_eq_false hd hlast hclosing hcode fun k u hk hk' hu hucode => by
      have hfalse := hnone k hk hk'
      rw [TokenStream.test_of_get? hu, hucode] at hfalse
      cases hfalse
    rcases h.flagged_or_comma hd' htakes hclosing hcode with hflagged | hcomma
    · rw [hfree] at hflagged
      cases hflagged
    · rw [hother] at hcomma
      cases hcomma
  have hmnext : m ≤ next := by
    refine Nat.le_of_not_lt fun hlt => ?_
    rw [hall next closing (by omega) hlt hclosing] at hstays
    cases hstays
  rcases Nat.lt_or_eq_of_le hmnext with hlt | rfl
  · left
    have hout : ¬ (d.tokens.first ≤ m ∧ m ≤ d.tokens.last) := by
      rintro ⟨hm, hm'⟩
      rw [(h.cut_iff ht).mpr ⟨d, hd, takes_of_mem hm hm'⟩] at hcut
      cases hcut
    have htest : context.tokens.test m Token.isCode = false := by
      by_cases hm : m < d.tokens.first
      · exact hnone' m him hm
      · exact hnone m (by omega) hlt
    rw [TokenStream.test_of_get? ht, Token.isCode, Bool.not_eq_false'] at htest
    exact htest
  · rw [hclosing] at ht
    rw [← Option.some.inj ht]
    exact Or.inr hcloser

/-- What the edits leave is read again token by token. -/
theorem cleanCut (h : Removable context flagged ranges) :
    CleanCut (context.tokens.tokens.toList.map Token.plain) (allEdits context ranges) where
  takes e he := by
    obtain ⟨d, hd, he⟩ := List.mem_flatMap.mp he
    obtain ⟨_, first, last, t, ht, hle, hwraps, _⟩ := exists_wraps (h.runs.run d hd) h.onLines
      (h.lastWithSeparator_succ_lt d hd) he
    have hcontains := hwraps.takes (Nat.le_refl first) hle ht
    exact Or.inl ⟨t.plain, List.mem_map_of_mem (TokenStream.mem_of_get? ht), hcontains⟩
  apart e he t ht := by
    obtain ⟨d, hd, he⟩ := List.mem_flatMap.mp he
    obtain ⟨_, first, last, _, _, _, hwraps, _⟩ := exists_wraps (h.runs.run d hd) h.onLines
      (h.lastWithSeparator_succ_lt d hd) he
    obtain ⟨u, hu, rfl⟩ := List.mem_map.mp ht
    obtain ⟨i, hi⟩ := TokenStream.exists_get? hu
    show e.range.contains u.range = true ∨ e.range.Before u.range ∨
      u.range.Before e.range ∧ (u.kind = .lineComment → u.range.stop.line < e.range.start.line)
    by_cases hfirst : i < first
    · exact Or.inr (Or.inr (hwraps.before hfirst hi))
    · by_cases hlast : last < i
      · exact Or.inr (Or.inl (hwraps.after hlast hi))
      · exact Or.inl (hwraps.takes (by omega) (by omega) hi)
  ends front t u rest heq htcut hucut := by
    have hget : ∀ k, (context.tokens.get? k).map Token.plain = (front ++ t :: u :: rest)[k]? := by
      intro k
      rw [← heq, List.getElem?_map, TokenStream.get?_eq]
    obtain ⟨t, ht, rfl⟩ : ∃ t', context.tokens.get? front.length = some t' ∧ t'.plain = t := by
      refine Option.map_eq_some_iff.mp ((hget front.length).trans ?_)
      rw [List.getElem?_append_right (Nat.le_refl _), Nat.sub_self]
      rfl
    obtain ⟨u, hu, rfl⟩ : ∃ u', context.tokens.get? (front.length + 1) = some u' ∧
        u'.plain = u := by
      refine Option.map_eq_some_iff.mp ((hget (front.length + 1)).trans ?_)
      rw [List.getElem?_append_right (Nat.le_add_right _ _), Nat.add_sub_cancel_left]
      rfl
    obtain ⟨d, hd, htakes⟩ := (h.cut_iff hu).mp hucut
    have hnot : ¬ d.Takes context.tokens front.length := by
      intro htakes
      have hcut := (h.cut_iff ht).mpr ⟨d, hd, htakes⟩
      exact absurd (htcut.symm.trans hcut) (by decide)
    rcases htakes with ⟨hfirst, hlast⟩ | ⟨hprevious, hsome⟩
    · have heq : d.tokens.first = front.length + 1 := by
        refine Nat.le_antisymm hfirst (Nat.lt_of_not_le fun hle => hnot (Or.inl ⟨hle, by omega⟩))
      rcases h.punctuation_before hd heq ht htcut with hmark | hcomment
      · exact Or.inl hmark
      · exact Or.inr (Or.inl hcomment)
    · refine Or.inr (Or.inr fun v hv => ?_)
      obtain ⟨hvcut, n, hn, hvn, hbefore⟩ := List.find?_eq_some_iff_getElem.mp hv
      have hrest : ∀ k, (context.tokens.get? (front.length + 1 + (k + 1))).map Token.plain =
          rest[k]? := by
        intro k
        have hplace : front.length + 1 + (k + 1) - front.length = k + 1 + 1 := by omega
        rw [hget, List.getElem?_append_right (by omega), hplace]
        rfl
      obtain ⟨v, hm, rfl⟩ : ∃ v', context.tokens.get? (front.length + 1 + (n + 1)) = some v' ∧
          v'.plain = v := by
        refine Option.map_eq_some_iff.mp ((hrest n).trans ?_)
        rw [List.getElem?_eq_getElem hn, hvn]
      rw [Bool.not_eq_true'] at hvcut
      have hbehind : front.length + 1 < front.length + 1 + (n + 1) := by omega
      refine (h.comment_or_closer hd hprevious hsome hbehind hm hvcut ?_).imp_right
        Token.breaks_of_isCloser
      intro k w hk hkm hw
      have hplace : front.length + 1 + (k - (front.length + 2) + 1) = k := by omega
      have hkget := hrest (k - (front.length + 2))
      have hlt : k - (front.length + 2) < n := by omega
      rw [hplace, hw, List.getElem?_eq_getElem (Nat.lt_trans hlt hn)] at hkget
      have hcut := hbefore _ hlt
      rw [← Option.some.inj hkget, Bool.not_not] at hcut
      exact hcut

end Removable

end DeletionRange

end AnnotationEdit

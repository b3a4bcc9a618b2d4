import AnnotationEdit.Proofs.Syntax.Commas
import AnnotationEdit.Proofs.Syntax.Content
import AnnotationEdit.Proofs.Syntax.Nodes

/-!
# Taking members out of lists

Some members of lists are selected, wherever they are in a file, and the tokens they are written
with are flagged. From the code tokens the flagged ones are cut and commas with them: the one after
a flagged token, and the one before a last member that has none after it. What is left writes the
file without the selected members.
-/

namespace AnnotationEdit

def Token.opensMember (t : Token) : Bool :=
  t.is "[" || t.is "(" || t.is Token.openBrace || t.is ","

/-- Flagged tokens, with commas between them, up to the end of a list. -/
def OpenRun (flagged : Token → Bool) (ts : List Token) : Prop :=
  ∃ run closing rest, ts = run ++ closing :: rest ∧ closing.isCloser = true ∧
    flagged closing = false ∧ (∀ t ∈ run.head?, flagged t = true) ∧
    (∃ t ∈ run.getLast?, flagged t = true) ∧ ∀ t ∈ run, flagged t = true ∨ t.is "," = true

/-- Which tokens are cut: the flagged ones and some commas, where no member keeps a comma that it
did not have and no two members lose theirs. -/
structure CutsMembers (flagged cut : Token → Bool) (code : List Token) : Prop where
  cut_of_flagged : ∀ t ∈ code, flagged t = true → cut t = true
  comma_of_cut : ∀ t ∈ code, cut t = true → flagged t = true ∨ t.is "," = true
  cut_after : ∀ front t comma rest, code = front ++ t :: comma :: rest → flagged t = true →
    comma.is "," = true → cut comma = true
  open_of_cut : ∀ front t comma rest, code = front ++ t :: comma :: rest → flagged t = false →
    t.is "," = false → flagged comma = false → cut comma = true → OpenRun flagged rest
  cut_of_open : ∀ front comma rest, code = front ++ comma :: rest → comma.is "," = true →
    OpenRun flagged rest → cut comma = true

theorem Token.isCloser_eq_false {t : Token} (h : t.is "," = true) : t.isCloser = false := by
  rw [isCloser, is_eq_false_of_is h (by decide), is_eq_false_of_is h (by decide),
    is_eq_false_of_is h (by decide)]
  rfl

theorem OpenRun.tail {flagged : Token → Bool} {us ws : List Token} {comma : Token}
    (hus : ∀ t ∈ us, flagged t = true) (hcomma : comma.is "," = true)
    (hfree : flagged comma = false) (hhead : ∀ t ∈ ws.head?, t.is "," = false)
    (h : OpenRun flagged (us ++ comma :: ws)) : OpenRun flagged ws := by
  obtain ⟨run, closing, rest, heq, hcloser, hclosing, _, ⟨last, hlast, hflagged⟩, hall⟩ := h
  have hne : comma ≠ closing := by
    rintro rfl
    rw [Token.isCloser_eq_false hcomma] at hcloser
    cases hcloser
  rcases List.append_eq_append_iff.mp heq with ⟨as, rfl, htail⟩ | ⟨as, rfl, htail⟩
  · cases as with
    | nil => exact absurd (List.cons.inj htail).1 hne
    | cons a as =>
        obtain ⟨rfl, rfl⟩ := List.cons.inj htail
        cases as with
        | nil =>
            rw [List.getLast?_concat] at hlast
            rw [← Option.some.inj hlast, hfree] at hflagged
            cases hflagged
        | cons b bs =>
            have hsub : ∀ t ∈ b :: bs, flagged t = true ∨ t.is "," = true := fun t ht =>
              hall t (List.mem_append_right us (List.mem_cons_of_mem comma ht))
            refine ⟨b :: bs, closing, rest, rfl, hcloser, hclosing, ?_, ⟨last, ?_, hflagged⟩, hsub⟩
            · intro t ht
              rcases hsub t (List.mem_of_head? ht) with h | h
              · exact h
              · rw [hhead t ht] at h
                cases h
            · rw [List.getLast?_append_of_ne_nil _ (List.cons_ne_nil _ _),
                List.getLast?_cons_cons] at hlast
              exact hlast
  · cases as with
    | nil => exact absurd (List.cons.inj htail).1.symm hne
    | cons a as =>
        obtain ⟨rfl, _⟩ := List.cons.inj htail
        have hcontra := hus closing (List.mem_append_right run List.mem_cons_self)
        rw [hclosing] at hcontra
        cases hcontra

theorem OpenRun.head {flagged : Token → Bool} {ts : List Token} (h : OpenRun flagged ts) :
    ∃ t us, ts = t :: us ∧ flagged t = true := by
  obtain ⟨run, closing, rest, rfl, _, _, hhead, ⟨last, hlast, _⟩, _⟩ := h
  cases run with
  | nil => cases hlast
  | cons t run => exact ⟨t, _, rfl, hhead t rfl⟩

/-- The tokens stand next to each other in the code. -/
def Stands (ts code : List Token) : Prop := ∃ front rest, code = front ++ (ts ++ rest)

namespace Stands

variable {us vs ts code : List Token} {t : Token}

theorem left (h : Stands (us ++ vs) code) : Stands us code := by
  obtain ⟨front, rest, rfl⟩ := h
  exact ⟨front, vs ++ rest, by rw [List.append_assoc]⟩

theorem right (h : Stands (us ++ vs) code) : Stands vs code := by
  obtain ⟨front, rest, rfl⟩ := h
  exact ⟨front ++ us, rest, by rw [List.append_assoc, List.append_assoc]⟩

theorem tail (h : Stands (t :: ts) code) : Stands ts code := by
  rw [← List.singleton_append] at h
  exact h.right

theorem mem (h : Stands ts code) (ht : t ∈ ts) : t ∈ code := by
  obtain ⟨front, rest, rfl⟩ := h
  exact List.mem_append_right front (List.mem_append_left rest ht)

theorem sublist (h : Stands ts code) : ts.Sublist code := by
  obtain ⟨front, rest, rfl⟩ := h
  exact (List.sublist_append_left ts rest).trans (List.sublist_append_right front _)

end Stands

/-- The tokens that are not cut. -/
def kept (cut : Token → Bool) (ts : List Token) : List Token := ts.filter fun t => !cut t

section

variable {cut : Token → Bool} {us vs ts : List Token} {t : Token}

theorem kept_append : kept cut (us ++ vs) = kept cut us ++ kept cut vs := List.filter_append ..

theorem kept_cons_of_cut (h : cut t = true) : kept cut (t :: ts) = kept cut ts :=
  List.filter_cons_of_neg (by rw [h]; decide)

theorem kept_cons_of_not_cut (h : cut t = false) : kept cut (t :: ts) = t :: kept cut ts :=
  List.filter_cons_of_pos (by rw [h]; decide)

theorem kept_eq_self (h : ∀ t ∈ ts, cut t = false) : kept cut ts = ts := by
  refine List.filter_eq_self.mpr fun t ht => ?_
  rw [h t ht]
  rfl

theorem kept_eq_nil (h : ∀ t ∈ ts, cut t = true) : kept cut ts = [] := by
  refine List.filter_eq_nil_iff.mpr fun t ht => ?_
  rw [h t ht]
  decide

end

namespace CutsMembers

variable {flagged cut : Token → Bool} {us vs code : List Token} {t comma : Token}

theorem cut_after_last (h : CutsMembers flagged cut code) (hcode : Stands (us ++ comma :: vs) code)
    (ht : us.getLast? = some t) (hflagged : flagged t = true) (hcomma : comma.is "," = true) :
    cut comma = true := by
  obtain ⟨front, rest, hcode⟩ := hcode
  obtain ⟨us, rfl⟩ := List.getLast?_eq_some_iff.mp ht
  refine h.cut_after (front ++ us) t comma (vs ++ rest) ?_ hflagged hcomma
  rw [hcode]
  simp only [List.append_assoc, List.cons_append, List.nil_append]

/-- Of the commas after tokens that stay, only one in front of the last members is cut. -/
theorem open_of_cut_last (h : CutsMembers flagged cut code)
    (hcode : Stands (us ++ comma :: vs) code) (ht : us.getLast? = some t)
    (hstays : flagged t = false) (hother : t.is "," = false) (hfree : flagged comma = false)
    (hcut : cut comma = true) : ∃ rest, OpenRun flagged (vs ++ rest) := by
  obtain ⟨front, rest, hcode⟩ := hcode
  obtain ⟨us, rfl⟩ := List.getLast?_eq_some_iff.mp ht
  refine ⟨rest, h.open_of_cut (front ++ us) t comma (vs ++ rest) ?_ hstays hother hfree hcut⟩
  rw [hcode]
  simp only [List.append_assoc, List.cons_append, List.nil_append]

/-- Tokens that are neither flagged nor commas are kept. -/
theorem kept_eq (h : CutsMembers flagged cut code) (hcode : Stands us code)
    (hstays : ∀ t ∈ us, flagged t = false) (hother : ∀ t ∈ us, t.is "," = false) :
    kept cut us = us := by
  refine kept_eq_self fun t ht => ?_
  rw [← Bool.not_eq_true]
  intro hcut
  rcases h.comma_of_cut t (hcode.mem ht) hcut with hflagged | hcomma
  · rw [hstays t ht] at hflagged
    cases hflagged
  · rw [hother t ht] at hcomma
    cases hcomma

end CutsMembers

namespace Syntax

open Node (ofValue ofEntry ofAssignment)

/-! ## Selected members -/

/-- The node is a list whose members have commas between them. -/
def Node.separatesByCommas : Node → Bool
  | .record _ | .collection _ | .groupItems _ => true
  | .target t => t.assignments.all (·.atSign.isNone)
  | _ => false

def Node.isBare : Node → Bool
  | Node.annotation a => a.atSign.isSome
  | Node.group g => g.atSign.isSome
  | _ => false

/-- Commas stand between the child and its neighbours: those of the assignments of a target are in
parentheses. -/
def Node.partsByCommas : Node → Node → Bool
  | .record _, _ | .collection _, _ | .groupItems _, _ => true
  | .target _, m => !m.isBare
  | _, _ => false

theorem Node.isBare_ofAssignment (a : Assignment) : (ofAssignment a).isBare = a.atSign.isSome := by
  cases a <;> rfl

/-- All members of a list with commas have commas beside them. -/
theorem Node.partsByCommas_of_mem {parent m : Node} {path : List String}
    (h : parent.separatesByCommas = true) (hm : (path, m) ∈ parent.children) :
    parent.partsByCommas m = true := by
  cases parent with
  | target t =>
      obtain ⟨_, a, ha, _, rfl⟩ := Node.exists_of_mem_numbered hm
      have hnone :=
        Option.isNone_iff_eq_none.mp (List.all_eq_true.mp h a (List.mem_of_getElem? ha))
      rw [partsByCommas, isBare_ofAssignment, hnone]
      rfl
  | record r => rfl
  | collection c => rfl
  | groupItems i => rfl
  | _ => cases h

theorem Node.exists_bare {t : Target} (h : (Node.target t).separatesByCommas = false) :
    ∃ (k : Nat) (a : Assignment), t.assignments[k]? = some a ∧
      (["assignments", toString k], ofAssignment a) ∈ (Node.target t).children ∧
      (Node.target t).partsByCommas (ofAssignment a) = false := by
  obtain ⟨a, ha, hsign⟩ := List.all_eq_false.mp h
  obtain ⟨k, hk⟩ := List.mem_iff_getElem?.mp ha
  refine ⟨k, a, hk, assignment_mem_children hk, ?_⟩
  rw [partsByCommas, isBare_ofAssignment, Bool.not_eq_false', Option.isSome_iff_ne_none]
  exact fun hnone => hsign (Option.isNone_iff_eq_none.mpr hnone)

def Members (gone : Selection) (n : Node) : Prop :=
  ∀ front last parent m, gone (front ++ last) = true → n.resolve? front = some parent →
    (last, m) ∈ parent.children → parent.partsByCommas m = true

theorem Members.child {gone : Selection} {n c : Node} {path : List String} (h : Members gone n)
    (hc : (path, c) ∈ n.children) : Members (gone.below path) c := by
  intro front last parent m hgone hfront hlast
  refine h (path ++ front) last parent m ?_ ?_ hlast
  · rw [List.append_assoc]
    exact hgone
  · rw [Node.resolve?_of_mem_children hc]
    exact hfront

theorem Members.eq_false {gone : Selection} {n c : Node} {path : List String} (h : Members gone n)
    (hc : (path, c) ∈ n.children) (hn : n.partsByCommas c = false) : gone path = false := by
  rw [← Bool.not_eq_true]
  intro hgone
  rw [h [] path n c hgone rfl hc] at hn
  cases hn

/-- Exactly the tokens of the selected nodes among some children and below them are flagged. -/
def Flags (flagged : Token → Bool) (gone : Selection) (children : List (List String × Node))
    (ts : List Token) : Prop :=
  ∀ t ∈ ts, flagged t = true ↔ ∃ path c rest m, (path, c) ∈ children ∧
    gone (path ++ rest) = true ∧ c.resolve? rest = some m ∧ m.range.contains t.range = true

def WritesAll (vocabulary : Vocabulary) (children : List (List String × Node))
    (ts : List Token) : Prop :=
  ∀ path c, (path, c) ∈ children → (∀ f, c ≠ .file f) ∧
    ∃ us : List Token, us.Sublist ts ∧ c.WrittenAs vocabulary us

theorem ofValue_ne_file (v : Value) (f : File) : ofValue v ≠ .file f := by
  cases v <;> exact Node.noConfusion

theorem ofEntry_ne_file (e : Entry) (f : File) : ofEntry e ≠ .file f := by
  cases e <;> exact Node.noConfusion

theorem ofAssignment_ne_file (a : Assignment) (f : File) : ofAssignment a ≠ .file f := by
  cases a <;> exact Node.noConfusion

theorem ne_file_of_mem_children {n c : Node} {path : List String} (h : (path, c) ∈ n.children) :
    ∀ f, c ≠ .file f := by
  rintro f rfl
  cases Node.holds_of_mem_children h with
  | assignment _ _ a hc => exact ofAssignment_ne_file a f hc.symm
  | entry _ _ e hc => exact ofEntry_ne_file e f hc.symm
  | annotationValue _ v hc | propertyValue _ v hc | member _ _ v hc =>
      exact ofValue_ne_file v f hc.symm

theorem ne_file_of_resolve? {n m : Node} {path : List String} (hn : ∀ f, n ≠ .file f)
    (h : n.resolve? path = some m) : ∀ f, m ≠ .file f := by
  rcases Node.resolve?_eq_some_cases h with ⟨_, rfl⟩ | ⟨_, _, _, _, _, hm⟩
  · exact hn
  · exact ne_file_of_mem_children hm

theorem resolve?_eq_some_first {n m : Node} {path : List String} (h : n.resolve? path = some m) :
    (path = [] ∧ m = n) ∨ ∃ first rest c, path = first ++ rest ∧ (first, c) ∈ n.children ∧
      c.resolve? rest = some m := by
  cases path with
  | nil => exact Or.inl ⟨rfl, (Option.some.inj h).symm⟩
  | cons s rest =>
      right
      rw [Node.resolve?.eq_def] at h
      cases hc : n.child? [s] with
      | some c =>
          simp only [hc] at h
          exact ⟨[s], rest, c, rfl, Node.mem_children_of_child? hc, h⟩
      | none =>
          cases rest with
          | nil =>
              simp only [hc] at h
              cases h
          | cons t rest =>
              simp only [hc] at h
              cases hd : n.child? [s, t] with
              | some d =>
                  rw [hd] at h
                  exact ⟨[s, t], rest, d, rfl, Node.mem_children_of_child? hd, h⟩
              | none =>
                  rw [hd] at h
                  cases h

section

variable {flagged : Token → Bool} {gone : Selection} {vocabulary : Vocabulary} {N : Nat}
variable {us vs ts : List Token} {cs ds : List (List String × Node)}

/-- What is resolved below some children stands on their tokens. -/
theorem WritesAll.within (h : WritesAll vocabulary cs ts) {path rest : List String} {c m : Node}
    (hc : (path, c) ∈ cs) (hm : c.resolve? rest = some m) : Within ts m.range := by
  obtain ⟨hfile, us, hus, hwritten⟩ := h path c hc
  obtain ⟨ws, hws, hmwritten⟩ := Node.exists_resolved hwritten hm
  exact (hmwritten.within (ne_file_of_resolve? hfile hm)).weaken (hws.trans hus)

theorem WritesAll.weaken (h : WritesAll vocabulary cs us) (hsub : us.Sublist ts) :
    WritesAll vocabulary cs ts := by
  intro path c hc
  obtain ⟨hfile, ws, hws, hwritten⟩ := h path c hc
  exact ⟨hfile, ws, hws.trans hsub, hwritten⟩

theorem WritesAll.nil : WritesAll vocabulary [] ts := fun _ _ h => absurd h List.not_mem_nil

theorem WritesAll.append (hcs : WritesAll vocabulary cs us) (hds : WritesAll vocabulary ds vs) :
    WritesAll vocabulary (cs ++ ds) (us ++ vs) := by
  intro path c hc
  rcases List.mem_append.mp hc with hc | hc
  · exact hcs.weaken (List.sublist_append_left us vs) path c hc
  · exact hds.weaken (List.sublist_append_right us vs) path c hc

theorem WritesAll.singleton {path : List String} {c : Node} (hc : ∀ f, c ≠ .file f)
    (h : c.WrittenAs vocabulary ts) : WritesAll vocabulary [(path, c)] ts := by
  intro path' c' hmem
  obtain ⟨rfl, rfl⟩ := Prod.mk.inj (List.mem_singleton.mp hmem)
  exact ⟨hc, ts, List.Sublist.refl ts, h⟩

/-- A range that stands on later tokens does not contain an earlier token, nor the other way
round. -/
theorem not_contains_of_within {t : Token} {r : Range} (hordered : Token.Ordered N (us ++ vs)) :
    (t ∈ us → Within vs r → r.contains t.range = false) ∧
      (t ∈ vs → Within us r → r.contains t.range = false) := by
  constructor
  · intro ht hr
    have hbefore := (Within.of_spans (Spans.singleton t)).before hr
      (hordered.sublist ((List.singleton_sublist.mpr ht).append_right vs))
    have hproper := hordered.proper t (List.mem_append_left vs ht)
    exact Bool.eq_false_iff.mpr fun hcontains =>
      hbefore.not_contains hproper t.range.contains_refl hcontains
  · intro ht hr
    have hbefore := hr.before (Within.of_spans (Spans.singleton t))
      (hordered.sublist ((List.singleton_sublist.mpr ht).append_left us))
    have hproper := hordered.proper t (List.mem_append_right us ht)
    exact Bool.eq_false_iff.mpr fun hcontains =>
      hbefore.not_contains hproper hcontains t.range.contains_refl

/-- Children that are written one after the other flag their own tokens only. -/
theorem Flags.append (hordered : Token.Ordered N (us ++ vs)) (hcs : WritesAll vocabulary cs us)
    (hds : WritesAll vocabulary ds vs) (h : Flags flagged gone (cs ++ ds) (us ++ vs)) :
    Flags flagged gone cs us ∧ Flags flagged gone ds vs := by
  constructor
  · intro t ht
    rw [h t (List.mem_append_left vs ht)]
    constructor
    · rintro ⟨path, c, rest, m, hc, hgone, hm, hcontains⟩
      rcases List.mem_append.mp hc with hc | hc
      · exact ⟨path, c, rest, m, hc, hgone, hm, hcontains⟩
      · rw [(not_contains_of_within hordered).1 ht (hds.within hc hm)] at hcontains
        cases hcontains
    · rintro ⟨path, c, rest, m, hc, h⟩
      exact ⟨path, c, rest, m, List.mem_append_left ds hc, h⟩
  · intro t ht
    rw [h t (List.mem_append_right us ht)]
    constructor
    · rintro ⟨path, c, rest, m, hc, hgone, hm, hcontains⟩
      rcases List.mem_append.mp hc with hc | hc
      · rw [(not_contains_of_within hordered).2 ht (hcs.within hc hm)] at hcontains
        cases hcontains
      · exact ⟨path, c, rest, m, hc, hgone, hm, hcontains⟩
    · rintro ⟨path, c, rest, m, hc, h⟩
      exact ⟨path, c, rest, m, List.mem_append_right cs hc, h⟩

theorem Flags.eq_false (h : Flags flagged gone [] ts) : ∀ t ∈ ts, flagged t = false := by
  intro t ht
  rw [← Bool.not_eq_true]
  intro hflagged
  obtain ⟨_, _, _, _, hc, _⟩ := (h t ht).mp hflagged
  exact absurd hc List.not_mem_nil

theorem Flags.skip (hordered : Token.Ordered N (us ++ vs)) (hcs : WritesAll vocabulary cs vs)
    (h : Flags flagged gone cs (us ++ vs)) :
    (∀ t ∈ us, flagged t = false) ∧ Flags flagged gone cs vs := by
  rw [← List.nil_append cs] at h
  obtain ⟨hus, hvs⟩ := Flags.append hordered .nil hcs h
  exact ⟨hus.eq_false, hvs⟩

theorem Flags.drop (hordered : Token.Ordered N (us ++ vs)) (hcs : WritesAll vocabulary cs us)
    (h : Flags flagged gone cs (us ++ vs)) :
    Flags flagged gone cs us ∧ ∀ t ∈ vs, flagged t = false := by
  rw [← List.append_nil cs] at h
  obtain ⟨hus, hvs⟩ := Flags.append hordered hcs .nil h
  exact ⟨hus, hvs.eq_false⟩

theorem Flags.eq_true {path : List String} {c : Node} (h : Flags flagged gone [(path, c)] ts)
    (hordered : Token.Ordered N ts) (hspans : Spans ts c.range) (hgone : gone path = true) :
    ∀ t ∈ ts, flagged t = true := by
  intro t ht
  refine (h t ht).mpr ⟨path, c, [], c, List.mem_singleton_self _, ?_, rfl, ?_⟩
  · rw [List.append_nil]
    exact hgone
  · exact hspans.contains (.singleton t) hordered (List.singleton_sublist.mpr ht)

/-- Of a node that is not selected only what is selected below it is flagged. -/
theorem Flags.child {path : List String} {c : Node} (h : Flags flagged gone [(path, c)] ts)
    (hgone : gone path = false) : Flags flagged (gone.below path) c.children ts := by
  intro t ht
  rw [h t ht]
  constructor
  · rintro ⟨path', c', rest, m, hc, hselected, hm, hcontains⟩
    obtain ⟨rfl, rfl⟩ := Prod.mk.inj (List.mem_singleton.mp hc)
    rcases resolve?_eq_some_first hm with ⟨rfl, _⟩ | ⟨first, rest, d, rfl, hd, hm⟩
    · rw [List.append_nil, hgone] at hselected
      cases hselected
    · exact ⟨first, d, rest, m, hd, hselected, hm, hcontains⟩
  · rintro ⟨first, d, rest, m, hd, hselected, hm, hcontains⟩
    refine ⟨path, c, first ++ rest, m, List.mem_singleton_self _, hselected, ?_, hcontains⟩
    rw [Node.resolve?_of_mem_children hd]
    exact hm

end

/-! ## What is left -/

def Follows (flagged : Token → Bool) (t u : Token) : Prop :=
  flagged u = true → flagged t = true ∨ t.opensMember = true

/-- The tokens at the ends are not flagged, and those that are flagged start as members. -/
structure Stays (flagged : Token → Bool) (ts : List Token) : Prop where
  head : ∀ t ∈ ts.head?, flagged t = false
  last : ∀ t ∈ ts.getLast?, flagged t = false
  chain : ts.IsChain (Follows flagged)

namespace Stays

variable {flagged : Token → Bool} {us vs ts : List Token} {t : Token}

theorem nil : Stays flagged [] := ⟨nofun, nofun, .nil⟩

theorem append (hus : Stays flagged us) (hvs : Stays flagged vs) : Stays flagged (us ++ vs) := by
  refine ⟨?_, ?_, hus.chain.append hvs.chain fun t _ u hu hflagged => ?_⟩
  · intro t ht
    rw [List.head?_append] at ht
    rcases Option.or_eq_some_iff.mp ht with ht | ⟨_, ht⟩
    · exact hus.head t ht
    · exact hvs.head t ht
  · intro t ht
    rw [List.getLast?_append] at ht
    rcases Option.or_eq_some_iff.mp ht with ht | ⟨_, ht⟩
    · exact hvs.last t ht
    · exact hus.last t ht
  · rw [hvs.head u hu] at hflagged
    cases hflagged

theorem singleton (h : flagged t = false) : Stays flagged [t] := by
  refine ⟨?_, ?_, .singleton t⟩
  · intro u hu
    rw [← Option.some.inj hu]
    exact h
  · intro u hu
    rw [← Option.some.inj hu]
    exact h

theorem of_forall (h : ∀ t ∈ ts, flagged t = false) : Stays flagged ts := by
  induction ts with
  | nil => exact nil
  | cons t ts ih =>
      obtain ⟨ht, hts⟩ := List.forall_mem_cons.mp h
      exact (singleton ht).append (ih hts)

theorem cons (h : flagged t = false) (hts : Stays flagged ts) : Stays flagged (t :: ts) :=
  (singleton h).append hts

end Stays

/-- What is written stays at its ends, and what is kept of its tokens, wherever it goes, writes what
is left of it. -/
structure Pruned {α : Type} (flagged cut : Token → Bool) (written : α → List Token → Prop)
    (content : α → Selection → α) (gone : Selection) (a : α) (ts : List Token) : Prop where
  stays : Stays flagged ts
  rest : ∀ ks, Respells ks (kept cut ts) → ∃ b, written b ks ∧ content b .none = content a gone

/-! ## Lists -/

section

variable {α : Type} {flagged cut : Token → Bool} {written : α → List Token → Prop}
  {content : α → Selection → α} {name : String} {gone : Selection} {code : List Token}

/-- A member is selected and all its tokens are flagged, or it is pruned. -/
def Settled (flagged cut : Token → Bool) (written : α → List Token → Prop)
    (content : α → Selection → α) (name : String) (gone : Selection) (i : Nat) (e : α)
    (ts : List Token) : Prop :=
  written e ts ∧ ts ≠ [] ∧ Tame ts ∧
    ((gone [name, toString i] = true ∧ ∀ t ∈ ts, flagged t = true) ∨
      (gone [name, toString i] = false ∧
        Pruned flagged cut written content (gone.below [name, toString i]) e ts))

def settledMembers (flagged cut : Token → Bool) (written : α → List Token → Prop)
    (content : α → Selection → α) (name : String) (gone : Selection) :
    Nat → List α → List Token → Prop
  | _, [], ts => ts = []
  | i, e :: es, ts => (Settled flagged cut written content name gone i e ts ∧ es = []) ∨
      ∃ us comma vs, ts = us ++ comma :: vs ∧
        Settled flagged cut written content name gone i e us ∧ comma.IsMark "," ∧
        flagged comma = false ∧ settledMembers flagged cut written content name gone (i + 1) es vs

theorem head_of_settledMembers {closing : Token} {rest : List Token}
    (hclosing : closing.is "," = false) : ∀ {es : List α} {i : Nat} {ts : List Token},
      settledMembers flagged cut written content name gone i es ts →
      ∀ t ∈ (ts ++ closing :: rest).head?, t.is "," = false
  | [], _, ts, h => by
      rw [settledMembers] at h
      rw [h]
      intro t ht
      rw [← Option.some.inj ht]
      exact hclosing
  | e :: es, _, ts, h => by
      have hsettled : ∀ {us ws : List Token}, us ≠ [] → Tame us →
          ∀ t ∈ (us ++ ws).head?, t.is "," = false := by
        intro us ws hne htame t ht
        obtain ⟨u, us, rfl⟩ := List.exists_cons_of_ne_nil hne
        exact htame.head t ht
      rcases h with ⟨⟨_, hne, htame, _⟩, _⟩ | ⟨us, comma, vs, rfl, ⟨_, hne, htame, _⟩, _⟩
      · exact hsettled hne htame
      · rw [List.append_assoc]
        exact hsettled hne htame

/-- In front of the end of a list stand selected members only. -/
theorem membersWithout_eq_nil {closing : Token} {rest : List Token}
    (hclosing : closing.is "," = false) : ∀ {es : List α} {i : Nat} {ts : List Token},
      settledMembers flagged cut written content name gone i es ts →
      OpenRun flagged (ts ++ closing :: rest) → membersWithout name content gone i es = []
  | [], _, _, _, _ => rfl
  | e :: es, i, ts, h, hrun => by
      have hselected : ∀ {us ws : List Token},
          Settled flagged cut written content name gone i e us → OpenRun flagged (us ++ ws) →
          gone [name, toString i] = true ∧ ∀ t ∈ us, flagged t = true := by
        rintro us ws ⟨_, hne, _, hgone | ⟨_, hpruned⟩⟩ hrun
        · exact hgone
        · exfalso
          obtain ⟨u, us, rfl⟩ := List.exists_cons_of_ne_nil hne
          obtain ⟨t, ts, heq, ht⟩ := hrun.head
          have hu := hpruned.stays.head u rfl
          rw [(List.cons.inj heq).1, ht] at hu
          cases hu
      rcases h with ⟨he, rfl⟩ | ⟨us, comma, vs, rfl, he, hcomma, hfree, hes⟩
      · obtain ⟨hgone, _⟩ := hselected he hrun
        rw [membersWithout, if_pos hgone]
        rfl
      · rw [List.append_assoc, List.cons_append] at hrun
        obtain ⟨hgone, hflagged⟩ := hselected he hrun
        rw [membersWithout, if_pos hgone]
        exact membersWithout_eq_nil hclosing hes
          (hrun.tail hflagged hcomma.1 hfree (head_of_settledMembers hclosing hes))

/-- Nothing is kept of a list of which all members are selected. -/
theorem kept_eq_nil_of_membersWithout (hcuts : CutsMembers flagged cut code) :
    ∀ {es : List α} {i : Nat} {ts : List Token},
      settledMembers flagged cut written content name gone i es ts → Stands ts code →
      membersWithout name content gone i es = [] → kept cut ts = []
  | [], _, ts, h, _, _ => by
      rw [settledMembers] at h
      rw [h]
      rfl
  | e :: es, i, ts, h, hcode, hnil => by
      rw [membersWithout] at hnil
      split at hnil
      · next hgone =>
        have hflagged : ∀ {us : List Token},
            Settled flagged cut written content name gone i e us → ∀ t ∈ us, flagged t = true := by
          rintro us ⟨_, _, _, ⟨_, hflagged⟩ | ⟨hfalse, _⟩⟩
          · exact hflagged
          · rw [hgone] at hfalse
            cases hfalse
        rcases h with ⟨he, rfl⟩ | ⟨us, comma, vs, rfl, he, hcomma, _, hes⟩
        · exact kept_eq_nil fun t ht => hcuts.cut_of_flagged t (hcode.mem ht) (hflagged he t ht)
        · have hus : kept cut us = [] := kept_eq_nil fun t ht =>
            hcuts.cut_of_flagged t (hcode.left.mem ht) (hflagged he t ht)
          obtain ⟨u, hu⟩ := List.getLast?_isSome.mpr he.2.1 |> Option.isSome_iff_exists.mp
          have hcut := hcuts.cut_after_last hcode hu (hflagged he u (List.mem_of_getLast? hu)) hcomma.1
          have hvs := kept_eq_nil_of_membersWithout hcuts hes hcode.right.tail hnil
          rw [kept_append, hus, kept_cons_of_cut hcut, hvs]
          rfl
      · cases hnil

theorem chain_settledMembers {closing : Token} (hclosing : flagged closing = false) :
    ∀ {es : List α} {i : Nat} {ts : List Token} {opening : Token}, opening.opensMember = true →
      settledMembers flagged cut written content name gone i es ts →
      (opening :: (ts ++ [closing])).IsChain (Follows flagged)
  | [], _, ts, opening, _, h => by
      rw [settledMembers] at h
      rw [h]
      refine List.isChain_pair.mpr fun hflagged => ?_
      rw [hclosing] at hflagged
      cases hflagged
  | e :: es, i, ts, opening, hopening, h => by
      have hmember : ∀ {us ws : List Token} {next : Token},
          Settled flagged cut written content name gone i e us → flagged next = false →
          (next :: ws).IsChain (Follows flagged) →
          (opening :: (us ++ next :: ws)).IsChain (Follows flagged) := by
        rintro us ws next ⟨_, _, _, hmember⟩ hnext hws
        have hus : us.IsChain (Follows flagged) := by
          rcases hmember with ⟨_, hall⟩ | ⟨_, hpruned⟩
          · exact List.IsChain.imp_of_mem_imp (fun t u ht _ _ _ => Or.inl (hall t ht))
              (List.isChain_isInfix us)
          · exact hpruned.stays.chain
        refine List.isChain_cons.mpr ⟨fun _ _ _ => Or.inr hopening, hus.append hws ?_⟩
        intro t _ u hu hflagged
        rw [← Option.some.inj hu, hnext] at hflagged
        cases hflagged
      rcases h with ⟨he, _⟩ | ⟨us, comma, vs, rfl, he, hcomma, hfree, hes⟩
      · exact hmember he hclosing (.singleton closing)
      · have hopens : comma.opensMember = true := by
          rw [Token.opensMember, hcomma.1, Bool.or_true]
        rw [List.append_assoc]
        exact hmember he hfree (chain_settledMembers hclosing hopens hes)

theorem exists_members (hcuts : CutsMembers flagged cut code) {closing : Token}
    (hclosing : closing.is "," = false) : ∀ {es : List α} {i : Nat} {ts : List Token},
      settledMembers flagged cut written content name gone i es ts →
      Stands (ts ++ [closing]) code → ∀ ks, Respells ks (kept cut ts) →
      ∃ fs, commaSeparated written fs ks ∧
        fs.map (content · .none) = membersWithout name content gone i es
  | [], _, ts, h, _, ks, hks => by
      rw [settledMembers] at h
      rw [h] at hks
      exact ⟨[], hks.nil, rfl⟩
  | e :: es, i, ts, h, hcode, ks, hks => by
      rw [membersWithout]
      rcases h with ⟨⟨_, _, _, ⟨hgone, hflagged⟩ | ⟨hgone, hpruned⟩⟩, rfl⟩ |
        ⟨us, comma, vs, rfl, ⟨_, hne, htame, ⟨hgone, hflagged⟩ | ⟨hgone, hpruned⟩⟩, hcomma, hfree,
          hes⟩
      · have hts : kept cut ts = [] := kept_eq_nil fun t ht =>
          hcuts.cut_of_flagged t (hcode.left.mem ht) (hflagged t ht)
        rw [hts] at hks
        rw [if_pos hgone]
        exact ⟨[], hks.nil, rfl⟩
      · obtain ⟨f, hf, hcontent⟩ := hpruned.rest ks hks
        rw [if_neg (Bool.eq_false_iff.mp hgone)]
        refine ⟨[f], Or.inl ⟨hf, rfl⟩, ?_⟩
        rw [List.map_singleton, hcontent]
        rfl
      · -- the comma goes with the selected member in front of it
        rw [List.append_assoc, List.cons_append] at hcode
        obtain ⟨u, hu⟩ := List.getLast?_isSome.mpr hne |> Option.isSome_iff_exists.mp
        have hus : kept cut us = [] := kept_eq_nil fun t ht =>
          hcuts.cut_of_flagged t (hcode.left.mem ht) (hflagged t ht)
        have hcut := hcuts.cut_after_last hcode hu (hflagged u (List.mem_of_getLast? hu)) hcomma.1
        rw [kept_append, hus, List.nil_append, kept_cons_of_cut hcut] at hks
        rw [if_pos hgone]
        exact exists_members hcuts hclosing hes hcode.right.tail ks hks
      · rw [List.append_assoc, List.cons_append] at hcode
        rw [if_neg (Bool.eq_false_iff.mp hgone)]
        rw [kept_append] at hks
        obtain ⟨as, bs, rfl, has, hbs⟩ := hks.append
        obtain ⟨f, hf, hcontent⟩ := hpruned.rest as has
        cases hcut : cut comma with
        | true =>
            obtain ⟨u, hu⟩ := List.getLast?_isSome.mpr hne |> Option.isSome_iff_exists.mp
            have hrun := hcuts.open_of_cut_last hcode hu (hpruned.stays.last u hu)
              (htame.last u hu) hfree hcut
            obtain ⟨rest, hrun⟩ := hrun
            rw [List.append_assoc] at hrun
            have hnil := membersWithout_eq_nil hclosing hes hrun
            have hvs := kept_eq_nil_of_membersWithout hcuts hes hcode.right.tail.left hnil
            rw [kept_cons_of_cut hcut, hvs] at hbs
            rw [hbs.nil, List.append_nil, hnil]
            exact ⟨[f], Or.inl ⟨hf, rfl⟩, by rw [List.map_singleton, hcontent]⟩
        | false =>
            rw [kept_cons_of_not_cut hcut] at hbs
            obtain ⟨k, bs, rfl, hk, hbs⟩ := hbs.cons
            obtain ⟨fs, hfs, hcontents⟩ := exists_members hcuts hclosing hes hcode.right.tail bs hbs
            refine ⟨f :: fs, Or.inr ⟨as, k, bs, rfl, hf, hcomma.respelled hk, hfs⟩, ?_⟩
            rw [List.map_cons, hcontent, hcontents]

/-! ## Members of lists -/

def numberedFrom (name : String) (i : Nat) (nodes : List Node) : List (List String × Node) :=
  (nodes.zipIdx i).map fun (node, i) => ([name, toString i], node)

theorem numberedFrom_cons (name : String) (i : Nat) (n : Node) (ns : List Node) :
    numberedFrom name i (n :: ns) = ([name, toString i], n) :: numberedFrom name (i + 1) ns := rfl

theorem numberedFrom_append (name : String) (i : Nat) (ms ns : List Node) :
    numberedFrom name i (ms ++ ns) =
      numberedFrom name i ms ++ numberedFrom name (i + ms.length) ns := by
  rw [numberedFrom, List.zipIdx_append, List.map_append]
  rfl

/-- Members are written as nodes from their first token to their last one. -/
structure Forms (vocabulary : Vocabulary) (node : α → Node) (written : α → List Token → Prop) :
    Prop where
  writtenAs : ∀ e us, written e us → (node e).WrittenAs vocabulary us
  ne_file : ∀ e f, node e ≠ .file f
  spans : ∀ e us, written e us → Spans us (node e).range
  tame : ∀ e us, written e us → Tame us

variable {vocabulary : Vocabulary} {N : Nat} {node : α → Node}

theorem writesAll_of_laid (hwritten : ∀ e us, written e us → (node e).WrittenAs vocabulary us)
    (hfile : ∀ e f, node e ≠ .file f) {es : List α} {i : Nat} {ts : List Token}
    (h : Laid written es ts) : WritesAll vocabulary (numberedFrom name i (es.map node)) ts := by
  intro path c hc
  obtain ⟨⟨n, j⟩, hn, heq⟩ := List.mem_map.mp hc
  obtain ⟨_, rfl⟩ := Prod.mk.inj heq
  obtain ⟨e, he, rfl⟩ := List.mem_map.mp (List.fst_mem_of_mem_zipIdx hn)
  obtain ⟨us, hus, hus'⟩ := h.exists_written e he
  exact ⟨hfile e, us, hus, hwritten e us hus'⟩

theorem Forms.writesAll (hforms : Forms vocabulary node written) {es : List α} {i : Nat}
    {ts : List Token} (h : Laid written es ts) :
    WritesAll vocabulary (numberedFrom name i (es.map node)) ts :=
  writesAll_of_laid hforms.writtenAs hforms.ne_file h

theorem settledMembers_of_flags (hforms : Forms vocabulary node written)
    (hordered : Token.Ordered N code) : ∀ {es : List α} {i : Nat} {ts : List Token},
      commaSeparated written es ts → Stands ts code →
      Flags flagged gone (numberedFrom name i (es.map node)) ts →
      (∀ (j : Nat) (e : α) (us : List Token),
        ([name, toString j], node e) ∈ numberedFrom name i (es.map node) → written e us → us.Sublist ts → Stands us code → gone [name, toString j] = false →
        Flags flagged (gone.below [name, toString j]) (node e).children us →
        Pruned flagged cut written content (gone.below [name, toString j]) e us) →
      settledMembers flagged cut written content name gone i es ts
  | [], _, _, h, _, _, _ => h
  | e :: es, i, ts, h, hcode, hflags, hprune => by
      rw [List.map_cons, numberedFrom_cons] at hflags hprune
      have hsettled : ∀ {us : List Token}, written e us → us.Sublist ts → Stands us code →
          Flags flagged gone [([name, toString i], node e)] us →
          Settled flagged cut written content name gone i e us := by
        intro us he hsub hcode hflags
        have hspans := hforms.spans e us he
        refine ⟨he, hspans.ne_nil, hforms.tame e us he, ?_⟩
        cases hgone : gone [name, toString i] with
        | true => exact Or.inl ⟨rfl, hflags.eq_true (hordered.sublist hcode.sublist) hspans hgone⟩
        | false =>
            exact Or.inr ⟨rfl, hprune i e us List.mem_cons_self he hsub hcode hgone
              (hflags.child hgone)⟩
      rcases h with ⟨he, rfl⟩ | ⟨us, comma, vs, rfl, he, hcomma, hes⟩
      · exact Or.inl ⟨hsettled he (List.Sublist.refl ts) hcode hflags, rfl⟩
      · -- the member, the comma and the members behind it have their tokens to themselves
        have hvs : WritesAll vocabulary (numberedFrom name (i + 1) (es.map node)) vs :=
          hforms.writesAll (laid_of_commaSeparated hes)
        have hus : WritesAll vocabulary [([name, toString i], node e)] us :=
          .singleton (hforms.ne_file e) (hforms.writtenAs e us he)
        obtain ⟨hfirst, hrest⟩ := Flags.append (hordered.sublist hcode.sublist) hus
          (hvs.weaken (List.sublist_cons_self comma vs)) hflags
        rw [← List.singleton_append] at hrest hcode
        obtain ⟨hfree, hmore⟩ := hrest.skip (hordered.sublist hcode.right.sublist) hvs
        refine Or.inr ⟨us, comma, vs, rfl, ?_, hcomma, hfree comma (List.mem_singleton_self _), ?_⟩
        · exact hsettled he (List.sublist_append_left us _) hcode.left hfirst
        · refine settledMembers_of_flags hforms hordered hes hcode.right.right hmore ?_
          intro j e' ws hmem he' hws
          refine hprune j e' ws (List.mem_cons_of_mem _ hmem) he' ?_
          exact hws.trans ((List.sublist_cons_self comma vs).trans (List.sublist_append_right us _))

end

end Syntax

end AnnotationEdit

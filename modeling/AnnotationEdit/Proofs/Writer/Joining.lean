import AnnotationEdit.Proofs.Printing.Spelling
import AnnotationEdit.Proofs.Syntax.Refilling
import AnnotationEdit.Proofs.Token.Inserting
import AnnotationEdit.Proofs.Writer.Contribution

/-!
# Adding members to a list
-/

namespace AnnotationEdit

open Lexer (Spells Anything Break Reads codeOf)
open Syntax (Node Spelled Bracketed commaEnded commaLed)

/-! ## Texts of members -/

/-- A member for a list: the index of the one it goes in front of, its text at a level, and what it
tells. -/
structure NewMember where
  index : Option Nat
  fragment : Nat → String
  tells : Node → Prop

namespace NewMember

/-- What is written is read as a member of the list that tells what it is to tell. -/
def Joins (n : Node) (r : NewMember) : Prop :=
  ∀ level, Spells Break (r.fragment level).toList fun ts => ∃ m, n.Lists m ts ∧ r.tells m

variable {n : Node} {r : NewMember} {bs cs : List Char}

theorem exists_codeOf {follow : List Char → Prop} {read : List Token → Prop}
    (h : Spells follow cs read) (follow' : List Char → Prop) (hfollow : follow []) (hfollow' : follow' [])
    (hlast : ∀ ts, read ts → ∀ t ∈ ts.getLast?, t.kind = .punctuation ∨
      ∀ rest, follow' rest → Break rest) :
    ∃ ts, read ts ∧ codeOf cs = (ts.map Token.plain).map Token.bare ∧
      Reads follow' cs (codeOf cs) := by
  obtain ⟨ts, hts, hreads⟩ := h.exists_reads hfollow hlast
  have hcode := Lexer.codeOf_eq (hreads.codes hfollow')
  refine ⟨ts, hts, hcode, ?_⟩
  rw [hcode]
  exact hreads.bare

theorem spelled_bare {m : Node} {us : List Token} (h : n.Lists m us) :
    Spelled n.Lists m ((us.map Token.plain).map Token.bare) := by
  refine ⟨us, h, ?_⟩
  rw [Respells, List.map_map]
  rfl

theorem isMark_bare {t : Token} {mark : String} (h : t.IsMark mark) : t.plain.bare.IsMark mark :=
  ⟨h.1, rfl⟩

theorem Joins.exists_ended (h : r.Joins n) (level : Nat) {as : List Char}
    (has : Text.allBlank as = true) (hbs : Text.allBlank bs = true) :
    ∃ m, r.tells m ∧
      commaEnded (Spelled n.Lists) [m] (codeOf (as ++ ((r.fragment level).toList ++ ',' :: bs))) ∧
      Reads Anything (as ++ ((r.fragment level).toList ++ ',' :: bs))
        (codeOf (as ++ ((r.fragment level).toList ++ ',' :: bs))) := by
  have hcomma : Spells Anything (',' :: bs)
      fun ts => ∃ t us, ts = t :: us ∧ t.IsMark "," ∧ us = [] := by
    have hmark := (Spells.blanks (@Spells.nil Anything) bs hbs).mark ',' (by decide)
    rwa [List.append_nil] at hmark
  have hspells := ((h level).thenBreak hcomma (by decide)).blanks as has
  obtain ⟨_, ⟨us, _, rfl, ⟨m, hm, htells⟩, comma, _, rfl, hmark, rfl⟩, hcode, hreads⟩ :=
    exists_codeOf hspells Anything trivial trivial (by
      rintro _ ⟨us, _, rfl, _, comma, _, rfl, hmark, rfl⟩ t ht
      rw [List.getLast?_concat] at ht
      rw [← Option.some.inj ht]
      exact Or.inl (Token.kind_of_is hmark.1))
  refine ⟨m, htells, ?_, hreads⟩
  rw [hcode, List.map_append, List.map_append]
  exact ⟨_, comma.plain.bare, [], rfl, spelled_bare hm, isMark_bare hmark, rfl⟩

theorem Joins.exists_led (h : r.Joins n) (level : Nat) (hbs : Text.allBlank bs = true) :
    ∃ m, r.tells m ∧
      commaLed (Spelled n.Lists) [m] (codeOf (',' :: (bs ++ (r.fragment level).toList))) ∧
      Reads Break (',' :: (bs ++ (r.fragment level).toList))
        (codeOf (',' :: (bs ++ (r.fragment level).toList))) := by
  have hspells := ((h level).blanks bs hbs).mark ',' (by decide)
  obtain ⟨_, ⟨comma, us, rfl, hmark, m, hm, htells⟩, hcode, hreads⟩ :=
    exists_codeOf hspells Break Lexer.break_nil Lexer.break_nil
      fun _ _ _ _ => Or.inr fun _ hrest => hrest
  refine ⟨m, htells, ?_, hreads⟩
  rw [hcode]
  have hled : commaLed (Spelled n.Lists) [m] (comma.plain.bare ::
      ((us.map Token.plain).map Token.bare ++ [])) :=
    ⟨_, _, [], rfl, isMark_bare hmark, spelled_bare hm, rfl⟩
  rwa [List.append_nil] at hled

/-- A comma and, in another text, a member. -/
theorem Joins.exists_parted (h : r.Joins n) (level : Nat) (hbs : Text.allBlank bs = true) :
    ∃ m, r.tells m ∧
      commaLed (Spelled n.Lists) [m]
        (codeOf [','] ++ codeOf (bs ++ (r.fragment level).toList)) ∧
      Reads Break [','] (codeOf [',']) ∧
      Reads Break (bs ++ (r.fragment level).toList) (codeOf (bs ++ (r.fragment level).toList)) := by
  have hmember := (h level).blanks bs hbs
  have hcomma := @Lexer.spells_mark Break ',' (by decide)
  obtain ⟨_, ⟨comma, rfl, hmark⟩, hcode, hreads⟩ :=
    exists_codeOf hcomma Break Lexer.break_nil Lexer.break_nil
      fun _ _ _ _ => Or.inr fun _ hrest => hrest
  obtain ⟨us, ⟨m, hm, htells⟩, hcode', hreads'⟩ :=
    exists_codeOf hmember Break Lexer.break_nil Lexer.break_nil
      fun _ _ _ _ => Or.inr fun _ hrest => hrest
  refine ⟨m, htells, ?_, hreads, hreads'⟩
  rw [hcode, hcode']
  have hled : commaLed (Spelled n.Lists) [m] (comma.plain.bare ::
      ((us.map Token.plain).map Token.bare ++ [])) :=
    ⟨_, _, [], rfl, isMark_bare hmark, spelled_bare hm, rfl⟩
  rwa [List.append_nil] at hled

end NewMember

/-! ## The end of a list -/

namespace Syntax

variable {α : Type} {written : α → List Token → Prop}

/-- The last member of a list stands at its end, with at most a comma behind it. -/
theorem commaSeparated_concat : ∀ {es : List α} {ts : List Token}, commaSeparated written es ts →
    es ≠ [] → ∃ front last us vs ws, es = front ++ [last] ∧ ts = us ++ (vs ++ ws) ∧
      commaEnded written front us ∧ written last vs ∧
      (ws = [] ∨ ∃ comma, ws = [comma] ∧ comma.IsMark ",")
  | [], _, _, hne => absurd rfl hne
  | e :: es, ts, h, _ => by
      rcases h with ⟨he, rfl⟩ | ⟨us, comma, vs, rfl, he, hcomma, hes⟩
      · exact ⟨[], e, [], ts, [], rfl, (List.append_nil ts).symm, rfl, he, Or.inl rfl⟩
      · rcases List.eq_nil_or_concat es with rfl | ⟨front', last', rfl⟩
        · rw [commaSeparated] at hes
          rw [hes]
          exact ⟨[], e, [], us, [comma], rfl, rfl, rfl, he, Or.inr ⟨comma, rfl, hcomma⟩⟩
        · obtain ⟨front, last, xs, ys, ws, heq, rfl, hfront, hlast, hws⟩ :=
            commaSeparated_concat hes (by simp)
          have hended : commaEnded written (e :: front) (us ++ comma :: xs) :=
            ⟨us, comma, xs, rfl, he, hcomma, hfront⟩
          refine ⟨e :: front, last, us ++ comma :: xs, ys, ws, by rw [heq]; rfl, ?_, hended, hlast,
            hws⟩
          rw [List.append_assoc, List.cons_append]

theorem Members.Written.stop_le {range : α → Range} (hw : Members.Written range written)
    {front : List α} {last : α} {us vs : List Token} {N : Nat}
    (hfront : commaEnded written front us) (hlast : written last vs)
    (hordered : Token.Ordered N (us ++ vs)) :
    ∀ e ∈ front ++ [last], (range e).Proper ∧ (range e).stop ≤ (range last).stop := by
  obtain ⟨_, v, _, hv, hrange⟩ := hw.spans last vs hlast
  obtain ⟨vs, rfl⟩ := List.getLast?_eq_some_iff.mp hv
  intro e he
  obtain ⟨ts, hts, hspans⟩ : Within (us ++ (vs ++ [v])) (range e) := by
    rcases List.mem_append.mp he with he | he
    · exact (hw.within (commaSeparated_of_commaEnded hfront) e he).weaken
        (List.sublist_append_left _ _)
    · rw [List.mem_singleton.mp he]
      exact ⟨_, List.sublist_append_right _ _, hw.spans last _ hlast⟩
  obtain ⟨_, w, hw, hstop⟩ := hspans.exists_mem
  refine ⟨hspans.proper (hordered.sublist hts), ?_⟩
  rw [hstop, hrange]
  exact Weaves.le_of_last hordered (List.append_assoc us vs [v]).symm (hts.subset hw)

end Syntax

/-- How a member is added behind the last one: on a line of its own or on the same line, behind the
comma of the last member or with a comma in front of it, which a comment may part from it. -/
inductive Tail where
  | lineEnded
  | lineParted
  | lineLed
  | inlineEnded
  | inlineLed

def Tail.leads : Tail → Bool
  | lineParted | lineLed | inlineLed => true
  | lineEnded | inlineEnded => false

namespace Scene

def appendAs (s : Scene) (list : BracketedList) (last : Range) (x y : Position) (tail : Tail)
    (d : Draft) (fragment : Nat → String) : Draft :=
  let level := s.level last.start.line
  let line := "\n" ++ s.indent level ++ fragment level
  let text := fragment list.level
  let moves (d : Draft) := if text.toList.contains '\n' then s.moveBracket d list else d
  match tail with
  | .lineEnded => d.insert y (line ++ ",")
  | .lineParted =>
    if d.separated.contains x then d.insert y ("," ++ line)
    else ({ d with separated := x :: d.separated }.insert x ",").insert y line
  | .lineLed => d.insert y ("," ++ line)
  | .inlineEnded => moves (d.insert y (" " ++ text ++ ","))
  | .inlineLed => moves (d.insert y (", " ++ text))

/-- The places behind the last member of a list: `x` behind it and its comma, `y` behind the comment
that follows if that parts a new member from its comma. -/
structure Ends (s : Scene) (list : BracketedList) (last : Range) (tail : Tail) (x y : Position) :
    Prop where
  append_eq : ∀ d fragment, s.append d list last fragment =
    .ok (s.appendAs list last x y tail d fragment)
  token : ∃ t ∈ s.tokens.tokens.toList, t.range.stop = x
  token' : ∃ t ∈ s.tokens.tokens.toList, t.range.stop = y
  lt_of_parted : tail = .lineParted → x < y
  eq_of_whole : tail ≠ .lineParted → x = y
  inFront : ∀ r ∈ list.members, r.start < x
  le_closing : y ≤ list.closing.start
  le_gap : ∀ i t, s.tokens.startingAt? list.closing.start = some (i + 1) →
    s.tokens.get? i = some t → y ≤ t.range.stop
  comment : ∀ t ∈ s.tokens.tokens.toList, t.kind = .lineComment →
    (t.range.stop = y → tail = .lineEnded ∨ tail = .lineParted) ∧ (t.range.stop = x → x = y)

theorem Ends.le {list : BracketedList} {last : Range} {tail : Tail} {x y : Position} {s : Scene}
    (h : s.Ends list last tail x y) : x ≤ y := by
  by_cases htail : tail = .lineParted
  · exact le_of_lt (h.lt_of_parted htail)
  · exact le_of_eq (h.eq_of_whole htail)

variable {s : Scene} {list : BracketedList} {n : Node} {opening closing t u v : Token}
variable {front us back : List Token} {last : Range} {tail : Tail} {i j k m : Nat}

theorem Ends.of_tokens (hs : s.tokens.Sorted) (hm : s.tokens.get? m = some closing)
    (hclosing : list.closing = closing.range) (hi : s.tokens.get? i = some v)
    (hlast : last.stop = v.range.stop)
    (hmembers : ∀ r ∈ list.members, r.Proper ∧ r.stop ≤ last.stop)
    (hj : s.tokens.get? j = some t) (hk : s.tokens.get? k = some u) (hij : i ≤ j) (hkm : k < m)
    (hparted : tail = .lineParted → j < k) (hwhole : tail ≠ .lineParted → j = k)
    (hfirst : tail = .lineParted → t.isCode = true)
    (hcode : tail ≠ .lineEnded → tail ≠ .lineParted → u.isCode = true)
    (happend : ∀ d fragment, s.append d list last fragment =
      .ok (s.appendAs list last t.range.stop u.range.stop tail d fragment)) :
    s.Ends list last tail t.range.stop u.range.stop where
  append_eq := happend
  token := ⟨t, TokenStream.mem_of_get? hj, rfl⟩
  token' := ⟨u, TokenStream.mem_of_get? hk, rfl⟩
  lt_of_parted htail := (hs.stop_lt_iff hj hk).mpr (hparted htail)
  eq_of_whole htail := by
    obtain rfl := hwhole htail
    rw [Option.some.inj (hj.symm.trans hk)]
  inFront r hr := by
    have hle := hs.stop_le hi hj hij
    rw [← hlast] at hle
    exact lt_of_lt_of_le (hmembers r hr).1 ((hmembers r hr).2.trans hle)
  le_closing := by
    rw [hclosing]
    exact hs.before hk hm hkm
  le_gap g w hg hw := by
    rw [hclosing, TokenStream.startingAt?_eq_some hs hm] at hg
    obtain rfl := Option.some.inj hg
    exact hs.stop_le hk hw (Nat.le_of_lt_succ hkm)
  comment w hw hkind := by
    have hsame : ∀ {a : Nat} {b : Token}, s.tokens.get? a = some b → w.range.stop = b.range.stop →
        b.isCode = true → False := by
      intro a b ha hstop hiscode
      obtain ⟨l, hl⟩ := TokenStream.exists_get? hw
      obtain rfl : a = l := Nat.le_antisymm
        (Nat.le_of_not_lt fun hla => absurd hstop (ne_of_lt ((hs.stop_lt_iff hl ha).mpr hla)))
        (Nat.le_of_not_lt fun hal => absurd hstop (ne_of_gt ((hs.stop_lt_iff ha hl).mpr hal)))
      rw [Option.some.inj (ha.symm.trans hl), Token.isCode, Token.isComment, hkind] at hiscode
      cases hiscode
    constructor
    · intro hstop
      by_contra htail
      obtain ⟨hended, hparted⟩ := not_or.mp htail
      exact hsame hk hstop (hcode hended hparted)
    · intro hstop
      by_cases htail : tail = .lineParted
      · exact (hsame hj hstop (hfirst htail)).elim
      · obtain rfl := hwhole htail
        rw [Option.some.inj (hj.symm.trans hk)]

section

variable (hs : s.tokens.Sorted) (hm : s.tokens.get? m = some closing)
variable (hclosing : list.closing = closing.range) (hnoComma : closing.is "," = false)
variable (hcode : closing.isCode = true) (hi : s.tokens.get? i = some v) (him : i < m)
variable (hlast : last.stop = v.range.stop)
variable (hmembers : ∀ r ∈ list.members, r.Proper ∧ r.stop ≤ last.stop)

include hs hm hclosing hnoComma hcode hi him hlast hmembers

/-- New members stand behind the comma of the last one, or behind a comment behind it. -/
theorem exists_ends_of_some (hcomma : s.tokens.commaAfter? i = some k) :
    ∃ tail x y comma, s.Ends list last tail x y ∧ s.tokens.get? k = some comma ∧
      comma.range.stop ≤ x ∧ tail.leads = false := by
  have hending := TokenStream.endingAt?_eq_some hs hi
  obtain ⟨hnext, htest⟩ := TokenStream.commaAfter?_eq_some hcomma
  obtain ⟨comma, hk, _⟩ := TokenStream.test_eq_true.mp htest
  obtain ⟨hik, hcommaCode, _⟩ := TokenStream.nextCode?_eq_some_iff.mp hnext
  rw [TokenStream.test_of_get? hk] at hcommaCode
  have hrange := TokenStream.rangeAt_of_get? hk
  have hlt : ∀ {j : Nat}, s.tokens.Trails i j → i ≤ j ∧ j < m := fun hj =>
    hj.lt him (TokenStream.test_eq_true.mpr ⟨closing, hm, hcode⟩)
      (by rw [TokenStream.test_of_get? hm, hnoComma])
  obtain ⟨_, hkm⟩ := hlt (Or.inr (Or.inl hcomma))
  by_cases hline : s.tokens.startsLine last.start = true
  · cases hcomment : s.tokens.trailingComment? k with
    | some c =>
        obtain ⟨hc, _⟩ := TokenStream.trailingComment?_eq_some hcomment
        obtain ⟨_, hcm⟩ := hlt (Or.inr (Or.inr ⟨k, Or.inr hcomma, rfl, by rw [hcomment]; rfl⟩))
        refine ⟨.lineEnded, _, _, comma, .of_tokens hs hm hclosing hi hlast hmembers hc hc (by omega)
          hcm Tail.noConfusion (fun _ => rfl) Tail.noConfusion (fun hne _ => absurd rfl hne)
          fun d fragment => ?_, hk, hs.stop_le hk hc (Nat.le_succ k), rfl⟩
        simp only [append, hlast, hending, hcomma, hline, if_true, appendLine, Option.getD_some,
          hcomment, appendAs]
    | none =>
        refine ⟨.lineEnded, _, _, comma, .of_tokens hs hm hclosing hi hlast hmembers hk hk
          (Nat.le_of_lt hik) hkm Tail.noConfusion (fun _ => rfl) Tail.noConfusion
          (fun hne _ => absurd rfl hne) fun d fragment => ?_, hk, le_refl _, rfl⟩
        simp only [append, hlast, hending, hcomma, hline, if_true, appendLine, Option.getD_some,
          hcomment, appendAs, hrange]
  · refine ⟨.inlineEnded, _, _, comma, .of_tokens hs hm hclosing hi hlast hmembers hk hk
      (Nat.le_of_lt hik) hkm Tail.noConfusion (fun _ => rfl) Tail.noConfusion (fun _ _ => hcommaCode)
      fun d fragment => ?_, hk, le_refl _, rfl⟩
    simp only [append, hlast, hending, hcomma, hline, appendInline, appendAs, hrange,
      Bool.false_eq_true, if_false]

/-- Without a comma behind the last member, new members stand behind that. -/
theorem exists_ends_of_none (hcomma : s.tokens.commaAfter? i = none) (hv : v.isCode = true) :
    ∃ tail x y, s.Ends list last tail x y ∧ v.range.stop ≤ x ∧ tail.leads = true := by
  have hending := TokenStream.endingAt?_eq_some hs hi
  have hlt : ∀ {j : Nat}, s.tokens.Trails i j → i ≤ j ∧ j < m := fun hj =>
    hj.lt him (TokenStream.test_eq_true.mpr ⟨closing, hm, hcode⟩)
      (by rw [TokenStream.test_of_get? hm, hnoComma])
  by_cases hline : s.tokens.startsLine last.start = true
  · cases hcomment : s.tokens.trailingComment? i with
    | some c =>
        obtain ⟨hc, _⟩ := TokenStream.trailingComment?_eq_some hcomment
        obtain ⟨_, hcm⟩ := hlt (Or.inr (Or.inr ⟨i, Or.inl rfl, rfl, by rw [hcomment]; rfl⟩))
        refine ⟨.lineParted, _, _, .of_tokens hs hm hclosing hi hlast hmembers hi hc
          (Nat.le_refl i) hcm (fun _ => Nat.lt_succ_self i) (fun hne => absurd rfl hne) (fun _ => hv)
          (fun _ hne => absurd rfl hne) fun d fragment => ?_, le_refl _, rfl⟩
        simp only [append, hlast, hending, hcomma, hline, if_true, appendLine, Option.getD_none,
          hcomment, appendAs]
    | none =>
        refine ⟨.lineLed, _, _, .of_tokens hs hm hclosing hi hlast hmembers hi hi
          (Nat.le_refl i) him Tail.noConfusion (fun _ => rfl) Tail.noConfusion (fun _ _ => hv)
          fun d fragment => ?_, le_refl _, rfl⟩
        simp only [append, hlast, hending, hcomma, hline, if_true, appendLine, Option.getD_none,
          hcomment, appendAs]
  · refine ⟨.inlineLed, _, _, .of_tokens hs hm hclosing hi hlast hmembers hi hi
      (Nat.le_refl i) him Tail.noConfusion (fun _ => rfl) Tail.noConfusion (fun _ _ => hv)
      fun d fragment => ?_, le_refl _, rfl⟩
    simp only [append, hlast, hending, hcomma, hline, appendInline, appendAs,
      Bool.false_eq_true, if_false]

end

/-- New members of a list in brackets stand behind all of its tokens. -/
theorem exists_ends (hs : s.tokens.Sorted)
    (hcode : s.code = front ++ opening :: (us ++ closing :: back))
    (h : Bracketed n opening closing us) (hclosing : list.closing = closing.range)
    (hmembers : list.members = n.members.map Node.range) (hne : n.members ≠ []) :
    ∃ last tail x y, list.members.getLast? = some last ∧ s.Ends list last tail x y ∧
      (∀ t ∈ us, t.range.stop ≤ x) ∧ ∃ t ∈ us.getLast?, t.is "," = !tail.leads := by
  obtain ⟨ms, m, us', vs, ws, hms, rfl, hfront, hm, hws⟩ :=
    Syntax.commaSeparated_concat h.listed hne
  have hw := Syntax.Node.written_lists n
  have htame := hw.tame m vs hm
  obtain ⟨_, v, _, hvlast, hrange⟩ := hw.spans m vs hm
  have hlast : m.range.stop = v.range.stop := by rw [hrange]
  have hordered : Token.Ordered s.tokens.size s.code := hs.sublist List.filter_sublist
  have hinner : Token.Ordered s.tokens.size (us' ++ vs) := by
    refine hordered.sublist ?_
    rw [hcode, ← List.append_assoc us', List.append_assoc (us' ++ vs)]
    exact (List.sublist_append_left (us' ++ vs) _).trans
      ((List.sublist_cons_self opening _).trans (List.sublist_append_right front _))
  have hends : ∀ r ∈ list.members, r.Proper ∧ r.stop ≤ m.range.stop := by
    rw [hmembers, hms]
    exact List.forall_mem_map.mpr (hw.stop_le hfront hm hinner)
  have hall : list.members.getLast? = some m.range := by
    rw [hmembers, hms, List.map_append, List.map_singleton, List.getLast?_concat]
  have hnoComma := h.closing_not_comma
  obtain ⟨vs, rfl⟩ := List.getLast?_eq_some_iff.mp hvlast
  have hsplit : s.code = (front ++ opening :: (us' ++ vs)) ++ v :: (ws ++ closing :: back) := by
    rw [hcode]
    simp only [List.append_assoc, List.cons_append, List.nil_append]
  have hle : ∀ t ∈ us' ++ (vs ++ [v]), t.range.stop ≤ v.range.stop := fun t ht =>
    Weaves.le_of_last hinner (List.append_assoc us' vs [v]).symm ht
  rcases hws with rfl | ⟨comma, rfl, hcomma⟩
  · obtain ⟨i, j, hi, hj, hv, hclosingCode, hnext, _⟩ := TokenStream.exists_neighbours hsplit
    obtain ⟨hij, _⟩ := TokenStream.nextCode?_eq_some_iff.mp hnext
    have hnone : s.tokens.commaAfter? i = none := by
      rw [TokenStream.commaAfter?, hnext, Option.filter_some, TokenStream.test_of_get? hj, hnoComma]
      rfl
    obtain ⟨tail, x, y, hends, hx, hleads⟩ := exists_ends_of_none hs hj hclosing hnoComma
      hclosingCode hi hij hlast hends hnone hv
    refine ⟨_, tail, x, y, hall, hends, fun t ht => (hle t ?_).trans hx, v, ?_, ?_⟩
    · rwa [List.append_nil] at ht
    · rw [List.append_nil, ← List.append_assoc, List.getLast?_concat]
      rfl
    · rw [htame.last v (by rw [List.getLast?_concat]; rfl), hleads]
      rfl
  · obtain ⟨i, k, hi, hk, _, _, hnext, hrest⟩ := TokenStream.exists_neighbours hsplit
    have hrest : s.tokens.codeIn (k + 1) s.tokens.size = [] ++ closing :: back := hrest.symm
    obtain ⟨j, hkj, _, hj, hclosingCode, _, _⟩ := TokenStream.exists_index hrest
    obtain ⟨hik, _⟩ := TokenStream.nextCode?_eq_some_iff.mp hnext
    have hsome : s.tokens.commaAfter? i = some k := by
      rw [TokenStream.commaAfter?, hnext, Option.filter_some, TokenStream.test_of_get? hk, hcomma.1]
      rfl
    obtain ⟨tail, x, y, comma', hends, hk', hx, hleads⟩ := exists_ends_of_some hs hj hclosing
      hnoComma hclosingCode hi (by omega) hlast hends hsome
    obtain rfl := Option.some.inj (hk.symm.trans hk')
    have hconcat : us' ++ (vs ++ [v] ++ [comma]) = us' ++ (vs ++ [v]) ++ [comma] := by
      rw [List.append_assoc us']
    refine ⟨_, tail, x, y, hall, hends, fun t ht => ?_, comma, ?_, ?_⟩
    · rw [hconcat] at ht
      rcases List.mem_append.mp ht with ht | ht
      · exact ((hle t ht).trans (hs.stop_le hi hk (Nat.le_of_lt hik))).trans hx
      · rwa [List.mem_singleton.mp ht]
    · rw [hconcat, List.getLast?_concat]
      rfl
    · rw [hcomma.1, hleads]
      rfl

end Scene

end AnnotationEdit

import AnnotationEdit.Proofs.Syntax.Parsing

/-!
# Statements and files

The parser and the grammar from annotations up to whole files. A file is a list of items, and
`parseTokens` returns the declarations and targets of items written with the code tokens, and those
tokens with their roles.
-/

namespace AnnotationEdit.Syntax

namespace Parser

/-! ## Annotations -/

def afterTerm (atSign : Option Range) (term : Path) (a : Annotation) (ts : List Token) : Prop :=
  ∃ qs vs, ts = qs ++ vs ∧ qualifierWrittenAs a.qualifier qs ∧
    valueAfterColon a.colon a.value vs ∧
    a.range = ⟨a.term.range.start, endOf a.value a.headEnd⟩ ∧ a.embedded = false ∧
    a.term = term ∧ a.atSign = atSign

theorem annotation_sound (atSign : Option Range) (term : Path) :
    Sound (Parser.annotation atSign term) (afterTerm atSign term) := by
  intro c a c' hc hrun
  unfold Parser.annotation at hrun
  obtain ⟨q, c₁, hqualifier, hrun⟩ := bind_eq_ok.mp hrun
  obtain ⟨⟨colon, v⟩, c₂, hvalue, hrun⟩ := bind_eq_ok.mp hrun
  obtain ⟨rfl, rfl⟩ := Prod.mk.inj (Except.ok.inj hrun)
  obtain ⟨qs, hqs, htook₁⟩ := qualifier?_sound c q c₁ hc hqualifier
  obtain ⟨vs, hvs, htook₂⟩ :=
    optionalValue_sound anyValue_sound c₁ (colon, v) c₂ (htook₁.fresh hc) hvalue
  exact ⟨qs ++ vs, ⟨qs, vs, rfl, hqs, hvs, rfl, rfl, rfl, rfl⟩, htook₁.trans htook₂⟩

theorem written_of_afterTerm {atSign : Option Range} {term : Path} {a : Annotation}
    {us ts : List Token} (hterm : term.WrittenAs .term us) (h : afterTerm atSign term a ts) :
    a.WrittenAs (us ++ ts) ∧ a.atSign = atSign := by
  obtain ⟨qs, vs, rfl, hqs, hvs, hrange, hembedded, rfl, rfl⟩ := h
  exact ⟨⟨us, qs, vs, rfl, hterm, hqs, hvs, hrange, hembedded⟩, rfl⟩

theorem item_sound :
    Sound (do let term ← path .term; Parser.annotation none term)
      (fun (a : Annotation) ts => a.WrittenAs ts ∧ a.atSign = none) := by
  intro c a c' hc hrun
  obtain ⟨term, c₁, hterm, hrun⟩ := bind_eq_ok.mp hrun
  obtain ⟨us, hus, htook₁⟩ := path_sound .term c term c₁ hc hterm
  obtain ⟨ts, hts, htook₂⟩ := annotation_sound none term c₁ a c' (htook₁.fresh hc) hrun
  exact ⟨us ++ ts, written_of_afterTerm hus hts, htook₁.trans htook₂⟩

theorem startsGroup_apply (vocabulary : Vocabulary) (term : Path) (c : Cursor) :
    startsGroup vocabulary term c =
      .ok (term.segments.length == 1 && vocabulary.isAlias term.text &&
        c.ahead.head?.any (·.is ":") && (c.ahead.drop 1).head?.any (·.is Token.openBrace), c) := rfl

/-- An alias alone with a record after it starts a group. -/
theorem group_of_record {atSign : Option Range} {term : Path} {a : Annotation} {ts : List Token}
    {r : Record} (rest : List Token) (h : afterTerm atSign term a ts) (hq : a.qualifier = none)
    (hv : a.value = some (.record r)) :
    (ts.map Token.plain ++ rest).head?.any (·.is ":") = true ∧
      ((ts.map Token.plain ++ rest).drop 1).head?.any (·.is Token.openBrace) = true := by
  obtain ⟨qs, vs, rfl, hqs, hvs, _⟩ := h
  rw [hq] at hqs
  obtain rfl : qs = [] := hqs
  rw [hv, valueAfterColon] at hvs
  obtain ⟨c, us, rfl, hc, _, hr⟩ := hvs
  obtain ⟨range, entries⟩ := r
  rw [Value.WrittenAs] at hr
  obtain ⟨opening, closing, ws, rfl, ho, _⟩ := hr
  exact ⟨hc.1, ho.1⟩

theorem assignment_sound (vocabulary : Vocabulary) (atSign : Option Range) :
    Sound (assignment vocabulary atSign) (Assignment.WrittenAs vocabulary atSign) := by
  intro c a c' hc hrun
  unfold assignment at hrun
  obtain ⟨term, c₁, hterm, hrun⟩ := bind_eq_ok.mp hrun
  obtain ⟨us, hus, htook₁⟩ := path_sound .term c term c₁ hc hterm
  have hc₁ := htook₁.fresh hc
  rw [bind_of_ok (startsGroup_apply _ _ _)] at hrun
  split at hrun
  · next hgroup =>
    simp only [Bool.and_eq_true, beq_iff_eq] at hgroup
    obtain ⟨r₂, c₂, hcolon, hrun⟩ := bind_eq_ok.mp hrun
    obtain ⟨r₃, c₃, hopening, hrun⟩ := bind_eq_ok.mp hrun
    obtain ⟨items, c₄, hitems, hrun⟩ := bind_eq_ok.mp hrun
    obtain ⟨r₅, c₅, hclosing, hrun⟩ := bind_eq_ok.mp hrun
    obtain ⟨rfl, rfl⟩ := Prod.mk.inj (Except.ok.inj hrun)
    obtain ⟨colon, hcolonMark, rfl, htook₂⟩ := took_expect hc₁ hcolon
    have hc₂ := htook₂.fresh hc₁
    obtain ⟨opening, hopen, rfl, htook₃⟩ := took_expect hc₂ hopening
    have hc₃ := htook₃.fresh hc₂
    obtain ⟨vs, hvs, htook₄⟩ := commaList_sound item_sound _ c₃ items c₄ hc₃ hitems
    obtain ⟨closing, hclose, rfl, htook₅⟩ := took_expect (htook₄.fresh hc₃) hclosing
    refine ⟨us ++ colon :: opening :: (vs ++ [closing]), ?_,
      htook₁.trans (htook₂.trans (htook₃.trans (htook₄.trans htook₅)))⟩
    exact ⟨term, us, colon, opening, vs, closing, rfl, hus, hgroup.1.1.1, hgroup.1.1.2, hcolonMark,
      hopen, hclose, hvs, rfl⟩
  · next hgroup =>
    obtain ⟨b, c₂, hannotation, hrun⟩ := bind_eq_ok.mp hrun
    obtain ⟨rfl, rfl⟩ := Prod.mk.inj (Except.ok.inj hrun)
    obtain ⟨ts, hts, htook₂⟩ := annotation_sound atSign term c₁ b c₂ hc₁ hannotation
    obtain ⟨hwritten, hsign⟩ := written_of_afterTerm hus hts
    refine ⟨us ++ ts, ⟨hwritten, hsign, ?_⟩, htook₁.trans htook₂⟩
    intro hlength halias hqualifier r hv
    have hbterm : b.term = term := hts.choose_spec.choose_spec.2.2.2.2.2.1
    obtain ⟨hcolon, hbrace⟩ := group_of_record c₂.ahead hts hqualifier hv
    rw [← htook₂.1] at hcolon hbrace
    rw [hbterm] at hlength halias
    apply hgroup
    simp only [Bool.and_eq_true, beq_iff_eq]
    exact ⟨⟨⟨hlength, halias⟩, hcolon⟩, hbrace⟩

theorem assignments_sound (vocabulary : Vocabulary) :
    ∀ n, Sound (assignments vocabulary n)
      (fun found ts => AssignmentsWrittenAs vocabulary found.1 found.2 ts) := by
  intro n
  induction n with
  | zero =>
      intro c found c' _ hrun
      obtain ⟨rfl, rfl⟩ := Prod.mk.inj (Except.ok.inj hrun)
      exact ⟨[], .nil, Took.refl c⟩
  | succ n ih =>
      intro c found c' hc hrun
      unfold assignments at hrun
      rw [bind_of_ok (atMark_apply _ _)] at hrun
      split at hrun
      · next hat =>
        obtain ⟨sign, c₁, htake, hrun⟩ := bind_eq_ok.mp hrun
        obtain ⟨hnone, htook₁⟩ := took_take hc htake
        have hsign : sign.IsMark "@" := ⟨is_of_take hat htake, hnone⟩
        have hc₁ := htook₁.fresh hc
        rw [bind_of_ok (atMark_apply _ _)] at hrun
        split at hrun
        · next hparen =>
          obtain ⟨opening, c₂, htake₂, hrun⟩ := bind_eq_ok.mp hrun
          obtain ⟨items, c₃, hitems, hrun⟩ := bind_eq_ok.mp hrun
          obtain ⟨r₄, c₄, hclosing, hrun⟩ := bind_eq_ok.mp hrun
          obtain ⟨⟨as, more⟩, c₅, hrest, hrun⟩ := bind_eq_ok.mp hrun
          obtain ⟨rfl, rfl⟩ := Prod.mk.inj (Except.ok.inj hrun)
          obtain ⟨hnone₂, htook₂⟩ := took_take hc₁ htake₂
          have hc₂ := htook₂.fresh hc₁
          obtain ⟨us, hus, htook₃⟩ :=
            commaList_sound (assignment_sound vocabulary none) _ c₂ items c₃ hc₂ hitems
          have hc₃ := htook₃.fresh hc₂
          obtain ⟨closing, hclose, rfl, htook₄⟩ := took_expect hc₃ hclosing
          obtain ⟨vs, hvs, htook₅⟩ := ih c₄ (as, more) c₅ (htook₄.fresh hc₃) hrest
          refine ⟨sign :: opening :: (us ++ closing :: vs), ?_,
            htook₁.trans (htook₂.trans (htook₃.trans (htook₄.trans htook₅)))⟩
          exact .compound hsign ⟨is_of_take hparen htake₂, hnone₂⟩ hus hclose hvs
        · obtain ⟨a, c₂, hitem, hrun⟩ := bind_eq_ok.mp hrun
          obtain ⟨⟨as, more⟩, c₃, hrest, hrun⟩ := bind_eq_ok.mp hrun
          obtain ⟨rfl, rfl⟩ := Prod.mk.inj (Except.ok.inj hrun)
          obtain ⟨us, hus, htook₂⟩ :=
            assignment_sound vocabulary (some sign.range) c₁ a c₂ hc₁ hitem
          obtain ⟨vs, hvs, htook₃⟩ := ih c₂ (as, more) c₃ (htook₂.fresh hc₁) hrest
          exact ⟨sign :: (us ++ vs), .bare hsign hus hvs, htook₁.trans (htook₂.trans htook₃)⟩
      · obtain ⟨rfl, rfl⟩ := Prod.mk.inj (Except.ok.inj hrun)
        exact ⟨[], .nil, Took.refl c⟩

theorem allAssignments_sound (vocabulary : Vocabulary) :
    Sound (allAssignments vocabulary)
      (fun found ts => AssignmentsWrittenAs vocabulary found.1 found.2 ts) := by
  intro c found c' hc hrun
  unfold allAssignments at hrun
  rw [bind_of_ok (get_apply c)] at hrun
  exact assignments_sound vocabulary _ c found c' hc hrun

/-! ## Statements -/

/-- A part of a statement that is there when the token ahead is the keyword `word`, and what runs
after it. -/
theorem afterWord_sound {α β : Type} {word : String} {m : Parser α}
    {written : α → List Token → Prop} (h : Sound m written) {k : Option α → Parser β}
    {c : Cursor} {r : β × Cursor} (hc : Fresh c)
    (hrun : (if c.ahead.head?.any fun t => t.isKeyword word then (do
        let _ ← take
        let a ← some <$> m
        k a)
      else (do
        let a ← pure none
        k a) : Parser β) c = .ok r) :
    ∃ a c' ts, afterWord word written a ts ∧ Took c c' ts ∧ k a c' = .ok r := by
  split at hrun
  · next hword =>
    obtain ⟨t, c₁, htake, hrun⟩ := bind_eq_ok.mp hrun
    obtain ⟨a, c₂, hsome, hrun⟩ := bind_eq_ok.mp hrun
    obtain ⟨b, c₃, hm, heq⟩ := map_eq_ok.mp hsome
    obtain ⟨rfl, rfl⟩ := Prod.mk.inj heq
    obtain ⟨hnone, htook₁⟩ := took_take hc htake
    rw [(take_eq_ok htake).1] at hword
    obtain ⟨ts, hts, htook₂⟩ := h c₁ b c₃ (htook₁.fresh hc) hm
    exact ⟨some b, c₃, t :: ts, ⟨t, ts, rfl, ⟨hword, hnone⟩, hts⟩, htook₁.trans htook₂, hrun⟩
  · exact ⟨none, c, [], rfl, Took.refl c, hrun⟩

theorem name_sound {β : Type} {k : Option Path → Parser β} {c : Cursor} {r : β × Cursor}
    (hc : Fresh c)
    (hrun : (if c.ahead.head?.any fun t => t.kind == .identifier then (do
        let a ← some <$> path .entity
        k a)
      else (do
        let a ← pure none
        k a) : Parser β) c = .ok r) :
    ∃ a c' ts, nameWrittenAs a ts ∧ Took c c' ts ∧ k a c' = .ok r := by
  split at hrun
  · obtain ⟨a, c₁, hm, hrun⟩ := bind_eq_ok.mp hrun
    obtain ⟨p, c₂, hpath, heq⟩ := map_eq_ok.mp hm
    obtain ⟨rfl, rfl⟩ := Prod.mk.inj heq
    obtain ⟨ts, hts, htook⟩ := path_sound .entity c p c₂ hc hpath
    exact ⟨some p, c₂, ts, hts, htook, hrun⟩
  · exact ⟨none, c, [], rfl, Took.refl c, hrun⟩

theorem declaration_sound {c c' : Cursor} {d : Declaration} (hc : Fresh c)
    (hfirst : c.ahead.head?.any (·.isKeyword "using") = true)
    (hrun : declaration c = .ok (d, c')) : ∃ ts, d.WrittenAs ts ∧ Took c c' ts := by
  unfold declaration at hrun
  obtain ⟨first, c₁, htake, hrun⟩ := bind_eq_ok.mp hrun
  obtain ⟨hnone, htook₁⟩ := took_take hc htake
  have hc₁ := htook₁.fresh hc
  rw [(take_eq_ok htake).1] at hfirst
  rw [bind_of_ok (ahead_apply _ _)] at hrun
  obtain ⟨name, c₂, us, hus, htook₂, hrun⟩ := name_sound hc₁ hrun
  have hc₂ := htook₂.fresh hc₁
  rw [bind_of_ok (atKeyword_apply _ _)] at hrun
  obtain ⟨nickname, c₃, vs, hvs, htook₃, hrun⟩ :=
    afterWord_sound (identifier_sound .other) hc₂ hrun
  have hc₃ := htook₃.fresh hc₂
  rw [bind_of_ok (atKeyword_apply _ _)] at hrun
  obtain ⟨source, c₄, ws, hws, htook₄, hrun⟩ := afterWord_sound primitive_sound hc₃ hrun
  obtain ⟨r₅, c₅, hclosing, hrun⟩ := bind_eq_ok.mp hrun
  obtain ⟨rfl, rfl⟩ := Prod.mk.inj (Except.ok.inj hrun)
  obtain ⟨closing, hclose, rfl, htook₅⟩ := took_expect (htook₄.fresh hc₃) hclosing
  refine ⟨first :: (us ++ (vs ++ (ws ++ [closing]))), ?_,
    htook₁.trans (htook₂.trans (htook₃.trans (htook₄.trans htook₅)))⟩
  exact ⟨first, us, vs, ws, closing, rfl, ⟨hfirst, hnone⟩, hus, hvs, hws, hclose, rfl⟩

theorem member_sound (vocabulary : Vocabulary) (entity : String) :
    Sound (member vocabulary entity) (memberWrittenAs vocabulary entity) := by
  intro c m c' hc hrun
  unfold member at hrun
  obtain ⟨i, c₁, hname, hrun⟩ := bind_eq_ok.mp hrun
  obtain ⟨found, c₂, hfound, hrun⟩ := bind_eq_ok.mp hrun
  obtain ⟨r₃, c₃, hclosing, hrun⟩ := bind_eq_ok.mp hrun
  obtain ⟨rfl, rfl⟩ := Prod.mk.inj (Except.ok.inj hrun)
  obtain ⟨ts, ⟨t, rfl, ht⟩, htook₁⟩ := identifier_sound .element c i c₁ hc hname
  have hc₁ := htook₁.fresh hc
  obtain ⟨us, hus, htook₂⟩ := allAssignments_sound vocabulary c₁ found c₂ hc₁ hfound
  obtain ⟨closing, hclose, rfl, htook₃⟩ := took_expect (htook₂.fresh hc₁) hclosing
  refine ⟨t :: (us ++ [closing]), ?_, htook₁.trans (htook₂.trans htook₃)⟩
  exact ⟨i, t, us, closing, found.1, found.2, rfl, ht, hus, hclose, rfl⟩

theorem itemsUntil_sound {α : Type} {item : Parser α} {written : α → List Token → Prop}
    (h : Sound item written) (close : String) :
    ∀ n, Sound (itemsUntil close item n) (consecutive written) := by
  intro n
  induction n with
  | zero =>
      intro c as c' _ hrun
      obtain ⟨rfl, rfl⟩ := Prod.mk.inj (Except.ok.inj hrun)
      exact ⟨[], rfl, Took.refl c⟩
  | succ n ih =>
      intro c as c' hc hrun
      unfold itemsUntil at hrun
      rw [bind_of_ok (atMark_apply close _)] at hrun
      split at hrun
      · obtain ⟨rfl, rfl⟩ := Prod.mk.inj (Except.ok.inj hrun)
        exact ⟨[], rfl, Took.refl c⟩
      · obtain ⟨a, c₁, hitem, hrun⟩ := bind_eq_ok.mp hrun
        obtain ⟨bs, c₂, hrest, hrun⟩ := bind_eq_ok.mp hrun
        obtain ⟨rfl, rfl⟩ := Prod.mk.inj (Except.ok.inj hrun)
        obtain ⟨us, hus, htook₁⟩ := h c a c₁ hc hitem
        obtain ⟨vs, hvs, htook₂⟩ := ih c₁ bs c₂ (htook₁.fresh hc) hrest
        exact ⟨us ++ vs, ⟨us, vs, rfl, hus, hvs⟩, htook₁.trans htook₂⟩

theorem block_sound {β : Type} (vocabulary : Vocabulary) (entity : String)
    {k : List Target → Parser β} {c : Cursor} {r : β × Cursor} (hc : Fresh c)
    (hrun : (if c.ahead.head?.any fun t => t.is Token.openBrace then (do
        let _ ← take
        let cursor ← get
        let members ← itemsUntil Token.closeBrace (member vocabulary entity)
          (cursor.ahead.length + 1)
        let _ ← expect Token.closeBrace
        let members ← pure members
        k members)
      else (do
        let members ← pure []
        k members) : Parser β) c = .ok r) :
    ∃ members c' ts, blockWrittenAs vocabulary entity members ts ∧ Took c c' ts ∧
      members.isNone = !(c.ahead.head?.any fun t => t.is Token.openBrace) ∧
      k (members.getD []) c' = .ok r := by
  split at hrun
  · next hbrace =>
    obtain ⟨opening, c₁, htake, hrun⟩ := bind_eq_ok.mp hrun
    rw [bind_of_ok (get_apply _)] at hrun
    obtain ⟨members, c₂, hmembers, hrun⟩ := bind_eq_ok.mp hrun
    obtain ⟨r₃, c₃, hclosing, hrun⟩ := bind_eq_ok.mp hrun
    obtain ⟨hnone, htook₁⟩ := took_take hc htake
    have hc₁ := htook₁.fresh hc
    obtain ⟨us, hus, htook₂⟩ :=
      itemsUntil_sound (member_sound vocabulary entity) _ _ c₁ members c₂ hc₁ hmembers
    obtain ⟨closing, hclose, rfl, htook₃⟩ := took_expect (htook₂.fresh hc₁) hclosing
    refine ⟨some members, c₃, opening :: (us ++ [closing]), ?_,
      htook₁.trans (htook₂.trans htook₃), by rw [hbrace]; rfl, hrun⟩
    exact ⟨opening, us, closing, rfl, ⟨is_of_take hbrace htake, hnone⟩, hclose, hus⟩
  · next hbrace =>
    refine ⟨none, c, [], rfl, Took.refl c, ?_, hrun⟩
    rw [(Bool.not_eq_true _).mp hbrace]
    rfl

theorem with_sound {β : Type} {k : Parser β} {c : Cursor} {r : β × Cursor} (hc : Fresh c)
    (hrun : (if c.ahead.head?.any fun t => t.isKeyword "with" then (do
        let _ ← take
        k)
      else k) c = .ok r) :
    ∃ c' ts, (ts = [] ∨ ∃ t, ts = [t] ∧ t.IsWord "with") ∧ Took c c' ts ∧ k c' = .ok r := by
  split at hrun
  · next hword =>
    obtain ⟨t, c₁, htake, hrun⟩ := bind_eq_ok.mp hrun
    obtain ⟨hnone, htook⟩ := took_take hc htake
    rw [(take_eq_ok htake).1] at hword
    exact ⟨c₁, [t], Or.inr ⟨t, rfl, hword, hnone⟩, htook, hrun⟩
  · exact ⟨c, [], Or.inl rfl, Took.refl c, hrun⟩

theorem annotate_sound {vocabulary : Vocabulary} {c c' : Cursor} {targets : List Target}
    (hc : Fresh c) (hfirst : c.ahead.head?.any (·.isKeyword "annotate") = true)
    (hrun : annotate vocabulary c = .ok (targets, c')) :
    ∃ s ts, Statement.WrittenAs vocabulary s ts ∧ targets = s.targets ∧ Took c c' ts := by
  unfold annotate at hrun
  obtain ⟨first, c₁, htake, hrun⟩ := bind_eq_ok.mp hrun
  obtain ⟨hnone, htook₁⟩ := took_take hc htake
  have hc₁ := htook₁.fresh hc
  rw [(take_eq_ok htake).1] at hfirst
  obtain ⟨name, c₂, hname, hrun⟩ := bind_eq_ok.mp hrun
  obtain ⟨us, hus, htook₂⟩ := path_sound .entity c₁ name c₂ hc₁ hname
  have hc₂ := htook₂.fresh hc₁
  rw [bind_of_ok (atKeyword_apply _ _)] at hrun
  obtain ⟨c₃, ws, hws, htook₃, hrun⟩ := with_sound hc₂ hrun
  have hc₃ := htook₃.fresh hc₂
  obtain ⟨found, c₄, hfound, hrun⟩ := bind_eq_ok.mp hrun
  obtain ⟨as, has, htook₄⟩ := allAssignments_sound vocabulary c₃ found c₄ hc₃ hfound
  have hc₄ := htook₄.fresh hc₃
  rw [bind_of_ok (atMark_apply _ _)] at hrun
  obtain ⟨members, c₅, bs, hbs, htook₅, hnone', hrun⟩ := block_sound vocabulary name.text hc₄ hrun
  obtain ⟨r₆, c₆, hclosing, hrun⟩ := bind_eq_ok.mp hrun
  obtain ⟨rfl, rfl⟩ := Prod.mk.inj (Except.ok.inj hrun)
  obtain ⟨closing, hclose, rfl, htook₆⟩ := took_expect (htook₅.fresh hc₄) hclosing
  refine ⟨⟨name, found.1, found.2, members⟩, first :: (us ++ (ws ++ (as ++ (bs ++ [closing])))), ?_,
    ?_, htook₁.trans (htook₂.trans (htook₃.trans (htook₄.trans (htook₅.trans htook₆))))⟩
  · exact ⟨first, us, ws, as, bs, closing, rfl, ⟨hfirst, hnone⟩, hus, hws, has, hbs, hclose⟩
  · rw [Statement.targets, Statement.entityTargets, hnone']

theorem statements_sound (vocabulary : Vocabulary) :
    ∀ (n : Nat) {c c' : Cursor} {found : List Declaration × List Target}, Fresh c →
      c.ahead.length < n → statements vocabulary n c = .ok (found, c') →
      ∃ items ts, consecutive (Item.WrittenAs vocabulary) items ts ∧
        found = (declarationsOf items, targetsOf items) ∧ c.ahead = ts.map Token.plain ∧
        c'.taken = ts.reverse ++ c.taken
  | 0, c, c', found, _, hlen, _ => absurd hlen (Nat.not_lt_zero _)
  | n + 1, c, c', found, hc, hlen, hrun => by
      unfold statements at hrun
      rw [bind_of_ok (peek?_apply c)] at hrun
      cases hhead : c.ahead with
      | nil =>
          rw [hhead] at hrun
          obtain ⟨rfl, rfl⟩ := Prod.mk.inj (Except.ok.inj hrun)
          exact ⟨[], [], rfl, rfl, rfl, rfl⟩
      | cons t rest =>
          simp only [hhead, List.head?_cons] at hrun
          have hany : ∀ word, t.isKeyword word = true →
              c.ahead.head?.any (·.isKeyword word) = true := by
            intro word hword
            rw [hhead]
            exact hword
          split at hrun
          · next hword =>
            obtain ⟨d, c₁, hd, hrun⟩ := bind_eq_ok.mp hrun
            obtain ⟨⟨declarations, targets⟩, c₂, hrest, hrun⟩ := bind_eq_ok.mp hrun
            obtain ⟨rfl, rfl⟩ := Prod.mk.inj (Except.ok.inj hrun)
            obtain ⟨us, hus, htook⟩ := declaration_sound hc (hany _ hword) hd
            have hshort : c₁.ahead.length < n := by
              obtain ⟨first, _, _, _, _, rfl, _⟩ := hus
              rw [htook.1] at hlen
              simp only [List.map_cons, List.cons_append, List.length_cons, List.length_append]
                at hlen
              omega
            obtain ⟨items, vs, hvs, heq, hahead, htaken⟩ :=
              statements_sound vocabulary n (htook.fresh hc) hshort hrest
            obtain ⟨rfl, rfl⟩ := Prod.mk.inj heq
            refine ⟨.inl d :: items, us ++ vs, ⟨us, vs, rfl, hus, hvs⟩, rfl, ?_, ?_⟩
            · rw [← hhead, htook.1, hahead, List.map_append]
            · rw [htaken, htook.2, List.reverse_append, List.append_assoc]
          split at hrun
          · next hword =>
            obtain ⟨ts, c₁, hts, hrun⟩ := bind_eq_ok.mp hrun
            obtain ⟨⟨declarations, targets⟩, c₂, hrest, hrun⟩ := bind_eq_ok.mp hrun
            obtain ⟨rfl, rfl⟩ := Prod.mk.inj (Except.ok.inj hrun)
            obtain ⟨s, us, hus, rfl, htook⟩ := annotate_sound hc (hany _ hword) hts
            have hshort : c₁.ahead.length < n := by
              obtain ⟨first, _, _, _, _, _, rfl, _⟩ := hus
              rw [htook.1] at hlen
              simp only [List.map_cons, List.cons_append, List.length_cons, List.length_append]
                at hlen
              omega
            obtain ⟨items, vs, hvs, heq, hahead, htaken⟩ :=
              statements_sound vocabulary n (htook.fresh hc) hshort hrest
            obtain ⟨rfl, rfl⟩ := Prod.mk.inj heq
            refine ⟨.inr s :: items, us ++ vs, ⟨us, vs, rfl, hus, hvs⟩, rfl, ?_, ?_⟩
            · rw [← hhead, htook.1, hahead, List.map_append]
            · rw [htaken, htook.2, List.reverse_append, List.append_assoc]
          · exact absurd hrun fail_ne_ok

/-! ## Completeness -/

theorem noDot_afterTerm {atSign : Option Range} {term : Path} {a : Annotation}
    {ts rest : List Token} (h : afterTerm atSign term a ts) (hrest : Ends rest) :
    NoDot (ts.map Token.plain ++ rest) := by
  obtain ⟨qs, vs, rfl, hqs, hvs, _⟩ := h
  rw [List.map_append, List.append_assoc]
  cases hq : a.qualifier with
  | none =>
      rw [hq] at hqs
      obtain rfl : qs = [] := hqs
      exact @ahead_afterColon _ _ vs rest "." hvs (by decide) hrest.noDot
  | some q =>
      rw [hq] at hqs
      obtain ⟨hash, t, rfl, hhash, _⟩ := hqs
      exact noDot_cons hhash.1 (by decide)

theorem annotation_complete (atSign : Option Range) (term : Path) :
    Complete (Parser.annotation atSign term) (afterTerm atSign term) Ends := by
  rintro a ts ⟨qs, vs, rfl, hqs, hvs, hrange, hembedded, hterm, hsign⟩ taken rest hrest
  have hqualifier := qualifier?_complete a.qualifier qs hqs taken (vs.map Token.plain ++ rest)
    (ahead_afterColon hvs (by decide) fun t ht => (hrest t ht).2.1)
  have hvalue := optionalValue_complete (n := vs.length)
    (fun v ts h => anyValue_complete v ts h.1) (a.colon, a.value) vs ⟨hvs, by omega⟩
    (qs.reverse ++ taken) rest hrest
  unfold Parser.annotation
  rw [List.map_append, List.append_assoc, bind_of_ok hqualifier, bind_of_ok hvalue]
  subst hterm hsign
  have ha : (⟨⟨a.term.range.start, endOf a.value a.headEnd⟩, a.atSign, a.term, a.qualifier, a.colon,
      a.value, false⟩ : Annotation) = a := by
    rw [← hembedded, ← hrange]
    cases a
    rfl
  rw [List.reverse_append, List.append_assoc]
  exact congrArg (fun b => Except.ok (b, _)) ha

theorem afterTerm_of_written {a : Annotation} {ts : List Token} (h : a.WrittenAs ts) :
    ∃ us vs, ts = us ++ vs ∧ a.term.WrittenAs .term us ∧ afterTerm a.atSign a.term a vs := by
  obtain ⟨us, qs, vs, rfl, hus, hqs, hvs, hrange, hembedded⟩ := h
  exact ⟨us, qs ++ vs, rfl, hus, qs, vs, rfl, hqs, hvs, hrange, hembedded, rfl, rfl⟩

theorem item_complete :
    Complete (do let term ← path .term; Parser.annotation none term)
      (fun (a : Annotation) ts => a.WrittenAs ts ∧ a.atSign = none) Ends := by
  rintro a ts ⟨ha, hsign⟩ taken rest hrest
  obtain ⟨us, vs, rfl, hus, hvs⟩ := afterTerm_of_written ha
  rw [hsign] at hvs
  have hpath := path_complete .term a.term us hus taken (vs.map Token.plain ++ rest)
    (noDot_afterTerm hvs hrest)
  rw [List.map_append, List.append_assoc, bind_of_ok hpath,
    annotation_complete none a.term a vs hvs _ rest hrest, List.reverse_append, List.append_assoc]

theorem annotation_leads {a : Annotation} {ts : List Token} (h : a.WrittenAs ts) :
    ∃ t us, ts = t :: us ∧ t.kind = .identifier := by
  obtain ⟨us, qs, vs, rfl, hus, _⟩ := h
  obtain ⟨t, us', rfl, ht⟩ := path_leads hus
  exact ⟨t, us' ++ (qs ++ vs), rfl, ht⟩

theorem assignment_leads {vocabulary : Vocabulary} {atSign : Option Range} {a : Assignment}
    {ts : List Token} (h : a.WrittenAs vocabulary atSign ts) :
    ∃ t us, ts = t :: us ∧ t.kind = .identifier := by
  cases a with
  | single a => exact annotation_leads h.1
  | group g =>
      obtain ⟨term, us, colon, opening, vs, closing, rfl, hus, _⟩ := h
      obtain ⟨t, us', rfl, ht⟩ := path_leads hus
      exact ⟨t, _, rfl, ht⟩

theorem record_of_brace {v : Value} {t : Token} {us : List Token} (h : v.WrittenAs (t :: us))
    (ht : t.is Token.openBrace = true) : ∃ r, v = .record r := by
  cases v with
  | record r => exact ⟨r, rfl⟩
  | collection c =>
      obtain ⟨range, items⟩ := c
      rw [Value.WrittenAs] at h
      obtain ⟨opening, closing, ws, heq, ho, _⟩ := h
      rw [(List.cons.inj heq).1, Token.is_eq_false_of_is ho.1 (by decide)] at ht
      exact absurd ht (by decide)
  | primitive p =>
      rw [Value.WrittenAs] at h
      obtain ⟨u, ws, heq, hu⟩ := primitive_leads h
      rw [(List.cons.inj heq).1] at ht
      rcases hu with hu | hu
      · exact absurd (Token.kind_of_is ht) hu
      · rw [Token.is_eq_false_of_is hu (by decide)] at ht
        exact absurd ht (by decide)

/-- An annotation that is not taken for a group does not start one. -/
theorem not_startsGroup {vocabulary : Vocabulary} {a : Annotation} {ts rest : List Token}
    (hsingle : a.IsSingle vocabulary) (h : afterTerm a.atSign a.term a ts) (hrest : Ends rest) :
    (a.term.segments.length == 1 && vocabulary.isAlias a.term.text &&
      (ts.map Token.plain ++ rest).head?.any (·.is ":") &&
      ((ts.map Token.plain ++ rest).drop 1).head?.any (·.is Token.openBrace)) = false := by
  rw [← Bool.not_eq_true]
  intro hgroup
  simp only [Bool.and_eq_true, beq_iff_eq] at hgroup
  obtain ⟨⟨⟨hlength, halias⟩, hcolon⟩, hbrace⟩ := hgroup
  obtain ⟨qs, vs, rfl, hqs, hvs, _⟩ := h
  cases hq : a.qualifier with
  | some q =>
      rw [hq] at hqs
      obtain ⟨hash, t, rfl, hhash, _⟩ := hqs
      have hfalse : hash.is ":" = false := Token.is_eq_false_of_is hhash.1 (by decide)
      exact absurd (hfalse.symm.trans hcolon) (by decide)
  | none =>
      rw [hq] at hqs
      obtain rfl : qs = [] := hqs
      cases hv : a.value with
      | none =>
          rw [hv, valueAfterColon] at hvs
          obtain rfl := hvs.2
          cases hhead : rest.head? with
          | none =>
              rw [List.append_nil, List.map_nil, List.nil_append, hhead] at hcolon
              exact absurd hcolon (by decide)
          | some t =>
              rw [List.append_nil, List.map_nil, List.nil_append, hhead] at hcolon
              have hfalse := (hrest t (by rw [hhead]; rfl)).2.2
              exact absurd (hfalse.symm.trans hcolon) (by decide)
      | some v =>
          rw [hv, valueAfterColon] at hvs
          obtain ⟨c, us, rfl, _, _, hwritten⟩ := hvs
          obtain ⟨t, us', rfl, _⟩ := value_leads hwritten
          obtain ⟨r, rfl⟩ := record_of_brace hwritten hbrace
          exact hsingle hlength halias hq r hv

theorem assignment_complete (vocabulary : Vocabulary) (atSign : Option Range) :
    Complete (assignment vocabulary atSign) (Assignment.WrittenAs vocabulary atSign) Ends := by
  intro a ts ha taken rest hrest
  unfold assignment
  cases a with
  | single a =>
      obtain ⟨hwritten, rfl, hsingle⟩ := ha
      obtain ⟨us, vs, rfl, hus, hvs⟩ := afterTerm_of_written hwritten
      have hpath := path_complete .term a.term us hus taken (vs.map Token.plain ++ rest)
        (noDot_afterTerm hvs hrest)
      rw [List.map_append, List.append_assoc, bind_of_ok hpath,
        bind_of_ok (startsGroup_apply _ _ _)]
      simp only [not_startsGroup hsingle hvs hrest, Bool.false_eq_true, if_false]
      rw [bind_of_ok (annotation_complete a.atSign a.term a vs hvs _ rest hrest), pure_apply,
        List.reverse_append, List.append_assoc]
  | group g =>
      obtain ⟨term, us, colon, opening, vs, closing, rfl, hus, hlength, halias, hcolon, hopen,
        hclose, hvs, hg⟩ := ha
      have hpath := path_complete .term term us hus taken
        (colon :: opening :: (vs.map Token.plain ++ closing :: rest))
        (noDot_cons hcolon.1 (by decide))
      have hitems := commaList_complete item_complete
        (fun a ts h => by
          obtain ⟨t, us, rfl, ht⟩ := annotation_leads h.1
          exact ⟨t, us, rfl, Token.is_eq_false_of_kind (by rw [ht]; decide)⟩)
        (by decide) (by decide) g.items.items vs hvs (opening :: colon :: (us.reverse ++ taken))
        (closing :: rest) ⟨closing, rest, rfl, hclose.1⟩
      simp only [List.map_append, List.map_cons, List.map_nil, List.append_assoc, List.cons_append,
        List.nil_append, hcolon.plain_eq, hopen.plain_eq, hclose.plain_eq]
      rw [bind_of_ok hpath, bind_of_ok (startsGroup_apply _ _ _)]
      simp only [hlength, halias, List.head?_cons, Option.any_some, hcolon.1, List.drop_succ_cons,
        List.drop_zero, hopen.1, beq_self_eq_true, Bool.and_self, if_true]
      rw [bind_of_ok (expect_cons hcolon.1 _ _), bind_of_ok (expect_cons hopen.1 _ _),
        bind_of_ok hitems, bind_of_ok (expect_cons hclose.1 _ _), pure_apply, hg]
      simp

/-- What follows the assignments of a target. -/
def EndsAssignments (rest : List Token) : Prop :=
  Ends rest ∧ ∀ t ∈ rest.head?, t.is "@" = false

theorem endsAssignments_cons {t : Token} {rest : List Token} {mark : String} (h : t.is mark = true)
    (hmark : (mark ≠ "." ∧ mark ≠ "#" ∧ mark ≠ ":") ∧ mark ≠ "@") :
    EndsAssignments (t :: rest) := by
  refine ⟨ends_cons h hmark.1, ?_⟩
  intro u hu
  rw [List.head?_cons, Option.mem_some_iff] at hu
  rw [← hu]
  exact Token.is_eq_false_of_is h hmark.2

theorem ends_append_assignments {vocabulary : Vocabulary} {as : List Assignment}
    {compound : Option Range} {ts rest : List Token}
    (h : AssignmentsWrittenAs vocabulary as compound ts) (hrest : Ends rest) :
    Ends (ts.map Token.plain ++ rest) := by
  cases h with
  | nil => exact hrest
  | bare hsign _ _ => exact ends_cons hsign.1 (by decide)
  | compound hsign _ _ _ _ => exact ends_cons hsign.1 (by decide)

theorem assignments_complete (vocabulary : Vocabulary) {as : List Assignment}
    {compound : Option Range} {ts : List Token}
    (h : AssignmentsWrittenAs vocabulary as compound ts) :
    ∀ (n : Nat) (taken rest : List Token), ts.length < n → EndsAssignments rest →
      assignments vocabulary n ⟨taken, ts.map Token.plain ++ rest⟩ =
        .ok ((as, compound), ⟨ts.reverse ++ taken, rest⟩) := by
  induction h with
  | nil =>
      intro n taken rest hlen hrest
      obtain ⟨n, rfl⟩ := Nat.exists_eq_add_one_of_ne_zero (Nat.ne_of_gt hlen)
      have hnot : rest.head?.any (·.is "@") = false := any_head?_eq_false hrest.2
      unfold assignments
      rw [bind_of_ok (atMark_apply _ _)]
      simp only [List.map_nil, List.nil_append, hnot, Bool.false_eq_true, if_false]
      rfl
  | @bare sign a as compound us vs hsign hus hvs ih =>
      intro n taken rest hlen hrest
      simp only [List.length_cons, List.length_append] at hlen
      obtain ⟨n, rfl⟩ := Nat.exists_eq_add_one_of_ne_zero (show n ≠ 0 by omega)
      have hitem := assignment_complete vocabulary (some sign.range) a us hus (sign :: taken)
        (vs.map Token.plain ++ rest) (ends_append_assignments hvs hrest.1)
      have hmore := ih n (us.reverse ++ sign :: taken) rest (by omega) hrest
      obtain ⟨t, us', rfl, ht⟩ := assignment_leads hus
      have hparen : t.is "(" = false := Token.is_eq_false_of_kind (by rw [ht]; decide)
      unfold assignments
      rw [bind_of_ok (atMark_apply _ _)]
      simp only [List.map_cons, List.cons_append, List.map_append, List.append_assoc,
        List.head?_cons, Option.any_some, hsign.1, if_true, hsign.plain_eq] at hitem hmore ⊢
      rw [bind_of_ok (take_cons _ _ _), bind_of_ok (atMark_apply _ _)]
      simp only [List.head?_cons, Option.any_some, Token.is_plain, hparen, Bool.false_eq_true,
        if_false]
      rw [bind_of_ok hitem, bind_of_ok hmore, pure_apply]
      simp
  | @compound sign opening closing items as more us vs hsign hopen hus hclose hvs ih =>
      intro n taken rest hlen hrest
      simp only [List.length_cons, List.length_append] at hlen
      obtain ⟨n, rfl⟩ := Nat.exists_eq_add_one_of_ne_zero (show n ≠ 0 by omega)
      have hitems := commaList_complete (assignment_complete vocabulary none)
        (fun a ts h => by
          obtain ⟨t, us, rfl, ht⟩ := assignment_leads h
          exact ⟨t, us, rfl, Token.is_eq_false_of_kind (by rw [ht]; decide)⟩)
        (by decide) (by decide) items us hus (opening :: sign :: taken)
        (closing :: (vs.map Token.plain ++ rest)) ⟨closing, _, rfl, hclose.1⟩
      have hmore := ih n (closing :: (us.reverse ++ opening :: sign :: taken)) rest (by omega) hrest
      unfold assignments
      rw [bind_of_ok (atMark_apply _ _)]
      simp only [List.map_cons, List.cons_append, List.map_append, List.append_assoc,
        List.head?_cons, Option.any_some, hsign.1, if_true, hsign.plain_eq, hopen.plain_eq,
        hclose.plain_eq]
      rw [bind_of_ok (take_cons _ _ _), bind_of_ok (atMark_apply _ _)]
      simp only [List.head?_cons, Option.any_some, hopen.1, if_true]
      rw [bind_of_ok (take_cons _ _ _), bind_of_ok hitems, bind_of_ok (expect_cons hclose.1 _ _),
        bind_of_ok hmore, pure_apply]
      cases more with
      | none => simp
      | some r => simp

theorem allAssignments_complete (vocabulary : Vocabulary) :
    Complete (allAssignments vocabulary)
      (fun found ts => AssignmentsWrittenAs vocabulary found.1 found.2 ts) EndsAssignments := by
  rintro ⟨as, compound⟩ ts hts taken rest hrest
  unfold allAssignments
  rw [bind_of_ok (get_apply _)]
  refine assignments_complete vocabulary hts _ taken rest ?_ hrest
  simp only [List.length_append, List.length_map]
  omega

/-! A part of a statement that may be missing, and what runs after it. -/

theorem afterWord_complete {α β : Type} {word : String} {m : Parser α}
    {written : α → List Token → Prop} {follow : List Token → Prop} (h : Complete m written follow)
    (k : Option α → Parser β) {a : Option α} {ts : List Token} (hts : afterWord word written a ts)
    (taken : List Token) {rest : List Token} (hrest : follow rest)
    (hnot : ∀ t ∈ rest.head?, t.isKeyword word = false) :
    (if (ts.map Token.plain ++ rest).head?.any fun t => t.isKeyword word then (do
        let _ ← take
        let a ← some <$> m
        k a)
      else (do
        let a ← pure none
        k a) : Parser β) ⟨taken, ts.map Token.plain ++ rest⟩ = k a ⟨ts.reverse ++ taken, rest⟩ := by
  cases a with
  | none =>
      obtain rfl : ts = [] := hts
      simp only [List.map_nil, List.nil_append, any_head?_eq_false hnot, Bool.false_eq_true,
        if_false]
      rw [bind_of_ok (pure_apply _ _)]
      rfl
  | some a =>
      obtain ⟨t, us, rfl, ht, hus⟩ := hts
      simp only [List.map_cons, List.cons_append, List.head?_cons, Option.any_some,
        ht.1, if_true, ht.plain_eq]
      rw [bind_of_ok (take_cons _ _ _), bind_of_ok (map_of_ok (h a us hus _ rest hrest))]
      simp

theorem name_complete {β : Type} (k : Option Path → Parser β) {a : Option Path} {ts : List Token}
    (hts : nameWrittenAs a ts) (taken : List Token) {rest : List Token} (hrest : NoDot rest)
    (hnot : ∀ t ∈ rest.head?, (t.kind == .identifier) = false) :
    (if (ts.map Token.plain ++ rest).head?.any fun t => t.kind == .identifier then (do
        let a ← some <$> path .entity
        k a)
      else (do
        let a ← pure none
        k a) : Parser β) ⟨taken, ts.map Token.plain ++ rest⟩ = k a ⟨ts.reverse ++ taken, rest⟩ := by
  cases a with
  | none =>
      obtain rfl : ts = [] := hts
      simp only [List.map_nil, List.nil_append, any_head?_eq_false hnot, Bool.false_eq_true,
        if_false]
      rw [bind_of_ok (pure_apply _ _)]
      rfl
  | some p =>
      have hrun := path_complete .entity p ts hts taken rest hrest
      obtain ⟨t, us, rfl, ht⟩ := path_leads hts
      have hkind : ((t :: us).map Token.plain ++ rest).head?.any (fun t => t.kind == .identifier) =
          true := by
        simp [ht]
      simp only [hkind, if_true]
      rw [bind_of_ok (map_of_ok hrun)]

theorem with_complete {β : Type} (k : Parser β) {ts : List Token}
    (hts : ts = [] ∨ ∃ t, ts = [t] ∧ t.IsWord "with") (taken : List Token) {rest : List Token}
    (hnot : ∀ t ∈ rest.head?, t.isKeyword "with" = false) :
    (if (ts.map Token.plain ++ rest).head?.any fun t => t.isKeyword "with" then (do
        let _ ← take
        k)
      else k) ⟨taken, ts.map Token.plain ++ rest⟩ = k ⟨ts.reverse ++ taken, rest⟩ := by
  rcases hts with rfl | ⟨t, rfl, ht⟩
  · simp only [List.map_nil, List.nil_append, any_head?_eq_false hnot, Bool.false_eq_true, if_false]
    rfl
  · simp only [List.map_cons, List.map_nil, List.nil_append, List.cons_append, List.head?_cons,
      Option.any_some, ht.1, if_true, ht.plain_eq]
    rw [bind_of_ok (take_cons _ _ _)]
    rfl

theorem ahead_afterWord {α : Type} {word : String} {written : α → List Token → Prop} {a : Option α}
    {ts rest : List Token} {P : Token → Prop} (h : afterWord word written a ts)
    (hword : ∀ t : Token, t.isKeyword word = true → P t) (hrest : ∀ t ∈ rest.head?, P t) :
    ∀ t ∈ (ts.map Token.plain ++ rest).head?, P t := by
  cases a with
  | none =>
      obtain rfl : ts = [] := h
      exact hrest
  | some a =>
      obtain ⟨t, us, rfl, ht, _⟩ := h
      intro u hu
      rw [List.map_cons, List.cons_append, List.head?_cons, Option.mem_some_iff] at hu
      rw [← hu]
      exact hword _ ht.1

def EndsName (t : Token) : Prop := t.is "." = false ∧ (t.kind == .identifier) = false

theorem endsName_of_isKeyword {t : Token} {word : String} (h : t.isKeyword word = true) :
    EndsName t := by
  have hkind := Token.kind_of_isKeyword h
  refine ⟨Token.is_eq_false_of_kind (by rw [hkind]; decide), ?_⟩
  rw [hkind]
  rfl

theorem declaration_complete :
    Complete declaration Declaration.WrittenAs (fun _ => True) := by
  rintro d ts ⟨first, us, vs, ws, closing, rfl, hfirst, hus, hvs, hws, hclose, hrange⟩ taken rest _
  have hmark : closing.kind = .punctuation := Token.kind_of_is hclose.1
  have hclosing : ∀ P : Token → Prop, P closing → ∀ t ∈ (closing :: rest).head?, P t := by
    intro P hP t ht
    rw [List.head?_cons, Option.mem_some_iff] at ht
    rwa [← ht]
  have hsemicolon : EndsName closing :=
    ⟨Token.is_eq_false_of_is hclose.1 (by decide), by rw [hmark]; rfl⟩
  have hends : ∀ t ∈ (vs.map Token.plain ++ (ws.map Token.plain ++ closing :: rest)).head?,
      EndsName t :=
    ahead_afterWord hvs (fun _ => endsName_of_isKeyword)
      (ahead_afterWord hws (fun _ => endsName_of_isKeyword) (hclosing _ hsemicolon))
  have hnoAs : ∀ t ∈ (ws.map Token.plain ++ closing :: rest).head?, t.isKeyword "as" = false := by
    refine ahead_afterWord hws ?_ (hclosing _ ?_)
    · intro t ht
      exact Token.isKeyword_eq_false_of_isKeyword ht (by decide)
    · exact Token.isKeyword_eq_false_of_kind (by rw [hmark]; decide)
  have hnoFrom : ∀ t ∈ (closing :: rest).head?, t.isKeyword "from" = false :=
    hclosing _ (Token.isKeyword_eq_false_of_kind (by rw [hmark]; decide))
  unfold declaration
  simp only [List.map_cons, List.map_append, List.map_nil, List.cons_append, List.append_assoc,
    List.nil_append, hfirst.plain_eq, hclose.plain_eq]
  rw [bind_of_ok (take_cons _ _ _), bind_of_ok (ahead_apply _ _),
    name_complete _ hus _ (fun t ht => (hends t ht).1) (fun t ht => (hends t ht).2),
    bind_of_ok (atKeyword_apply _ _),
    afterWord_complete (identifier_complete .other) _ hvs _ trivial hnoAs,
    bind_of_ok (atKeyword_apply _ _),
    afterWord_complete primitive_complete _ hws _ (noDot_cons hclose.1 (by decide)) hnoFrom,
    bind_of_ok (expect_cons hclose.1 _ _), pure_apply, ← hrange]
  simp

theorem member_complete (vocabulary : Vocabulary) (entity : String) :
    Complete (member vocabulary entity) (memberWrittenAs vocabulary entity) (fun _ => True) := by
  rintro m ts ⟨i, t, us, closing, as, compound, rfl, ht, hus, hclose, rfl⟩ taken rest _
  have hname := identifier_complete .element i [t] ⟨t, rfl, ht⟩ taken
    (us.map Token.plain ++ closing :: rest) trivial
  have hfound := allAssignments_complete vocabulary (as, compound) us hus ([t].reverse ++ taken)
    (closing :: rest) (endsAssignments_cons hclose.1 (by decide))
  unfold member
  simp only [List.map_cons, List.map_append, List.map_nil, List.cons_append, List.append_assoc,
    List.nil_append, hclose.plain_eq] at hname ⊢
  rw [bind_of_ok hname, bind_of_ok hfound, bind_of_ok (expect_cons hclose.1 _ _), pure_apply]
  simp

theorem length_le_of_consecutive {α : Type} {written : α → List Token → Prop}
    (h : ∀ a ts, written a ts → ts ≠ []) :
    ∀ {as : List α} {ts : List Token}, consecutive written as ts → as.length ≤ ts.length
  | [], _, _ => Nat.zero_le _
  | a :: as, ts, hts => by
      obtain ⟨us, vs, rfl, ha, hvs⟩ := hts
      have hpos := List.length_pos_iff.mpr (h a us ha)
      have := length_le_of_consecutive h hvs
      simp only [List.length_cons, List.length_append]
      omega

theorem itemsUntil_complete {α : Type} {item : Parser α} {written : α → List Token → Prop}
    {close : String} (h : Complete item written (fun _ => True)) (hleads : Leads written close) :
    ∀ (n : Nat) (as : List α) (ts : List Token), consecutive written as ts → as.length < n →
      ∀ taken rest, (∃ t us, rest = t :: us ∧ t.is close = true) →
        itemsUntil close item n ⟨taken, ts.map Token.plain ++ rest⟩ =
          .ok (as, ⟨ts.reverse ++ taken, rest⟩)
  | 0, as, ts, hts, hn, taken, rest, _ => absurd hn (Nat.not_lt_zero _)
  | n + 1, [], ts, hts, _, taken, rest, hrest => by
      obtain rfl : ts = [] := hts
      obtain ⟨t, us, rfl, ht⟩ := hrest
      unfold itemsUntil
      rw [bind_of_ok (atMark_apply close _)]
      simp only [List.map_nil, List.nil_append, List.head?_cons, Option.any_some, ht, if_true]
      rfl
  | n + 1, a :: as, ts, hts, hn, taken, rest, hrest => by
      obtain ⟨us, vs, rfl, ha, hvs⟩ := hts
      have hitem := h a us ha taken (vs.map Token.plain ++ rest) trivial
      have hmore := itemsUntil_complete h hleads n as vs hvs
        (by rw [List.length_cons] at hn; omega) (us.reverse ++ taken) rest hrest
      obtain ⟨t, us', rfl, ht⟩ := hleads a us ha
      unfold itemsUntil
      rw [bind_of_ok (atMark_apply close _)]
      simp only [List.map_append, List.map_cons, List.cons_append, List.append_assoc,
        List.head?_cons, Option.any_some, Token.is_plain, ht, Bool.false_eq_true, if_false]
        at hitem ⊢
      rw [bind_of_ok hitem, bind_of_ok hmore, pure_apply]
      simp

theorem members_lead (vocabulary : Vocabulary) (entity : String) :
    Leads (memberWrittenAs vocabulary entity) Token.closeBrace := by
  rintro m ts ⟨i, t, us, closing, as, compound, rfl, ht, _⟩
  exact ⟨t, _, rfl, Token.is_eq_false_of_kind (by rw [ht.1.1]; decide)⟩

theorem block_complete {β : Type} {vocabulary : Vocabulary} {entity : String}
    (k : List Target → Parser β) {members : Option (List Target)} {ts : List Token}
    (hts : blockWrittenAs vocabulary entity members ts) (taken : List Token) {rest : List Token}
    (hnot : ∀ t ∈ rest.head?, t.is Token.openBrace = false) :
    (if (ts.map Token.plain ++ rest).head?.any fun t => t.is Token.openBrace then (do
        let _ ← take
        let cursor ← get
        let members ← itemsUntil Token.closeBrace (member vocabulary entity)
          (cursor.ahead.length + 1)
        let _ ← expect Token.closeBrace
        let members ← pure members
        k members)
      else (do
        let members ← pure []
        k members) : Parser β) ⟨taken, ts.map Token.plain ++ rest⟩ =
      k (members.getD []) ⟨ts.reverse ++ taken, rest⟩ := by
  cases members with
  | none =>
      obtain rfl : ts = [] := hts
      simp only [List.map_nil, List.nil_append, any_head?_eq_false hnot, Bool.false_eq_true,
        if_false]
      rw [bind_of_ok (pure_apply _ _)]
      rfl
  | some members =>
      obtain ⟨opening, us, closing, rfl, hopen, hclose, hus⟩ := hts
      have hlen : members.length ≤ us.length := by
        refine length_le_of_consecutive ?_ hus
        rintro m ts hm rfl
        obtain ⟨t, us, heq, _⟩ := members_lead vocabulary entity m [] hm
        exact absurd heq (by simp)
      have hitems := itemsUntil_complete (member_complete vocabulary entity)
        (members_lead vocabulary entity)
        ((us.map Token.plain ++ closing :: rest).length + 1) members us hus
        (by simp only [List.length_append, List.length_map]; omega) (opening :: taken)
        (closing :: rest) ⟨closing, rest, rfl, hclose.1⟩
      simp only [List.map_cons, List.map_append, List.map_nil, List.cons_append,
        List.append_assoc, List.nil_append, List.head?_cons, Option.any_some, hopen.1, if_true,
        hopen.plain_eq, hclose.plain_eq]
      rw [bind_of_ok (take_cons _ _ _), bind_of_ok (get_apply _), bind_of_ok hitems,
        bind_of_ok (expect_cons hclose.1 _ _), bind_of_ok (pure_apply _ _)]
      simp

theorem assignments_empty_or_at {vocabulary : Vocabulary} {as : List Assignment}
    {compound : Option Range} {ts : List Token}
    (h : AssignmentsWrittenAs vocabulary as compound ts) :
    ts = [] ∨ ∃ t us, ts = t :: us ∧ t.IsMark "@" := by
  cases h with
  | nil => exact Or.inl rfl
  | bare hsign _ _ => exact Or.inr ⟨_, _, rfl, hsign⟩
  | compound hsign _ _ _ _ => exact Or.inr ⟨_, _, rfl, hsign⟩

/-- What follows the assignments of an entity: the block of its members or the semicolon. -/
theorem block_leads {vocabulary : Vocabulary} {entity : String} {members : Option (List Target)}
    {ts rest : List Token} {closing : Token} (h : blockWrittenAs vocabulary entity members ts)
    (hclose : closing.IsMark ";") :
    ∃ t us, ts.map Token.plain ++ closing :: rest = t :: us ∧
      (t.is ";" = true ∨ t.is Token.openBrace = true) ∧
      (t.is Token.openBrace = !members.isNone) := by
  cases members with
  | none =>
      obtain rfl : ts = [] := h
      exact ⟨closing, rest, rfl, Or.inl hclose.1, Token.is_eq_false_of_is hclose.1 (by decide)⟩
  | some members =>
      obtain ⟨opening, us, closing', rfl, hopen, _⟩ := h
      exact ⟨opening.plain, _, rfl, Or.inr hopen.1, hopen.1⟩

theorem annotate_complete (vocabulary : Vocabulary) {s : Statement} {ts : List Token}
    (hts : s.WrittenAs vocabulary ts) (taken rest : List Token) :
    annotate vocabulary ⟨taken, ts.map Token.plain ++ rest⟩ =
      .ok (s.targets, ⟨ts.reverse ++ taken, rest⟩) := by
  obtain ⟨first, us, ws, as, bs, closing, rfl, hfirst, hus, hws, has, hbs, hclose⟩ := hts
  obtain ⟨t, block, hblock, hmark, hbrace⟩ := @block_leads _ _ _ _ rest _ hbs hclose
  have hends : EndsAssignments (t :: block) := by
    rcases hmark with hmark | hmark
    · exact endsAssignments_cons hmark (by decide)
    · exact endsAssignments_cons hmark (by decide)
  have hafter : ∀ t' ∈ (as.map Token.plain ++ t :: block).head?,
      t'.kind = .punctuation ∧ t'.is "." = false := by
    intro t' ht'
    rcases assignments_empty_or_at has with rfl | ⟨u, us', rfl, hu⟩
    · obtain rfl : t = t' := by simpa using ht'
      refine ⟨?_, hends.1.noDot t (by rw [List.head?_cons]; rfl)⟩
      rcases hmark with hmark | hmark
      · exact Token.kind_of_is hmark
      · exact Token.kind_of_is hmark
    · obtain rfl : u.plain = t' := by simpa using ht'
      exact ⟨Token.kind_of_is hu.1, Token.is_eq_false_of_is hu.1 (by decide)⟩
  have hnoDot : NoDot (ws.map Token.plain ++ (as.map Token.plain ++ t :: block)) := by
    rcases hws with rfl | ⟨w, rfl, hw⟩
    · exact fun t' ht' => (hafter t' ht').2
    · intro t' ht'
      obtain rfl : w.plain = t' := by simpa using ht'
      exact Token.is_eq_false_of_kind
        (by rw [Token.kind_plain, Token.kind_of_isKeyword hw.1]; decide)
  have hnoWith : ∀ t' ∈ (as.map Token.plain ++ t :: block).head?, t'.isKeyword "with" = false :=
    fun t' ht' => Token.isKeyword_eq_false_of_kind (by rw [(hafter t' ht').1]; decide)
  have hpath := path_complete .entity s.entity us hus (first :: taken) _ hnoDot
  have hfound := allAssignments_complete vocabulary (s.assignments, s.compound) as has
    (ws.reverse ++ (us.reverse ++ first :: taken)) (t :: block) hends
  have hnotBrace : ∀ t' ∈ (closing :: rest).head?, t'.is Token.openBrace = false := by
    intro t' ht'
    obtain rfl : closing = t' := by simpa using ht'
    exact Token.is_eq_false_of_is hclose.1 (by decide)
  unfold annotate
  simp only [List.map_cons, List.map_append, List.map_nil, List.cons_append, List.append_assoc,
    List.nil_append, hfirst.plain_eq, hclose.plain_eq]
  rw [bind_of_ok (take_cons _ _ _), hblock, bind_of_ok hpath, bind_of_ok (atKeyword_apply _ _),
    with_complete _ hws _ hnoWith, bind_of_ok hfound, bind_of_ok (atMark_apply _ _), ← hblock]
  rw [block_complete _ hbs _ hnotBrace, bind_of_ok (expect_cons hclose.1 _ _), pure_apply]
  rw [Statement.targets, Statement.entityTargets, hblock, List.head?_cons, Option.any_some, hbrace,
    Bool.not_not]
  simp

theorem declaration_leads {d : Declaration} {ts : List Token} (h : d.WrittenAs ts) :
    ∃ t us, ts = t :: us ∧ t.plain.isKeyword "using" = true := by
  obtain ⟨first, _, _, _, _, rfl, hfirst, _⟩ := h
  exact ⟨first, _, rfl, hfirst.1⟩

theorem statement_leads {vocabulary : Vocabulary} {s : Statement} {ts : List Token}
    (h : s.WrittenAs vocabulary ts) :
    ∃ t us, ts = t :: us ∧ t.plain.isKeyword "annotate" = true := by
  obtain ⟨first, _, _, _, _, _, rfl, hfirst, _⟩ := h
  exact ⟨first, _, rfl, hfirst.1⟩

theorem item_ne_nil {vocabulary : Vocabulary} (item : Item) (ts : List Token)
    (h : item.WrittenAs vocabulary ts) : ts ≠ [] := by
  cases item with
  | inl d =>
      obtain ⟨t, us, rfl, _⟩ := declaration_leads h
      exact List.cons_ne_nil _ _
  | inr s =>
      obtain ⟨t, us, rfl, _⟩ := statement_leads h
      exact List.cons_ne_nil _ _

theorem statements_complete (vocabulary : Vocabulary) :
    ∀ (n : Nat) (items : List Item) (ts : List Token),
      consecutive (Item.WrittenAs vocabulary) items ts → items.length < n → ∀ taken,
        statements vocabulary n ⟨taken, ts.map Token.plain⟩ =
          .ok ((declarationsOf items, targetsOf items), ⟨ts.reverse ++ taken, []⟩)
  | 0, _, _, _, hn, _ => absurd hn (Nat.not_lt_zero _)
  | n + 1, [], ts, hts, _, taken => by
      obtain rfl : ts = [] := hts
      rfl
  | n + 1, .inl d :: items, ts, hts, hn, taken => by
      obtain ⟨us, vs, rfl, hd, hvs⟩ := hts
      have hrun := declaration_complete d us hd taken (vs.map Token.plain) trivial
      have hmore := statements_complete vocabulary n items vs hvs
        (by rw [List.length_cons] at hn; omega) (us.reverse ++ taken)
      obtain ⟨first, us', rfl, hfirst⟩ := declaration_leads hd
      unfold statements
      rw [bind_of_ok (peek?_apply _)]
      simp only [List.map_append, List.map_cons, List.cons_append, List.head?_cons] at hrun ⊢
      rw [if_pos hfirst, bind_of_ok hrun, bind_of_ok hmore, pure_apply]
      simp [declarationsOf, targetsOf]
  | n + 1, .inr s :: items, ts, hts, hn, taken => by
      obtain ⟨us, vs, rfl, hs, hvs⟩ := hts
      have hrun := annotate_complete vocabulary hs taken (vs.map Token.plain)
      have hmore := statements_complete vocabulary n items vs hvs
        (by rw [List.length_cons] at hn; omega) (us.reverse ++ taken)
      obtain ⟨first, us', rfl, hfirst⟩ := statement_leads hs
      have hnot : ¬ first.plain.isKeyword "using" = true := by
        rw [Token.isKeyword_eq_false_of_isKeyword hfirst (by decide)]
        decide
      unfold statements
      rw [bind_of_ok (peek?_apply _)]
      simp only [List.map_append, List.map_cons, List.cons_append, List.head?_cons] at hrun ⊢
      rw [if_neg hnot, if_pos hfirst, bind_of_ok hrun, bind_of_ok hmore, pure_apply]
      simp [declarationsOf, targetsOf]

end Parser

/-! ## Files -/

theorem parseTokens_eq (vocabulary : Vocabulary) (uri : String) (range : Range)
    (tokens : List Token) :
    parseTokens vocabulary uri range tokens =
      (Parser.statements vocabulary ((tokens.filter Token.isCode).length + 1)
        ⟨[], tokens.filter Token.isCode⟩).map fun r =>
          (⟨uri, range, r.1.1, r.1.2⟩, r.2.taken.reverse) := by
  change Except.bind (Parser.statements _ _ _) _ = _
  cases Parser.statements vocabulary ((tokens.filter Token.isCode).length + 1)
    ⟨[], tokens.filter Token.isCode⟩ with
  | error e => rfl
  | ok r => rfl

theorem parseTokens_eq_ok_iff {vocabulary : Vocabulary} {uri : String} {range : Range}
    {tokens code : List Token} {file : File} (hplain : ∀ t ∈ tokens, t.identifier = none) :
    parseTokens vocabulary uri range tokens = .ok (file, code) ↔
      ∃ items : List Item, consecutive (Item.WrittenAs vocabulary) items code ∧
        code.map Token.plain = tokens.filter Token.isCode ∧
        file = ⟨uri, range, declarationsOf items, targetsOf items⟩ := by
  have hfresh : Parser.Fresh ⟨[], tokens.filter Token.isCode⟩ :=
    fun t ht => hplain t (List.mem_filter.mp ht).1
  rw [parseTokens_eq]
  constructor
  · intro h
    cases hrun : Parser.statements vocabulary ((tokens.filter Token.isCode).length + 1)
        ⟨[], tokens.filter Token.isCode⟩ with
    | error e =>
        rw [hrun] at h
        cases h
    | ok r =>
        rw [hrun] at h
        obtain ⟨rfl, rfl⟩ := Prod.mk.inj (Except.ok.inj h)
        obtain ⟨items, ts, hts, hfound, hahead, htaken⟩ :=
          Parser.statements_sound vocabulary _ hfresh (Nat.lt_succ_self _) hrun
        have hcode : r.2.taken.reverse = ts := by
          rw [htaken, List.append_nil, List.reverse_reverse]
        rw [hcode, hfound]
        exact ⟨items, hts, hahead.symm, rfl⟩
  · rintro ⟨items, hitems, hcode, rfl⟩
    have hlen : items.length < (tokens.filter Token.isCode).length + 1 := by
      have hle := Parser.length_le_of_consecutive Parser.item_ne_nil hitems
      rw [← hcode, List.length_map]
      omega
    have hrun := Parser.statements_complete vocabulary _ items code hitems hlen []
    rw [hcode] at hrun
    rw [hrun, List.append_nil]
    simp only [Except.map, List.reverse_reverse]

end AnnotationEdit.Syntax

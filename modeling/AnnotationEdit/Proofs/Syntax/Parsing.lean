import AnnotationEdit.Proofs.Syntax.Grammar

/-!
# The parser and the grammar

The parser accepts exactly the token lists of the grammar. `Sound m W` says that whatever `m`
returns is related by `W` to the tokens it took, and `Complete m W F` that `m` returns what `W`
relates to the tokens ahead when something that satisfies `F` follows. Both are proved for every
parser, from the marks up to the statements of a file.
-/

namespace AnnotationEdit

namespace Token

@[simp] theorem plain_plain (t : Token) : t.plain.plain = t.plain := rfl
@[simp] theorem is_plain (t : Token) (mark : String) : t.plain.is mark = t.is mark := rfl
@[simp] theorem isKeyword_plain (t : Token) (word : String) :
    t.plain.isKeyword word = t.isKeyword word := rfl
@[simp] theorem kind_plain (t : Token) : t.plain.kind = t.kind := rfl
@[simp] theorem text_plain (t : Token) : t.plain.text = t.text := rfl
@[simp] theorem range_plain (t : Token) : t.plain.range = t.range := rfl
@[simp] theorem identifier_plain (t : Token) : t.plain.identifier = none := rfl

theorem plain_eq_self {t : Token} (h : t.identifier = none) : t.plain = t := by
  cases t
  simp_all [plain]

theorem IsMark.plain_eq {mark : String} {t : Token} (h : t.IsMark mark) : t.plain = t :=
  plain_eq_self h.2

theorem IsWord.plain_eq {word : String} {t : Token} (h : t.IsWord word) : t.plain = t :=
  plain_eq_self h.2

theorem IsLiteral.plain_eq {kind : TokenKind} {t : Token} (h : t.IsLiteral kind) : t.plain = t :=
  plain_eq_self h.2

theorem kind_of_is {t : Token} {mark : String} (h : t.is mark = true) : t.kind = .punctuation := by
  unfold is at h
  rw [Bool.and_eq_true] at h
  exact beq_iff_eq.mp h.1

theorem text_of_is {t : Token} {mark : String} (h : t.is mark = true) : t.text = mark := by
  unfold is at h
  rw [Bool.and_eq_true] at h
  exact beq_iff_eq.mp h.2

theorem kind_of_isKeyword {t : Token} {word : String} (h : t.isKeyword word = true) :
    t.kind = .keyword := by
  unfold isKeyword at h
  rw [Bool.and_eq_true] at h
  exact beq_iff_eq.mp h.1

theorem is_eq_false_of_is {t : Token} {mark other : String} (h : t.is mark = true)
    (hne : mark ≠ other) : t.is other = false := by
  unfold is
  rw [text_of_is h, Bool.and_eq_false_iff]
  exact Or.inr (beq_eq_false_iff_ne.mpr hne)

theorem is_eq_false_of_kind {t : Token} {mark : String} (h : t.kind ≠ .punctuation) :
    t.is mark = false := by
  unfold is
  rw [Bool.and_eq_false_iff]
  exact Or.inl (beq_eq_false_iff_ne.mpr h)

theorem isKeyword_eq_false_of_kind {t : Token} {word : String} (h : t.kind ≠ .keyword) :
    t.isKeyword word = false := by
  unfold isKeyword
  rw [Bool.and_eq_false_iff]
  exact Or.inl (beq_eq_false_iff_ne.mpr h)

theorem isKeyword_eq_false_of_isKeyword {t : Token} {word other : String}
    (h : t.isKeyword word = true) (hne : word ≠ other) : t.isKeyword other = false := by
  unfold isKeyword at h ⊢
  rw [Bool.and_eq_true, beq_iff_eq, beq_iff_eq] at h
  rw [h.2, Bool.and_eq_false_iff]
  exact Or.inr (beq_eq_false_iff_ne.mpr hne)

end Token

namespace Syntax.Parser

/-! ## Running a parser -/

theorem bind_eq_ok {α β : Type} {m : Parser α} {f : α → Parser β} {c : Cursor} {r : β × Cursor} :
    (m >>= f) c = .ok r ↔ ∃ a c', m c = .ok (a, c') ∧ f a c' = .ok r := by
  simp only [bind, StateT.bind, Except.bind]
  cases m c with
  | error e => simp
  | ok x =>
      obtain ⟨a, c'⟩ := x
      constructor
      · exact fun h => ⟨a, c', rfl, h⟩
      · rintro ⟨b, d, heq, h⟩
        obtain ⟨rfl, rfl⟩ := Prod.mk.inj (Except.ok.inj heq)
        exact h

theorem bind_of_ok {α β : Type} {m : Parser α} {f : α → Parser β} {c c' : Cursor} {a : α}
    (h : m c = .ok (a, c')) : (m >>= f) c = f a c' := by
  simp only [bind, StateT.bind, Except.bind, h]

theorem map_eq_ok {α β : Type} {m : Parser α} {f : α → β} {c : Cursor} {r : β × Cursor} :
    (f <$> m) c = .ok r ↔ ∃ a c', m c = .ok (a, c') ∧ (f a, c') = r := by
  simp only [Functor.map, StateT.map, bind, Except.bind]
  cases m c with
  | error e => simp
  | ok x =>
      obtain ⟨a, c'⟩ := x
      constructor
      · exact fun h => ⟨a, c', rfl, Except.ok.inj h⟩
      · rintro ⟨b, d, heq, rfl⟩
        obtain ⟨rfl, rfl⟩ := Prod.mk.inj (Except.ok.inj heq)
        rfl

theorem map_of_ok {α β : Type} {m : Parser α} {f : α → β} {c c' : Cursor} {a : α}
    (h : m c = .ok (a, c')) : (f <$> m) c = .ok (f a, c') :=
  map_eq_ok.mpr ⟨a, c', h, rfl⟩

theorem pure_apply {α : Type} (a : α) (c : Cursor) : (pure a : Parser α) c = .ok (a, c) := rfl

theorem get_apply (c : Cursor) : (get : Parser Cursor) c = .ok (c, c) := rfl

theorem peek?_apply (c : Cursor) : peek? c = .ok (c.ahead.head?, c) := rfl

theorem ahead_apply (p : Token → Bool) (c : Cursor) :
    ahead p c = .ok (c.ahead.head?.any p, c) := rfl

theorem atMark_apply (mark : String) (c : Cursor) :
    atMark mark c = .ok (c.ahead.head?.any (·.is mark), c) := rfl

theorem atKeyword_apply (word : String) (c : Cursor) :
    atKeyword word c = .ok (c.ahead.head?.any (·.isKeyword word), c) := rfl

theorem fail_ne_ok {α : Type} {fault : SyntaxFault} {c : Cursor} {r : α × Cursor} :
    (fail fault : Parser α) c ≠ .ok r := by
  change (.error _ : Except SyntaxError (α × Cursor)) ≠ .ok r
  simp

def withRole (role : Option IdentifierKind) (t : Token) : Token :=
  match role with
  | some kind => { t with identifier := some kind }
  | none => t

theorem takeAs_cons (role : Option IdentifierKind) (taken : List Token) (t : Token)
    (rest : List Token) :
    takeAs role ⟨taken, t :: rest⟩ =
      .ok (withRole role t, ⟨withRole role t :: taken, rest⟩) := by
  cases role <;> rfl

theorem takeAs_eq_ok {role : Option IdentifierKind} {c c' : Cursor} {t : Token}
    (h : takeAs role c = .ok (t, c')) : ∃ u rest, c.ahead = u :: rest ∧ t = withRole role u ∧
      c' = ⟨withRole role u :: c.taken, rest⟩ := by
  obtain ⟨taken, ahead⟩ := c
  cases ahead with
  | nil => exact absurd h fail_ne_ok
  | cons u rest =>
      rw [takeAs_cons] at h
      have heq := Except.ok.inj h
      exact ⟨u, rest, rfl, (congrArg Prod.fst heq).symm, (congrArg Prod.snd heq).symm⟩

theorem take_cons (taken : List Token) (t : Token) (rest : List Token) :
    take ⟨taken, t :: rest⟩ = .ok (t, ⟨t :: taken, rest⟩) := rfl

theorem take_eq_ok {c c' : Cursor} {t : Token} (h : take c = .ok (t, c')) :
    c.ahead = t :: c'.ahead ∧ c'.taken = t :: c.taken := by
  obtain ⟨u, rest, hahead, rfl, rfl⟩ := takeAs_eq_ok h
  exact ⟨hahead, rfl⟩

theorem expect_cons {mark : String} {t : Token} (h : t.is mark = true) (taken rest : List Token) :
    expect mark ⟨taken, t :: rest⟩ = .ok (t.range, ⟨t :: taken, rest⟩) := by
  unfold expect
  rw [bind_of_ok (atMark_apply mark _)]
  simp only [List.head?_cons, Option.any_some, h, if_true]
  rfl

theorem expect_eq_ok {mark : String} {c c' : Cursor} {r : Range} (h : expect mark c = .ok (r, c')) :
    ∃ t, c.ahead = t :: c'.ahead ∧ t.is mark = true ∧ r = t.range ∧ c'.taken = t :: c.taken := by
  obtain ⟨taken, ahead⟩ := c
  unfold expect at h
  rw [bind_of_ok (atMark_apply mark _)] at h
  cases ahead with
  | nil =>
      obtain ⟨_, _, _, h⟩ := bind_eq_ok.mp h
      exact absurd h fail_ne_ok
  | cons t rest =>
      cases ht : t.is mark with
      | false =>
          simp only [List.head?_cons, Option.any_some, ht, Bool.false_eq_true, if_false] at h
          obtain ⟨_, _, _, h⟩ := bind_eq_ok.mp h
          exact absurd h fail_ne_ok
      | true =>
          simp only [List.head?_cons, Option.any_some, ht, if_true] at h
          obtain ⟨u, c'', htake, h⟩ := bind_eq_ok.mp h
          rw [take_cons] at htake
          obtain ⟨rfl, rfl⟩ := Prod.mk.inj (Except.ok.inj htake)
          obtain ⟨rfl, rfl⟩ := Prod.mk.inj (Except.ok.inj h)
          exact ⟨t, rfl, ht, rfl, rfl⟩

/-! ## Soundness and completeness -/

def Took (c c' : Cursor) (ts : List Token) : Prop :=
  c.ahead = ts.map Token.plain ++ c'.ahead ∧ c'.taken = ts.reverse ++ c.taken

theorem Took.refl (c : Cursor) : Took c c [] := ⟨rfl, rfl⟩

theorem Took.trans {c c' c'' : Cursor} {ts us : List Token} (h : Took c c' ts)
    (h' : Took c' c'' us) : Took c c'' (ts ++ us) := by
  refine ⟨?_, ?_⟩
  · rw [h.1, h'.1, List.map_append, List.append_assoc]
  · rw [h'.2, h.2, List.reverse_append, List.append_assoc]

/-- The tokens ahead have no roles yet. -/
def Fresh (c : Cursor) : Prop := ∀ t ∈ c.ahead, t.identifier = none

theorem Took.fresh {c c' : Cursor} {ts : List Token} (h : Took c c' ts) (hc : Fresh c) :
    Fresh c' := by
  intro t ht
  exact hc t (by rw [h.1]; exact List.mem_append_right _ ht)

/-- Whatever the parser returns is written with the tokens it takes. -/
def Sound {α : Type} (m : Parser α) (written : α → List Token → Prop) : Prop :=
  ∀ c a c', Fresh c → m c = .ok (a, c') → ∃ ts, written a ts ∧ Took c c' ts

/-- The parser reads what is written with the tokens ahead, when `follow` holds of what comes after
them. -/
def Complete {α : Type} (m : Parser α) (written : α → List Token → Prop)
    (follow : List Token → Prop) : Prop :=
  ∀ a ts, written a ts → ∀ taken rest, follow rest →
    m ⟨taken, ts.map Token.plain ++ rest⟩ = .ok (a, ⟨ts.reverse ++ taken, rest⟩)

theorem took_take {c c' : Cursor} {t : Token} (hc : Fresh c) (h : take c = .ok (t, c')) :
    t.identifier = none ∧ Took c c' [t] := by
  obtain ⟨hahead, htaken⟩ := take_eq_ok h
  have hnone : t.identifier = none := hc t (by rw [hahead]; exact List.mem_cons_self)
  refine ⟨hnone, ?_, htaken⟩
  rw [hahead, List.map_singleton, Token.plain_eq_self hnone]
  rfl

theorem took_expect {mark : String} {c c' : Cursor} {r : Range} (hc : Fresh c)
    (h : expect mark c = .ok (r, c')) : ∃ t, t.IsMark mark ∧ r = t.range ∧ Took c c' [t] := by
  obtain ⟨t, hahead, hmark, hr, htaken⟩ := expect_eq_ok h
  have hnone : t.identifier = none := hc t (by rw [hahead]; exact List.mem_cons_self)
  refine ⟨t, ⟨hmark, hnone⟩, hr, ?_, htaken⟩
  rw [hahead, List.map_singleton, Token.plain_eq_self hnone]
  rfl

theorem any_head?_eq_false {p : Token → Bool} {ts : List Token}
    (h : ∀ t ∈ ts.head?, p t = false) : ts.head?.any p = false := by
  cases hhead : ts.head? with
  | none => rfl
  | some t => exact h t (by rw [hhead]; rfl)

/-- What comes next does not continue a name, a term or a head. -/
def Ends (rest : List Token) : Prop :=
  ∀ t ∈ rest.head?, t.is "." = false ∧ t.is "#" = false ∧ t.is ":" = false

/-- What comes next starts with a mark that ends a value. -/
theorem ends_cons {t : Token} {rest : List Token} {mark : String} (h : t.is mark = true)
    (hmark : mark ≠ "." ∧ mark ≠ "#" ∧ mark ≠ ":") : Ends (t :: rest) := by
  intro u hu
  rw [List.head?_cons, Option.mem_some_iff] at hu
  rw [← hu]
  exact ⟨Token.is_eq_false_of_is h hmark.1, Token.is_eq_false_of_is h hmark.2.1,
    Token.is_eq_false_of_is h hmark.2.2⟩

/-- What comes next does not continue a dotted name. -/
def NoDot (rest : List Token) : Prop := ∀ t ∈ rest.head?, t.is "." = false

theorem Ends.noDot {rest : List Token} (h : Ends rest) : NoDot rest := fun t ht => (h t ht).1

theorem noDot_cons {t : Token} {rest : List Token} {mark : String} (h : t.is mark = true)
    (hmark : mark ≠ ".") : NoDot (t :: rest) := by
  intro u hu
  rw [List.head?_cons, Option.mem_some_iff] at hu
  rw [← hu]
  exact Token.is_eq_false_of_is h hmark

/-! ## Lists -/

theorem commaItems_sound {α : Type} {item : Parser α} {written : α → List Token → Prop}
    (h : Sound item written) (close : String) :
    ∀ n, Sound (commaItems close item n) (commaSeparated written)
  | 0 => by
      intro c as c' _ hrun
      obtain ⟨rfl, rfl⟩ := Prod.mk.inj (Except.ok.inj hrun)
      exact ⟨[], rfl, Took.refl c⟩
  | n + 1 => by
      intro c as c' hc hrun
      unfold commaItems at hrun
      rw [bind_of_ok (atMark_apply close _)] at hrun
      split at hrun
      · obtain ⟨rfl, rfl⟩ := Prod.mk.inj (Except.ok.inj hrun)
        exact ⟨[], rfl, Took.refl c⟩
      · obtain ⟨a, c₁, hitem, hrun⟩ := bind_eq_ok.mp hrun
        obtain ⟨ts, hts, htook⟩ := h c a c₁ hc hitem
        rw [bind_of_ok (atMark_apply "," _)] at hrun
        split at hrun
        · next hcomma =>
          obtain ⟨t, c₂, htake, hrun⟩ := bind_eq_ok.mp hrun
          obtain ⟨bs, c₃, hrest, hrun⟩ := bind_eq_ok.mp hrun
          obtain ⟨rfl, rfl⟩ := Prod.mk.inj (Except.ok.inj hrun)
          obtain ⟨hnone, htook'⟩ := took_take (htook.fresh hc) htake
          have hmark : t.is "," = true := by
            rw [(take_eq_ok htake).1] at hcomma
            exact hcomma
          have hfresh := htook'.fresh (htook.fresh hc)
          obtain ⟨us, hus, htook''⟩ := commaItems_sound h close n c₂ bs c₃ hfresh hrest
          refine ⟨ts ++ t :: us, Or.inr ⟨ts, t, us, rfl, hts, ⟨hmark, hnone⟩, hus⟩, ?_⟩
          exact htook.trans (htook'.trans htook'')
        · obtain ⟨rfl, rfl⟩ := Prod.mk.inj (Except.ok.inj hrun)
          exact ⟨ts, Or.inl ⟨hts, rfl⟩, htook⟩

theorem commaList_sound {α : Type} {item : Parser α} {written : α → List Token → Prop}
    (h : Sound item written) (close : String) :
    Sound (commaList close item) (commaSeparated written) := by
  intro c as c' hc hrun
  unfold commaList at hrun
  rw [bind_of_ok (get_apply c)] at hrun
  exact commaItems_sound h close _ c as c' hc hrun

/-- Items start with a token that is not `close`. -/
def Leads {α : Type} (written : α → List Token → Prop) (close : String) : Prop :=
  ∀ a ts, written a ts → ∃ t us, ts = t :: us ∧ t.is close = false

theorem length_le_of_commaSeparated {α : Type} {written : α → List Token → Prop} {close : String}
    (h : Leads written close) :
    ∀ {as : List α} {ts : List Token}, commaSeparated written as ts → as.length ≤ ts.length
  | [], _, _ => Nat.zero_le _
  | a :: as, ts, hts => by
      rcases hts with ⟨ha, rfl⟩ | ⟨us, comma, vs, rfl, _, _, hvs⟩
      · obtain ⟨t, us, rfl, _⟩ := h a ts ha
        simp
      · have := length_le_of_commaSeparated h hvs
        simp only [List.length_cons, List.length_append]
        omega

theorem commaItems_complete {α : Type} {item : Parser α} {written : α → List Token → Prop}
    {close : String} (h : Complete item written Ends) (hleads : Leads written close)
    (hclose : close ≠ "." ∧ close ≠ "#" ∧ close ≠ ":") (hcomma : close ≠ ",") :
    ∀ (n : Nat) (as : List α) (ts : List Token), commaSeparated written as ts → as.length ≤ n →
      ∀ taken rest, (∃ t us, rest = t :: us ∧ t.is close = true) →
        commaItems close item n ⟨taken, ts.map Token.plain ++ rest⟩ =
          .ok (as, ⟨ts.reverse ++ taken, rest⟩)
  | 0, as, ts, hts, hn, taken, rest, _ => by
      obtain rfl : as = [] := List.length_eq_zero_iff.mp (by omega)
      obtain rfl : ts = [] := hts
      rfl
  | n + 1, [], ts, hts, _, taken, rest, hrest => by
      obtain rfl : ts = [] := hts
      obtain ⟨t, us, rfl, ht⟩ := hrest
      unfold commaItems
      rw [bind_of_ok (atMark_apply close _)]
      simp only [List.map_nil, List.nil_append, List.head?_cons, Option.any_some, ht, if_true]
      rfl
  | n + 1, a :: as, ts, hts, hn, taken, rest, hrest => by
      obtain ⟨t, us, hteq, hclosed⟩ : ∃ t us, rest = t :: us ∧ t.is close = true := hrest
      have hstart : ∀ vs ws, written a vs → ∃ u us, vs.map Token.plain ++ ws = u :: us ∧
          u.is close = false := by
        intro vs ws hvs
        obtain ⟨u, us, rfl, hu⟩ := hleads a vs hvs
        exact ⟨u.plain, us.map Token.plain ++ ws, rfl, hu⟩
      unfold commaItems
      rw [bind_of_ok (atMark_apply close _)]
      rcases hts with ⟨ha, rfl⟩ | ⟨us', comma, vs, rfl, ha, hc, hvs⟩
      · have hends : Ends rest := by
          rw [hteq]
          exact ends_cons hclosed hclose
        obtain ⟨u, ws, hu, hnot⟩ := hstart ts rest ha
        have hrun := h a ts ha taken rest hends
        rw [hu] at hrun ⊢
        simp only [List.head?_cons, Option.any_some, hnot, Bool.false_eq_true, if_false]
        rw [bind_of_ok hrun, bind_of_ok (atMark_apply "," _)]
        simp only [hteq, List.head?_cons, Option.any_some,
          Token.is_eq_false_of_is hclosed hcomma, Bool.false_eq_true, if_false]
        rfl
      · have hmap : (us' ++ comma :: vs).map Token.plain ++ rest =
            us'.map Token.plain ++ (comma :: (vs.map Token.plain ++ rest)) := by
          simp [hc.plain_eq]
        have hends : Ends (comma :: (vs.map Token.plain ++ rest)) :=
          ends_cons hc.1 (by decide)
        obtain ⟨u, ws, hu, hnot⟩ := hstart us' (comma :: (vs.map Token.plain ++ rest)) ha
        have hrun := h a us' ha taken _ hends
        rw [hmap]
        rw [hu] at hrun ⊢
        simp only [List.head?_cons, Option.any_some, hnot, Bool.false_eq_true, if_false]
        rw [bind_of_ok hrun, bind_of_ok (atMark_apply "," _)]
        simp only [List.head?_cons, Option.any_some, hc.1, if_true]
        rw [bind_of_ok (take_cons _ comma _)]
        have hlen : as.length ≤ n := by
          rw [List.length_cons] at hn
          omega
        rw [bind_of_ok (commaItems_complete h hleads hclose hcomma n as vs hvs hlen
          (comma :: (us'.reverse ++ taken)) rest ⟨t, us, hteq, hclosed⟩)]
        rw [pure_apply]
        simp

theorem commaList_complete {α : Type} {item : Parser α} {written : α → List Token → Prop}
    {close : String} (h : Complete item written Ends) (hleads : Leads written close)
    (hclose : close ≠ "." ∧ close ≠ "#" ∧ close ≠ ":") (hcomma : close ≠ ",") :
    Complete (commaList close item) (commaSeparated written)
      (fun rest => ∃ t us, rest = t :: us ∧ t.is close = true) := by
  intro as ts hts taken rest hrest
  unfold commaList
  rw [bind_of_ok (get_apply _)]
  refine commaItems_complete h hleads hclose hcomma _ as ts hts ?_ taken rest hrest
  have := length_le_of_commaSeparated hleads hts
  simp only [List.length_append, List.length_map]
  omega

/-! ## Names -/

theorem identifier_sound (role : IdentifierKind) :
    Sound (identifier role) (fun i ts => ∃ t, ts = [t] ∧ i.WrittenAs role t) := by
  intro c i c' hc hrun
  unfold identifier at hrun
  rw [bind_of_ok (ahead_apply _ _)] at hrun
  split at hrun
  · next hkind =>
    obtain ⟨t, c₁, htake, hrun⟩ := bind_eq_ok.mp hrun
    obtain ⟨rfl, rfl⟩ := Prod.mk.inj (Except.ok.inj hrun)
    obtain ⟨u, rest, hahead, rfl, rfl⟩ := takeAs_eq_ok htake
    have hnone : u.identifier = none := hc u (by rw [hahead]; exact List.mem_cons_self)
    rw [hahead] at hkind
    refine ⟨[withRole (some role) u], ⟨_, rfl, ⟨beq_iff_eq.mp hkind, rfl⟩, rfl⟩, ?_, rfl⟩
    rw [hahead, List.map_singleton, ← Token.plain_eq_self hnone]
    rfl
  · exact absurd hrun fail_ne_ok

theorem identifier_complete (role : IdentifierKind) :
    Complete (identifier role) (fun i ts => ∃ t, ts = [t] ∧ i.WrittenAs role t)
      (fun _ => True) := by
  intro i ts hts taken rest _
  obtain ⟨t, rfl, ⟨hkind, hrole⟩, rfl⟩ := hts
  unfold identifier
  rw [bind_of_ok (ahead_apply _ _)]
  simp only [List.map_cons, List.map_nil, List.cons_append, List.nil_append, List.head?_cons,
    Option.any_some, Token.kind_plain, hkind, beq_self_eq_true, if_true]
  rw [bind_of_ok (takeAs_cons _ _ _ _)]
  have hback : withRole (some role) t.plain = t := by
    cases t
    simp_all [withRole, Token.plain]
  rw [hback]
  rfl

theorem moreSegments_sound (role : IdentifierKind) :
    ∀ n, Sound (moreSegments role n) (segmentsWrittenAs role)
  | 0 => by
      intro c is c' _ hrun
      obtain ⟨rfl, rfl⟩ := Prod.mk.inj (Except.ok.inj hrun)
      exact ⟨[], rfl, Took.refl c⟩
  | n + 1 => by
      intro c is c' hc hrun
      unfold moreSegments at hrun
      rw [bind_of_ok (get_apply c)] at hrun
      split at hrun
      · next hnext =>
        obtain ⟨dot, c₁, htake, hrun⟩ := bind_eq_ok.mp hrun
        obtain ⟨i, c₂, hident, hrun⟩ := bind_eq_ok.mp hrun
        obtain ⟨is', c₃, hmore, hrun⟩ := bind_eq_ok.mp hrun
        obtain ⟨rfl, rfl⟩ := Prod.mk.inj (Except.ok.inj hrun)
        obtain ⟨hnone, htook⟩ := took_take hc htake
        have hdot : dot.is "." = true := by
          rw [(take_eq_ok htake).1] at hnext
          exact (Bool.and_eq_true _ _ ▸ hnext).1
        obtain ⟨ts, ⟨t, rfl, ht⟩, htook'⟩ := identifier_sound role c₁ i c₂ (htook.fresh hc) hident
        obtain ⟨us, hus, htook''⟩ := moreSegments_sound role n c₂ is' c₃
          (htook'.fresh (htook.fresh hc)) hmore
        exact ⟨dot :: t :: us, ⟨dot, t, us, rfl, ⟨hdot, hnone⟩, ht, hus⟩,
          htook.trans (htook'.trans htook'')⟩
      · obtain ⟨rfl, rfl⟩ := Prod.mk.inj (Except.ok.inj hrun)
        exact ⟨[], rfl, Took.refl c⟩

theorem length_le_of_segmentsWrittenAs {role : IdentifierKind} :
    ∀ {is : List Identifier} {ts : List Token}, segmentsWrittenAs role is ts →
      is.length ≤ ts.length
  | [], _, _ => Nat.zero_le _
  | i :: is, ts, h => by
      obtain ⟨dot, t, us, rfl, _, _, hus⟩ := h
      have := length_le_of_segmentsWrittenAs hus
      simp only [List.length_cons]
      omega

theorem moreSegments_complete (role : IdentifierKind) :
    ∀ (n : Nat) (is : List Identifier) (ts : List Token), segmentsWrittenAs role is ts →
      is.length ≤ n → ∀ taken rest, NoDot rest →
        moreSegments role n ⟨taken, ts.map Token.plain ++ rest⟩ =
          .ok (is, ⟨ts.reverse ++ taken, rest⟩)
  | 0, is, ts, hts, hn, taken, rest, _ => by
      obtain rfl : is = [] := List.length_eq_zero_iff.mp (by omega)
      obtain rfl : ts = [] := hts
      rfl
  | n + 1, [], ts, hts, _, taken, rest, hrest => by
      obtain rfl : ts = [] := hts
      unfold moreSegments
      rw [bind_of_ok (get_apply _)]
      have hnot : rest.head?.any (·.is ".") = false := any_head?_eq_false hrest
      simp only [List.map_nil, List.nil_append, hnot, Bool.false_and, Bool.false_eq_true, if_false]
      rfl
  | n + 1, i :: is, ts, hts, hn, taken, rest, hrest => by
      obtain ⟨dot, t, us, rfl, hdot, ht, hus⟩ := hts
      unfold moreSegments
      rw [bind_of_ok (get_apply _)]
      simp only [List.map_cons, List.cons_append, List.head?_cons, Option.any_some, Token.is_plain,
        hdot.1, List.drop_succ_cons, List.drop_zero, Token.kind_plain, ht.1.1, beq_self_eq_true,
        Bool.and_self, if_true]
      rw [bind_of_ok (take_cons _ _ _), hdot.plain_eq]
      have hident := identifier_complete role i [t] ⟨t, rfl, ht⟩ (dot :: taken)
        (us.map Token.plain ++ rest) trivial
      simp only [List.map_cons, List.map_nil, List.cons_append, List.nil_append] at hident
      rw [bind_of_ok hident]
      have hlen : is.length ≤ n := by
        rw [List.length_cons] at hn
        omega
      rw [bind_of_ok (moreSegments_complete role n is us hus hlen _ rest hrest), pure_apply]
      simp

theorem path_sound (role : IdentifierKind) : Sound (path role) (Path.WrittenAs role) := by
  intro c p c' hc hrun
  unfold path at hrun
  obtain ⟨i, c₁, hident, hrun⟩ := bind_eq_ok.mp hrun
  rw [bind_of_ok (get_apply _)] at hrun
  obtain ⟨is, c₂, hmore, hrun⟩ := bind_eq_ok.mp hrun
  obtain ⟨rfl, rfl⟩ := Prod.mk.inj (Except.ok.inj hrun)
  obtain ⟨ts, ⟨t, rfl, ht⟩, htook⟩ := identifier_sound role c i c₁ hc hident
  obtain ⟨us, hus, htook'⟩ := moreSegments_sound role _ c₁ is c₂ (htook.fresh hc) hmore
  exact ⟨t :: us, ⟨i, is, t, us, rfl, rfl, ht, hus⟩, htook.trans htook'⟩

theorem path_complete (role : IdentifierKind) :
    Complete (path role) (Path.WrittenAs role) NoDot := by
  intro p ts hts taken rest hrest
  obtain ⟨i, is, t, us, rfl, rfl, ht, hus⟩ := hts
  unfold path
  have hident := identifier_complete role i [t] ⟨t, rfl, ht⟩ taken
    (us.map Token.plain ++ rest) trivial
  simp only [List.map_cons, List.map_nil, List.cons_append, List.nil_append] at hident ⊢
  rw [bind_of_ok hident, bind_of_ok (get_apply _)]
  have hlen : is.length ≤ (us.map Token.plain ++ rest).length := by
    have := length_le_of_segmentsWrittenAs hus
    simp only [List.length_append, List.length_map]
    omega
  rw [bind_of_ok (moreSegments_complete role _ is us hus hlen _ rest hrest), pure_apply]
  simp

theorem qualifier?_sound : Sound qualifier? qualifierWrittenAs := by
  intro c q c' hc hrun
  unfold qualifier? at hrun
  rw [bind_of_ok (atMark_apply _ _)] at hrun
  split at hrun
  · next hhash =>
    obtain ⟨hash, c₁, htake, hrun⟩ := bind_eq_ok.mp hrun
    obtain ⟨i, c₂, hident, hrun⟩ := bind_eq_ok.mp hrun
    obtain ⟨rfl, rfl⟩ := Prod.mk.inj (Except.ok.inj hrun)
    obtain ⟨hnone, htook⟩ := took_take hc htake
    have hmark : hash.is "#" = true := by
      rw [(take_eq_ok htake).1] at hhash
      exact hhash
    obtain ⟨ts, ⟨t, rfl, ht, rfl⟩, htook'⟩ :=
      identifier_sound .other c₁ i c₂ (htook.fresh hc) hident
    exact ⟨[hash, t], ⟨hash, t, rfl, ⟨hmark, hnone⟩, ht, rfl⟩, htook.trans htook'⟩
  · obtain ⟨rfl, rfl⟩ := Prod.mk.inj (Except.ok.inj hrun)
    exact ⟨[], rfl, Took.refl c⟩

theorem qualifier?_complete : Complete qualifier? qualifierWrittenAs
    (fun rest => ∀ t ∈ rest.head?, t.is "#" = false) := by
  intro q ts hts taken rest hrest
  unfold qualifier?
  rw [bind_of_ok (atMark_apply _ _)]
  cases q with
  | none =>
      obtain rfl : ts = [] := hts
      have hnot : rest.head?.any (·.is "#") = false := any_head?_eq_false hrest
      simp only [List.map_nil, List.nil_append, hnot, Bool.false_eq_true, if_false]
      rfl
  | some q =>
      obtain ⟨hash, t, rfl, hhash, ht, rfl⟩ := hts
      simp only [List.map_cons, List.map_nil, List.cons_append, List.nil_append, List.head?_cons,
        Option.any_some, Token.is_plain, hhash.1, if_true]
      rw [bind_of_ok (take_cons _ _ _), hhash.plain_eq]
      have hident := identifier_complete .other ⟨t.text, t.range⟩ [t] ⟨t, rfl, ht, rfl⟩
        (hash :: taken) rest trivial
      simp only [List.map_cons, List.map_nil, List.cons_append, List.nil_append] at hident
      rw [bind_of_ok hident]
      rfl

/-! ## Values -/

theorem primitive_sound : Sound primitive Primitive.WrittenAs := by
  intro c p c' hc hrun
  unfold primitive at hrun
  rw [bind_of_ok (peek?_apply c)] at hrun
  cases hhead : c.ahead.head? with
  | none =>
    rw [hhead] at hrun
    exact absurd hrun fail_ne_ok
  | some t =>
  simp only [hhead] at hrun
  have hlook : ∀ {u : Token} {c₁ : Cursor}, take c = .ok (u, c₁) → u = t := by
    intro u c₁ htake
    rw [(take_eq_ok htake).1] at hhead
    exact Option.some.inj hhead
  split at hrun
  · next hkind =>
    obtain ⟨u, c₁, htake, hrun⟩ := bind_eq_ok.mp hrun
    obtain ⟨rfl, rfl⟩ := Prod.mk.inj (Except.ok.inj hrun)
    obtain ⟨hnone, htook⟩ := took_take hc htake
    rw [← hlook htake] at hkind
    exact ⟨[u], Or.inl ⟨u, rfl, ⟨beq_iff_eq.mp hkind, hnone⟩, rfl⟩, htook⟩
  split at hrun
  · next hkind =>
    obtain ⟨u, c₁, htake, hrun⟩ := bind_eq_ok.mp hrun
    obtain ⟨rfl, rfl⟩ := Prod.mk.inj (Except.ok.inj hrun)
    obtain ⟨hnone, htook⟩ := took_take hc htake
    rw [← hlook htake] at hkind
    exact ⟨[u], Or.inr (Or.inl ⟨u, rfl, ⟨beq_iff_eq.mp hkind, hnone⟩, rfl⟩), htook⟩
  split at hrun
  · next hhash =>
    obtain ⟨hash, c₁, htake, hrun⟩ := bind_eq_ok.mp hrun
    obtain ⟨i, c₂, hident, hrun⟩ := bind_eq_ok.mp hrun
    obtain ⟨rfl, rfl⟩ := Prod.mk.inj (Except.ok.inj hrun)
    obtain ⟨hnone, htook⟩ := took_take hc htake
    rw [← hlook htake] at hhash
    obtain ⟨ts, ⟨m, rfl, hm, rfl⟩, htook'⟩ :=
      identifier_sound .other c₁ i c₂ (htook.fresh hc) hident
    exact ⟨[hash, m], Or.inr (Or.inr (Or.inl ⟨hash, m, rfl, ⟨hhash, hnone⟩, hm, rfl⟩)),
      htook.trans htook'⟩
  split at hrun
  · obtain ⟨name, c₁, hpath, hrun⟩ := bind_eq_ok.mp hrun
    obtain ⟨rfl, rfl⟩ := Prod.mk.inj (Except.ok.inj hrun)
    obtain ⟨ts, hts, htook⟩ := path_sound .other c name c₁ hc hpath
    exact ⟨ts, Or.inr (Or.inr (Or.inr ⟨name, hts, rfl⟩)), htook⟩
  · exact absurd hrun fail_ne_ok

theorem primitive_complete : Complete primitive Primitive.WrittenAs NoDot := by
  intro p ts hts taken rest hrest
  unfold primitive
  rw [bind_of_ok (peek?_apply _)]
  rcases hts with ⟨t, rfl, ht, rfl⟩ | ⟨t, rfl, ht, rfl⟩ | ⟨hash, t, rfl, hhash, ht, rfl⟩ |
    ⟨name, hname, rfl⟩
  · simp only [List.map_cons, List.map_nil, List.cons_append, List.nil_append, List.head?_cons,
      Token.kind_plain, ht.1, beq_self_eq_true, if_true]
    rw [bind_of_ok (take_cons _ _ _), ht.plain_eq]
    rfl
  · simp only [List.map_cons, List.map_nil, List.cons_append, List.nil_append, List.head?_cons,
      Token.kind_plain, ht.1, beq_self_eq_true, if_true]
    rw [if_neg (by decide), bind_of_ok (take_cons _ _ _), ht.plain_eq]
    rfl
  · simp only [List.map_cons, List.map_nil, List.cons_append, List.nil_append, List.head?_cons,
      Token.kind_plain, Token.kind_of_is hhash.1, Token.is_plain, hhash.1, if_true]
    rw [if_neg (by decide), if_neg (by decide), bind_of_ok (take_cons _ _ _), hhash.plain_eq]
    have hident := identifier_complete .other ⟨t.text, t.range⟩ [t] ⟨t, rfl, ht, rfl⟩
      (hash :: taken) rest trivial
    simp only [List.map_cons, List.map_nil, List.cons_append, List.nil_append] at hident
    rw [bind_of_ok hident]
    rfl
  · have hrun := path_complete .other name ts hname taken rest hrest
    obtain ⟨i, is, t, us, rfl, rfl, ht, hus⟩ := hname
    have hmark : t.plain.is "#" = false :=
      Token.is_eq_false_of_kind (by rw [Token.kind_plain, ht.1.1]; decide)
    simp only [List.map_cons, List.cons_append, List.head?_cons, Token.kind_plain, ht.1.1, hmark,
      beq_self_eq_true, if_true, Bool.false_eq_true, if_false] at hrun ⊢
    rw [if_neg (by decide), if_neg (by decide), bind_of_ok hrun]
    rfl

theorem optionalValue_sound {value : Parser Value} (h : Sound value Value.WrittenAs) :
    Sound (optionalValue value) (fun p ts => valueAfterColon p.1 p.2 ts) := by
  intro c p c' hc hrun
  unfold optionalValue at hrun
  rw [bind_of_ok (atMark_apply _ _)] at hrun
  split at hrun
  · next hcolon =>
    obtain ⟨colon, c₁, htake, hrun⟩ := bind_eq_ok.mp hrun
    obtain ⟨v, c₂, hvalue, hrun⟩ := bind_eq_ok.mp hrun
    obtain ⟨rfl, rfl⟩ := Prod.mk.inj (Except.ok.inj hrun)
    obtain ⟨hnone, htook⟩ := took_take hc htake
    have hmark : colon.is ":" = true := by
      rw [(take_eq_ok htake).1] at hcolon
      exact hcolon
    obtain ⟨ts, hts, htook'⟩ := h c₁ v c₂ (htook.fresh hc) hvalue
    refine ⟨colon :: ts, ?_, htook.trans htook'⟩
    show valueAfterColon (some colon.range) (some v) (colon :: ts)
    rw [valueAfterColon]
    exact ⟨colon, ts, rfl, ⟨hmark, hnone⟩, rfl, hts⟩
  · obtain ⟨rfl, rfl⟩ := Prod.mk.inj (Except.ok.inj hrun)
    refine ⟨[], ?_, Took.refl c⟩
    show valueAfterColon none none []
    rw [valueAfterColon]
    exact ⟨rfl, rfl⟩

theorem optionalValue_complete {value : Parser Value} {n : Nat}
    (h : Complete value (fun v ts => v.WrittenAs ts ∧ ts.length ≤ n) Ends) :
    Complete (optionalValue value) (fun p ts => valueAfterColon p.1 p.2 ts ∧ ts.length ≤ n + 1)
      Ends := by
  rintro ⟨colon, v⟩ ts ⟨hts, hlen⟩ taken rest hrest
  unfold optionalValue
  rw [bind_of_ok (atMark_apply _ _)]
  cases v with
  | none =>
      rw [valueAfterColon] at hts
      obtain ⟨rfl, rfl⟩ := hts
      have hnot : rest.head?.any (·.is ":") = false :=
        any_head?_eq_false fun t ht => (hrest t ht).2.2
      simp only [List.map_nil, List.nil_append, hnot, Bool.false_eq_true, if_false]
      rfl
  | some v =>
      rw [valueAfterColon] at hts
      obtain ⟨c, us, rfl, hc, rfl, hv⟩ := hts
      simp only [List.map_cons, List.cons_append, List.head?_cons, Option.any_some, Token.is_plain,
        hc.1, if_true]
      rw [bind_of_ok (take_cons _ _ _), hc.plain_eq]
      have hle : us.length ≤ n := by
        rw [List.length_cons] at hlen
        omega
      rw [bind_of_ok (h v us ⟨hv, hle⟩ (c :: taken) rest hrest), pure_apply]
      simp

theorem is_of_take {mark : String} {c c' : Cursor} {t : Token}
    (h : c.ahead.head?.any (·.is mark) = true) (htake : take c = .ok (t, c')) :
    t.is mark = true := by
  rw [(take_eq_ok htake).1] at h
  exact h

mutual

theorem value_sound : ∀ n, Sound (value n) Value.WrittenAs
  | 0 => fun _ _ _ _ hrun => absurd hrun fail_ne_ok
  | n + 1 => by
      intro c v c' hc hrun
      rw [value, bind_of_ok (atMark_apply _ _)] at hrun
      split at hrun
      · next hopen =>
        obtain ⟨opening, c₁, htake, hrun⟩ := bind_eq_ok.mp hrun
        obtain ⟨entries, c₂, hentries, hrun⟩ := bind_eq_ok.mp hrun
        obtain ⟨closing, c₃, hclose, hrun⟩ := bind_eq_ok.mp hrun
        obtain ⟨rfl, rfl⟩ := Prod.mk.inj (Except.ok.inj hrun)
        obtain ⟨hnone, htook⟩ := took_take hc htake
        obtain ⟨ts, hts, htook'⟩ := commaList_sound (entry_sound n) _ c₁ entries c₂
          (htook.fresh hc) hentries
        obtain ⟨t, ht, rfl, htook''⟩ := took_expect (htook'.fresh (htook.fresh hc)) hclose
        refine ⟨opening :: (ts ++ [t]), ?_, htook.trans (htook'.trans htook'')⟩
        rw [Value.WrittenAs]
        exact ⟨opening, t, ts, rfl, ⟨is_of_take hopen htake, hnone⟩, ht, rfl,
          (entriesWrittenAs_iff entries ts).mpr hts⟩
      rw [bind_of_ok (atMark_apply _ _)] at hrun
      split at hrun
      · next hopen =>
        obtain ⟨opening, c₁, htake, hrun⟩ := bind_eq_ok.mp hrun
        obtain ⟨items, c₂, hitems, hrun⟩ := bind_eq_ok.mp hrun
        obtain ⟨closing, c₃, hclose, hrun⟩ := bind_eq_ok.mp hrun
        obtain ⟨rfl, rfl⟩ := Prod.mk.inj (Except.ok.inj hrun)
        obtain ⟨hnone, htook⟩ := took_take hc htake
        obtain ⟨ts, hts, htook'⟩ := commaList_sound (value_sound n) _ c₁ items c₂
          (htook.fresh hc) hitems
        obtain ⟨t, ht, rfl, htook''⟩ := took_expect (htook'.fresh (htook.fresh hc)) hclose
        refine ⟨opening :: (ts ++ [t]), ?_, htook.trans (htook'.trans htook'')⟩
        rw [Value.WrittenAs]
        exact ⟨opening, t, ts, rfl, ⟨is_of_take hopen htake, hnone⟩, ht, rfl,
          (valuesWrittenAs_iff items ts).mpr hts⟩
      · obtain ⟨p, c₁, hprimitive, hrun⟩ := bind_eq_ok.mp hrun
        obtain ⟨rfl, rfl⟩ := Prod.mk.inj (Except.ok.inj hrun)
        obtain ⟨ts, hts, htook⟩ := primitive_sound c p c₁ hc hprimitive
        refine ⟨ts, ?_, htook⟩
        rw [Value.WrittenAs]
        exact hts

theorem entry_sound : ∀ n, Sound (entry n) Entry.WrittenAs
  | 0 => fun _ _ _ _ hrun => absurd hrun fail_ne_ok
  | n + 1 => by
      intro c e c' hc hrun
      rw [entry, bind_of_ok (atMark_apply _ _)] at hrun
      split at hrun
      · next hmark =>
        obtain ⟨mark, c₁, htake, hrun⟩ := bind_eq_ok.mp hrun
        obtain ⟨r₂, c₂, hopening, hrun⟩ := bind_eq_ok.mp hrun
        obtain ⟨r₃, c₃, hsign, hrun⟩ := bind_eq_ok.mp hrun
        obtain ⟨term, c₄, hterm, hrun⟩ := bind_eq_ok.mp hrun
        obtain ⟨q, c₅, hqualifier, hrun⟩ := bind_eq_ok.mp hrun
        obtain ⟨r₆, c₆, hclosing, hrun⟩ := bind_eq_ok.mp hrun
        obtain ⟨⟨colon, v⟩, c₇, hvalue, hrun⟩ := bind_eq_ok.mp hrun
        obtain ⟨rfl, rfl⟩ := Prod.mk.inj (Except.ok.inj hrun)
        obtain ⟨hnone, htook₁⟩ := took_take hc htake
        have hc₁ := htook₁.fresh hc
        obtain ⟨opening, hopen, rfl, htook₂⟩ := took_expect hc₁ hopening
        have hc₂ := htook₂.fresh hc₁
        obtain ⟨sign, hat, rfl, htook₃⟩ := took_expect hc₂ hsign
        have hc₃ := htook₃.fresh hc₂
        obtain ⟨us, hus, htook₄⟩ := path_sound .term c₃ term c₄ hc₃ hterm
        have hc₄ := htook₄.fresh hc₃
        obtain ⟨qs, hqs, htook₅⟩ := qualifier?_sound c₄ q c₅ hc₄ hqualifier
        have hc₅ := htook₅.fresh hc₄
        obtain ⟨closing, hclose, rfl, htook₆⟩ := took_expect hc₅ hclosing
        have hc₆ := htook₆.fresh hc₅
        obtain ⟨vs, hvs, htook₇⟩ :=
          optionalValue_sound (value_sound n) c₆ (colon, v) c₇ hc₆ hvalue
        refine ⟨mark :: opening :: sign :: (us ++ (qs ++ closing :: vs)), ?_,
          htook₁.trans (htook₂.trans (htook₃.trans (htook₄.trans (htook₅.trans
            (htook₆.trans htook₇)))))⟩
        rw [Entry.WrittenAs]
        exact ⟨mark, opening, sign, us, qs, closing, vs, rfl, ⟨is_of_take hmark htake, hnone⟩,
          hopen, hat, hus, hqs, hclose, hvs, rfl, rfl, rfl⟩
      · obtain ⟨name, c₁, hname, hrun⟩ := bind_eq_ok.mp hrun
        obtain ⟨⟨colon, v⟩, c₂, hvalue, hrun⟩ := bind_eq_ok.mp hrun
        obtain ⟨rfl, rfl⟩ := Prod.mk.inj (Except.ok.inj hrun)
        obtain ⟨us, hus, htook₁⟩ := path_sound .property c name c₁ hc hname
        obtain ⟨vs, hvs, htook₂⟩ :=
          optionalValue_sound (value_sound n) c₁ (colon, v) c₂ (htook₁.fresh hc) hvalue
        refine ⟨us ++ vs, ?_, htook₁.trans htook₂⟩
        rw [Entry.WrittenAs]
        exact ⟨us, vs, rfl, hus, hvs, rfl⟩

end

/-! What the first token of a name, a value or an entry can be. -/

theorem path_leads {role : IdentifierKind} {p : Path} {ts : List Token}
    (h : p.WrittenAs role ts) : ∃ t us, ts = t :: us ∧ t.kind = .identifier := by
  obtain ⟨i, is, t, us, _, rfl, ht, _⟩ := h
  exact ⟨t, us, rfl, ht.1.1⟩

theorem primitive_leads {p : Primitive} {ts : List Token} (h : p.WrittenAs ts) :
    ∃ t us, ts = t :: us ∧ (t.kind ≠ .punctuation ∨ t.is "#" = true) := by
  rcases h with ⟨t, rfl, ht, _⟩ | ⟨t, rfl, ht, _⟩ | ⟨hash, t, rfl, hhash, _, _⟩ | ⟨name, hname, _⟩
  · exact ⟨t, [], rfl, Or.inl (by rw [ht.1]; decide)⟩
  · exact ⟨t, [], rfl, Or.inl (by rw [ht.1]; decide)⟩
  · exact ⟨hash, [t], rfl, Or.inr hhash.1⟩
  · obtain ⟨t, us, rfl, ht⟩ := path_leads hname
    exact ⟨t, us, rfl, Or.inl (by rw [ht]; decide)⟩

theorem value_leads {v : Value} {ts : List Token} (h : v.WrittenAs ts) :
    ∃ t us, ts = t :: us ∧ (t.kind ≠ .punctuation ∨ t.is "#" = true ∨
      t.is Token.openBrace = true ∨ t.is "[" = true) := by
  cases v with
  | record r =>
      obtain ⟨range, entries⟩ := r
      rw [Value.WrittenAs] at h
      obtain ⟨opening, closing, us, rfl, ho, _⟩ := h
      exact ⟨opening, us ++ [closing], rfl, Or.inr (Or.inr (Or.inl ho.1))⟩
  | collection c =>
      obtain ⟨range, items⟩ := c
      rw [Value.WrittenAs] at h
      obtain ⟨opening, closing, us, rfl, ho, _⟩ := h
      exact ⟨opening, us ++ [closing], rfl, Or.inr (Or.inr (Or.inr ho.1))⟩
  | primitive p =>
      rw [Value.WrittenAs] at h
      obtain ⟨t, us, rfl, ht⟩ := primitive_leads h
      exact ⟨t, us, rfl, ht.imp id Or.inl⟩

theorem values_lead : Leads Value.WrittenAs "]" := by
  intro v ts h
  obtain ⟨t, us, rfl, ht⟩ := value_leads h
  refine ⟨t, us, rfl, ?_⟩
  rcases ht with ht | ht | ht | ht
  · exact Token.is_eq_false_of_kind ht
  · exact Token.is_eq_false_of_is ht (by decide)
  · exact Token.is_eq_false_of_is ht (by decide)
  · exact Token.is_eq_false_of_is ht (by decide)

theorem entries_lead : Leads Entry.WrittenAs Token.closeBrace := by
  intro e ts h
  cases e with
  | property p =>
      obtain ⟨range, name, colon, value⟩ := p
      rw [Entry.WrittenAs] at h
      obtain ⟨us, vs, rfl, hus, _⟩ := h
      obtain ⟨t, us', rfl, ht⟩ := path_leads hus
      exact ⟨t, us' ++ vs, rfl, Token.is_eq_false_of_kind (by rw [ht]; decide)⟩
  | embedded a =>
      obtain ⟨range, atSign, term, qualifier, colon, value, embedded⟩ := a
      rw [Entry.WrittenAs] at h
      obtain ⟨mark, opening, sign, us, qs, closing, vs, rfl, hmark, _⟩ := h
      exact ⟨mark, _, rfl, Token.is_eq_false_of_is hmark.1 (by decide)⟩

theorem commaSeparated_mono {α : Type} {written written' : α → List Token → Prop} :
    ∀ {as : List α} {ts : List Token} {n : Nat}, ts.length ≤ n →
      (∀ a us, us.length ≤ n → written a us → written' a us) →
      commaSeparated written as ts → commaSeparated written' as ts
  | [], _, _, _, _, hts => hts
  | a :: as, ts, n, hlen, h, hts => by
      rcases hts with ⟨ha, has⟩ | ⟨us, comma, vs, rfl, ha, hc, hvs⟩
      · exact Or.inl ⟨h a ts hlen ha, has⟩
      · simp only [List.length_append, List.length_cons] at hlen
        refine Or.inr ⟨us, comma, vs, rfl, h a us (by omega) ha, hc, ?_⟩
        exact commaSeparated_mono (by omega) h hvs

/-- What follows the head of an annotation: its value or what ends the annotation. -/
theorem ahead_afterColon {colon : Option Range} {v : Option Value} {vs rest : List Token}
    {mark : String} (h : valueAfterColon colon v vs) (hmark : mark ≠ ":")
    (hrest : ∀ t ∈ rest.head?, t.is mark = false) :
    ∀ t ∈ (vs.map Token.plain ++ rest).head?, t.is mark = false := by
  cases v with
  | none =>
      rw [valueAfterColon] at h
      rw [h.2]
      exact hrest
  | some v =>
      rw [valueAfterColon] at h
      obtain ⟨c, us, rfl, hc, _⟩ := h
      intro t ht
      rw [List.map_cons, List.cons_append, List.head?_cons, Option.mem_some_iff] at ht
      rw [← ht, Token.is_plain]
      exact Token.is_eq_false_of_is hc.1 (Ne.symm hmark)

mutual

/-- Values nested no deeper than the bound are read; `n` tokens nest no deeper than `n`. -/
theorem value_complete : ∀ n,
    Complete (value n) (fun v ts => v.WrittenAs ts ∧ ts.length ≤ n) Ends
  | 0 => by
      rintro v ts ⟨hv, hlen⟩
      obtain ⟨t, us, rfl, _⟩ := value_leads hv
      exact absurd hlen (by simp)
  | n + 1 => by
      rintro v ts ⟨hv, hlen⟩ taken rest hrest
      rw [value, bind_of_ok (atMark_apply _ _)]
      cases v with
      | record r =>
          obtain ⟨range, entries⟩ := r
          rw [Value.WrittenAs] at hv
          obtain ⟨opening, closing, us, rfl, ho, hc, rfl, hus⟩ := hv
          simp only [List.length_cons, List.length_append, List.length_nil] at hlen
          have hitems : commaSeparated (fun e ts => Entry.WrittenAs e ts ∧ ts.length ≤ n)
              entries us := by
            refine commaSeparated_mono (show us.length ≤ n by omega) ?_
              ((entriesWrittenAs_iff entries us).mp hus)
            exact fun e us hle he => ⟨he, hle⟩
          have hrun := commaList_complete (entry_complete n)
            (fun e ts h => entries_lead e ts h.1) (by decide)
            (by decide) entries us hitems (opening :: taken) (closing :: rest)
            ⟨closing, rest, rfl, hc.1⟩
          simp only [List.map_cons, List.map_append, List.map_nil, List.cons_append,
            List.append_assoc, List.nil_append, List.head?_cons, Option.any_some,
            ho.1, if_true, ho.plain_eq, hc.plain_eq]
          rw [bind_of_ok (take_cons _ _ _), bind_of_ok hrun, bind_of_ok (expect_cons hc.1 _ _),
            pure_apply]
          simp
      | collection l =>
          obtain ⟨range, items⟩ := l
          rw [Value.WrittenAs] at hv
          obtain ⟨opening, closing, us, rfl, ho, hc, rfl, hus⟩ := hv
          simp only [List.length_cons, List.length_append, List.length_nil] at hlen
          have hitems : commaSeparated (fun v ts => Value.WrittenAs v ts ∧ ts.length ≤ n)
              items us := by
            refine commaSeparated_mono (show us.length ≤ n by omega) ?_
              ((valuesWrittenAs_iff items us).mp hus)
            exact fun e us hle he => ⟨he, hle⟩
          have hrun := commaList_complete (value_complete n)
            (fun e ts h => values_lead e ts h.1) (by decide)
            (by decide) items us hitems (opening :: taken) (closing :: rest)
            ⟨closing, rest, rfl, hc.1⟩
          have hbrace : opening.is Token.openBrace = false :=
            Token.is_eq_false_of_is ho.1 (by decide)
          simp only [List.map_cons, List.map_append, List.map_nil, List.cons_append,
            List.append_assoc, List.nil_append, List.head?_cons, Option.any_some,
            hbrace, Bool.false_eq_true, if_false, ho.plain_eq, hc.plain_eq]
          rw [bind_of_ok (atMark_apply _ _)]
          simp only [List.head?_cons, Option.any_some, ho.1, if_true]
          rw [bind_of_ok (take_cons _ _ _), bind_of_ok hrun, bind_of_ok (expect_cons hc.1 _ _),
            pure_apply]
          simp
      | primitive p =>
          rw [Value.WrittenAs] at hv
          have hrun := primitive_complete p ts hv taken rest hrest.noDot
          obtain ⟨t, us, rfl, ht⟩ := primitive_leads hv
          have hmark : ∀ mark : String, mark ≠ "#" → t.is mark = false := by
            intro mark hne
            rcases ht with ht | ht
            · exact Token.is_eq_false_of_kind ht
            · exact Token.is_eq_false_of_is ht (Ne.symm hne)
          simp only [List.map_cons, List.cons_append, List.head?_cons, Option.any_some,
            Token.is_plain, hmark Token.openBrace (by decide), Bool.false_eq_true, if_false]
            at hrun ⊢
          rw [bind_of_ok (atMark_apply _ _)]
          simp only [List.head?_cons, Option.any_some, Token.is_plain, hmark "[" (by decide),
            Bool.false_eq_true, if_false]
          rw [bind_of_ok hrun]
          rfl

theorem entry_complete : ∀ n,
    Complete (entry n) (fun e ts => e.WrittenAs ts ∧ ts.length ≤ n) Ends
  | 0 => by
      rintro e ts ⟨he, hlen⟩
      obtain ⟨t, us, rfl, _⟩ := entries_lead e ts he
      exact absurd hlen (by simp)
  | n + 1 => by
      rintro e ts ⟨he, hlen⟩ taken rest hrest
      rw [entry, bind_of_ok (atMark_apply _ _)]
      cases e with
      | property p =>
          obtain ⟨range, name, colon, v⟩ := p
          rw [Entry.WrittenAs] at he
          obtain ⟨us, vs, rfl, hus, hvs, rfl⟩ := he
          have hpath := path_complete .property name us hus taken (vs.map Token.plain ++ rest)
            (ahead_afterColon hvs (by decide) hrest.noDot)
          obtain ⟨t, us', hus', ht⟩ := path_leads hus
          have hle : vs.length ≤ n + 1 := by
            simp only [List.length_append] at hlen
            omega
          have hvalue := optionalValue_complete (value_complete n) (colon, v) vs ⟨hvs, hle⟩
            (us.reverse ++ taken) rest hrest
          have hmark : t.is "!" = false := Token.is_eq_false_of_kind (by rw [ht]; decide)
          rw [List.map_append, List.append_assoc]
          have hahead : ((us.map Token.plain) ++ (vs.map Token.plain ++ rest)).head?.any
              (·.is "!") = false := by
            rw [hus']
            exact hmark
          simp only [hahead, Bool.false_eq_true, if_false]
          rw [bind_of_ok hpath, bind_of_ok hvalue, pure_apply]
          simp
      | embedded a =>
          obtain ⟨range, atSign, term, qualifier, colon, v, embedded⟩ := a
          rw [Entry.WrittenAs] at he
          obtain ⟨mark, opening, sign, us, qs, closing, vs, rfl, hmark, hopen, hsign, hus, hqs,
            hclose, hvs, rfl, rfl, rfl⟩ := he
          have hle : vs.length ≤ n + 1 := by
            simp only [List.length_append, List.length_cons] at hlen
            omega
          have hafter : NoDot (qs.map Token.plain ++ closing :: (vs.map Token.plain ++ rest)) := by
            cases qualifier with
            | none =>
                obtain rfl : qs = [] := hqs
                exact noDot_cons hclose.1 (by decide)
            | some q =>
                obtain ⟨hash, t, rfl, hhash, _⟩ := hqs
                exact noDot_cons hhash.1 (by decide)
          have hpath := path_complete .term term us hus (sign :: opening :: mark :: taken) _ hafter
          have hqualifier := qualifier?_complete qualifier qs hqs
            (us.reverse ++ sign :: opening :: mark :: taken)
            (closing :: (vs.map Token.plain ++ rest)) (by
              intro t ht
              rw [List.head?_cons, Option.mem_some_iff] at ht
              rw [← ht]
              exact Token.is_eq_false_of_is hclose.1 (by decide))
          have hvalue := optionalValue_complete (value_complete n) (colon, v) vs ⟨hvs, hle⟩
            (closing :: (qs.reverse ++ (us.reverse ++ sign :: opening :: mark :: taken))) rest hrest
          simp only [List.map_cons, List.map_append, List.cons_append, List.append_assoc,
            List.head?_cons, Option.any_some, hmark.1, if_true, hmark.plain_eq,
            hopen.plain_eq, hsign.plain_eq, hclose.plain_eq]
          rw [bind_of_ok (take_cons _ _ _), bind_of_ok (expect_cons hopen.1 _ _),
            bind_of_ok (expect_cons hsign.1 _ _), bind_of_ok hpath, bind_of_ok hqualifier,
            bind_of_ok (expect_cons hclose.1 _ _), bind_of_ok hvalue, pure_apply]
          simp

end

theorem anyValue_sound : Sound anyValue Value.WrittenAs := by
  intro c v c' hc hrun
  unfold anyValue at hrun
  rw [bind_of_ok (get_apply c)] at hrun
  exact value_sound _ c v c' hc hrun

theorem anyValue_complete : Complete anyValue Value.WrittenAs Ends := by
  intro v ts hv taken rest hrest
  unfold anyValue
  rw [bind_of_ok (get_apply _)]
  refine value_complete _ v ts ⟨hv, ?_⟩ taken rest hrest
  simp only [List.length_append, List.length_map]
  omega

end Syntax.Parser

end AnnotationEdit

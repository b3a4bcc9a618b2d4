import AnnotationEdit.Proofs.Syntax.Layout

/-!
# The content of a file

What a file says, ranges aside, and what is left of it when some members of its lists are gone
(`File.contentWithout`). Tokens that respell others, with the same kinds, texts and roles in other
places, write names and literals of the same content.
-/

namespace AnnotationEdit

namespace Syntax

/-- Nodes below a node, by the segments that lead to them. -/
abbrev Selection := List String → Bool

namespace Selection

def none : Selection := fun _ => false

/-- The selected nodes below a child. -/
def below (gone : Selection) (path : List String) : Selection := fun rest => gone (path ++ rest)

theorem below_nil (gone : Selection) (path : List String) : gone.below path [] = gone path := by
  rw [below, List.append_nil]

end Selection

/-! ## Content -/

def Identifier.content (i : Identifier) : Identifier := { i with range := default }

def Path.content (p : Path) : Path := ⟨default, p.segments.map Identifier.content⟩

def Primitive.content (p : Primitive) : Primitive := { p with range := default }

/-- A range of which only matters that there is one. -/
def unplaced (r : Option Range) : Option Range := r.map fun _ => default

/-- The members of a list that are not gone; `i` is the number of the first one. -/
def membersWithout {α : Type} (name : String) (content : α → Selection → α) (gone : Selection) :
    Nat → List α → List α
  | _, [] => []
  | i, e :: es =>
    if gone [name, toString i] then membersWithout name content gone (i + 1) es
    else content e (gone.below [name, toString i]) :: membersWithout name content gone (i + 1) es

mutual

def Value.contentWithout : Value → Selection → Value
  | .record ⟨_, entries⟩, gone => .record ⟨default, entriesWithout gone 0 entries⟩
  | .collection ⟨_, items⟩, gone => .collection ⟨default, valuesWithout gone 0 items⟩
  | .primitive p, _ => .primitive p.content

def Entry.contentWithout : Entry → Selection → Entry
  | .property ⟨_, name, colon, value⟩, gone =>
    .property ⟨default, name.content, unplaced colon, valueWithout (gone.below ["value"]) value⟩
  | .embedded a, gone => .embedded (a.contentWithout gone)

def Annotation.contentWithout : Annotation → Selection → Annotation
  | ⟨_, atSign, term, qualifier, colon, value, embedded⟩, gone =>
    ⟨default, unplaced atSign, term.content, qualifier.map (·.content), unplaced colon,
      valueWithout (gone.below ["value"]) value, embedded⟩

def valueWithout (gone : Selection) : Option Value → Option Value
  | none => none
  | some v => some (v.contentWithout gone)

def entriesWithout (gone : Selection) : Nat → List Entry → List Entry
  | _, [] => []
  | i, e :: es =>
    if gone ["properties", toString i] then entriesWithout gone (i + 1) es
    else e.contentWithout (gone.below ["properties", toString i]) :: entriesWithout gone (i + 1) es

def valuesWithout (gone : Selection) : Nat → List Value → List Value
  | _, [] => []
  | i, v :: vs =>
    if gone ["items", toString i] then valuesWithout gone (i + 1) vs
    else v.contentWithout (gone.below ["items", toString i]) :: valuesWithout gone (i + 1) vs

end

theorem entriesWithout_eq (gone : Selection) : ∀ (i : Nat) (es : List Entry),
    entriesWithout gone i es = membersWithout "properties" Entry.contentWithout gone i es
  | _, [] => by rw [entriesWithout, membersWithout]
  | i, e :: es => by rw [entriesWithout, membersWithout, entriesWithout_eq gone (i + 1) es]

theorem valuesWithout_eq (gone : Selection) : ∀ (i : Nat) (vs : List Value),
    valuesWithout gone i vs = membersWithout "items" Value.contentWithout gone i vs
  | _, [] => by rw [valuesWithout, membersWithout]
  | i, v :: vs => by rw [valuesWithout, membersWithout, valuesWithout_eq gone (i + 1) vs]

def GroupItems.contentWithout (i : GroupItems) (gone : Selection) : GroupItems :=
  ⟨default, membersWithout "items" Annotation.contentWithout gone 0 i.items⟩

def Group.contentWithout (g : Group) (gone : Selection) : Group :=
  ⟨default, unplaced g.atSign, g.name.content, default, g.items.contentWithout (gone.below ["items"])⟩

def Assignment.contentWithout : Assignment → Selection → Assignment
  | .single a, gone => .single (a.contentWithout gone)
  | .group g, gone => .group (g.contentWithout gone)

def Target.contentWithout (t : Target) (gone : Selection) : Target :=
  ⟨t.kind, t.name, default, default, unplaced t.compound,
    membersWithout "assignments" Assignment.contentWithout gone 0 t.assignments⟩

def Declaration.content (d : Declaration) : Declaration :=
  ⟨default, d.name.map (·.content), d.nickname.map (·.content), d.source.map (·.content)⟩

/-- What the file says when the selected members of its lists are gone, ranges aside. -/
def File.contentWithout (f : File) (gone : Pointer → Bool) : File :=
  ⟨f.uri, default, f.declarations.map (·.content),
    membersWithout "targets" Target.contentWithout (fun path => gone ⟨path⟩) 0 f.targets⟩

/-- What the file says, ranges aside. -/
def File.content (f : File) : File := f.contentWithout fun _ => false

theorem membersWithout_none {α : Type} (name : String) (content : α → Selection → α) (i : Nat)
    (es : List α) : membersWithout name content .none i es = es.map (content · .none) := by
  induction es generalizing i with
  | nil => rfl
  | cons e es ih =>
      rw [membersWithout, ih, List.map_cons]
      rfl

theorem membersWithout_append {α : Type} (name : String) (content : α → Selection → α)
    (gone : Selection) (es fs : List α) (i : Nat) :
    membersWithout name content gone i (es ++ fs) =
      membersWithout name content gone i es ++
        membersWithout name content gone (i + es.length) fs := by
  induction es generalizing i with
  | nil => rfl
  | cons e es ih =>
      have hnext : i + 1 + es.length = i + (e :: es).length := by
        rw [List.length_cons]
        omega
      rw [List.cons_append, membersWithout, membersWithout, ih, hnext]
      split
      · rfl
      · rw [List.cons_append]

/-- The text of a name is part of its content. -/
theorem Path.text_of_content {p q : Path} (h : p.content = q.content) : p.text = q.text := by
  have hfold : ∀ (is js : List Identifier) (s : String),
      is.map Identifier.content = js.map Identifier.content →
      is.foldl (fun s segment => s ++ "." ++ segment.text) s =
        js.foldl (fun s segment => s ++ "." ++ segment.text) s := by
    intro is
    induction is with
    | nil =>
        intro js s h
        rw [List.map_nil, eq_comm, List.map_eq_nil_iff] at h
        rw [h]
    | cons i is ih =>
        intro js s h
        obtain ⟨j, js', rfl, hj, hjs⟩ := List.map_eq_cons_iff.mp h.symm
        have htext : i.text = j.text := (congrArg Identifier.text hj).symm
        rw [List.foldl_cons, List.foldl_cons, htext]
        exact ih js' _ hjs.symm
  have hsegments : p.segments.map Identifier.content = q.segments.map Identifier.content :=
    congrArg Path.segments h
  rw [text, text]
  cases hp : p.segments with
  | nil =>
      rw [hp, List.map_nil, eq_comm, List.map_eq_nil_iff] at hsegments
      rw [hsegments]
  | cons i is =>
      rw [hp] at hsegments
      obtain ⟨j, js, hq, hj, hjs⟩ := List.map_eq_cons_iff.mp hsegments.symm
      have htext : i.text = j.text := (congrArg Identifier.text hj).symm
      rw [hq]
      show is.foldl _ i.text = js.foldl _ j.text
      rw [htext]
      exact hfold is js j.text hjs.symm

theorem Path.length_of_content {p q : Path} (h : p.content = q.content) :
    p.segments.length = q.segments.length := by
  have hsegments := congrArg (fun r : Path => r.segments.length) h
  simpa only [content, List.length_map] using hsegments

end Syntax

/-! ## Respelling -/

/-- The token without its place. -/
def Token.bare (t : Token) : Token := { t with range := default }

/-- The tokens have the kinds, texts and roles of others. -/
def Respells (ks ts : List Token) : Prop := ks.map Token.bare = ts.map Token.bare

namespace Respells

variable {k t : Token} {ks us vs : List Token}

theorem nil (h : Respells ks []) : ks = [] := List.map_eq_nil_iff.mp h

theorem append (h : Respells ks (us ++ vs)) :
    ∃ as bs, ks = as ++ bs ∧ Respells as us ∧ Respells bs vs := by
  rw [Respells, List.map_append] at h
  obtain ⟨as, bs, rfl, has, hbs⟩ := List.map_eq_append_iff.mp h
  exact ⟨as, bs, rfl, has, hbs⟩

theorem cons (h : Respells ks (t :: us)) :
    ∃ k bs, ks = k :: bs ∧ k.bare = t.bare ∧ Respells bs us := by
  rw [Respells, List.map_cons] at h
  obtain ⟨k, bs, rfl, hk, hbs⟩ := List.map_eq_cons_iff.mp h
  exact ⟨k, bs, rfl, hk, hbs⟩

theorem singleton (h : Respells ks [t]) : ∃ k, ks = [k] ∧ k.bare = t.bare := by
  obtain ⟨k, bs, rfl, hk, hbs⟩ := cons h
  rw [hbs.nil]
  exact ⟨k, rfl, hk⟩

end Respells

namespace Token

variable {k t : Token}

theorem kind_of_bare (h : k.bare = t.bare) : k.kind = t.kind :=
  (congrArg Token.kind h :)

theorem text_of_bare (h : k.bare = t.bare) : k.text = t.text :=
  (congrArg Token.text h :)

theorem identifier_of_bare (h : k.bare = t.bare) : k.identifier = t.identifier :=
  (congrArg Token.identifier h :)

theorem is_of_bare (h : k.bare = t.bare) (mark : String) : k.is mark = t.is mark := by
  rw [is, is, kind_of_bare h, text_of_bare h]

theorem IsMark.respelled {mark : String} (ht : t.IsMark mark) (h : k.bare = t.bare) :
    k.IsMark mark :=
  ⟨(is_of_bare h mark).trans ht.1, (identifier_of_bare h).trans ht.2⟩

theorem IsWord.respelled {word : String} (ht : t.IsWord word) (h : k.bare = t.bare) :
    k.IsWord word := by
  refine ⟨?_, (identifier_of_bare h).trans ht.2⟩
  rw [isKeyword, kind_of_bare h, text_of_bare h]
  exact ht.1

theorem IsLiteral.respelled {kind : TokenKind} (ht : t.IsLiteral kind) (h : k.bare = t.bare) :
    k.IsLiteral kind :=
  ⟨(kind_of_bare h).trans ht.1, (identifier_of_bare h).trans ht.2⟩

theorem IsName.respelled {role : IdentifierKind} (ht : t.IsName role) (h : k.bare = t.bare) :
    k.IsName role :=
  ⟨(kind_of_bare h).trans ht.1, (identifier_of_bare h).trans ht.2⟩

end Token

namespace Syntax

/-! ## Names and literals -/

theorem Identifier.WrittenAs.respelled {role : IdentifierKind} {i : Identifier} {k t : Token}
    (hi : i.WrittenAs role t) (h : k.bare = t.bare) :
    ∃ j : Identifier, j.WrittenAs role k ∧ j.content = i.content := by
  refine ⟨⟨k.text, k.range⟩, ⟨hi.1.respelled h, rfl⟩, ?_⟩
  rw [hi.2, content, content, Token.text_of_bare h]

theorem segments_respelled {role : IdentifierKind} : ∀ {is : List Identifier}
    {ks ts : List Token}, segmentsWrittenAs role is ts → Respells ks ts →
      ∃ js : List Identifier, segmentsWrittenAs role js ks ∧
        js.map Identifier.content = is.map Identifier.content
  | [], ks, ts, hts, h => by
      rw [segmentsWrittenAs] at hts
      rw [hts] at h
      exact ⟨[], h.nil, rfl⟩
  | i :: is, ks, ts, hts, h => by
      obtain ⟨dot, t, us, rfl, hdot, hi, his⟩ := hts
      obtain ⟨k, ks, rfl, hk, h⟩ := h.cons
      obtain ⟨k', ks, rfl, hk', h⟩ := h.cons
      obtain ⟨j, hj, hji⟩ := hi.respelled hk'
      obtain ⟨js, hjs, hjsis⟩ := segments_respelled his h
      refine ⟨j :: js, ⟨k, k', ks, rfl, hdot.respelled hk, hj, hjs⟩, ?_⟩
      rw [List.map_cons, List.map_cons, hji, hjsis]

theorem Path.WrittenAs.respelled {role : IdentifierKind} {p : Path} {ks ts : List Token}
    (hp : p.WrittenAs role ts) (h : Respells ks ts) :
    ∃ q : Path, q.WrittenAs role ks ∧ q.content = p.content := by
  obtain ⟨i, is, t, us, rfl, rfl, hi, his⟩ := hp
  obtain ⟨k, ks, rfl, hk, h⟩ := h.cons
  obtain ⟨j, hj, hji⟩ := hi.respelled hk
  obtain ⟨js, hjs, hjsis⟩ := segments_respelled his h
  refine ⟨⟨_, j :: js⟩, ⟨j, js, k, ks, rfl, rfl, hj, hjs⟩, ?_⟩
  rw [content, content, List.map_cons, List.map_cons, hji, hjsis]

theorem qualifier_respelled {q : Option Identifier} {ks ts : List Token}
    (hq : qualifierWrittenAs q ts) (h : Respells ks ts) :
    ∃ q', qualifierWrittenAs q' ks ∧ q'.map Identifier.content = q.map Identifier.content := by
  cases q with
  | none =>
      rw [qualifierWrittenAs] at hq
      rw [hq] at h
      exact ⟨none, h.nil, rfl⟩
  | some q =>
      obtain ⟨hash, t, rfl, hhash, ht, rfl⟩ := hq
      obtain ⟨k, ks, rfl, hk, h⟩ := h.cons
      obtain ⟨k', rfl, hk'⟩ := h.singleton
      refine ⟨some ⟨"#" ++ k'.text, ⟨k.range.start, k'.range.stop⟩⟩,
        ⟨k, k', rfl, hhash.respelled hk, ht.respelled hk', rfl⟩, ?_⟩
      rw [Option.map_some, Option.map_some, Identifier.content, Identifier.content,
        Token.text_of_bare hk']

theorem Primitive.WrittenAs.respelled {p : Primitive} {ks ts : List Token} (hp : p.WrittenAs ts)
    (h : Respells ks ts) : ∃ q : Primitive, q.WrittenAs ks ∧ q.content = p.content := by
  rcases hp with ⟨t, rfl, ht, rfl⟩ | ⟨t, rfl, ht, rfl⟩ | ⟨hash, t, rfl, hhash, ht, rfl⟩ |
    ⟨name, hname, rfl⟩
  · obtain ⟨k, rfl, hk⟩ := h.singleton
    refine ⟨_, Or.inl ⟨k, rfl, ht.respelled hk, rfl⟩, ?_⟩
    rw [content, content, Token.text_of_bare hk]
  · obtain ⟨k, rfl, hk⟩ := h.singleton
    refine ⟨_, Or.inr (Or.inl ⟨k, rfl, ht.respelled hk, rfl⟩), ?_⟩
    rw [content, content, Token.text_of_bare hk]
  · obtain ⟨k, ks, rfl, hk, h⟩ := h.cons
    obtain ⟨k', rfl, hk'⟩ := h.singleton
    refine ⟨_, Or.inr (Or.inr (Or.inl ⟨k, k', rfl, hhash.respelled hk, ht.respelled hk', rfl⟩)), ?_⟩
    rw [content, content, Token.text_of_bare hk']
  · obtain ⟨q, hq, hqname⟩ := hname.respelled h
    refine ⟨_, Or.inr (Or.inr (Or.inr ⟨q, hq, rfl⟩)), ?_⟩
    rw [content, content, Path.text_of_content hqname]

theorem afterWord_respelled {α : Type} {word : String} {written : α → List Token → Prop}
    {content : α → α} (hwritten : ∀ a us ks, written a us → Respells ks us →
      ∃ b, written b ks ∧ content b = content a) {a : Option α} {ks ts : List Token}
    (ha : afterWord word written a ts) (h : Respells ks ts) :
    ∃ b, afterWord word written b ks ∧ b.map content = a.map content := by
  cases a with
  | none =>
      rw [afterWord] at ha
      rw [ha] at h
      exact ⟨none, h.nil, rfl⟩
  | some a =>
      obtain ⟨t, us, rfl, ht, ha⟩ := ha
      obtain ⟨k, ks, rfl, hk, h⟩ := h.cons
      obtain ⟨b, hb, hba⟩ := hwritten a us ks ha h
      refine ⟨some b, ⟨k, ks, rfl, ht.respelled hk, hb⟩, ?_⟩
      rw [Option.map_some, Option.map_some, hba]

theorem Declaration.WrittenAs.respelled {d : Declaration} {ks ts : List Token}
    (hd : d.WrittenAs ts) (h : Respells ks ts) :
    ∃ e : Declaration, e.WrittenAs ks ∧ e.content = d.content := by
  obtain ⟨first, us, vs, ws, closing, rfl, hfirst, hname, hnickname, hsource, hclosing, _⟩ := hd
  obtain ⟨k, ks, rfl, hk, h⟩ := h.cons
  obtain ⟨us', ks, rfl, hus, h⟩ := h.append
  obtain ⟨vs', ks, rfl, hvs, h⟩ := h.append
  obtain ⟨ws', ks, rfl, hws, h⟩ := h.append
  obtain ⟨k', rfl, hk'⟩ := h.singleton
  obtain ⟨name, hname', hnames⟩ : ∃ name, nameWrittenAs name us' ∧
      name.map Path.content = d.name.map Path.content := by
    cases hd : d.name with
    | none =>
        rw [hd, nameWrittenAs] at hname
        rw [hname] at hus
        exact ⟨none, hus.nil, rfl⟩
    | some p =>
        rw [hd] at hname
        obtain ⟨q, hq, hqp⟩ := Path.WrittenAs.respelled hname hus
        exact ⟨some q, hq, congrArg some hqp⟩
  obtain ⟨nickname, hnickname', hnicknames⟩ := afterWord_respelled
    (fun i us ks hi hks => by
      obtain ⟨t, rfl, ht⟩ := hi
      obtain ⟨k, rfl, hk⟩ := hks.singleton
      obtain ⟨j, hj, hji⟩ := ht.respelled hk
      exact ⟨j, ⟨k, rfl, hj⟩, hji⟩) hnickname hvs
  obtain ⟨source, hsource', hsources⟩ := afterWord_respelled
    (fun p us ks hp hks => Primitive.WrittenAs.respelled hp hks) hsource hws
  refine ⟨⟨_, name, nickname, source⟩, ⟨k, us', vs', ws', k', rfl, hfirst.respelled hk, hname',
    hnickname', hsource', hclosing.respelled hk', rfl⟩, ?_⟩
  rw [content, content]
  simp only [hnames, hnicknames, hsources]

end Syntax

end AnnotationEdit

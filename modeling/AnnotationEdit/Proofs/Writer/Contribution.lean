import AnnotationEdit.Proofs.Writer.Totality

/-!
# What an insertion adds to a draft

An insertion adds the same to every draft that has noted nothing for its node before and has written
no comma in its place (`Draft.Contributes`). Where an insertion writes is known from its list: in
front of a member, behind the last one, between empty brackets (`Scene.writesAt_insertMember`).
-/

namespace AnnotationEdit

open Syntax (Node)

/-! ## Drafts one after the other -/

namespace Draft

variable {c d e : Draft} {p : Pointer}

/-- What a draft has noted, and after it what another one has. -/
def append (d c : Draft) : Draft where
  edits := d.edits ++ c.edits
  deletions := d.deletions ++ c.deletions
  deletedTargets := d.deletedTargets ++ c.deletedTargets
  emptyLists := d.emptyLists ++ c.emptyLists
  promotions := d.promotions ++ c.promotions
  shiftedLines := d.shiftedLines ++ c.shiftedLines
  movedBrackets := c.movedBrackets ++ d.movedBrackets
  separated := c.separated ++ d.separated

def ofEdits (edits : List RankedEdit) : Draft := ⟨edits, [], [], [], [], [], [], []⟩

theorem append_assoc : (d.append c).append e = d.append (c.append e) := by
  simp only [append, List.append_assoc]

theorem empty_append : empty.append c = c := by
  simp only [append, empty, List.nil_append, List.append_nil]

theorem push_eq (d : Draft) (e : TextEdit) (priority : EditPriority) :
    d.push e priority = d.append (ofEdits [(e, priority)]) := by
  simp only [push, append, ofEdits, List.append_nil, List.nil_append]

theorem ofEdits_append (l m : List RankedEdit) :
    (ofEdits l).append (ofEdits m) = ofEdits (l ++ m) := rfl

def spots (d : Draft) : List (Position × EditPriority) :=
  d.edits.map (fun e => (e.1.range.start, e.2)) ++
    (d.emptyLists.map (fun l => (l.2.opening.stop, .normal)) ++
      d.promotions.map fun m => ((m.2.value.map (·.start)).getD m.2.headEnd, .normal))

theorem mem_spots_append {x : Position × EditPriority} :
    x ∈ (d.append c).spots ↔ x ∈ d.spots ∨ x ∈ c.spots := by
  simp only [spots, append, List.map_append, List.mem_append]
  constructor
  · rintro ((h | h) | (h | h) | h | h)
    · exact Or.inl (Or.inl h)
    · exact Or.inr (Or.inl h)
    · exact Or.inl (Or.inr (Or.inl h))
    · exact Or.inr (Or.inr (Or.inl h))
    · exact Or.inl (Or.inr (Or.inr h))
    · exact Or.inr (Or.inr (Or.inr h))
  · rintro ((h | h | h) | h | h | h)
    · exact Or.inl (Or.inl h)
    · exact Or.inr (Or.inl (Or.inl h))
    · exact Or.inr (Or.inr (Or.inl h))
    · exact Or.inl (Or.inr h)
    · exact Or.inr (Or.inl (Or.inr h))
    · exact Or.inr (Or.inr (Or.inr h))

theorem mem_spots_ofEdits {l : List RankedEdit} {x : Position × EditPriority} :
    x ∈ (ofEdits l).spots ↔ ∃ e ∈ l, x = (e.1.range.start, e.2) := by
  simp only [spots, ofEdits, List.map_nil, List.append_nil, List.mem_map, eq_comm]

/-- The draft takes nothing away, and what it has only noted is about the node at the pointer. -/
structure OnlyAt (p : Pointer) (c : Draft) : Prop where
  deletions : c.deletions = []
  edits : ∀ e ∈ c.edits, e.1.isDeletion = false
  emptyLists : ∀ l ∈ c.emptyLists, l.1 = p ∧ l.2.fragments ≠ []
  promotions : ∀ m ∈ c.promotions, m.1 = p
  movedBrackets : ∀ q ∈ c.movedBrackets, q = p
  separated : ∀ x ∈ c.separated, (x, .normal) ∈ c.spots

/-- The draft has noted nothing about the node at the pointer, and no comma of it stands where `c`
writes. -/
structure Apart (p : Pointer) (c d : Draft) : Prop where
  emptyLists : ∀ l ∈ d.emptyLists, l.1 ≠ p
  promotions : ∀ m ∈ d.promotions, m.1 ≠ p
  movedBrackets : p ∉ d.movedBrackets
  separated : ∀ x ∈ d.separated, (x, .normal) ∉ c.spots

/-- The step adds `c` to every draft that is apart from it. -/
structure Contributes (p : Pointer) (c : Draft) (f : Draft → Except Error Draft) : Prop where
  only : c.OnlyAt p
  adds : ∀ d, Apart p c d → f d = .ok (d.append c)

theorem OnlyAt.append (hd : d.OnlyAt p) (hc : c.OnlyAt p) : (d.append c).OnlyAt p where
  deletions := List.append_eq_nil_iff.mpr ⟨hd.deletions, hc.deletions⟩
  edits := List.forall_mem_append.mpr ⟨hd.edits, hc.edits⟩
  emptyLists := List.forall_mem_append.mpr ⟨hd.emptyLists, hc.emptyLists⟩
  promotions := List.forall_mem_append.mpr ⟨hd.promotions, hc.promotions⟩
  movedBrackets := List.forall_mem_append.mpr ⟨hc.movedBrackets, hd.movedBrackets⟩
  separated := by
    refine List.forall_mem_append.mpr ⟨fun x hx => ?_, fun x hx => ?_⟩
    · exact mem_spots_append.mpr (Or.inr (hc.separated x hx))
    · exact mem_spots_append.mpr (Or.inl (hd.separated x hx))

/-- Drafts for different nodes are apart where they write at different places. -/
theorem OnlyAt.apart {q : Pointer} (hd : d.OnlyAt q) (hne : q ≠ p)
    (hspots : ∀ x ∈ d.spots, x ∉ c.spots) : Apart p c d where
  emptyLists := fun l hl => (hd.emptyLists l hl).1 ▸ hne
  promotions := fun m hm => hd.promotions m hm ▸ hne
  movedBrackets := fun hp => hne (hd.movedBrackets p hp).symm
  separated := fun x hx => hspots _ (hd.separated x hx)

theorem apart_empty : Apart p c empty where
  emptyLists := fun _ hl => absurd hl List.not_mem_nil
  promotions := fun _ hm => absurd hm List.not_mem_nil
  movedBrackets := List.not_mem_nil
  separated := fun _ hx => absurd hx List.not_mem_nil

/-- A further step that adds the same to every draft. -/
theorem Contributes.append {f g : Draft → Except Error Draft} (hf : Contributes p c f)
    (he : e.OnlyAt p) (hg : ∀ d d', f d = .ok d' → g d = .ok (d'.append e)) :
    Contributes p (c.append e) g := by
  refine ⟨hf.only.append he, fun d hd => ?_⟩
  have hapart : Apart p c d := ⟨hd.emptyLists, hd.promotions, hd.movedBrackets,
    fun x hx hspot => hd.separated x hx (mem_spots_append.mpr (Or.inl hspot))⟩
  rw [hg d _ (hf.adds d hapart), append_assoc]

theorem onlyAt_ofEdits {l : List RankedEdit} (h : ∀ e ∈ l, e.1.isDeletion = false) :
    (ofEdits l).OnlyAt p where
  deletions := rfl
  edits := h
  emptyLists := fun _ hl => absurd hl List.not_mem_nil
  promotions := fun _ hm => absurd hm List.not_mem_nil
  movedBrackets := fun _ hq => absurd hq List.not_mem_nil
  separated := fun _ hx => absurd hx List.not_mem_nil

end Draft

theorem TextEdit.isDeletion_insert (x : Position) (text : String) :
    (TextEdit.insert x text).isDeletion = false := by
  rw [isDeletion, insert, Range.isEmpty, Range.empty, beq_self_eq_true]
  rfl

theorem TextEdit.isDeletion_of_toList {r : Range} {text : String} (h : text.toList ≠ []) :
    (TextEdit.mk r text).isDeletion = false := by
  have hne : text.isEmpty = false := by
    rw [Bool.eq_false_iff, Ne, String.isEmpty_iff]
    rintro rfl
    exact h rfl
  rw [isDeletion, hne, Bool.and_false]

/-- Under a new key, the value comes last. -/
theorem upsert_of_ne {α : Type} {key : Pointer} {change : α → α} {fresh : α} :
    ∀ {l : List (Pointer × α)}, (∀ e ∈ l, e.1 ≠ key) →
      upsert key change fresh l = l ++ [(key, fresh)]
  | [], _ => rfl
  | (k, a) :: l, h => by
      obtain ⟨hk, hl⟩ := List.forall_mem_cons.mp h
      rw [upsert, if_neg hk, upsert_of_ne hl]
      rfl

/-! ## Behind a token -/

def TokenStream.Trails (s : TokenStream) (i j : Nat) : Prop :=
  j = i ∨ s.commaAfter? i = some j ∨
    ∃ k, (k = i ∨ s.commaAfter? i = some k) ∧ j = k + 1 ∧ (s.trailingComment? k).isSome = true

namespace TokenStream

variable {s : TokenStream} {i j m : Nat}

theorem commaAfter?_eq_some (h : s.commaAfter? i = some j) :
    s.nextCode? i = some j ∧ s.test j (·.is ",") = true :=
  Option.filter_eq_some_iff.mp h

theorem trailingComment?_eq_some {t : Token} (h : s.trailingComment? i = some t) :
    s.get? (i + 1) = some t ∧ t.isCode = false := by
  rw [trailingComment?] at h
  split at h
  · next previous next _ hnext =>
    split at h
    · next htrails =>
      obtain rfl := Option.some.inj h
      refine ⟨hnext, ?_⟩
      rw [Token.trails, Bool.and_eq_true] at htrails
      rw [Token.isCode, htrails.1]
      rfl
    · cases h
  · cases h

theorem exists_get?_of_startingAt? {x : Position} (h : s.startingAt? x = some (i + 1)) :
    ∃ t, s.get? i = some t := by
  rw [startingAt?] at h
  split at h
  · next htest =>
    obtain ⟨u, hu, _⟩ := test_eq_true.mp htest
    rw [Option.some.inj h] at hu
    have hlt := lt_size_of_get? hu
    exact ⟨_, Array.getElem?_eq_getElem (by rw [← size]; omega)⟩
  · cases h

/-- What trails a token comes before the next code that is no comma. -/
theorem Trails.lt (h : s.Trails i j) (him : i < m) (hcode : s.test m Token.isCode = true)
    (hcomma : s.test m (·.is ",") = false) : i ≤ j ∧ j < m := by
  have hnext : ∀ {k}, s.commaAfter? i = some k → i < k ∧ k < m := by
    intro k hk
    obtain ⟨hk, htest⟩ := commaAfter?_eq_some hk
    obtain ⟨hik, _, hbetween⟩ := nextCode?_eq_some_iff.mp hk
    refine ⟨hik, Nat.lt_of_le_of_ne (Nat.le_of_not_lt fun hmk => ?_) ?_⟩
    · rw [hbetween m him hmk] at hcode
      cases hcode
    · rintro rfl
      rw [htest] at hcomma
      cases hcomma
  rcases h with rfl | hj | ⟨k, hk, rfl, hcomment⟩
  · exact ⟨Nat.le_refl j, him⟩
  · obtain ⟨hij, hjm⟩ := hnext hj
    exact ⟨Nat.le_of_lt hij, hjm⟩
  · have hkm : i ≤ k ∧ k < m := by
      rcases hk with rfl | hk
      · exact ⟨Nat.le_refl k, him⟩
      · exact ⟨Nat.le_of_lt (hnext hk).1, (hnext hk).2⟩
    refine ⟨by omega, Nat.lt_of_le_of_ne hkm.2 ?_⟩
    rintro rfl
    obtain ⟨t, ht⟩ := Option.isSome_iff_exists.mp hcomment
    obtain ⟨hget, hno⟩ := trailingComment?_eq_some ht
    obtain ⟨u, hu, hcode⟩ := test_eq_true.mp hcode
    rw [hget, Option.some.injEq] at hu
    rw [hu, hcode] at hno
    cases hno

end TokenStream

/-! ## Where insertions write -/

namespace Scene

open Draft (Contributes OnlyAt Apart ofEdits)

variable {s : Scene} {p : Pointer} {P Q : Position → Prop} {f : Draft → Except Error Draft}

/-- The step adds the same to every draft, and only at places that the predicate holds of. -/
def WritesAt (P : Position → Prop) (p : Pointer) (f : Draft → Except Error Draft) : Prop :=
  ∃ c, Contributes p c f ∧ ∀ x ∈ c.spots, x.2 = .normal ∧ P x.1

theorem WritesAt.congr {g : Draft → Except Error Draft} (h : WritesAt P p f)
    (heq : ∀ d, g d = f d) : WritesAt P p g := by
  rwa [show g = f from funext heq]

theorem WritesAt.imp (h : WritesAt P p f) (himp : ∀ x, P x → Q x) : WritesAt Q p f := by
  obtain ⟨c, hc, hspots⟩ := h
  exact ⟨c, hc, fun x hx => ⟨(hspots x hx).1, himp x.1 (hspots x hx).2⟩⟩

theorem writesAt_edits {l : List RankedEdit} (hl : ∀ e ∈ l, e.1.isDeletion = false)
    (hP : ∀ e ∈ l, e.2 = .normal ∧ P e.1.range.start)
    (hf : ∀ d, f d = .ok (d.append (ofEdits l))) : WritesAt P p f := by
  refine ⟨ofEdits l, ⟨Draft.onlyAt_ofEdits hl, fun d _ => hf d⟩, fun x hx => ?_⟩
  obtain ⟨e, he, rfl⟩ := Draft.mem_spots_ofEdits.mp hx
  exact hP e he

theorem writesAt_insert {x : Position} {text : String} (hP : P x)
    (hf : ∀ d, f d = .ok (d.insert x text)) : WritesAt P p f := by
  refine writesAt_edits (l := [(.insert x text, .normal)]) ?_ ?_ fun d => ?_
  · exact List.forall_mem_singleton.mpr (TextEdit.isDeletion_insert x text)
  · exact List.forall_mem_singleton.mpr ⟨rfl, hP⟩
  · rw [hf, Draft.insert, Draft.push_eq]

/-- A comma behind the last member, and the rest behind the comment that follows it. -/
theorem writesAt_separated {x y : Position} (line : String) (hx : P x) (hy : P y) :
    WritesAt P p fun d => .ok
      (if d.separated.contains x then d.insert y ("," ++ line)
      else ({ d with separated := x :: d.separated }.insert x ",").insert y line) := by
  refine ⟨⟨[(.insert x ",", .normal), (.insert y line, .normal)], [], [], [], [], [], [], [x]⟩,
    ⟨⟨rfl, ?_, ?_, ?_, ?_, ?_⟩, fun d hd => ?_⟩, ?_⟩
  · exact List.forall_mem_cons.mpr ⟨TextEdit.isDeletion_insert x ",",
      List.forall_mem_singleton.mpr (TextEdit.isDeletion_insert y line)⟩
  · exact fun _ h => absurd h List.not_mem_nil
  · exact fun _ h => absurd h List.not_mem_nil
  · exact fun _ h => absurd h List.not_mem_nil
  · exact List.forall_mem_singleton.mpr List.mem_cons_self
  · have hnot : d.separated.contains x = false := by
      rw [Bool.eq_false_iff, Ne, List.contains_iff_mem]
      exact fun hmem => hd.separated x hmem List.mem_cons_self
    simp only [hnot, Bool.false_eq_true, if_false, Draft.insert, Draft.push, Draft.append,
      List.append_nil, List.nil_append, List.append_assoc, List.cons_append]
  · intro z hz
    rcases List.mem_cons.mp hz with rfl | hz
    · exact ⟨rfl, hx⟩
    · rw [List.mem_singleton.mp hz]
      exact ⟨rfl, hy⟩

theorem writesAt_addToEmptyList {list : BracketedList} (text : String)
    (hP : P list.opening.stop) :
    WritesAt P list.pointer fun d => .ok (addToEmptyList d list text) := by
  refine ⟨⟨[], [], [], [(list.pointer, ⟨list.opening, list.closing, list.level, [text]⟩)], [], [],
    [], []⟩, ⟨⟨rfl, ?_, ?_, ?_, ?_, ?_⟩, fun d hd => ?_⟩, ?_⟩
  · exact fun _ h => absurd h List.not_mem_nil
  · exact List.forall_mem_singleton.mpr ⟨rfl, List.cons_ne_nil _ _⟩
  · exact fun _ h => absurd h List.not_mem_nil
  · exact fun _ h => absurd h List.not_mem_nil
  · exact fun _ h => absurd h List.not_mem_nil
  · simp only [addToEmptyList, upsert_of_ne hd.emptyLists, Draft.append, List.append_nil,
      List.nil_append]
  · exact List.forall_mem_singleton.mpr ⟨rfl, hP⟩

/-- An entry beside the value of an annotation. -/
theorem writesAt_promote {a : Syntax.Annotation} (e : Tree.Element)
    (hP : P ((a.value.map (·.range.start)).getD a.headEnd)) :
    WritesAt P p fun d => .ok (s.promote d p a e) := by
  let level := s.level a.range.start.line
  refine ⟨⟨[], [], [], [], [(p, ⟨a.headEnd, a.value.map (·.range), level,
    [s.printer.annotation .embedded e (level + 1)]⟩)], [], [], []⟩, ⟨⟨rfl, ?_, ?_, ?_, ?_, ?_⟩,
    fun d hd => ?_⟩, ?_⟩
  · exact fun _ h => absurd h List.not_mem_nil
  · exact fun _ h => absurd h List.not_mem_nil
  · exact List.forall_mem_singleton.mpr rfl
  · exact fun _ h => absurd h List.not_mem_nil
  · exact fun _ h => absurd h List.not_mem_nil
  · simp only [promote, upsert_of_ne hd.promotions, Draft.append, List.append_nil, List.nil_append]
    rfl
  · refine List.forall_mem_singleton.mpr ⟨rfl, ?_⟩
    show P (((a.value.map (·.range)).map (·.start)).getD a.headEnd)
    rwa [Option.map_map]

/-- Edits that are made once, for the bracket of a list. -/
theorem writesAt_marked {l : List RankedEdit} {g : Draft → Draft}
    (hl : ∀ e ∈ l, e.1.isDeletion = false) (hP : ∀ e ∈ l, e.2 = .normal ∧ P e.1.range.start)
    (hg : ∀ d, d.movedBrackets.contains p = false →
      g d = d.append ⟨l, [], [], [], [], [], [p], []⟩) : WritesAt P p fun d => .ok (g d) := by
  refine ⟨⟨l, [], [], [], [], [], [p], []⟩, ⟨⟨rfl, hl, ?_, ?_, ?_, ?_⟩, fun d hd => ?_⟩,
    fun z hz => ?_⟩
  · exact fun _ h => absurd h List.not_mem_nil
  · exact fun _ h => absurd h List.not_mem_nil
  · exact List.forall_mem_singleton.mpr rfl
  · exact fun _ h => absurd h List.not_mem_nil
  · rw [hg d]
    rw [Bool.eq_false_iff, Ne, List.contains_iff_mem]
    exact hd.movedBrackets
  · simp only [Draft.spots, List.map_nil, List.append_nil] at hz
    obtain ⟨e, he, rfl⟩ := List.mem_map.mp hz
    exact hP e he

/-- A text and perhaps, after it, a bracket on a line of its own. -/
theorem writesAt_moveBracket {list : BracketedList} {x : Position} {text : String} (hP : P x)
    (hbracket : ∀ i t, s.tokens.startingAt? list.closing.start = some (i + 1) →
      s.tokens.get? i = some t → P t.range.stop) :
    WritesAt P list.pointer fun d => .ok (s.moveBracket (d.insert x text) list) := by
  have htext := TextEdit.isDeletion_insert x text
  by_cases hmoves : ∃ i, s.tokens.startingAt? list.closing.start = some (i + 1) ∧
      s.tokens.isFirstOnLine (i + 1) = false
  · obtain ⟨i, hclosing, hline⟩ := hmoves
    obtain ⟨t, ht⟩ := TokenStream.exists_get?_of_startingAt? hclosing
    refine writesAt_marked (l := [(.insert x text, .normal),
      (⟨⟨t.range.stop, list.closing.start⟩, "\n" ++ s.indent list.level⟩, .normal)]) ?_ ?_
      fun d hd => ?_
    · refine List.forall_mem_cons.mpr ⟨htext, List.forall_mem_singleton.mpr ?_⟩
      exact TextEdit.isDeletion_of_toList (by simp)
    · exact List.forall_mem_cons.mpr ⟨⟨rfl, hP⟩,
        List.forall_mem_singleton.mpr ⟨rfl, hbracket i t hclosing ht⟩⟩
    · have hrange : s.tokens.rangeAt (i + 1 - 1) = t.range := TokenStream.rangeAt_of_get? ht
      simp only [moveBracket, Draft.insert, Draft.push, hd, hclosing, hline, hrange, Draft.replace,
        Draft.append, List.append_nil, List.nil_append, List.append_assoc, List.cons_append,
        Nat.zero_lt_succ, decide_true, Bool.not_false, Bool.and_self, if_true, Bool.false_eq_true,
        if_false]
  · refine writesAt_marked (l := [(.insert x text, .normal)])
      (List.forall_mem_singleton.mpr htext) (List.forall_mem_singleton.mpr ⟨rfl, hP⟩)
      fun d hd => ?_
    cases hclosing : s.tokens.startingAt? list.closing.start with
    | none =>
        simp only [moveBracket, Draft.insert, Draft.push, hd, hclosing, Draft.append,
          List.append_nil, List.nil_append, List.cons_append, Bool.false_eq_true, if_false]
    | some i =>
        have hstays : (0 < i && !s.tokens.isFirstOnLine i) = false := by
          cases i with
          | zero => rfl
          | succ i =>
              cases hline : s.tokens.isFirstOnLine (i + 1) with
              | false => exact absurd ⟨i, hclosing, hline⟩ hmoves
              | true => exact Bool.and_false _
        simp only [moveBracket, Draft.insert, Draft.push, hd, hclosing, hstays, Draft.append,
          List.append_nil, List.nil_append, List.cons_append, Bool.false_eq_true, if_false]

/-- A member on a line of its own goes behind the comment that follows. -/
theorem writesAt_appendLine {last : Range} {final : Nat} (fragment : Nat → String)
    (hlast : P last.stop)
    (hcomma : ∀ k, s.tokens.commaAfter? final = some k → P (s.tokens.rangeAt k).stop)
    (hcomment : ∀ k c, (k = final ∨ s.tokens.commaAfter? final = some k) →
      s.tokens.trailingComment? k = some c → P c.range.stop) :
    WritesAt P p fun d =>
      .ok (s.appendLine d last final (s.tokens.commaAfter? final) fragment) := by
  cases hk : s.tokens.commaAfter? final with
  | some k =>
      cases hc : s.tokens.trailingComment? k with
      | some c =>
          apply writesAt_insert (hcomment k c (Or.inr hk) hc)
          intro d
          simp only [appendLine, Option.getD_some, hc]
          rfl
      | none =>
          apply writesAt_insert (hcomma k hk)
          intro d
          simp only [appendLine, Option.getD_some, hc]
          rfl
  | none =>
      cases hc : s.tokens.trailingComment? final with
      | some c =>
          let level := s.level last.start.line
          refine (writesAt_separated ("\n" ++ s.indent level ++ fragment level) hlast
            (hcomment final c (Or.inl rfl) hc)).congr fun d => ?_
          simp only [appendLine, Option.getD_none, hc]
          rfl
      | none =>
          apply writesAt_insert hlast
          intro d
          simp only [appendLine, Option.getD_none, hc]
          rfl

/-- A member on the line of the last one; the bracket moves when the member has several lines. -/
theorem writesAt_appendInline {list : BracketedList} {last : Range} {comma : Option Nat}
    (fragment : Nat → String) (hlast : P last.stop)
    (hcomma : ∀ k, comma = some k → P (s.tokens.rangeAt k).stop)
    (hbracket : ∀ i t, s.tokens.startingAt? list.closing.start = some (i + 1) →
      s.tokens.get? i = some t → P t.range.stop) :
    WritesAt P list.pointer fun d => .ok (s.appendInline d list last comma fragment) := by
  have hwrites : ∀ {x : Position} {text : String}, P x →
      WritesAt P list.pointer fun d =>
        .ok (if (fragment list.level).toList.contains '\n' then s.moveBracket (d.insert x text) list
          else d.insert x text) := by
    intro x text hx
    by_cases hbreak : (fragment list.level).toList.contains '\n' = true
    · simp only [if_pos hbreak]
      exact writesAt_moveBracket hx hbracket
    · simp only [if_neg hbreak]
      exact writesAt_insert hx fun _ => rfl
  cases comma with
  | some k => exact hwrites (hcomma k rfl)
  | none => exact hwrites hlast

/-- Where a member of a list is written: between empty brackets, in front of the member whose place
it takes, or behind the last one, with a bracket that moves behind what precedes it. -/
theorem writesAt_insertMember {list : BracketedList} {index : Option Nat} {fragment : Nat → String}
    (hends : ∀ last, list.members.getLast? = some last →
      ∃ i t, s.tokens.endingAt? last.stop = some i ∧ s.tokens.get? i = some t ∧
        t.range.stop = last.stop)
    (hempty : list.members = [] → P list.opening.stop)
    (hbefore : ∀ k r, index = some k → list.members[k]? = some r → P r.start)
    (hbehind : ∀ last i j t, list.members.getLast? = some last →
      index.bind (list.members[·]?) = none → s.tokens.endingAt? last.stop = some i →
      s.tokens.Trails i j → s.tokens.get? j = some t → P t.range.stop)
    (hbracket : ∀ i t, list.members ≠ [] → index.bind (list.members[·]?) = none →
      s.tokens.startingAt? list.closing.start = some (i + 1) → s.tokens.get? i = some t →
      P t.range.stop) :
    WritesAt P list.pointer fun d => s.insertMember d list index fragment := by
  cases hlast : list.members.getLast? with
  | none =>
      refine (writesAt_addToEmptyList (fragment (list.level + 1))
        (hempty (List.getLast?_eq_none_iff.mp hlast))).congr fun d => ?_
      rw [insertMember, hlast]
  | some last =>
      cases hplace : index.bind (list.members[·]?) with
      | some neighbour =>
          obtain ⟨k, hk, hneighbour⟩ := Option.bind_eq_some_iff.mp hplace
          have hP := hbefore k neighbour hk hneighbour
          by_cases hline : s.tokens.startsLine neighbour.start = true
          · apply writesAt_insert hP
            intro d
            simp only [insertMember, hlast, hplace, insertBefore, if_pos hline]
            rfl
          · apply writesAt_insert hP
            intro d
            simp only [insertMember, hlast, hplace, insertBefore, if_neg hline]
            rfl
      | none =>
          obtain ⟨final, t, hfinal, ht, hstop⟩ := hends last hlast
          have hP := fun j u => hbehind last final j u hlast hplace hfinal
          have hPlast : P last.stop := hstop ▸ hP final t (Or.inl rfl) ht
          have hPcomma : ∀ k, s.tokens.commaAfter? final = some k →
              P (s.tokens.rangeAt k).stop := by
            intro k hk
            obtain ⟨u, hu, _⟩ :=
              TokenStream.test_eq_true.mp (TokenStream.commaAfter?_eq_some hk).2
            rw [TokenStream.rangeAt_of_get? hu]
            exact hP k u (Or.inr (Or.inl hk)) hu
          by_cases hline : s.tokens.startsLine last.start = true
          · refine (writesAt_appendLine fragment hPlast hPcomma fun k c hk hc => ?_).congr
              fun d => ?_
            · refine hP (k + 1) c (Or.inr (Or.inr ⟨k, hk, rfl, ?_⟩))
                (TokenStream.trailingComment?_eq_some hc).1
              rw [hc]
              rfl
            · simp only [insertMember, hlast, hplace, append, hfinal, if_pos hline]
          · have hne : list.members ≠ [] := by
              intro hnil
              rw [hnil] at hlast
              cases hlast
            refine (writesAt_appendInline fragment hPlast hPcomma
              fun i t => hbracket i t hne hplace).congr fun d => ?_
            simp only [insertMember, hlast, hplace, append, hfinal, if_neg hline]

end Scene

end AnnotationEdit

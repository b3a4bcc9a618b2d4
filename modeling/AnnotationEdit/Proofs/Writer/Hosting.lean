import AnnotationEdit.Proofs.Syntax.Parts
import AnnotationEdit.Proofs.Syntax.Plots
import AnnotationEdit.Proofs.Writer.Contribution

/-!
# Where insertions write in a node

A new member of a list is written between two members, in front of the first or behind the last one,
and behind a member only where the index says so (`Between`, `writesAt_enclosed`). A value, a
qualifier or an embedded annotation is written behind the name that it is for. So an insertion is
written in its node and between the parts of it, and at its end only for a name without a value
(`Syntax.Node.Hosts`). Such an end is where insertions for a list and for a member can meet
(`Syntax.Node.exists_member_of_clear`).
-/

namespace AnnotationEdit

open Syntax (Node)

/-- A new member with the index goes right behind the member with the number `i`: in the place of
the next one, or behind all of them, with no other in front of the end of the list. -/
def PutsBehind (rs : List Range) (stop : Position) (index : Option Nat) (i : Nat) : Prop :=
  index = some (i + 1) ∨ index.bind (rs[·]?) = none ∧
    ∀ next, rs[i + 1]? = some next → stop ≤ next.start

/-- The place is between the members of the list, and behind a member only where the index says. -/
def Between (rs : List Range) (stop : Position) (index : Option Nat) (x : Position) : Prop :=
  ∀ i r, rs[i]? = some r →
    x ≤ r.start ∨ r.stop ≤ x ∧ (x = r.stop → PutsBehind rs stop index i)

/-! ## Members one after the other -/

section Members

variable {rs : List Range} {stop : Position} {index : Option Nat} {x : Position}

theorem before_of_lt (happart : rs.Pairwise Range.Before) {i j : Nat} {r r' : Range}
    (hr : rs[i]? = some r) (hr' : rs[j]? = some r') (hij : i < j) : r.Before r' :=
  rel_of_getElem? happart hr hr' hij

theorem between_before (hproper : ∀ r ∈ rs, r.Proper) (happart : rs.Pairwise Range.Before)
    {k : Nat} {neighbour : Range} (hk : rs[k]? = some neighbour) (hindex : index = some k)
    (hx : x ≤ neighbour.start)
    (hbehind : ∀ i r, i < k → rs[i]? = some r → r.stop ≤ x) : Between rs stop index x := by
  intro i r hr
  rcases Nat.lt_trichotomy i k with hik | rfl | hki
  · have hle := hbehind i r hik hr
    refine Or.inr ⟨hle, fun hstop => Or.inl ?_⟩
    rcases Nat.lt_or_eq_of_le hik with hlt | heq
    · -- another member would stand between the two
      have hnext : i + 1 < rs.length := Nat.lt_trans hlt (List.getElem?_eq_some_iff.mp hk).1
      have hget := List.getElem?_eq_getElem hnext
      have hbefore : r.stop ≤ rs[i + 1].start := before_of_lt happart hr hget (Nat.lt_succ_self i)
      have hstep : rs[i + 1].stop ≤ x := hbehind (i + 1) _ hlt hget
      have hlt' := lt_of_lt_of_le (hproper _ (List.getElem_mem hnext)) hstep
      exact absurd (hstop ▸ hlt') (not_lt_of_ge hbefore)
    · rw [hindex, ← heq]
  · rw [hr] at hk
    exact Or.inl (Option.some.inj hk ▸ hx)
  · left
    have hproper' := hproper neighbour (List.mem_of_getElem? hk)
    exact le_trans hx (le_trans (le_of_lt hproper') (before_of_lt happart hk hr hki))

theorem between_behind (hproper : ∀ r ∈ rs, r.Proper) (happart : rs.Pairwise Range.Before)
    {last : Range} (hlast : rs.getLast? = some last) (hindex : index.bind (rs[·]?) = none)
    (hx : last.stop ≤ x) : Between rs stop index x := by
  intro i r hr
  have hle : r.stop ≤ last.stop :=
    @Syntax.stop_le_last _ id rs last hproper happart hlast r (List.mem_of_getElem? hr)
  refine Or.inr ⟨le_trans hle hx, fun hstop => Or.inr ⟨hindex, fun next hnext => ?_⟩⟩
  have hbefore : r.stop ≤ next.start := before_of_lt happart hr hnext (Nat.lt_succ_self i)
  have hnextLe : next.stop ≤ last.stop :=
    @Syntax.stop_le_last _ id rs last hproper happart hlast next (List.mem_of_getElem? hnext)
  have hlt := lt_of_lt_of_le (hproper next (List.mem_of_getElem? hnext)) (le_trans hnextLe hx)
  exact absurd (hstop ▸ hlt) (not_lt_of_ge hbefore)

end Members

/-! ## Lists between brackets -/

theorem TokenStream.Sorted.stop_of_trails {s : TokenStream} (hs : s.Sorted) {i j m : Nat}
    {u t mark : Token} (hu : s.get? i = some u) (hm : s.get? m = some mark)
    (hbefore : u.range.stop ≤ mark.range.start) (hcode : mark.isCode = true)
    (hcomma : mark.is "," = false) (hj : s.Trails i j) (ht : s.get? j = some t) :
    u.range.stop ≤ t.range.stop ∧ t.range.stop ≤ mark.range.start := by
  have him : i < m := (hs.stop_lt_iff hu hm).mp (lt_of_le_of_lt hbefore (hs.proper hm))
  have hnoComma : s.test m (·.is ",") = false := by
    rw [TokenStream.test, hm]
    exact hcomma
  obtain ⟨hij, hjm⟩ := hj.lt him (TokenStream.test_eq_true.mpr ⟨mark, hm, hcode⟩) hnoComma
  exact ⟨hs.stop_le hu ht hij, hs.before ht hm hjm⟩

/-- The members of a list among the tokens of a stream: behind a place, on either side of the
closing bracket, and in front of a mark that is no comma. -/
structure Enclosed (s : TokenStream) (rs : List Range) (start : Position)
    (opening closing mark : Token) : Prop where
  sorted : s.Sorted
  within : ∀ r ∈ rs, Within (s.tokens.toList.filter Token.isCode) r
  apart : rs.Pairwise Range.Before
  tokens : ∀ t ∈ [opening, closing, mark], t ∈ s.tokens.toList.filter Token.isCode
  start_lt : ∀ r ∈ rs, start < r.start
  opening_ge : start ≤ opening.range.start
  brackets : opening.range.Before closing.range
  splits : ∀ r ∈ rs, r.Before closing.range ∨ closing.range.Before r
  closing_le : closing.range.start ≤ mark.range.start
  ends : ∀ r ∈ rs, r.Before mark.range
  noComma : mark.is "," = false

namespace Enclosed

variable {s : TokenStream} {rs : List Range} {start : Position} {opening closing mark : Token}
  {index : Option Nat}

theorem exists_get? (h : Enclosed s rs start opening closing mark) {t : Token}
    (ht : t ∈ [opening, closing, mark]) : ∃ i, s.get? i = some t ∧ t.isCode = true := by
  obtain ⟨hmem, hcode⟩ := List.mem_filter.mp (h.tokens t ht)
  obtain ⟨i, hi⟩ := TokenStream.exists_get? hmem
  exact ⟨i, hi, hcode⟩

theorem proper (h : Enclosed s rs start opening closing mark) : ∀ r ∈ rs, r.Proper := by
  intro r hr
  obtain ⟨ts, hts, hspans⟩ := h.within r hr
  exact hspans.proper (h.sorted.sublist (hts.trans List.filter_sublist))

def Place (rs : List Range) (start : Position) (closing mark : Token) (index : Option Nat)
    (x : Position) : Prop :=
  start < x ∧ x ≤ mark.range.start ∧ Between rs closing.range.stop index x

theorem place_empty (h : Enclosed s [] start opening closing mark) :
    Place [] start closing mark index opening.range.stop := by
  obtain ⟨i, hi, _⟩ := h.exists_get? List.mem_cons_self
  refine ⟨lt_of_le_of_lt h.opening_ge (h.sorted.proper hi), le_trans h.brackets h.closing_le,
    fun i r hr => ?_⟩
  cases hr

theorem place_before (h : Enclosed s rs start opening closing mark) {k : Nat} {neighbour : Range}
    (hindex : index = some k) (hk : rs[k]? = some neighbour) :
    Place rs start closing mark index neighbour.start := by
  have hmem := List.mem_of_getElem? hk
  refine ⟨h.start_lt _ hmem, ?_, ?_⟩
  · exact le_trans (le_of_lt (h.proper _ hmem)) (h.ends _ hmem)
  · exact between_before h.proper h.apart hk hindex (le_refl _)
      fun i r hik hr => before_of_lt h.apart hr hk hik

theorem place_behind (h : Enclosed s rs start opening closing mark) {last : Range} {i j : Nat}
    {t : Token} (hlast : rs.getLast? = some last) (hindex : index.bind (rs[·]?) = none)
    (hi : s.endingAt? last.stop = some i) (hj : s.Trails i j) (ht : s.get? j = some t) :
    Place rs start closing mark index t.range.stop := by
  have hmem := List.mem_of_getLast? hlast
  obtain ⟨_, i', _, u, _, hu, _, _, _, hrange⟩ := h.sorted.exists_bounds (h.within last hmem)
  have hstop : last.stop = u.range.stop := by rw [hrange]
  rw [hstop, TokenStream.endingAt?_eq_some h.sorted hu] at hi
  obtain rfl := Option.some.inj hi
  obtain ⟨m, hm, hcode⟩ := h.exists_get? (t := mark) (by simp)
  have hbefore : u.range.stop ≤ mark.range.start := hstop ▸ h.ends last hmem
  obtain ⟨hle, hmark⟩ := h.sorted.stop_of_trails hu hm hbefore hcode h.noComma hj ht
  rw [← hstop] at hle
  refine ⟨?_, hmark, between_behind h.proper h.apart hlast hindex hle⟩
  exact lt_of_lt_of_le (h.start_lt _ hmem) (le_trans (le_of_lt (h.proper _ hmem)) hle)

theorem place_bracket (h : Enclosed s rs start opening closing mark) {i : Nat} {t : Token}
    (hindex : index.bind (rs[·]?) = none) (hi : s.startingAt? closing.range.start = some (i + 1))
    (ht : s.get? i = some t) : Place rs start closing mark index t.range.stop := by
  obtain ⟨c, hc, _⟩ := h.exists_get? (t := closing) (by simp)
  rw [TokenStream.startingAt?_eq_some h.sorted hc] at hi
  obtain rfl := Option.some.inj hi
  have hbefore : t.range.stop ≤ closing.range.start := h.sorted.before ht hc (Nat.lt_succ_self i)
  have hle : ∀ {j : Nat} {u : Token}, s.get? j = some u → u.range.stop ≤ closing.range.start →
      u.range.stop ≤ t.range.stop := by
    intro j u hu hbefore
    have hlt := (h.sorted.stop_lt_iff hu hc).mp (lt_of_le_of_lt hbefore (h.sorted.proper hc))
    exact h.sorted.stop_le hu ht (Nat.le_of_lt_succ hlt)
  have hstop : ∀ r ∈ rs, r.Before closing.range → r.stop ≤ t.range.stop := by
    intro r hr hbefore
    obtain ⟨_, j, _, u, _, hu, _, _, _, rfl⟩ := h.sorted.exists_bounds (h.within r hr)
    exact hle hu hbefore
  refine ⟨?_, le_trans hbefore h.closing_le, fun k r hr => ?_⟩
  · obtain ⟨o, ho, _⟩ := h.exists_get? List.mem_cons_self
    exact lt_of_lt_of_le (lt_of_le_of_lt h.opening_ge (h.sorted.proper ho)) (hle ho h.brackets)
  · have hmem := List.mem_of_getElem? hr
    rcases h.splits r hmem with hfront | hback
    · refine Or.inr ⟨hstop r hmem hfront, fun heq => Or.inr ⟨hindex, fun next hnext => ?_⟩⟩
      have hnextMem := List.mem_of_getElem? hnext
      rcases h.splits next hnextMem with hnextFront | hnextBack
      · have hbefore := before_of_lt h.apart hr hnext (Nat.lt_succ_self k)
        have hlt := lt_of_lt_of_le (h.proper next hnextMem) (hstop next hnextMem hnextFront)
        exact absurd (heq ▸ hlt) (not_lt_of_ge hbefore)
      · exact hnextBack
    · exact Or.inl (le_trans hbefore (le_trans (le_of_lt (h.sorted.proper hc)) hback))

end Enclosed

namespace Scene

variable {s : Scene} {p : Pointer}

theorem writesAt_enclosed {rs : List Range} {start : Position} {opening closing mark : Token}
    (list : BracketedList) {index : Option Nat} {fragment : Nat → String}
    (h : Enclosed s.tokens rs start opening closing mark)
    (hopening : list.opening = opening.range) (hclosing : list.closing = closing.range)
    (hmembers : list.members = rs) :
    WritesAt (Enclosed.Place rs start closing mark index) list.pointer
      fun d => s.insertMember d list index fragment := by
  subst hmembers
  refine writesAt_insertMember ?_ ?_ ?_ ?_ ?_
  · intro last hlast
    obtain ⟨_, i, _, u, _, hu, _, _, _, hrange⟩ :=
      h.sorted.exists_bounds (h.within last (List.mem_of_getLast? hlast))
    have hstop : last.stop = u.range.stop := by rw [hrange]
    rw [hstop]
    exact ⟨i, u, TokenStream.endingAt?_eq_some h.sorted hu, hu, rfl⟩
  · intro hnil
    rw [hnil] at h ⊢
    rw [hopening]
    exact h.place_empty
  · exact fun k r hk hr => h.place_before hk hr
  · exact fun last i j t hlast hindex hi hj ht => h.place_behind hlast hindex hi hj ht
  · intro i t _ hindex hi ht
    rw [hclosing] at hi
    exact h.place_bracket hindex hi ht

end Scene

/-! ## Places in a node -/

namespace Syntax.Node

/-- Where the members of a list end: at its bracket, for a target at that of its parentheses. -/
def listEnd : Node → Position
  | target t => (t.compound.getD t.range).stop
  | n => n.range.stop

/-- The place is between the parts of the node, and behind a member only where the index says. -/
def Clear (n : Node) (index : Option Nat) (x : Position) : Prop :=
  ∀ path c, (path, c) ∈ n.children → (∀ q, c ≠ qualifier q) →
    x ≤ c.range.start ∨ c.range.stop ≤ x ∧ (x = c.range.stop →
      ∃ name i, path = [name, toString i] ∧ PutsBehind n.memberRanges n.listEnd index i)

/-- The place is in the node and between its parts, at its end only for a name without a value. -/
structure Hosts (n : Node) (index : Option Nat) (x : Position) : Prop where
  start_lt : n.range.start < x
  le_stop : x ≤ n.range.stop
  valueless : x = n.range.stop → n.isValueless = true
  clear : n.Clear index x

variable {index : Option Nat} {x : Position} {vocabulary : Vocabulary} {ts : List Token} {N : Nat}

theorem clear_of_between {α : Type} {n : Node} {node : α → Node} {range : α → Range} {es : List α}
    {name : String} (hchildren : n.children = numbered name (es.map node))
    (hranges : n.memberRanges = es.map range) (hrange : ∀ e, (node e).range = range e)
    (h : Between n.memberRanges n.listEnd index x) : n.Clear index x := by
  intro path c hc _
  rw [hchildren] at hc
  obtain ⟨i, e, he, rfl, rfl⟩ := exists_of_mem_numbered hc
  have hr : n.memberRanges[i]? = some (node e).range := by
    rw [hranges, List.getElem?_map, he, hrange]
    rfl
  rcases h i _ hr with hle | ⟨hle, hbehind⟩
  · exact Or.inl hle
  · exact Or.inr ⟨hle, fun hx => ⟨name, i, rfl, hbehind hx⟩⟩

theorem clear_of_list {n : Node} (hlist : n.memberRanges?.isSome = true)
    (h : Between n.memberRanges n.listEnd index x) : n.Clear index x := by
  cases n with
  | target t => exact clear_of_between (n := target t) rfl rfl Locate.range_ofAssignment h
  | groupItems i => exact clear_of_between (n := groupItems i) rfl rfl (fun _ => rfl) h
  | record r => exact clear_of_between (n := record r) rfl rfl Locate.range_ofEntry h
  | collection v => exact clear_of_between (n := collection v) rfl rfl Locate.range_ofValue h
  | _ => cases hlist

theorem children_of_empty {n : Node} (h : n.listLength? = some 0) : n.children = [] := by
  have hnil : ∀ {α : Type} {range : α → Range} {node : α → Node} {es : List α} {name : String},
      some (es.map range).length = some 0 → numbered name (es.map node) = [] := by
    intro α range node es name h
    rw [List.length_map] at h
    rw [List.length_eq_zero_iff.mp (Option.some.inj h)]
    rfl
  cases n with
  | target t => exact hnil h
  | groupItems i => exact hnil h
  | record r => exact hnil h
  | collection v => exact hnil h
  | _ => cases h

theorem clear_of_value {n : Node} (value : Option Value)
    (hchildren : ∀ path c, (path, c) ∈ n.children → (∀ q, c ≠ qualifier q) →
      ∃ v, value = some v ∧ c = ofValue v)
    (hx : ∀ v, value = some v → x ≤ v.range.start) : n.Clear index x := by
  intro path c hc hq
  obtain ⟨v, hv, rfl⟩ := hchildren path c hc hq
  rw [Locate.range_ofValue]
  exact Or.inl (hx v hv)

theorem hosts_annotation {a : Annotation} (h : (Node.annotation a).WrittenAs vocabulary ts)
    (hts : Token.Ordered N ts) (hx : a.term.range.stop ≤ x)
    (hle : x ≤ a.headEnd ∨ ∃ v, a.value = some v ∧ x = v.range.start) :
    (Node.annotation a).Hosts index x := by
  have hheads := heads_of_writtenAs h hts
  have hvalue : ∀ v, a.value = some v → x ≤ v.range.start := by
    intro v hv
    rcases hle with hle | ⟨v', hv', rfl⟩
    · exact le_trans hle (le_of_lt (hheads.value v hv).1)
    · rw [hv] at hv'
      rw [Option.some.inj hv']
  have hstop : ∀ v, a.value = some v → x < a.range.stop := by
    intro v hv
    obtain ⟨_, hproper, hinside⟩ := hheads.value v hv
    exact lt_of_le_of_lt (hvalue v hv) (lt_of_lt_of_le hproper hinside)
  refine ⟨lt_of_lt_of_le hheads.start hx, ?_, ?_, clear_of_value a.value ?_ hvalue⟩
  · rcases hle with hle | ⟨v, hv, _⟩
    · exact le_trans hle hheads.stop
    · exact le_of_lt (hstop v hv)
  · intro heq
    show a.value.isNone = true
    cases hv : a.value with
    | none => rfl
    | some v => exact absurd heq (ne_of_lt (hstop v hv))
  · intro path c hc hq
    rcases cases_of_mem_annotation hc with ⟨q, _, _, heq⟩ | ⟨v, hv, _, heq⟩
    · exact absurd heq (hq q)
    · exact ⟨v, hv, heq⟩

theorem hosts_property {p : Property} (h : (property p).WrittenAs vocabulary ts)
    (hts : Token.Ordered N ts) (hvalue : p.value.isNone = true) :
    (property p).Hosts index p.name.range.stop := by
  obtain ⟨hstart, hstop, _⟩ := property_of_writtenAs h hts
  refine ⟨hstart, hstop, fun _ => hvalue, clear_of_value p.value ?_ ?_⟩
  · intro path c hc _
    obtain ⟨v, hv, _, heq⟩ := exists_of_mem_part hc
    exact ⟨v, hv, heq⟩
  · intro v hv
    rw [hv] at hvalue
    cases hvalue

theorem hosts_of_place {n : Node} {opening closing : Token} {s : TokenStream}
    (henclosed : Enclosed s n.memberRanges opening.range.start opening closing closing)
    (hrange : n.range = ⟨opening.range.start, closing.range.stop⟩) (hend : n.listEnd = n.range.stop)
    (hlist : n.memberRanges?.isSome = true)
    (hx : Enclosed.Place n.memberRanges opening.range.start closing closing index x) :
    n.Hosts index x := by
  obtain ⟨hstart, hle, hbetween⟩ := hx
  obtain ⟨i, hi, _⟩ := henclosed.exists_get? (t := closing) (by simp)
  have hlt : x < n.range.stop := by
    rw [hrange]
    exact lt_of_le_of_lt hle (henclosed.sorted.proper hi)
  refine ⟨by rwa [hrange], le_of_lt hlt, fun heq => absurd heq (ne_of_lt hlt),
    clear_of_list hlist ?_⟩
  rwa [hend, hrange]

/-- A place between the parts of a node and in something below it is the end of a member without a
value, where the index puts a new member. -/
theorem exists_member_of_clear {n m : Node} {path : List String} {index' : Option Nat}
    (h : n.WrittenAs vocabulary ts) (hts : Token.Ordered N ts) (hn : ∀ f, n ≠ file f)
    (hm : n.resolve? path = some m) (hpath : path ≠ []) (hclear : n.Clear index x)
    (hhosts : m.Hosts index' x) (hqualifier : ∀ q, m ≠ qualifier q) :
    ∃ name i, path = [name, toString i] ∧ m.isValueless = true ∧
      PutsBehind n.memberRanges n.listEnd index i := by
  rcases resolve?_eq_some_first hm with ⟨hnil, _⟩ | ⟨first, rest, c, rfl, hc, hm⟩
  · exact absurd hnil hpath
  · obtain ⟨us, hus, hwritten⟩ := exists_child h hc
    have hus := hts.sublist hus
    have hfile := ne_file_of_mem_children hc
    have hinside := Range.contains_iff.mp (contains_resolved hwritten hus hfile hm)
    have hpart : ∀ q, c ≠ qualifier q := by
      rintro q rfl
      rcases resolve?_eq_some_first hm with ⟨_, rfl⟩ | ⟨_, _, _, _, hmem, _⟩
      · exact hqualifier q rfl
      · cases hmem
    rcases hclear first c hc hpart with hle | ⟨hle, hbehind⟩
    · exact absurd hhosts.start_lt (not_lt_of_ge (le_trans hle hinside.1))
    · have hstop : m.range.stop = c.range.stop :=
        le_antisymm hinside.2 (le_trans hle hhosts.le_stop)
      have hx : x = m.range.stop := le_antisymm hhosts.le_stop (hstop ▸ hle)
      have hvalueless := hhosts.valueless hx
      obtain rfl : rest = [] := by
        by_contra hrest
        exact absurd hstop (ne_of_lt (stop_lt_of_resolve? hwritten hus hfile
          (ne_target_of_mem_children hn hc) hm hrest hvalueless))
      obtain rfl := Option.some.inj hm
      obtain ⟨name, i, hfirst, hputs⟩ := hbehind hx
      exact ⟨name, i, by rw [List.append_nil, hfirst], hvalueless, hputs⟩

/-- No place is in parts of two nodes that stand apart. -/
theorem not_hosts_of_before {a b c d : Node} {index' : Option Nat}
    (hbefore : c.range.Before d.range) (ha : c.range.contains a.range = true)
    (hb : d.range.contains b.range = true) (hhosts : a.Hosts index x) : ¬ b.Hosts index' x := by
  intro hhosts'
  have hstop := le_trans hhosts.le_stop (Range.contains_iff.mp ha).2
  have hstart := lt_of_le_of_lt (Range.contains_iff.mp hb).1 hhosts'.start_lt
  exact absurd hstart (not_lt_of_ge (le_trans hstop hbefore))

end Syntax.Node

namespace Scene

variable {s : Scene} {p : Pointer} {n : Node} {index : Option Nat}

theorem bracketed_eq (hs : s.Parsed) {opening closing : Token} (hopening : opening ∈ s.code)
    (hclosing : closing ∈ s.code) (members : List Range) :
    s.bracketed p ⟨opening.range.start, closing.range.stop⟩ members =
      .ok ⟨p, opening.range, closing.range, members, s.level opening.range.start.line⟩ := by
  obtain ⟨i, hi⟩ := TokenStream.exists_get? (List.mem_filter.mp hopening).1
  obtain ⟨j, hj⟩ := TokenStream.exists_get? (List.mem_filter.mp hclosing).1
  simp only [bracketed, TokenStream.startingAt?_eq_some hs.sorted hi,
    TokenStream.endingAt?_eq_some hs.sorted hj, TokenStream.rangeAt_of_get? hi,
    TokenStream.rangeAt_of_get? hj]

/-- Members that are written between two brackets. -/
theorem enclosed_of_laid (hs : s.Parsed) {α : Type} {written : α → List Token → Prop}
    {range : α → Range} {es : List α} {opening closing : Token} {us : List Token}
    (hsub : (opening :: (us ++ [closing])).Sublist s.code) (hes : Laid written es us)
    (hspans : ∀ e vs, written e vs → Spans vs (range e)) (hcomma : closing.is "," = false) :
    Enclosed s.tokens (es.map range) opening.range.start opening closing closing := by
  have hordered := hs.sorted.sublist (hsub.trans List.filter_sublist)
  have hus : us.Sublist (opening :: (us ++ [closing])) := (List.sublist_append_left us _).cons _
  have hlists := Syntax.lists_of_laid hspans hordered hes
  have hclosing : ∀ r ∈ es.map range, r.Before closing.range := by
    refine List.forall_mem_map.mpr fun e he => ?_
    obtain ⟨vs, hvs, hwritten⟩ := hes.exists_written e he
    exact (Within.of_spans (hspans e vs hwritten)).before (.of_spans (.singleton closing))
      (hordered.sublist ((hvs.append_right [closing]).cons opening))
  refine ⟨hs.sorted, ?_, List.pairwise_map.mpr hlists.apart, ?_,
    List.forall_mem_map.mpr hlists.after, le_refl _, ?_, fun r hr => Or.inl (hclosing r hr),
    le_refl _, hclosing, hcomma⟩
  · refine List.forall_mem_map.mpr fun e he => ?_
    obtain ⟨vs, hvs, hwritten⟩ := hes.exists_written e he
    exact ⟨vs, (hvs.trans hus).trans hsub, hspans e vs hwritten⟩
  · intro t ht
    refine hsub.subset ?_
    simp only [List.mem_cons, List.not_mem_nil, or_false, List.mem_append] at ht ⊢
    rcases ht with rfl | rfl | rfl
    · exact Or.inl rfl
    · exact Or.inr (Or.inr rfl)
    · exact Or.inr (Or.inr rfl)
  · exact (List.pairwise_cons.mp hordered.apart).1 closing (by simp)

theorem exists_enclosed (hs : s.Parsed) (hn : s.document.syntaxTree.resolve? p = some n)
    (hlist : n.memberRanges?.isSome = true) (htarget : ∀ t, n ≠ .target t) :
    ∃ opening closing, n.range = ⟨opening.range.start, closing.range.stop⟩ ∧
      Enclosed s.tokens n.memberRanges opening.range.start opening closing closing := by
  cases n with
  | target t => exact absurd rfl (htarget t)
  | record r =>
      obtain ⟨vocabulary, ts, hts, hwritten⟩ := hs.exists_written hn
      obtain ⟨range, entries⟩ := r
      rw [Node.WrittenAs, Syntax.Value.WrittenAs] at hwritten
      obtain ⟨opening, closing, us, rfl, _, hclosing, hrange, hentries⟩ := hwritten
      refine ⟨opening, closing, hrange, enclosed_of_laid hs hts (Syntax.laid_of_commaSeparated
        ((Syntax.entriesWrittenAs_iff entries us).mp hentries))
        (fun e vs he => Syntax.spans_entry he) ?_⟩
      exact Syntax.not_comma_of_isMark hclosing (by decide)
  | collection v =>
      obtain ⟨vocabulary, ts, hts, hwritten⟩ := hs.exists_written hn
      obtain ⟨range, items⟩ := v
      rw [Node.WrittenAs, Syntax.Value.WrittenAs] at hwritten
      obtain ⟨opening, closing, us, rfl, _, hclosing, hrange, hitems⟩ := hwritten
      refine ⟨opening, closing, hrange, enclosed_of_laid hs hts (Syntax.laid_of_commaSeparated
        ((Syntax.valuesWrittenAs_iff items us).mp hitems))
        (fun v vs hv => Syntax.spans_value hv) ?_⟩
      exact Syntax.not_comma_of_isMark hclosing (by decide)
  | groupItems i =>
      obtain ⟨q, g, rfl, hq, rfl⟩ := exists_group hs hn
      obtain ⟨vocabulary, ts, hts, _, term, us, colon, opening, vs, closing, rfl, _, _, _, _, _,
        hclosing, hitems, hg⟩ := hs.exists_written hq
      refine ⟨opening, closing, by rw [Node.range, hg], enclosed_of_laid hs ?_
        (Syntax.laid_of_commaSeparated hitems) (fun a vs ha => ha.1.spans) ?_⟩
      · exact ((List.sublist_cons_self colon _).trans (List.sublist_append_right us _)).trans hts
      · exact Syntax.not_comma_of_isMark hclosing (by decide)
  | _ => cases hlist

/-- A new member of a record, a collection or a group is written in it. -/
theorem writesAt_bracketed (hs : s.Parsed) (hn : s.document.syntaxTree.resolve? p = some n)
    (hlist : n.memberRanges?.isSome = true) (htarget : ∀ t, n ≠ .target t)
    (fragment : Nat → String) :
    WritesAt (n.Hosts index) p (fun d => do
      let list ← s.bracketed p n.range n.memberRanges
      s.insertMember d list index fragment) := by
  obtain ⟨opening, closing, hrange, henclosed⟩ := exists_enclosed hs hn hlist htarget
  have hend : n.listEnd = n.range.stop := by
    cases n with
    | target t => exact absurd rfl (htarget t)
    | _ => rfl
  have hbracketed := bracketed_eq (p := p) hs (henclosed.tokens opening (by simp))
    (henclosed.tokens closing (by simp)) n.memberRanges
  rw [← hrange] at hbracketed
  let list : BracketedList := ⟨p, opening.range, closing.range, n.memberRanges,
    s.level opening.range.start.line⟩
  have hwrites : WritesAt
      (Enclosed.Place n.memberRanges opening.range.start closing closing index) p
      fun d => s.insertMember d list index fragment :=
    writesAt_enclosed list henclosed rfl rfl rfl
  refine (hwrites.imp fun x hx => Node.hosts_of_place henclosed hrange hend hlist hx).congr
    fun d => ?_
  rw [hbracketed]
  rfl

theorem Parsed.exists_ordered (hs : s.Parsed) (hn : s.document.syntaxTree.resolve? p = some n) :
    ∃ vocabulary ts, n.WrittenAs vocabulary ts ∧ Token.Ordered s.tokens.size ts := by
  obtain ⟨vocabulary, ts, hts, hwritten⟩ := hs.exists_written hn
  exact ⟨vocabulary, ts, hwritten, hs.sorted.sublist (hts.trans List.filter_sublist)⟩

theorem writesAt_fillSlot (hs : s.Parsed) (hn : s.document.syntaxTree.resolve? p = some n)
    (hvalueless : n.isValueless = true) (fragment : Nat → String) :
    WritesAt (n.Hosts index) p fun d => s.fillSlot d n fragment := by
  obtain ⟨vocabulary, ts, hwritten, hts⟩ := hs.exists_ordered hn
  cases n with
  | annotation a =>
      have hvalue : a.value.isNone = true := hvalueless
      apply writesAt_insert (Node.hosts_annotation hwritten hts
        (Node.heads_of_writtenAs hwritten hts).term (Or.inl (le_refl _)))
      intro d
      simp only [fillSlot, hvalue, if_true]
      rfl
  | property q =>
      have hvalue : q.value.isNone = true := hvalueless
      apply writesAt_insert (Node.hosts_property hwritten hts hvalue)
      intro d
      simp only [fillSlot, hvalue, if_true]
      rfl
  | _ => cases hvalueless

theorem writesAt_insertEmbedded (hs : s.Parsed) {e : Tree.Element}
    (hn : s.document.syntaxTree.resolve? p = some n)
    (hsuits : Insertable.suits Insertable.embeddedAnnotation n = true) :
    WritesAt (n.Hosts index) p fun d => s.insertEmbedded d p index e := by
  cases n with
  | record r =>
      refine (writesAt_bracketed hs hn rfl (fun _ => Node.noConfusion)
        (s.printer.annotation .embedded e)).congr fun d => ?_
      rw [insertEmbedded, node_eq hn]
      rfl
  | annotation a =>
      obtain ⟨vocabulary, ts, hwritten, hts⟩ := hs.exists_ordered hn
      have hheads := Node.heads_of_writtenAs hwritten hts
      have hwrites : WritesAt ((Node.annotation a).Hosts index) p
          fun d => .ok (s.promote d p a e) := by
        refine writesAt_promote e (Node.hosts_annotation hwritten hts ?_ ?_)
        · cases hv : a.value with
          | none => exact hheads.term
          | some v => exact le_trans hheads.term (le_of_lt (hheads.value v hv).1)
        · cases hv : a.value with
          | none => exact Or.inl (le_refl _)
          | some v => exact Or.inr ⟨v, rfl, rfl⟩
      refine hwrites.congr fun d => ?_
      rw [insertEmbedded, node_eq hn]
      rfl
  | _ => cases hsuits

theorem writesAt_insertProperty (hs : s.Parsed) {e : Tree.Element}
    (hn : s.document.syntaxTree.resolve? p = some n)
    (hsuits : Insertable.recordProperty.suits n = true) :
    WritesAt (n.Hosts index) p fun d => s.insertProperty d p index e := by
  cases n with
  | record r =>
      refine (writesAt_bracketed hs hn rfl (fun _ => Node.noConfusion)
        (s.printer.property e)).congr fun d => ?_
      rw [insertProperty, node_eq hn]
      rfl
  | _ => cases hsuits

theorem writesAt_insertValue (hs : s.Parsed) {e : Tree.Element}
    (hn : s.document.syntaxTree.resolve? p = some n)
    (hsuits : Insertable.primitiveValue.suits n = true) :
    WritesAt (n.Hosts index) p fun d => s.insertValue d p index e := by
  have hslot : n.isValueless = true →
      WritesAt (n.Hosts index) p fun d => s.fillSlot d n (s.printer.value e) :=
    fun hvalueless => writesAt_fillSlot hs hn hvalueless _
  cases n with
  | collection v =>
      refine (writesAt_bracketed hs hn rfl (fun _ => Node.noConfusion)
        (s.printer.value e)).congr fun d => ?_
      rw [insertValue, node_eq hn]
      rfl
  | annotation a =>
      refine (hslot hsuits).congr fun d => ?_
      rw [insertValue, node_eq hn]
      rfl
  | property q =>
      refine (hslot hsuits).congr fun d => ?_
      rw [insertValue, node_eq hn]
      rfl
  | _ => cases hsuits

theorem writesAt_insertQualifier (hs : s.Parsed) {value : String}
    (hn : s.document.syntaxTree.resolve? p = some n)
    (hsuits : (Action.insertQualifier value).suits n = true) :
    WritesAt (n.Hosts index) p fun d => s.insertQualifier d p value := by
  cases n with
  | annotation a =>
      obtain ⟨vocabulary, ts, hwritten, hts⟩ := hs.exists_ordered hn
      apply writesAt_insert (Node.hosts_annotation hwritten hts (le_refl _)
        (Or.inl (Node.heads_of_writtenAs hwritten hts).term))
      intro d
      rw [insertQualifier, node_eq hn]
      rfl
  | _ => cases hsuits

theorem writesAt_insertItem (hs : s.Parsed) {e : Tree.Element} {i : Syntax.GroupItems}
    (hn : s.document.syntaxTree.resolve? p = some (.groupItems i)) :
    WritesAt ((Node.groupItems i).Hosts index) p fun d => s.insertAnnotation d p index e := by
  obtain ⟨g, hg⟩ := exists_groupOf hs hn
  refine (writesAt_bracketed hs hn rfl (fun _ => Node.noConfusion) fun level =>
    withoutGroup g.name.text (s.printer.annotation .compound e level)).congr fun d => ?_
  rw [ insertAnnotation, node_eq hn]
  simp only [bind, Except.bind, hg]
  rfl

end Scene

end AnnotationEdit

import AnnotationEdit.Proofs.Token.Gaps
import AnnotationEdit.Proofs.Writer.Targets

/-!
# What insertions leave alone

An insertion writes between two tokens, or notes something about its node: a first member of a list,
an entry beside a value, lines that move in. What is written at once has nothing of any token, and
what is noted has nothing of any token but of those that the insertion exposes
(`Operation.Exposes`). Every step of a batch of insertions keeps this (`Draft.Sparing.write`), so it
holds of the draft for a whole batch (`Draft.Sparing.writeAll`).
-/

namespace AnnotationEdit

open Syntax (Node)

/-! ## Exposed tokens -/

/-- From the opening bracket of a list to the closing one. -/
def Syntax.Node.brackets? : Node → Option Range
  | target t => t.compound
  | groupItems i => some i.range
  | record r => some r.range
  | collection c => some c.range
  | _ => none

/-- The token ends on another line than the one on which it starts. -/
def Token.SpansLines (t : Token) : Prop := t.range.start.line < t.range.stop.line

/-- The insertion does not leave the token alone: it stands between the brackets of a list without
members, or stands on several lines in a value that gets another entry beside it, or in an
assignment that is put into parentheses. -/
inductive Operation.Exposes (file : Syntax.File) (o : Operation) (t : Token) : Prop where
  | brackets {n : Node} {r : Range} : file.resolve? o.pointer = some n → n.memberRanges = [] →
      n.brackets? = some r → r.contains t.range = true → Exposes file o t
  | value {a : Syntax.Annotation} {v : Syntax.Value} {index : Option Nat} {e : Tree.Element} :
      file.resolve? o.pointer = some (Node.annotation a) →
      o.action = .insert Insertable.embeddedAnnotation index e → a.value = some v →
      v.range.contains t.range = true → t.SpansLines → Exposes file o t
  | assignment {g : Syntax.Target} {a : Syntax.Assignment} :
      file.resolve? o.pointer = some (.target g) → g.compound = none → g.assignments = [a] →
      a.range.contains t.range = true → t.SpansLines → Exposes file o t

/-! ## Behind a member -/

namespace TokenStream.Sorted

variable {s : TokenStream} {i j : Nat}

theorem splits_comma (hs : s.Sorted) (h : s.commaAfter? i = some j) :
    s.Splits (s.rangeAt j).stop := by
  obtain ⟨t, ht, _⟩ := test_eq_true.mp (commaAfter?_eq_some h).2
  rw [rangeAt_of_get? ht]
  exact hs.splits_stop (mem_of_get? ht)

theorem splits_comment (hs : s.Sorted) {comment : Token}
    (h : s.trailingComment? i = some comment) : s.Splits comment.range.stop :=
  hs.splits_stop (mem_of_get? (trailingComment?_eq_some h).1)

end TokenStream.Sorted

/-! ## Drafts -/

/-- What the draft has written has nothing of any token, and what it has noted has nothing of any
but the exposed ones. -/
structure Draft.Sparing (s : Scene) (exposed : Token → Prop) (d : Draft) : Prop where
  deletions : d.deletions = []
  edits : ∀ e ∈ d.edits, e.1.isDeletion = false ∧
    ∀ t ∈ s.tokens.tokens.toList, e.1.range.Avoids t.range
  emptyLists : ∀ l ∈ d.emptyLists, l.2.fragments ≠ [] ∧ ∀ t ∈ s.tokens.tokens.toList,
    (⟨l.2.opening.stop, l.2.closing.start⟩ : Range).Avoids t.range ∨ exposed t
  promotions : ∀ m ∈ d.promotions, s.tokens.Splits m.2.headEnd ∧ ∀ r, m.2.value = some r →
    Within s.code r ∧
      ∀ t ∈ s.tokens.tokens.toList, r.contains t.range = true → t.SpansLines → exposed t
  shiftedLines : ∀ line ∈ d.shiftedLines, ∀ t ∈ s.tokens.tokens.toList,
    (Range.empty ⟨line, 0⟩).Avoids t.range ∨ exposed t

/-- What holds of the fresh value and is kept by the change holds of all values. -/
theorem forall_mem_upsert {α : Type} {P : α → Prop} {key : Pointer} {change : α → α} {fresh : α}
    (hfresh : P fresh) (hchange : ∀ a, P a → P (change a)) :
    ∀ {l : List (Pointer × α)}, (∀ x ∈ l, P x.2) → ∀ x ∈ upsert key change fresh l, P x.2
  | [], _ => List.forall_mem_singleton.mpr hfresh
  | (k, a) :: l, h => by
      obtain ⟨ha, hl⟩ := List.forall_mem_cons.mp h
      rw [upsert]
      split
      · exact List.forall_mem_cons.mpr ⟨hchange a ha, hl⟩
      · exact List.forall_mem_cons.mpr ⟨ha, forall_mem_upsert hfresh hchange hl⟩

namespace Draft

variable {s : Scene} {exposed : Token → Prop} {d d' : Draft} {x : Position} {text : String}

theorem sparing_empty : empty.Sparing s exposed where
  deletions := rfl
  edits := fun _ h => absurd h List.not_mem_nil
  emptyLists := fun _ h => absurd h List.not_mem_nil
  promotions := fun _ h => absurd h List.not_mem_nil
  shiftedLines := fun _ h => absurd h List.not_mem_nil

namespace Sparing

theorem push {e : TextEdit} (h : d.Sparing s exposed) (hkeeps : e.isDeletion = false)
    (he : ∀ t ∈ s.tokens.tokens.toList, e.range.Avoids t.range) (priority : EditPriority) :
    (d.push e priority).Sparing s exposed where
  deletions := h.deletions
  edits := List.forall_mem_append.mpr ⟨h.edits, List.forall_mem_singleton.mpr ⟨hkeeps, he⟩⟩
  emptyLists := h.emptyLists
  promotions := h.promotions
  shiftedLines := h.shiftedLines

theorem insert (h : d.Sparing s exposed) (hx : s.tokens.Splits x) :
    (d.insert x text).Sparing s exposed :=
  h.push (TextEdit.isDeletion_insert x text) (fun _ => hx.avoids_empty) .normal

/-! ## Lists -/

theorem addToEmptyList {list : BracketedList} (h : d.Sparing s exposed)
    (hlist : ∀ t ∈ s.tokens.tokens.toList,
      (⟨list.opening.stop, list.closing.start⟩ : Range).Avoids t.range ∨ exposed t) :
    (Scene.addToEmptyList d list text).Sparing s exposed where
  deletions := h.deletions
  edits := h.edits
  emptyLists := by
    refine forall_mem_upsert (P := fun l : EmptyList => l.fragments ≠ [] ∧
      ∀ t ∈ s.tokens.tokens.toList,
        (⟨l.opening.stop, l.closing.start⟩ : Range).Avoids t.range ∨ exposed t) ?_ ?_ h.emptyLists
    · exact ⟨List.cons_ne_nil _ _, hlist⟩
    · exact fun l hl => ⟨List.append_ne_nil_of_right_ne_nil _ (List.cons_ne_nil _ _), hl.2⟩
  promotions := h.promotions
  shiftedLines := h.shiftedLines

theorem insertBefore {list : BracketedList} {neighbour : Range} {fragment : Nat → String}
    (h : d.Sparing s exposed) (hneighbour : s.tokens.Splits neighbour.start) :
    (s.insertBefore d list neighbour fragment).Sparing s exposed := by
  rw [Scene.insertBefore]
  split
  · exact h.insert hneighbour
  · exact h.insert hneighbour

theorem appendLine {last : Range} {final : Nat} {fragment : Nat → String}
    (h : d.Sparing s exposed) (hs : s.tokens.Sorted) (hlast : s.tokens.Splits last.stop) :
    (s.appendLine d last final (s.tokens.commaAfter? final) fragment).Sparing s exposed := by
  cases hcomma : s.tokens.commaAfter? final with
  | some i =>
      cases hcomment : s.tokens.trailingComment? i with
      | some comment =>
          simp only [Scene.appendLine, Option.getD_some, hcomment]
          exact h.insert (hs.splits_comment hcomment)
      | none =>
          simp only [Scene.appendLine, Option.getD_some, hcomment]
          exact h.insert (hs.splits_comma hcomma)
  | none =>
      cases hcomment : s.tokens.trailingComment? final with
      | some comment =>
          simp only [Scene.appendLine, Option.getD_none, hcomment]
          split
          · exact h.insert (hs.splits_comment hcomment)
          · have hmarked : Sparing s exposed { d with separated := last.stop :: d.separated } :=
              ⟨h.deletions, h.edits, h.emptyLists, h.promotions, h.shiftedLines⟩
            exact (hmarked.insert hlast).insert (hs.splits_comment hcomment)
      | none =>
          simp only [Scene.appendLine, Option.getD_none, hcomment]
          exact h.insert hlast

theorem moveBracket {list : BracketedList} (h : d.Sparing s exposed) (hs : s.tokens.Sorted) :
    (s.moveBracket d list).Sparing s exposed := by
  have hmarked : Sparing s exposed { d with movedBrackets := list.pointer :: d.movedBrackets } :=
    ⟨h.deletions, h.edits, h.emptyLists, h.promotions, h.shiftedLines⟩
  rw [Scene.moveBracket]
  split
  · exact h
  · split
    · next i hi =>
      split
      · next hmoves =>
        obtain ⟨t, ht, hstart⟩ := TokenStream.startingAt?_spec hi
        obtain ⟨j, rfl⟩ : ∃ j, i = j + 1 := by
          rw [Bool.and_eq_true, decide_eq_true_iff] at hmoves
          exact ⟨i - 1, by omega⟩
        obtain ⟨u, hu⟩ := TokenStream.exists_get?_of_startingAt? hi
        refine hmarked.push (TextEdit.isDeletion_of_toList (by simp)) (fun v hv => ?_) .normal
        rw [Nat.add_sub_cancel, TokenStream.rangeAt_of_get? hu, ← hstart]
        exact hs.avoids_gap hu ht hv
      · exact hmarked
    · exact hmarked

theorem appendInline {list : BracketedList} {last : Range} {final : Nat} {fragment : Nat → String}
    (h : d.Sparing s exposed) (hs : s.tokens.Sorted) (hlast : s.tokens.Splits last.stop) :
    (s.appendInline d list last (s.tokens.commaAfter? final) fragment).Sparing s exposed := by
  have hwritten : ∀ {x : Position} {text : String}, s.tokens.Splits x → Sparing s exposed
      (if (fragment list.level).toList.contains '\n' then s.moveBracket (d.insert x text) list
        else d.insert x text) := by
    intro x text hx
    split
    · exact (h.insert hx).moveBracket hs
    · exact h.insert hx
  cases hcomma : s.tokens.commaAfter? final with
  | none => exact hwritten hlast
  | some i => exact hwritten (hs.splits_comma hcomma)

theorem append {list : BracketedList} {last : Range} {fragment : Nat → String}
    (h : d.Sparing s exposed) (hs : s.tokens.Sorted) (hlast : s.tokens.Splits last.stop)
    (hd' : s.append d list last fragment = .ok d') : d'.Sparing s exposed := by
  rw [Scene.append] at hd'
  split at hd'
  · cases hd'
  · split at hd'
    · obtain rfl := Except.ok.inj hd'
      exact h.appendLine hs hlast
    · obtain rfl := Except.ok.inj hd'
      exact h.appendInline hs hlast

theorem insertMember {list : BracketedList} {index : Option Nat} {fragment : Nat → String}
    (h : d.Sparing s exposed) (hs : s.tokens.Sorted)
    (hmembers : ∀ r ∈ list.members, s.tokens.Splits r.start ∧ s.tokens.Splits r.stop)
    (hempty : list.members = [] → ∀ t ∈ s.tokens.tokens.toList,
      (⟨list.opening.stop, list.closing.start⟩ : Range).Avoids t.range ∨ exposed t)
    (hd' : s.insertMember d list index fragment = .ok d') : d'.Sparing s exposed := by
  rw [Scene.insertMember] at hd'
  split at hd'
  · next hnone =>
    obtain rfl := Except.ok.inj hd'
    exact h.addToEmptyList (hempty (List.getLast?_eq_none_iff.mp hnone))
  · next last hlast =>
    split at hd'
    · next neighbour hneighbour =>
      obtain ⟨k, _, hk⟩ := Option.bind_eq_some_iff.mp hneighbour
      obtain rfl := Except.ok.inj hd'
      exact h.insertBefore (hmembers neighbour (List.mem_of_getElem? hk)).1
    · exact h.append hs (hmembers last (List.mem_of_getLast? hlast)).2 hd'

end Sparing

end Draft

/-! ## Places of parts -/

namespace Scene

variable {s : Scene} {p : Pointer} {n : Node} {r : Range} {list : BracketedList}

theorem bracketed_spec {members : List Range} (h : s.bracketed p r members = .ok list) :
    list.members = members ∧ ∃ first ∈ s.tokens.tokens.toList, ∃ last ∈ s.tokens.tokens.toList,
      list.opening = first.range ∧ first.range.start = r.start ∧ list.closing = last.range ∧
        last.range.stop = r.stop := by
  rw [bracketed] at h
  split at h
  · next i j hi hj =>
    obtain ⟨first, hfirst, hstart⟩ := TokenStream.startingAt?_spec hi
    obtain ⟨last, hlast, hstop⟩ := TokenStream.endingAt?_spec hj
    obtain rfl := Except.ok.inj h
    exact ⟨rfl, first, TokenStream.mem_of_get? hfirst, last, TokenStream.mem_of_get? hlast,
      TokenStream.rangeAt_of_get? hfirst, hstart, TokenStream.rangeAt_of_get? hlast, hstop⟩
  · cases h

/-- What stands between two brackets stands in their range. -/
theorem avoids_or_contains_of_bracketed (hs : s.Parsed) {members : List Range}
    (h : s.bracketed p r members = .ok list) {t : Token} (ht : t ∈ s.tokens.tokens.toList) :
    (⟨list.opening.stop, list.closing.start⟩ : Range).Avoids t.range ∨
      r.contains t.range = true := by
  obtain ⟨_, first, hfirst, last, hlast, hopening, hstart, hclosing, hstop⟩ := bracketed_spec h
  obtain ⟨i, hi⟩ := TokenStream.exists_get? hfirst
  obtain ⟨j, hj⟩ := TokenStream.exists_get? hlast
  rw [hopening, hclosing]
  refine ((hs.sorted.splits_stop hfirst).avoids_or_contains (r := ⟨_, _⟩)
    (hs.sorted.splits_start hlast) ht).imp_right fun hin => ?_
  obtain ⟨hle, hle'⟩ := Range.contains_iff.mp hin
  refine Range.contains_iff.mpr ⟨?_, ?_⟩
  · rw [← hstart]
    exact le_trans (le_of_lt (hs.sorted.proper hi)) hle
  · rw [← hstop]
    exact le_trans hle' (le_of_lt (hs.sorted.proper hj))

theorem compoundList_spec (hs : s.Parsed) {t : Syntax.Target}
    (h : s.compoundList p t r = .ok list) : list.members = t.assignments.map (·.range) ∧
      ∀ u ∈ s.tokens.tokens.toList,
        (⟨list.opening.stop, list.closing.start⟩ : Range).Avoids u.range ∨
          r.contains u.range = true := by
  rw [compoundList] at h
  split at h
  · next i hi =>
    obtain ⟨k, hk, hnext⟩ := Option.bind_eq_some_iff.mp hi
    obtain ⟨sign, hsign, hstart⟩ := TokenStream.startingAt?_spec hk
    obtain ⟨hki, htest, _⟩ := TokenStream.nextCode?_eq_some_iff.mp hnext
    obtain ⟨opening, hopening, _⟩ := TokenStream.test_eq_true.mp htest
    have hle : r.start ≤ opening.range.start :=
      hstart ▸ hs.sorted.start_le hsign hopening (Nat.le_of_lt hki)
    simp only [TokenStream.rangeAt_of_get? hopening] at h
    cases hlist : s.bracketed p ⟨opening.range.start, r.stop⟩ (t.assignments.map (·.range)) with
    | error e =>
        rw [hlist] at h
        cases h
    | ok inner =>
        rw [hlist] at h
        obtain rfl := Except.ok.inj h
        refine ⟨(bracketed_spec hlist).1, fun u hu => ?_⟩
        refine (avoids_or_contains_of_bracketed hs hlist hu).imp_right fun hin => ?_
        obtain ⟨hin, hin'⟩ := Range.contains_iff.mp hin
        exact Range.contains_iff.mpr ⟨le_trans hle hin, hin'⟩
  · cases h

theorem Parsed.splits_members (hs : s.Parsed) (hn : s.document.syntaxTree.resolve? p = some n) :
    ∀ r ∈ n.memberRanges, s.tokens.Splits r.start ∧ s.tokens.Splits r.stop :=
  fun r hr => hs.sorted.splits_of_within (hs.within_members hn r hr)

theorem Parsed.within_head (hs : s.Parsed) {a : Syntax.Annotation}
    (hn : s.document.syntaxTree.resolve? p = some (Node.annotation a)) :
    Within s.code a.term.range ∧ Within s.code ⟨a.term.range.start, a.headEnd⟩ := by
  obtain ⟨vocabulary, ts, hts, hwritten⟩ := hs.exists_written hn
  obtain ⟨us, qs, hsub, hterm, hqualifier⟩ : ∃ us qs : List Token, (us ++ qs).Sublist ts ∧
      a.term.WrittenAs .term us ∧ Syntax.qualifierWrittenAs a.qualifier qs := by
    rcases hwritten with h | h
    · obtain ⟨range, atSign, term, qualifier, colon, value, embedded⟩ := a
      rw [Syntax.Entry.WrittenAs] at h
      obtain ⟨mark, opening, sign, us, qs, closing, vs, rfl, _, _, _, hterm, hqualifier, _⟩ := h
      refine ⟨us, qs, ?_, hterm, hqualifier⟩
      exact ((((List.sublist_append_left qs _).append_left us).cons sign).cons opening).cons mark
    · obtain ⟨us, qs, vs, rfl, hterm, hqualifier, _⟩ := h
      exact ⟨us, qs, (List.sublist_append_left qs vs).append_left us, hterm, hqualifier⟩
  constructor
  · exact ⟨us, ((List.sublist_append_left us qs).trans hsub).trans hts, hterm.spans⟩
  · exact ⟨us ++ qs, hsub.trans hts, Syntax.spans_qualified hterm hqualifier⟩

theorem Parsed.within_value (hs : s.Parsed) {a : Syntax.Annotation} {v : Syntax.Value}
    (hn : s.document.syntaxTree.resolve? p = some (Node.annotation a)) (hv : a.value = some v) :
    Within s.code v.range := by
  obtain ⟨vocabulary, ts, hts, hwritten⟩ := hs.exists_written hn
  have hmem : (["value"], Node.ofValue v) ∈ (Node.annotation a).children := by
    refine List.mem_append_right _ (List.mem_map.mpr ⟨v, Option.mem_toList.mpr hv, rfl⟩)
  obtain ⟨us, hus, hvwritten⟩ := Node.exists_child hwritten hmem
  rw [← Locate.range_ofValue]
  exact (hvwritten.within (Syntax.ne_file_of_mem_children hmem)).weaken (hus.trans hts)

theorem Parsed.within_name (hs : s.Parsed) {q : Syntax.Property}
    (hn : s.document.syntaxTree.resolve? p = some (.property q)) :
    Within s.code q.name.range := by
  obtain ⟨vocabulary, ts, hts, hwritten⟩ := hs.exists_written hn
  obtain ⟨range, name, colon, value⟩ := q
  rw [Node.WrittenAs, Syntax.Entry.WrittenAs] at hwritten
  obtain ⟨us, vs, rfl, hname, _⟩ := hwritten
  exact ⟨us, (List.sublist_append_left us vs).trans hts, hname.spans⟩

end Scene

theorem Syntax.AssignmentsWrittenAs.exists_sign {vocabulary : Vocabulary} {as : List Assignment}
    {compound : Option Range} {ts : List Token} (h : AssignmentsWrittenAs vocabulary as compound ts)
    {r : Range} : ∀ a ∈ as, a.atSign = some r → ∃ t ∈ ts, t.range = r := by
  induction h with
  | nil => exact fun a ha => absurd ha List.not_mem_nil
  | @bare sign a as compound us vs _ ha _ ih =>
      refine List.forall_mem_cons.mpr ⟨fun hsign => ?_, fun b hb hsign => ?_⟩
      · rw [Assignment.WrittenAs.atSign ha] at hsign
        exact ⟨sign, List.mem_cons_self, Option.some.inj hsign⟩
      · obtain ⟨t, ht, hrange⟩ := ih b hb hsign
        exact ⟨t, List.mem_cons_of_mem _ (List.mem_append_right us ht), hrange⟩
  | @compound sign opening closing items as more us vs _ _ hitems _ _ ih =>
      refine List.forall_mem_append.mpr ⟨fun b hb hsign => ?_, fun b hb hsign => ?_⟩
      · -- in parentheses there is none
        obtain ⟨ws, _, hb⟩ := (laid_of_commaSeparated hitems).exists_written b hb
        rw [Assignment.WrittenAs.atSign hb] at hsign
        cases hsign
      · obtain ⟨t, ht, hrange⟩ := ih b hb hsign
        refine ⟨t, ?_, hrange⟩
        exact List.mem_cons_of_mem _ (List.mem_cons_of_mem _
          (List.mem_append_right us (List.mem_cons_of_mem _ ht)))

namespace Scene

variable {s : Scene} {p : Pointer} {t : Syntax.Target}

theorem Parsed.within_nameRange (hs : s.Parsed)
    (hn : s.document.syntaxTree.resolve? p = some (.target t)) : Within s.code t.nameRange := by
  obtain ⟨vocabulary, ts, hts, us, vs, hsub, hname, _⟩ := hs.exists_written hn
  exact ⟨us, ((List.sublist_append_left us vs).trans hsub).trans hts, hname⟩

theorem Parsed.splits_sign (hs : s.Parsed)
    (hn : s.document.syntaxTree.resolve? p = some (.target t)) {a : Syntax.Assignment}
    (ha : a ∈ t.assignments) {sign : Range} (hsign : a.atSign = some sign) :
    s.tokens.Splits sign.stop := by
  obtain ⟨vocabulary, ts, hts, us, vs, hsub, _, has, _⟩ := hs.exists_written hn
  obtain ⟨u, hu, rfl⟩ := has.exists_sign a ha hsign
  have hcode : u ∈ s.code := hts.subset (hsub.subset (List.mem_append_right us hu))
  exact hs.sorted.splits_stop (List.mem_filter.mp hcode).1

theorem Parsed.splits_fullRange (hs : s.Parsed)
    (hn : s.document.syntaxTree.resolve? p = some (.target t)) (hnone : t.compound = none)
    {a : Syntax.Assignment} (ha : a ∈ t.assignments) :
    s.tokens.Splits a.fullRange.start ∧ s.tokens.Splits a.fullRange.stop := by
  obtain ⟨vocabulary, ts, hts, us, vs, hsub, _, has, _⟩ := hs.exists_written hn
  have hvs : vs.Sublist s.code := ((List.sublist_append_right us vs).trans hsub).trans hts
  have hordered := hs.sorted.sublist (hvs.trans List.filter_sublist)
  obtain ⟨ws, hws, hsigned⟩ := (has.laid_signed hordered hnone).exists_written a ha
  exact hs.sorted.splits_of_within ⟨ws, hws.trans hvs, hsigned.spans⟩

end Scene

/-! ## Insertions -/

namespace Draft.Sparing

open Syntax (Node)

variable {s : Scene} {exposed : Token → Prop} {d d' : Draft} {p : Pointer} {n : Node}
  {index : Option Nat} {e : Tree.Element}

theorem insertBracketed {r : Range} {fragment : Nat → String} (h : d.Sparing s exposed)
    (hs : s.Parsed) (hn : s.document.syntaxTree.resolve? p = some n)
    (hexposed : n.memberRanges = [] → ∀ t : Token, r.contains t.range = true → exposed t)
    (hd' : (do
      let list ← s.bracketed p r n.memberRanges
      s.insertMember d list index fragment) = .ok d') : d'.Sparing s exposed := by
  cases hlist : s.bracketed p r n.memberRanges with
  | error err =>
      rw [hlist] at hd'
      cases hd'
  | ok list =>
      rw [hlist] at hd'
      have hmembers := (Scene.bracketed_spec hlist).1
      refine h.insertMember hs.sorted ?_ ?_ hd'
      · rw [hmembers]
        exact hs.splits_members hn
      · intro hnil t ht
        rw [hmembers] at hnil
        exact (Scene.avoids_or_contains_of_bracketed hs hlist ht).imp_right (hexposed hnil t)

theorem insertBare {t : Syntax.Target} (h : d.Sparing s exposed) (hs : s.Parsed)
    (hn : s.document.syntaxTree.resolve? p = some (.target t)) (hnone : t.compound = none) :
    (s.insertBare d t index e).Sparing s exposed := by
  rw [Scene.insertBare]
  split
  · apply h.insert
    split
    · next next hnext =>
      obtain ⟨i, _, hget⟩ := Option.bind_eq_some_iff.mp hnext
      split
      · exact hs.sorted.splits_stop (TokenStream.mem_of_get? hget)
      · exact (hs.sorted.splits_of_within (hs.within_nameRange hn)).2
    · exact (hs.sorted.splits_of_within (hs.within_nameRange hn)).2
  · next last hlast =>
    split
    · next neighbour hneighbour =>
      obtain ⟨k, _, hk⟩ := Option.bind_eq_some_iff.mp hneighbour
      exact h.insert (hs.splits_fullRange hn hnone (List.mem_of_getElem? hk)).1
    · have hstop := (hs.splits_fullRange hn hnone (List.mem_of_getLast? hlast)).2
      dsimp only
      split
      · exact h.insert hstop
      · apply h.insert
        split
        · next comment hcomment =>
          obtain ⟨i, _, hcomment⟩ := Option.bind_eq_some_iff.mp hcomment
          exact hs.sorted.splits_comment hcomment
        · exact hstop

theorem insertConverting {t : Syntax.Target} (h : d.Sparing s exposed) (hs : s.Parsed)
    (hn : s.document.syntaxTree.resolve? p = some (.target t))
    (hd' : s.insertConverting d t index e = .ok d') : d'.Sparing s exposed := by
  rw [Scene.insertConverting] at hd'
  split at hd'
  · cases hd'
  · next first hfirst =>
    obtain ⟨hstart, hstop⟩ := hs.splits_members hn first.range
      (List.mem_map_of_mem (List.mem_of_head? hfirst))
    split at hd'
    · rw [← Except.ok.inj hd']
      exact h.insert hstart
    · rw [← Except.ok.inj hd']
      exact h.insert hstop

theorem insertAnnotation (h : d.Sparing s exposed) (hs : s.Parsed)
    (hn : s.document.syntaxTree.resolve? p = some n)
    (hexposed : n.memberRanges = [] → ∀ r, n.brackets? = some r →
      ∀ t : Token, r.contains t.range = true → exposed t)
    (hd' : s.insertAnnotation d p index e = .ok d') : d'.Sparing s exposed := by
  rw [Scene.insertAnnotation, Scene.node_eq hn] at hd'
  cases n with
  | target t =>
      simp only [bind, Except.bind] at hd'
      split at hd'
      · exact h.insertConverting hs hn hd'
      · split at hd'
        · next r hr =>
          split at hd'
          · cases hd'
          · next list hlist =>
            obtain ⟨hmembers, hinside⟩ := Scene.compoundList_spec hs hlist
            refine h.insertMember hs.sorted ?_ ?_ hd'
            · rw [hmembers]
              exact hs.splits_members hn
            · intro hnil u hu
              rw [hmembers] at hnil
              exact (hinside u hu).imp_right (hexposed hnil r hr u)
        · next hnone =>
          rw [← Except.ok.inj hd']
          exact h.insertBare hs hn hnone
  | groupItems i =>
      simp only [bind, Except.bind] at hd'
      split at hd'
      · cases hd'
      · exact h.insertBracketed (n := .groupItems i) hs hn (fun hnil => hexposed hnil _ rfl) hd'
  | _ => cases hd'

theorem promote {a : Syntax.Annotation} (h : d.Sparing s exposed) (hs : s.Parsed)
    (hn : s.document.syntaxTree.resolve? p = some (Node.annotation a))
    (hexposed : ∀ v, a.value = some v → ∀ t : Token, v.range.contains t.range = true →
      t.SpansLines → exposed t) : (s.promote d p a e).Sparing s exposed where
  deletions := h.deletions
  edits := h.edits
  emptyLists := h.emptyLists
  promotions := by
    refine forall_mem_upsert (P := fun m : Promotion => s.tokens.Splits m.headEnd ∧
      ∀ r, m.value = some r → Within s.code r ∧ ∀ t ∈ s.tokens.tokens.toList,
        r.contains t.range = true → t.SpansLines → exposed t) ?_ ?_ h.promotions
    · refine ⟨(hs.sorted.splits_of_within (hs.within_head hn).2).2, fun r hr => ?_⟩
      obtain ⟨v, hv, rfl⟩ := Option.map_eq_some_iff.mp hr
      exact ⟨hs.within_value hn hv, fun t _ => hexposed v hv t⟩
    · exact fun m hm => hm
  shiftedLines := h.shiftedLines

theorem insertEmbedded (h : d.Sparing s exposed) (hs : s.Parsed)
    (hn : s.document.syntaxTree.resolve? p = some n)
    (hexposed : n.memberRanges = [] → ∀ r, n.brackets? = some r →
      ∀ t : Token, r.contains t.range = true → exposed t)
    (hvalue : ∀ a v, n = Node.annotation a → a.value = some v → ∀ t : Token,
      v.range.contains t.range = true → t.SpansLines → exposed t)
    (hd' : s.insertEmbedded d p index e = .ok d') : d'.Sparing s exposed := by
  rw [Scene.insertEmbedded, Scene.node_eq hn] at hd'
  cases n with
  | record r =>
      exact h.insertBracketed (n := .record r) hs hn (fun hnil => hexposed hnil _ rfl) hd'
  | annotation a =>
      rw [← Except.ok.inj hd']
      exact h.promote hs hn fun v => hvalue a v rfl
  | _ => cases hd'

theorem fillSlot {fragment : Nat → String} (h : d.Sparing s exposed) (hs : s.Parsed)
    (hn : s.document.syntaxTree.resolve? p = some n) (hd' : s.fillSlot d n fragment = .ok d') :
    d'.Sparing s exposed := by
  cases n with
  | annotation a =>
      rw [Scene.fillSlot] at hd'
      split at hd'
      · rw [← Except.ok.inj hd']
        exact h.insert (hs.sorted.splits_of_within (hs.within_head hn).2).2
      · cases hd'
  | property q =>
      rw [Scene.fillSlot] at hd'
      split at hd'
      · rw [← Except.ok.inj hd']
        exact h.insert (hs.sorted.splits_of_within (hs.within_name hn)).2
      · cases hd'
  | _ => cases hd'

theorem insertValue (h : d.Sparing s exposed) (hs : s.Parsed)
    (hn : s.document.syntaxTree.resolve? p = some n)
    (hexposed : n.memberRanges = [] → ∀ r, n.brackets? = some r →
      ∀ t : Token, r.contains t.range = true → exposed t)
    (hd' : s.insertValue d p index e = .ok d') : d'.Sparing s exposed := by
  rw [Scene.insertValue, Scene.node_eq hn] at hd'
  cases n with
  | collection c =>
      exact h.insertBracketed (n := .collection c) hs hn (fun hnil => hexposed hnil _ rfl) hd'
  | annotation a => exact h.fillSlot hs hn hd'
  | property q => exact h.fillSlot hs hn hd'
  | _ => cases hd'

theorem insertProperty (h : d.Sparing s exposed) (hs : s.Parsed)
    (hn : s.document.syntaxTree.resolve? p = some n)
    (hexposed : n.memberRanges = [] → ∀ r, n.brackets? = some r →
      ∀ t : Token, r.contains t.range = true → exposed t)
    (hd' : s.insertProperty d p index e = .ok d') : d'.Sparing s exposed := by
  rw [Scene.insertProperty, Scene.node_eq hn] at hd'
  cases n with
  | record r =>
      exact h.insertBracketed (n := .record r) hs hn (fun hnil => hexposed hnil _ rfl) hd'
  | _ => cases hd'

theorem insertQualifier {value : String} (h : d.Sparing s exposed) (hs : s.Parsed)
    (hn : s.document.syntaxTree.resolve? p = some n)
    (hd' : s.insertQualifier d p value = .ok d') : d'.Sparing s exposed := by
  rw [Scene.insertQualifier, Scene.node_eq hn] at hd'
  cases n with
  | annotation a =>
      rw [← Except.ok.inj hd']
      exact h.insert (hs.sorted.splits_of_within (hs.within_head hn).1).2
  | _ => cases hd'

/-! ## Targets and references -/

theorem insertTarget {target : Tree.Target} (h : d.Sparing s exposed) (hs : s.Parsed) :
    (s.insertTarget d index target).Sparing s exposed := by
  rw [Scene.insertTarget]
  split
  · next neighbour hneighbour =>
    apply h.insert
    split
    · next token hfind =>
      exact hs.sorted.splits_start (List.mem_reverse.mp (List.mem_of_find?_eq_some hfind))
    · obtain ⟨k, _, hk⟩ := Option.bind_eq_some_iff.mp hneighbour
      obtain ⟨uri, text, config, hparse, _⟩ := id hs
      obtain ⟨items, hitems, _, htargets⟩ := Document.written_file hparse
      obtain ⟨us, hus, hwritten⟩ := (Node.laid_targets hitems).exists_written neighbour
        (htargets ▸ List.mem_of_getElem? hk)
      exact (hs.sorted.splits_of_within (hwritten.within.weaken hus)).1
  · split
    · next last hlast => exact h.insert (hs.sorted.splits_stop (Array.mem_toList_iff.mpr
        (Array.mem_of_back? hlast)))
    · exact h.insert TokenStream.splits_origin

theorem insertReference {reference : Tree.Reference} (h : d.Sparing s exposed) (hs : s.Parsed) :
    (s.insertReference d reference).Sparing s exposed := by
  rw [Scene.insertReference]
  split
  · next last hlast =>
    obtain ⟨uri, text, config, hparse, _⟩ := id hs
    obtain ⟨items, hitems, hdeclarations, _⟩ := Document.written_file hparse
    obtain ⟨us, hus, hwritten⟩ := (Node.laid_declarations hitems).exists_written last
      (hdeclarations ▸ List.mem_of_getLast? hlast)
    have hnode : (Node.declaration last).WrittenAs config.aliases us := hwritten
    have hwithin := hnode.within fun _ => Node.noConfusion
    exact h.insert (hs.sorted.splits_of_within (hwithin.weaken hus)).2
  · exact h.insert TokenStream.splits_origin

/-! ## Parentheses -/

/-- The start of a line that moves in with an assignment is inside no token but one that stands on
several lines in it. -/
theorem avoids_shifted {a : Range} (hstart : s.tokens.Splits a.start)
    (hstop : s.tokens.Splits a.stop) {line : Nat} (hline : a.start.line < line)
    (hle : line ≤ a.stop.line) {t : Token} (ht : t ∈ s.tokens.tokens.toList) :
    (Range.empty ⟨line, 0⟩).Avoids t.range ∨ a.contains t.range = true ∧ t.SpansLines := by
  have hbefore : t.range.stop.line < line → (Range.empty ⟨line, 0⟩).Avoids t.range :=
    fun hlt => Or.inl (Position.le_def.mpr (Or.inl hlt))
  have hbehind : line ≤ t.range.start.line → (Range.empty ⟨line, 0⟩).Avoids t.range := by
    intro hge
    refine Or.inr (Position.le_def.mpr ?_)
    show line < t.range.start.line ∨ line = t.range.start.line ∧ 0 ≤ t.range.start.character
    omega
  rcases hstart.avoids_or_contains hstop ht with (hfront | hback) | hin
  · have hle := Position.le_def.mp hfront
    exact Or.inl (hbefore (by omega))
  · have hle := Position.le_def.mp hback
    exact Or.inl (hbehind (by omega))
  · by_cases hspans : t.SpansLines
    · exact Or.inr ⟨hin, hspans⟩
    · rw [Token.SpansLines] at hspans
      rcases Nat.lt_or_ge t.range.start.line line with hlt | hge
      · exact Or.inl (hbefore (by omega))
      · exact Or.inl (hbehind hge)

theorem convertToCompound {unnecessary : Bool} (h : d.Sparing s exposed) (hs : s.Parsed)
    (hn : s.document.syntaxTree.resolve? p = some n)
    (hsuits : (Action.convertToCompound unnecessary).suits n = true)
    (hexposed : ∀ g a, n = .target g → g.compound = none → g.assignments = [a] → ∀ t : Token,
      a.range.contains t.range = true → t.SpansLines → exposed t)
    (hd' : s.convertToCompound d p unnecessary = .ok d') : d'.Sparing s exposed := by
  cases unnecessary with
  | true =>
      rw [← Except.ok.inj hd']
      exact h
  | false =>
      cases n with
      | target g =>
          obtain ⟨hnone, hlength⟩ := Bool.and_eq_true_iff.mp hsuits
          obtain ⟨first, hfirst⟩ := List.length_eq_one_iff.mp (beq_iff_eq.mp hlength)
          have hmem : first ∈ g.assignments := hfirst ▸ List.mem_singleton_self first
          obtain ⟨hstart, hstop⟩ := hs.splits_members hn first.range (List.mem_map_of_mem hmem)
          rw [Scene.convertToCompound, Scene.node_eq hn] at hd'
          simp only [bind, Except.bind, hfirst, List.head?_cons, Bool.false_eq_true, if_false] at hd'
          split at hd'
          · cases hd'
          · next sign hsign =>
            have hwrapped : ∀ before behind : String, Sparing s exposed
                ((d.push (.insert sign.stop before) .opening).push
                  (.insert first.range.stop behind) .closing) := fun before behind =>
              (h.push (TextEdit.isDeletion_insert _ before)
                (fun _ => (hs.splits_sign hn hmem hsign).avoids_empty) .opening).push
                (TextEdit.isDeletion_insert _ behind) (fun _ => hstop.avoids_empty) .closing
            split at hd'
            · rw [← Except.ok.inj hd']
              exact hwrapped _ _
            · rw [← Except.ok.inj hd']
              obtain ⟨hdeletions, hedits, hlists, hpromotions, hlines⟩ := hwrapped _ _
              refine ⟨hdeletions, hedits, hlists, hpromotions,
                List.forall_mem_append.mpr ⟨hlines, ?_⟩⟩
              refine List.forall_mem_map.mpr fun k hk t ht => ?_
              rw [List.mem_range] at hk
              refine (avoids_shifted hstart hstop (by omega) (by omega) ht).imp_right fun hin => ?_
              exact hexposed g first rfl (Option.isNone_iff_eq_none.mp hnone) hfirst t hin.1 hin.2
      | _ => cases hsuits

/-! ## Batches -/

/-- What is carried out for insertions keeps a draft sparing. -/
theorem write {o : Operation} (h : d.Sparing s exposed) (hs : s.Parsed)
    (hfits : o.Fits s.document.syntaxTree)
    (hkind : o.isInsert = true ∨ ∃ unnecessary, o.action = .convertToCompound unnecessary)
    (hexposed : ∀ t, o.Exposes s.document.syntaxTree t → exposed t)
    (hd' : s.write d o = .ok d') : d'.Sparing s exposed := by
  obtain ⟨⟨n, hn, hsuits⟩, _⟩ := hfits
  obtain ⟨p, action⟩ := o
  have hbrackets : n.memberRanges = [] → ∀ r, n.brackets? = some r →
      ∀ t : Token, r.contains t.range = true → exposed t :=
    fun hnil r hr t hin => hexposed t (.brackets hn hnil hr hin)
  cases action with
  | insertTarget index target =>
      rw [← Except.ok.inj hd']
      exact h.insertTarget hs
  | insertReference reference =>
      rw [← Except.ok.inj hd']
      exact h.insertReference hs
  | insertQualifier value => exact h.insertQualifier hs hn hd'
  | insert what index e =>
      cases what with
      | annotation => exact h.insertAnnotation hs hn hbrackets hd'
      | embeddedAnnotation =>
          refine h.insertEmbedded hs hn hbrackets ?_ hd'
          rintro a v rfl hv t hin hspans
          exact hexposed t (.value hn rfl hv hin hspans)
      | recordProperty => exact h.insertProperty hs hn hbrackets hd'
      | record => exact h.insertValue hs hn hbrackets hd'
      | collection => exact h.insertValue hs hn hbrackets hd'
      | primitiveValue => exact h.insertValue hs hn hbrackets hd'
  | convertToCompound unnecessary =>
      refine h.convertToCompound hs hn hsuits ?_ hd'
      rintro g a rfl hnone hone t hin hspans
      exact hexposed t (.assignment hn hnone hone hin hspans)
  | _ =>
      rcases hkind with hinsert | ⟨_, hmark⟩
      · cases hinsert
      · cases hmark

theorem writeAll (hs : s.Parsed) : ∀ {l : List Operation} {d d' : Draft}, d.Sparing s exposed →
    (∀ o ∈ l, o.Fits s.document.syntaxTree ∧
      (o.isInsert = true ∨ ∃ unnecessary, o.action = .convertToCompound unnecessary) ∧
        ∀ t, o.Exposes s.document.syntaxTree t → exposed t) →
    s.writeAll d l = .ok d' → d'.Sparing s exposed
  | [], d, d', h, _, hd' => by
      rw [← Except.ok.inj hd']
      exact h
  | o :: l, d, d', h, hl, hd' => by
      obtain ⟨⟨hfits, hkind, hexposed⟩, hl⟩ := List.forall_mem_cons.mp hl
      rw [Scene.writeAll] at hd'
      cases hwrite : s.write d o with
      | ok written =>
          rw [hwrite] at hd'
          exact writeAll hs (h.write hs hfits hkind hexposed hwrite) hl hd'
      | error e =>
          rw [hwrite, recoverable] at hd'
          split at hd'
          · exact writeAll hs h hl hd'
          · cases hd'

end Draft.Sparing

end AnnotationEdit

import AnnotationEdit.Proofs.Token.Gaps
import AnnotationEdit.Proofs.Writer.Arranging
import AnnotationEdit.Proofs.Writer.Joining

/-!
# Adding members to a list

A run of insertions into one list leaves edits in front of members and edits behind the last one. The
code tokens that they put in at one place write the new members for this place with their commas, in
the order of the run (`Holding`): a step adds its member at its place (`Holding.insertMember`), and so
does a run (`Holding.writeAll`).
-/

namespace AnnotationEdit

open Lexer (Anything Break Reads StartsLine codeOf)
open Syntax (Node Spelled commaEnded commaLed)
open TextEdit (StandApart)

/-! ## The code that edits put in -/

namespace TextEdit

def hasCode (e : TextEdit) : Bool := !(codeOf e.newText.toList).isEmpty

/-- The code tokens that are put in at places that pass a test. -/
def codesAt (P : Position → Bool) (edits : List TextEdit) : List Token :=
  (edits.filter fun e => P e.range.start).flatMap fun e => codeOf e.newText.toList

variable {P : Position → Bool} {edits new : List TextEdit}

theorem codesAt_append : codesAt P (edits ++ new) = codesAt P edits ++ codesAt P new := by
  rw [codesAt, List.filter_append, List.flatMap_append]
  rfl

theorem codesAt_eq_nil (h : ∀ e ∈ edits, P e.range.start = false) : codesAt P edits = [] := by
  have hnone : (edits.filter fun e => P e.range.start) = [] :=
    List.filter_eq_nil_iff.mpr fun e he => by rw [h e he]; exact Bool.false_ne_true
  rw [codesAt, hnone]
  rfl

theorem codesAt_eq_flatMap (h : ∀ e ∈ edits, P e.range.start = true) :
    codesAt P edits = edits.flatMap fun e => codeOf e.newText.toList := by
  rw [codesAt, List.filter_eq_self.mpr h]

theorem StandApart.concat {e : TextEdit} (h : StandApart edits)
    (hproper : e.range.start ≤ e.range.stop)
    (hapart : ∀ f ∈ edits, f.range.Before e.range ∨ e.range.Before f.range) :
    StandApart (edits ++ [e]) where
  proper := List.forall_mem_append.mpr ⟨h.proper, List.forall_mem_singleton.mpr hproper⟩
  apart := List.pairwise_append.mpr ⟨h.apart, List.pairwise_singleton _ _,
    fun f hf => List.forall_mem_singleton.mpr (hapart f hf)⟩

end TextEdit

/-! ## Edits for members -/

/-- An edit for new members: in front of a member that stays, behind the last one, or for the closing
bracket. -/
inductive Anchored (s : Scene) (list : BracketedList) (gone : Nat → Bool) (x y : Position) :
    TextEdit → Prop
  | inFront (i : Nat) (r : Range) (text : String) : list.members[i]? = some r → gone i = false →
      text ≠ "" → Reads Anything text.toList (codeOf text.toList) →
      Anchored s list gone x y (.insert r.start text)
  | behind (z : Position) (text : String) : z = x ∨ z = y → text ≠ "" → Break text.toList →
      Reads Break text.toList (codeOf text.toList) → Anchored s list gone x y (.insert z text)
  | bracket (i : Nat) (t : Token) : s.tokens.startingAt? list.closing.start = some (i + 1) →
      s.tokens.get? i = some t → s.tokens.isFirstOnLine (i + 1) = false →
      t.range.stop ≤ list.closing.start →
      Anchored s list gone x y ⟨⟨t.range.stop, list.closing.start⟩, "\n" ++ s.indent list.level⟩

section

variable {s : Scene} {list : BracketedList} {n : Node} {gone : Nat → Bool} {last : Range}
  {tail : Tail} {x y z : Position} {added : Nat → List Node} {fs : List Node}
  {edits new : List TextEdit} {e f : TextEdit} {d : Draft} {rs : List NewMember} {r : NewMember}

namespace Anchored

theorem codeOf_line {bs : List Char} (h : Text.allBlank bs = true) : codeOf ('\n' :: bs) = [] := by
  rw [← List.append_nil ('\n' :: bs), Lexer.codeOf_blanks Lexer.codes_nil, Lexer.codeOf_nil]
  exact List.forall_mem_cons.mpr ⟨by decide, List.all_eq_true.mp h⟩

variable (hblank : Text.allBlank s.printer.indentUnit.toList = true)

include hblank

theorem allBlank_indent (level : Nat) : Text.allBlank (s.indent level).toList = true :=
  Lexer.allBlank_times hblank level

theorem codeOf_bracket (level : Nat) : codeOf ("\n" ++ s.indent level).toList = [] := by
  rw [String.toList_append]
  exact codeOf_line (allBlank_indent hblank _)

omit hblank in
/-- The edit is in front of where another one ends that stands in front of what is behind the last
member. -/
theorem apart_of_le (h : Anchored s list gone x y e) (hends : s.Ends list last tail x y)
    (hf : f.range.start = f.range.stop) (hle : f.range.start ≤ y) :
    e.range.Before f.range ∨ f.range.Before e.range := by
  rw [Range.Before, Range.Before, ← hf]
  cases h with
  | inFront => exact le_total _ _
  | behind => exact le_total _ _
  | bracket i t hclosing ht => exact Or.inr (hle.trans (hends.le_gap i t hclosing ht))

/-- Code is put in behind the last member at its end or behind a comment there. -/
theorem start_of_hasCode (h : Anchored s list gone x y e) (hends : s.Ends list last tail x y)
    (hcode : e.hasCode = true) (hx : x ≤ e.range.start) :
    e.range.start = x ∨ e.range.start = y := by
  cases h with
  | inFront i r text hr => exact absurd hx (not_le_of_gt (hends.inFront r (List.mem_of_getElem? hr)))
  | behind z text hz => exact hz
  | bracket =>
      rw [TextEdit.hasCode, codeOf_bracket hblank] at hcode
      cases hcode

end Anchored

/-- Edits for new members: the code at the start of a member writes the new members in front of it,
and the code behind the last one those that come last. -/
structure Listed (s : Scene) (list : BracketedList) (n : Node) (gone : Nat → Bool) (tail : Tail)
    (x y : Position) (added : Nat → List Node) (fs : List Node) (edits : List TextEdit) : Prop where
  anchored : ∀ e ∈ edits, Anchored s list gone x y e
  apart : StandApart edits
  inFront : ∀ i r, list.members[i]? = some r → commaEnded (Spelled n.Lists) (added i)
    (TextEdit.codesAt (fun p => decide (p = r.start)) edits)
  ended : tail.leads = false → commaEnded (Spelled n.Lists) fs
    (TextEdit.codesAt (fun p => decide (x ≤ p)) edits)
  led : tail.leads = true → commaLed (Spelled n.Lists) fs
    (TextEdit.codesAt (fun p => decide (x ≤ p)) edits)
  ordered : (edits.filter fun e => decide (x ≤ e.range.start) && e.hasCode).Pairwise
    fun e f => e.range.start ≤ f.range.start

namespace Listed

variable (h : Listed s list n gone tail x y added fs edits) (hends : s.Ends list last tail x y)

include h hends

theorem front {i : Nat} {r : Range} {text : String} {m : Node} (hr : list.members[i]? = some r)
    (hapart : list.members.Pairwise Range.Before) (hproper : ∀ r ∈ list.members, r.Proper)
    (hnew : Anchored s list gone x y (.insert r.start text))
    (hm : commaEnded (Spelled n.Lists) [m] (codeOf text.toList)) :
    Listed s list n gone tail x y (Function.update added i (added i ++ [m])) fs
      (edits ++ [.insert r.start text]) := by
  have hlt := hends.inFront r (List.mem_of_getElem? hr)
  have hnone : TextEdit.codesAt (fun p => decide (x ≤ p)) [.insert r.start text] = [] :=
    TextEdit.codesAt_eq_nil (List.forall_mem_singleton.mpr (decide_eq_false (not_le_of_gt hlt)))
  refine ⟨?_, ?_, fun j r' hr' => ?_, fun hleads => ?_, fun hleads => ?_, ?_⟩
  · exact List.forall_mem_append.mpr ⟨h.anchored, List.forall_mem_singleton.mpr hnew⟩
  · exact h.apart.concat (le_refl _) fun f hf =>
      (h.anchored f hf).apart_of_le hends rfl (le_of_lt (lt_of_lt_of_le hlt hends.le))
  · rw [TextEdit.codesAt_append]
    by_cases hij : j = i
    · subst hij
      obtain rfl := Option.some.inj (hr.symm.trans hr')
      rw [Function.update_self, TextEdit.codesAt_eq_flatMap
        (List.forall_mem_singleton.mpr (decide_eq_true rfl)), List.flatMap_singleton]
      exact Syntax.commaEnded_append hm (h.inFront j r hr)
    · -- another member starts elsewhere
      have hne : r.start ≠ r'.start := by
        rcases eq_or_rel_of_getElem? hapart hr hr' with heq | hbefore | hbefore
        · exact absurd heq.symm hij
        · exact ne_of_lt (lt_of_lt_of_le (hproper r (List.mem_of_getElem? hr)) hbefore)
        · exact ne_of_gt (lt_of_lt_of_le (hproper r' (List.mem_of_getElem? hr')) hbefore)
      rw [Function.update_of_ne hij, TextEdit.codesAt_eq_nil
        (List.forall_mem_singleton.mpr (decide_eq_false hne)), List.append_nil]
      exact h.inFront j r' hr'
  · rw [TextEdit.codesAt_append, hnone, List.append_nil]
    exact h.ended hleads
  · rw [TextEdit.codesAt_append, hnone, List.append_nil]
    exact h.led hleads
  · rw [List.filter_append, List.filter_cons_of_neg, List.filter_nil, List.append_nil]
    · exact h.ordered
    · rw [Bool.and_eq_true, decide_eq_true_eq]
      exact fun hle => absurd hle.1 (not_le_of_gt hlt)

/-- One more member behind the last one. -/
theorem behind {m : Node} (hnew : ∀ e ∈ new, Anchored s list gone x y e ∧ x ≤ e.range.start)
    (hapart : StandApart (edits ++ new))
    (hended : tail.leads = false → commaEnded (Spelled n.Lists) [m]
      (new.flatMap fun e => codeOf e.newText.toList))
    (hled : tail.leads = true → commaLed (Spelled n.Lists) [m]
      (new.flatMap fun e => codeOf e.newText.toList))
    (hordered : ((edits ++ new).filter fun e => decide (x ≤ e.range.start) && e.hasCode).Pairwise
      fun e f => e.range.start ≤ f.range.start) :
    Listed s list n gone tail x y added (fs ++ [m]) (edits ++ new) := by
  have hcodes : TextEdit.codesAt (fun p => decide (x ≤ p)) new =
      new.flatMap fun e => codeOf e.newText.toList :=
    TextEdit.codesAt_eq_flatMap fun e he => decide_eq_true (hnew e he).2
  refine ⟨?_, hapart, fun i r hr => ?_, fun hleads => ?_, fun hleads => ?_, hordered⟩
  · exact List.forall_mem_append.mpr ⟨h.anchored, fun e he => (hnew e he).1⟩
  · have hnone : TextEdit.codesAt (fun p => decide (p = r.start)) new = [] :=
      TextEdit.codesAt_eq_nil fun e he => decide_eq_false
        (ne_of_gt (lt_of_lt_of_le (hends.inFront r (List.mem_of_getElem? hr)) (hnew e he).2))
    rw [TextEdit.codesAt_append, hnone, List.append_nil]
    exact h.inFront i r hr
  · rw [TextEdit.codesAt_append, hcodes]
    exact Syntax.commaEnded_append (hended hleads) (h.ended hleads)
  · rw [TextEdit.codesAt_append, hcodes]
    exact Syntax.commaLed_append (hled hleads) (h.led hleads)

omit h in
/-- Code at the last place comes after all other code. -/
theorem ordered_of_last (hblank : Text.allBlank s.printer.indentUnit.toList = true)
    (h : Listed s list n gone tail x y added fs edits) {text : String} :
    ((edits ++ [TextEdit.insert y text]).filter fun e => decide (x ≤ e.range.start) && e.hasCode).Pairwise
      fun e f => e.range.start ≤ f.range.start := by
  rw [List.filter_append]
  refine List.pairwise_append.mpr ⟨h.ordered, ?_, fun e he f hf => ?_⟩
  · exact (List.pairwise_singleton _ _).sublist List.filter_sublist
  · obtain ⟨he, htest⟩ := List.mem_filter.mp he
    rw [List.mem_singleton.mp (List.mem_filter.mp hf).1]
    rw [Bool.and_eq_true, decide_eq_true_eq] at htest
    rcases (h.anchored e he).start_of_hasCode hblank hends htest.2 htest.1 with heq | heq
    · exact heq ▸ hends.le
    · exact le_of_eq heq

end Listed

/-! ## Runs of insertions -/

theorem filter_concat_of_pos {α : Type} {p : α → Bool} {l : List α} {a : α} (h : p a = true) :
    (l ++ [a]).filter p = l.filter p ++ [a] := by
  rw [List.filter_append, List.filter_cons_of_pos h, List.filter_nil]

theorem filter_concat_of_neg {α : Type} {p : α → Bool} {l : List α} {a : α} (h : p a = false) :
    (l ++ [a]).filter p = l.filter p := by
  rw [List.filter_append, List.filter_cons_of_neg (by rw [h]; exact Bool.false_ne_true),
    List.filter_nil, List.append_nil]

/-- The new members tell what was asked for at their places. -/
structure Answers (list : BracketedList) (rs : List NewMember) (added : Nat → List Node)
    (fs : List Node) : Prop where
  before : ∀ i r, list.members[i]? = some r → List.Forall₂ NewMember.tells
    (rs.filter fun r => r.index == some i) (added i)
  after : List.Forall₂ NewMember.tells
    (rs.filter fun r => (r.index.bind (list.members[·]?)).isNone) fs

namespace Answers

variable (h : Answers list rs added fs) {m : Node} (hm : r.tells m)

include h hm

theorem front {i : Nat} {neighbour : Range} (hindex : r.index = some i)
    (hneighbour : list.members[i]? = some neighbour) :
    Answers list (rs ++ [r]) (Function.update added i (added i ++ [m])) fs where
  before j r' hr' := by
    by_cases hij : j = i
    · subst hij
      rw [Function.update_self, filter_concat_of_pos]
      · exact List.rel_append (h.before j r' hr') (.cons hm .nil)
      · exact beq_iff_eq.mpr hindex
    · have hne : (r.index == some j) = false := by
        rw [beq_eq_false_iff_ne, hindex, Ne, Option.some.injEq]
        exact fun heq => hij heq.symm
      rw [Function.update_of_ne hij, filter_concat_of_neg]
      · exact h.before j r' hr'
      · exact hne
  after := by
    rw [filter_concat_of_neg]
    · exact h.after
    · rw [hindex, Option.bind_some, hneighbour]
      rfl

theorem behind (hindex : r.index.bind (list.members[·]?) = none) :
    Answers list (rs ++ [r]) added (fs ++ [m]) where
  before j r' hr' := by
    rw [filter_concat_of_neg]
    · exact h.before j r' hr'
    · rw [beq_eq_false_iff_ne]
      intro heq
      rw [heq, Option.bind_some, hr'] at hindex
      cases hindex
  after := by
    rw [filter_concat_of_pos (by rw [hindex]; rfl)]
    exact List.rel_append h.after (.cons hm .nil)

end Answers

/-- A draft of edits, with the lists whose brackets are moved and the members with a comma. -/
def Draft.held (edits : List TextEdit) (moved : List Pointer) (separated : List Position) : Draft :=
  ⟨edits.map (·, .normal), [], [], [], [], [], moved, separated⟩

theorem Draft.insert_held (edits : List TextEdit) (moved : List Pointer)
    (separated : List Position) (p : Position) (text : String) :
    (held edits moved separated).insert p text =
      held (edits ++ [TextEdit.insert p text]) moved separated := by
  rw [held, held, List.map_append]
  rfl

/-- What a draft holds after a run of insertions into one list. -/
structure Holding (s : Scene) (list : BracketedList) (n : Node) (gone : Nat → Bool) (tail : Tail)
    (x y : Position) (rs : List NewMember) (added : Nat → List Node) (fs : List Node)
    (edits : List TextEdit) (moved : List Pointer) (separated : List Position) : Prop
    extends Listed s list n gone tail x y added fs edits, Answers list rs added fs where
  unmoved : list.pointer ∉ moved → ∀ e ∈ edits, e.range.stop ≤ y
  fresh : tail = .lineParted → x ∉ separated → ∀ e ∈ edits, e.range.start < x
  parted : tail = .lineParted → x ∈ separated → ∃ e ∈ edits, e.range.start = y
  starts : tail = .lineEnded ∨ tail = .lineParted →
    ∀ e ∈ (edits.filter fun e => decide (e.range.start = y)).head?, StartsLine e.newText.toList

namespace Holding

variable {moved : List Pointer} {separated : List Position}

theorem empty : Holding s list n gone tail x y [] (fun _ => []) [] [] [] [] where
  anchored := fun e he => absurd he List.not_mem_nil
  apart := ⟨fun e he => absurd he List.not_mem_nil, .nil⟩
  inFront _ _ _ := rfl
  ended _ := rfl
  led _ := rfl
  ordered := .nil
  before _ _ _ := .nil
  after := .nil
  unmoved := fun _ e he => absurd he List.not_mem_nil
  fresh := fun _ _ e he => absurd he List.not_mem_nil
  parted := fun _ hx => absurd hx List.not_mem_nil
  starts := fun _ e he => by cases he

variable (h : Holding s list n gone tail x y rs added fs edits moved separated)
  (hends : s.Ends list last tail x y)
  (hblank : Text.allBlank s.printer.indentUnit.toList = true) (hjoins : r.Joins n)

include h hends hblank hjoins

theorem insertBefore (hapart : list.members.Pairwise Range.Before)
    (hproper : ∀ r ∈ list.members, r.Proper) {i : Nat} {neighbour : Range}
    (hindex : r.index = some i) (hneighbour : list.members[i]? = some neighbour)
    (hgone : gone i = false) : ∃ m edits',
      s.insertBefore (.held edits moved separated) list neighbour r.fragment =
        .held edits' moved separated ∧
      Holding s list n gone tail x y (rs ++ [r]) (Function.update added i (added i ++ [m])) fs edits'
        moved separated := by
  have hlt := hends.inFront neighbour (List.mem_of_getElem? hneighbour)
  obtain ⟨level, bs, hbs, hwrite⟩ : ∃ level bs, Text.allBlank bs = true ∧
      s.insertBefore (.held edits moved separated) list neighbour r.fragment =
        (Draft.held edits moved separated).insert neighbour.start
          (r.fragment level ++ String.ofList (',' :: bs)) := by
    rw [Scene.insertBefore]
    split
    · refine ⟨s.level neighbour.start.line,
        '\n' :: (s.indent (s.level neighbour.start.line)).toList,
        Anchored.allBlank_indent hblank _,
        congrArg (Draft.insert _ neighbour.start) (String.toList_inj.mp (by simp))⟩
    · exact ⟨list.level, [' '], by decide, rfl⟩
  obtain ⟨m, hm, hended, hreads⟩ := hjoins.exists_ended level (show Text.allBlank [] = true from rfl) hbs
  have htext : (r.fragment level ++ String.ofList (',' :: bs)).toList =
      [] ++ ((r.fragment level).toList ++ ',' :: bs) := by simp
  rw [← htext] at hended hreads
  refine ⟨m, _, hwrite.trans (Draft.insert_held _ _ _ _ _), ?_⟩
  have hanchored : Anchored s list gone x y
      (.insert neighbour.start (r.fragment level ++ String.ofList (',' :: bs))) := by
    refine .inFront i neighbour _ hneighbour hgone (fun hempty => ?_) hreads
    rw [hempty] at htext
    exact absurd htext (by simp)
  refine ⟨h.toListed.front hends hneighbour hapart hproper hanchored hended,
    h.toAnswers.front hm hindex hneighbour, fun hmoved => ?_, fun htail hx => ?_,
    fun htail hx => ?_, fun htail => ?_⟩
  · exact List.forall_mem_append.mpr ⟨h.unmoved hmoved,
      List.forall_mem_singleton.mpr (le_of_lt (lt_of_lt_of_le hlt hends.le))⟩
  · exact List.forall_mem_append.mpr ⟨h.fresh htail hx, List.forall_mem_singleton.mpr hlt⟩
  · obtain ⟨e, he, hy⟩ := h.parted htail hx
    exact ⟨e, List.mem_append_left _ he, hy⟩
  · rw [filter_concat_of_neg]
    · exact h.starts htail
    · exact decide_eq_false (ne_of_lt (lt_of_lt_of_le hlt hends.le))

omit hblank hjoins in
theorem insert {m : Node} {text : String} (hblank : Text.allBlank s.printer.indentUnit.toList = true)
    (hm : r.tells m) (hindex : r.index.bind (list.members[·]?) = none) (hne : text ≠ "")
    (hbreak : Break text.toList) (hreads : Reads Break text.toList (codeOf text.toList))
    (hended : tail.leads = false → commaEnded (Spelled n.Lists) [m] (codeOf text.toList))
    (hled : tail.leads = true → commaLed (Spelled n.Lists) [m] (codeOf text.toList))
    (hparted : tail = .lineParted → x ∈ separated)
    (hstarts : tail = .lineEnded → StartsLine text.toList) :
    Holding s list n gone tail x y (rs ++ [r]) added (fs ++ [m])
      (edits ++ [TextEdit.insert y text]) moved separated := by
  have hanchored : Anchored s list gone x y (.insert y text) :=
    .behind y text (Or.inr rfl) hne hbreak hreads
  have hlisted := h.toListed.behind hends (m := m)
    (List.forall_mem_singleton.mpr ⟨hanchored, hends.le⟩)
    (h.apart.concat (le_refl _) fun f hf => (h.anchored f hf).apart_of_le hends rfl (le_refl _))
    (by rwa [List.flatMap_singleton]) (by rwa [List.flatMap_singleton])
    (Listed.ordered_of_last hends hblank h.toListed)
  refine ⟨hlisted, h.toAnswers.behind hm hindex, fun hmoved => ?_, fun htail hx => ?_,
    fun _ _ => ⟨_, List.mem_concat_self, rfl⟩, fun htail => ?_⟩
  · exact List.forall_mem_append.mpr ⟨h.unmoved hmoved, List.forall_mem_singleton.mpr (le_refl _)⟩
  · exact absurd (hparted htail) hx
  · rw [filter_concat_of_pos]
    · -- the first text there is an earlier one, or this one
      cases hfirst : edits.filter fun e => decide (e.range.start = y) with
      | cons e es =>
          intro e' he'
          refine h.starts htail e' ?_
          rw [hfirst]
          exact he'
      | nil =>
          rintro _ ⟨⟩
          rcases htail with htail | htail
          · exact hstarts htail
          · obtain ⟨e, he, hy⟩ := h.parted htail (hparted htail)
            exact absurd (decide_eq_true hy) (List.filter_eq_nil_iff.mp hfirst e he)
    · exact decide_eq_true rfl

omit hblank hjoins in
theorem part {m : Node} {text : String} (htail : tail = .lineParted) (hx : x ∉ separated)
    (hm : r.tells m) (hindex : r.index.bind (list.members[·]?) = none) (hne : text ≠ "")
    (hstarts : StartsLine text.toList) (hreads : Reads Break text.toList (codeOf text.toList))
    (hcomma : Reads Break ",".toList (codeOf ",".toList))
    (hled : commaLed (Spelled n.Lists) [m] (codeOf ",".toList ++ codeOf text.toList)) :
    Holding s list n gone tail x y (rs ++ [r]) added (fs ++ [m])
      ((edits ++ [TextEdit.insert x ","]) ++ [TextEdit.insert y text]) moved (x :: separated) := by
  have hlt := hends.lt_of_parted htail
  have hfresh := h.fresh htail hx
  have hfirst : Anchored s list gone x y (.insert x ",") :=
    .behind x "," (Or.inl rfl) (by decide) (Lexer.break_cons (by decide)) hcomma
  have hsecond : Anchored s list gone x y (.insert y text) :=
    .behind y text (Or.inr rfl) hne hstarts.break hreads
  have hleads : tail.leads = true := by
    rw [htail]
    rfl
  have hapart : StandApart ((edits ++ [TextEdit.insert x ","]) ++ [TextEdit.insert y text]) := by
    have hanchored := List.forall_mem_append.mpr
      ⟨h.anchored, List.forall_mem_singleton.mpr hfirst⟩
    exact (h.apart.concat (le_refl _) fun f hf =>
      (h.anchored f hf).apart_of_le hends rfl hends.le).concat (le_refl _) fun f hf =>
        (hanchored f hf).apart_of_le hends rfl (le_refl _)
  rw [List.append_assoc] at hapart ⊢
  refine ⟨h.toListed.behind hends (m := m) ?_ hapart (fun hnot => ?_) (fun _ => ?_) ?_,
    h.toAnswers.behind hm hindex, fun hmoved => ?_, fun _ hnot => absurd List.mem_cons_self hnot,
    fun _ _ => ⟨.insert y text, by simp, rfl⟩, fun _ => ?_⟩
  · exact List.forall_mem_cons.mpr ⟨⟨hfirst, le_refl _⟩,
      List.forall_mem_singleton.mpr ⟨hsecond, hends.le⟩⟩
  · rw [hnot] at hleads
    cases hleads
  · rwa [List.singleton_append, List.flatMap_cons, List.flatMap_singleton]
  · -- nothing has been put in there before
    have hnone : (edits.filter fun e => decide (x ≤ e.range.start) && e.hasCode) = [] := by
      refine List.filter_eq_nil_iff.mpr fun e he htest => ?_
      rw [Bool.and_eq_true, decide_eq_true_eq] at htest
      exact absurd htest.1 (not_le_of_gt (hfresh e he))
    rw [List.filter_append, hnone, List.nil_append]
    refine List.Pairwise.sublist List.filter_sublist ?_
    exact List.pairwise_pair.mpr hends.le
  · refine List.forall_mem_append.mpr ⟨h.unmoved hmoved, ?_⟩
    exact List.forall_mem_cons.mpr ⟨hends.le, List.forall_mem_singleton.mpr (le_refl _)⟩
  · have hnone : (edits.filter fun e => decide (e.range.start = y)) = [] := by
      refine List.filter_eq_nil_iff.mpr fun e he heq => ?_
      rw [decide_eq_true_eq] at heq
      exact absurd (heq ▸ hfresh e he) (not_lt_of_ge hends.le)
    have hnot : ([TextEdit.insert x ","].filter fun e => decide (e.range.start = y)) = [] :=
      List.filter_eq_nil_iff.mpr (List.forall_mem_singleton.mpr fun heq =>
        absurd (of_decide_eq_true heq) (ne_of_lt hlt))
    rw [List.filter_append, hnone, List.nil_append, List.filter_append, hnot, List.nil_append]
    intro e he
    rw [List.mem_singleton.mp (List.mem_filter.mp (List.mem_of_mem_head? he)).1]
    exact hstarts

omit hjoins in
theorem moveBracket (hs : s.tokens.Sorted)
    (htail : tail ≠ .lineEnded ∧ tail ≠ .lineParted) : ∃ edits' moved',
      s.moveBracket (.held edits moved separated) list = .held edits' moved' separated ∧
      Holding s list n gone tail x y rs added fs edits' moved' separated := by
  have hfresh : tail = .lineParted → x ∉ separated → ∀ e ∈ edits, e.range.start < x :=
    fun heq => absurd heq htail.2
  by_cases hmoved : list.pointer ∈ moved
  · refine ⟨edits, moved, ?_, h⟩
    rw [Scene.moveBracket, if_pos]
    exact List.contains_iff_mem.mpr hmoved
  have hsame : Holding s list n gone tail x y rs added fs edits (list.pointer :: moved) separated :=
    ⟨h.toListed, h.toAnswers, fun hnot => absurd List.mem_cons_self hnot, h.fresh, h.parted,
      h.starts⟩
  rw [Scene.moveBracket, if_neg (by rwa [List.contains_iff_mem])]
  split
  · next i hi =>
    split
    · next htest =>
      rw [Bool.and_eq_true, decide_eq_true_eq, Bool.not_eq_true'] at htest
      obtain ⟨k, rfl⟩ := Nat.exists_eq_succ_of_ne_zero (Nat.ne_of_gt htest.1)
      obtain ⟨t, ht⟩ := TokenStream.exists_get?_of_startingAt? hi
      obtain ⟨c, hc, hstart⟩ := TokenStream.startingAt?_spec hi
      have hle : t.range.stop ≤ list.closing.start := hstart ▸ hs.before ht hc (Nat.lt_succ_self k)
      have hgap := hends.le_gap k t hi ht
      refine ⟨edits ++ [⟨⟨t.range.stop, list.closing.start⟩, "\n" ++ s.indent list.level⟩],
        list.pointer :: moved, ?_, ?_⟩
      · rw [Nat.succ_sub_one, TokenStream.rangeAt_of_get? ht, Draft.held, Draft.held,
          List.map_append]
        rfl
      have hcode := Anchored.codeOf_bracket hblank list.level
      have hnone : ∀ P, TextEdit.codesAt P
          [⟨⟨t.range.stop, list.closing.start⟩, "\n" ++ s.indent list.level⟩] = [] := by
        intro P
        rw [TextEdit.codesAt, List.flatMap_eq_nil_iff]
        intro e he
        rw [List.mem_singleton.mp (List.mem_filter.mp he).1, hcode]
      refine ⟨⟨?_, ?_, fun i r hr => ?_, fun hleads => ?_, fun hleads => ?_, ?_⟩, h.toAnswers,
        fun hnot => absurd List.mem_cons_self hnot, fun heq => absurd heq htail.2,
        fun heq => absurd heq htail.2,
        fun heq => absurd heq (not_or.mpr htail)⟩
      · exact List.forall_mem_append.mpr ⟨h.anchored,
          List.forall_mem_singleton.mpr (.bracket k t hi ht htest.2 hle)⟩
      · exact h.apart.concat hle fun f hf => Or.inl ((h.unmoved hmoved f hf).trans hgap)
      · rw [TextEdit.codesAt_append, hnone, List.append_nil]
        exact h.inFront i r hr
      · rw [TextEdit.codesAt_append, hnone, List.append_nil]
        exact h.ended hleads
      · rw [TextEdit.codesAt_append, hnone, List.append_nil]
        exact h.led hleads
      · rw [filter_concat_of_neg]
        · exact h.ordered
        · rw [TextEdit.hasCode, hcode]
          exact Bool.and_false _
    · exact ⟨edits, _, rfl, hsame⟩
  · exact ⟨edits, _, rfl, hsame⟩

theorem insert_ended (level : Nat) (text : String) {a : Char} {as : List Char}
    (hindex : r.index.bind (list.members[·]?) = none) (hleads : tail.leads = false)
    (has : Text.allBlank (a :: as) = true) (hstarts : tail = .lineEnded → a = '\n')
    (htext : text.toList = (a :: as) ++ ((r.fragment level).toList ++ ',' :: [])) : ∃ m,
    Holding s list n gone tail x y (rs ++ [r]) added (fs ++ [m])
      (edits ++ [TextEdit.insert y text]) moved separated := by
  obtain ⟨m, hm, hended, hreads⟩ := hjoins.exists_ended level has (show Text.allBlank [] = true from rfl)
  rw [← htext] at hended hreads
  refine ⟨m, h.insert hends hblank hm hindex ?_ ?_ (hreads.mono fun _ _ => trivial)
    (fun _ => hended) (fun hled => ?_) (fun htail => ?_) fun htail => ?_⟩
  · intro hempty
    rw [hempty] at htext
    exact absurd htext (by simp)
  · rw [htext]
    exact Lexer.break_of_isBlank (List.all_eq_true.mp has a List.mem_cons_self)
  · rw [hleads] at hled
    cases hled
  · rw [htail] at hleads
    cases hleads
  · rw [htext, hstarts htail]
    rfl

/-- A member with a comma in front of it at the end of a list. -/
theorem insert_led (level : Nat) (text : String) {bs : List Char}
    (hindex : r.index.bind (list.members[·]?) = none) (hleads : tail.leads = true)
    (hbs : Text.allBlank bs = true) (hparted : tail = .lineParted → x ∈ separated)
    (htext : text.toList = ',' :: (bs ++ (r.fragment level).toList)) : ∃ m,
    Holding s list n gone tail x y (rs ++ [r]) added (fs ++ [m])
      (edits ++ [TextEdit.insert y text]) moved separated := by
  obtain ⟨m, hm, hled, hreads⟩ := hjoins.exists_led level hbs
  rw [← htext] at hled hreads
  refine ⟨m, h.insert hends hblank hm hindex ?_ ?_ hreads (fun hended => ?_) (fun _ => hled) hparted
    fun htail => ?_⟩
  · intro hempty
    rw [hempty] at htext
    exact absurd htext (by simp)
  · rw [htext]
    exact Lexer.break_cons (by decide)
  · rw [hended] at hleads
    cases hleads
  · rw [htail] at hleads
    cases hleads

theorem appendAs (hs : s.tokens.Sorted) (hindex : r.index.bind (list.members[·]?) = none) :
    ∃ m edits' moved' separated',
      s.appendAs list last x y tail (.held edits moved separated) r.fragment =
        .held edits' moved' separated' ∧
      Holding s list n gone tail x y (rs ++ [r]) added (fs ++ [m]) edits' moved' separated' := by
  have hindent : Text.allBlank ('\n' :: (s.indent (s.level last.start.line)).toList) = true :=
    Anchored.allBlank_indent hblank _
  have hmoves : ∀ {m : Node} {text : String}, tail ≠ .lineEnded ∧ tail ≠ .lineParted →
      Holding s list n gone tail x y (rs ++ [r]) added (fs ++ [m])
        (edits ++ [TextEdit.insert y text]) moved separated →
      ∃ edits' moved', (if (r.fragment list.level).toList.contains '\n'
          then s.moveBracket ((Draft.held edits moved separated).insert y text) list
          else (Draft.held edits moved separated).insert y text) = .held edits' moved' separated ∧
        Holding s list n gone tail x y (rs ++ [r]) added (fs ++ [m]) edits' moved' separated := by
    intro m text htail hinsert
    rw [Draft.insert_held]
    split
    · exact hinsert.moveBracket hends hblank hs htail
    · exact ⟨_, _, rfl, hinsert⟩
  cases tail with
  | lineEnded =>
      obtain ⟨m, hinsert⟩ := h.insert_ended hends hblank hjoins (s.level last.start.line)
        ("\n" ++ s.indent (s.level last.start.line) ++ r.fragment (s.level last.start.line) ++ ",")
        hindex rfl hindent (fun _ => rfl) (by simp)
      exact ⟨m, _, _, _, Draft.insert_held .., hinsert⟩
  | lineParted =>
      rw [Scene.appendAs]
      by_cases hx : x ∈ separated
      · obtain ⟨m, hinsert⟩ := h.insert_led hends hblank hjoins (s.level last.start.line)
          ("," ++ ("\n" ++ s.indent (s.level last.start.line) ++
            r.fragment (s.level last.start.line))) hindex rfl hindent (fun _ => hx) (by simp)
        refine ⟨m, _, _, _, (if_pos ?_).trans (Draft.insert_held ..), hinsert⟩
        exact List.contains_iff_mem.mpr hx
      · obtain ⟨m, hm, hled, hcomma, hreads⟩ :=
          hjoins.exists_parted (s.level last.start.line) hindent
        have hmark : [','] = ",".toList := by decide
        have htext : '\n' :: (s.indent (s.level last.start.line)).toList ++
            (r.fragment (s.level last.start.line)).toList = ("\n" ++
              s.indent (s.level last.start.line) ++ r.fragment (s.level last.start.line)).toList := by
          simp
        rw [htext, hmark] at hled
        rw [htext] at hreads
        rw [hmark] at hcomma
        refine ⟨m, _, _, _, (if_neg ?_).trans ?_, h.part hends rfl hx hm hindex ?_ ?_ hreads hcomma
          hled⟩
        · rwa [List.contains_iff_mem]
        · rw [← Draft.insert_held, ← Draft.insert_held]
          rfl
        · intro hempty
          rw [hempty] at htext
          exact absurd htext (by simp)
        · rw [← htext]
          rfl
  | lineLed =>
      obtain ⟨m, hinsert⟩ := h.insert_led hends hblank hjoins (s.level last.start.line)
        ("," ++ ("\n" ++ s.indent (s.level last.start.line) ++
          r.fragment (s.level last.start.line))) hindex rfl hindent Tail.noConfusion (by simp)
      exact ⟨m, _, _, _, Draft.insert_held .., hinsert⟩
  | inlineEnded =>
      obtain ⟨m, hinsert⟩ := h.insert_ended hends hblank hjoins list.level
        (" " ++ r.fragment list.level ++ ",") hindex rfl
        (show Text.allBlank [' '] = true by decide) Tail.noConfusion (by simp)
      obtain ⟨edits', moved', heq, hholding⟩ := hmoves ⟨Tail.noConfusion, Tail.noConfusion⟩ hinsert
      exact ⟨m, _, _, _, heq, hholding⟩
  | inlineLed =>
      obtain ⟨m, hinsert⟩ := h.insert_led hends hblank hjoins list.level
        (", " ++ r.fragment list.level) hindex rfl (show Text.allBlank [' '] = true by decide)
        Tail.noConfusion (by simp)
      obtain ⟨edits', moved', heq, hholding⟩ := hmoves ⟨Tail.noConfusion, Tail.noConfusion⟩ hinsert
      exact ⟨m, _, _, _, heq, hholding⟩

theorem insertMember (hs : s.tokens.Sorted) (hlast : list.members.getLast? = some last)
    (hapart : list.members.Pairwise Range.Before) (hproper : ∀ r ∈ list.members, r.Proper)
    (hgone : ∀ i r', r.index = some i → list.members[i]? = some r' → gone i = false) :
    ∃ d' added' fs' edits' moved' separated',
      s.insertMember (.held edits moved separated) list r.index r.fragment = .ok d' ∧
      d' = .held edits' moved' separated' ∧
      Holding s list n gone tail x y (rs ++ [r]) added' fs' edits' moved' separated' := by
  rw [Scene.insertMember, hlast]
  cases hindex : r.index.bind (list.members[·]?) with
  | none =>
      obtain ⟨m, edits', moved', separated', heq, hholding⟩ :=
        h.appendAs hends hblank hjoins hs hindex
      exact ⟨_, _, _, _, _, _, hends.append_eq _ _, heq, hholding⟩
  | some neighbour =>
      obtain ⟨i, hi, hneighbour⟩ := Option.bind_eq_some_iff.mp hindex
      obtain ⟨m, edits', heq, hholding⟩ := h.insertBefore hends hblank hjoins hapart hproper hi
        hneighbour (hgone i neighbour hi hneighbour)
      exact ⟨_, _, _, _, _, _, rfl, heq, hholding⟩

omit h hjoins in
theorem exists_writeAll (hs : s.tokens.Sorted) (hlast : list.members.getLast? = some last)
    (hapart : list.members.Pairwise Range.Before) (hproper : ∀ r ∈ list.members, r.Proper) :
    ∀ {os : List Operation} {rs rs' : List NewMember} {added : Nat → List Node} {fs : List Node}
      {edits : List TextEdit} {moved : List Pointer} {separated : List Position},
    Holding s list n gone tail x y rs added fs edits moved separated →
    List.Forall₂ (fun o r => (∀ d, s.write d o = s.insertMember d list r.index r.fragment) ∧
      r.Joins n ∧ ∀ i r', r.index = some i → list.members[i]? = some r' → gone i = false) os rs' →
    ∃ added' fs' edits' moved' separated',
      s.writeAll (.held edits moved separated) os = .ok (.held edits' moved' separated') ∧
      Holding s list n gone tail x y (rs ++ rs') added' fs' edits' moved' separated'
  | [], rs, _, added, fs, edits, moved, separated, h, .nil =>
      ⟨added, fs, edits, moved, separated, rfl, by rwa [List.append_nil]⟩
  | o :: os, rs, r :: rs', _, _, _, _, _, h, .cons ⟨hwrite, hjoins, hgone⟩ hall => by
      obtain ⟨_, _, _, _, _, _, heq, rfl, hholding⟩ :=
        h.insertMember hends hblank hjoins hs hlast hapart hproper hgone
      obtain ⟨added', fs', edits', moved', separated', hwriteAll, hholding'⟩ :=
        exists_writeAll hs hlast hapart hproper hholding hall
      refine ⟨added', fs', edits', moved', separated', ?_, by rwa [List.append_cons]⟩
      rw [Scene.writeAll, hwrite, heq]
      exact hwriteAll

end Holding

end

end AnnotationEdit

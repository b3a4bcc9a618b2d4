import AnnotationEdit.Proofs.Deletion.Closings
import AnnotationEdit.Proofs.Syntax.Brackets
import AnnotationEdit.Proofs.Writer.Refilling

/-!
# Deletions in a list in brackets

Members of lists that are deleted, of which some are those of one list in brackets that keeps a member:
what goes from the list and what lies between its tokens (`ListCut.of_removable`). In front of the
closing bracket stays a token that opens no list: a comma or the last token of a member.
-/

namespace AnnotationEdit

open Syntax (Node Bracketed Marks commaEnded comma_of_commaEnded)
open DeletionRange (Removable allEdits)

theorem Token.isOpener_of_isBracket {t : Token} (h : t.isBracket = false) : t.isOpener = false := by
  have hnone := List.any_eq_false.mp h
  rw [isOpener, Bool.eq_false_iff.mpr (hnone "[" (by decide)),
    Bool.eq_false_iff.mpr (hnone "(" (by decide)),
    Bool.eq_false_iff.mpr (hnone openBrace (by decide))]
  rfl

theorem Token.isOpener_of_is {t : Token} {mark : String} (h : t.is mark = true)
    (hmark : mark ∉ ["[", "(", openBrace]) : t.isOpener = false := by
  have hnone : ∀ other ∈ ["[", "(", openBrace], t.is other = false := fun other hother =>
    is_eq_false_of_is h fun heq => hmark (heq ▸ hother)
  rw [isOpener, hnone "[" (by decide), hnone "(" (by decide), hnone openBrace (by decide)]
  rfl

theorem Balanced.not_opener {ts : List Token} (h : Balanced ts) :
    ∀ t ∈ ts.getLast?, t.isOpener = false := by
  induction h with
  | nil => nofun
  | @cons t ts ht hts ih =>
      rcases List.eq_nil_or_concat ts with rfl | ⟨front, last, rfl⟩
      · intro u hu
        rw [← Option.some.inj hu]
        exact Token.isOpener_of_isBracket ht
      · rwa [List.concat_eq_append, ← List.cons_append, List.getLast?_concat,
          ← List.getLast?_concat, ← List.concat_eq_append]
  | @nested opening closing us vs hpairs hus hvs _ ih =>
      rcases List.eq_nil_or_concat vs with rfl | ⟨front, last, rfl⟩
      · rw [← List.cons_append, List.getLast?_concat]
        intro u hu
        rw [← Option.some.inj hu]
        cases hpairs with
        | parentheses _ hclosing => exact Token.isOpener_of_is hclosing (by decide)
        | square _ hclosing => exact Token.isOpener_of_is hclosing (by decide)
        | curly _ hclosing => exact Token.isOpener_of_is hclosing (by decide)
      · rw [List.concat_eq_append, ← List.cons_append, ← List.cons_append, ← List.append_assoc,
          List.getLast?_concat, ← List.getLast?_concat, ← List.concat_eq_append]
        exact ih

namespace Syntax

theorem Node.Lists.balanced {n m : Node} {ts : List Token} (h : n.Lists m ts) : Balanced ts := by
  cases n with
  | target t =>
      obtain ⟨a, _, ha⟩ := h
      exact ha.balanced
  | record r =>
      obtain ⟨e, _, he⟩ := h
      exact balanced_entry _ (Nat.lt_succ_self _) he
  | collection c =>
      obtain ⟨v, _, hv⟩ := h
      exact balanced_value _ (Nat.lt_succ_self _) hv
  | groupItems i =>
      obtain ⟨a, _, ha, _⟩ := h
      exact ha.balanced
  | _ => exact h.elim

variable {n : Node} {opening closing : Token} {front us back code : List Token} {N : Nat}
  {flagged cut : Token → Bool} {gone : Nat → Bool}

theorem Bracketed.exists_last (h : Bracketed n opening closing us)
    (hcode : code = front ++ opening :: (us ++ closing :: back)) (htame : Tame code)
    (hordered : Token.Ordered N code) (hcuts : CutsMembers flagged cut code)
    (hmarks : Marks flagged (fun p => gone p.2) (fun p => p.1.range) n.members.zipIdx code)
    (hsome : n.staying gone ≠ []) :
    ∃ vs w, kept cut us = vs ++ [w] ∧ w.isOpener = false := by
  have hlast : kept cut us ≠ [] ∧ ∀ t ∈ (kept cut us).getLast?, t.isOpener = false := by
    obtain ⟨_, ⟨_, hended⟩ | ⟨_, ⟨hnone, _⟩ | ⟨es, e, us', vs', _, hkept, _, he⟩⟩⟩ :=
      h.kept_cases hcode htame hordered hcuts hmarks
    · refine ⟨fun hnil => ?_, fun t ht => ?_⟩
      · obtain ⟨p, ps, hps⟩ := List.exists_cons_of_ne_nil hsome
        rw [hnil, hps] at hended
        obtain ⟨us, comma, vs, heq, _⟩ := hended
        cases us <;> cases heq
      · exact Token.isOpener_of_is (comma_of_commaEnded hended t ht) (by decide)
    · exact absurd hnone hsome
    · have hne := (n.written_numbers.spans e vs' he).ne_nil
      rw [hkept, List.getLast?_append_of_ne_nil _ hne]
      exact ⟨List.append_ne_nil_of_right_ne_nil us' hne, Balanced.not_opener he.balanced⟩
  obtain ⟨hne, hopens⟩ := hlast
  rcases List.eq_nil_or_concat (kept cut us) with hnil | ⟨vs, w, hw⟩
  · exact absurd hnil hne
  · rw [List.concat_eq_append] at hw
    refine ⟨vs, w, hw, hopens w ?_⟩
    rw [hw, List.getLast?_concat]
    rfl

end Syntax

theorem ListCut.of_removable {s : Scene} {list : BracketedList} {n : Node} {front us back : List Token}
    {opening closing : Token} {flagged : Token → Bool} {gone : Nat → Bool}
    {ranges : List DeletionRange}
    (hremovable : Removable (s.deletionContext .empty) flagged ranges)
    (hcode : s.code = front ++ opening :: (us ++ closing :: back))
    (h : Bracketed n opening closing us) (hclosing : list.closing = closing.range)
    (hmembers : list.members = n.members.map Node.range)
    (hmarks : Marks flagged (fun p => gone p.2) (fun p => p.1.range) n.members.zipIdx s.code)
    (hsome : n.staying gone ≠ []) :
    ListCut s list n front opening us closing back flagged gone
      (allEdits (s.deletionContext .empty) ranges) where
  onLines := hremovable.onLines
  code_eq := hcode
  bracketed := h
  closing_eq := hclosing
  members_eq := hmembers
  tame := hremovable.tame
  clean := hremovable.cleanCut
  apart := hremovable.standApart
  deletes := hremovable.deletes
  cuts := hremovable.cutsMembers
  marks := hmarks
  gap i t hstart ht hfirst e he := by
    have hsorted : s.tokens.Sorted := hremovable.onLines.sorted
    have hmem : closing ∈ s.code := by
      rw [hcode]
      exact List.mem_append_right _ (List.mem_cons_of_mem _
        (List.mem_append_right _ List.mem_cons_self))
    obtain ⟨k, hk⟩ := TokenStream.exists_get? (List.mem_of_mem_filter hmem)
    have hget : s.tokens.get? (i + 1) = some closing := by
      rw [TokenStream.startingAt?_eq_some hsorted hk] at hstart
      rwa [← Option.some.inj hstart]
    have hline : closing.range.start.line ≤ t.range.stop.line := by
      refine Nat.le_of_not_lt fun hlt => ?_
      rw [TokenStream.isFirstOnLine, hget] at hfirst
      exact Bool.eq_false_iff.mp (Bool.or_eq_false_iff.mp hfirst).2
        (TokenStream.test_eq_true.mpr ⟨t, ht, decide_eq_true hlt⟩)
    have hordered : Token.Ordered s.tokens.size s.code := hsorted.sublist List.filter_sublist
    obtain ⟨hkept, _⟩ := h.kept_cases hcode hremovable.tame hordered hremovable.cutsMembers hmarks
    obtain ⟨vs, w, hvs, hw⟩ :=
      h.exists_last hcode hremovable.tame hordered hremovable.cutsMembers hmarks hsome
    rw [hvs, List.append_assoc vs, List.singleton_append, ← List.append_assoc] at hkept
    exact hremovable.stop_le_or_start_le ht hget h.isCloser hline hkept hw he

end AnnotationEdit

import AnnotationEdit.Proofs.Syntax.Meaning
import AnnotationEdit.Proofs.Token.Appending

/-!
# Files with more items

Items written one after the other are a file, wherever the parts of it come from. Behind its last
declaration a file is cut in two, with no declaration in the second part
(`Syntax.exists_last_declaration`). A document has a place there and one behind its last token
(`Document.exists_places`), and what is read from a text is known from its code tokens alone
(`Document.exists_parse_of_codes`).
-/

namespace AnnotationEdit

namespace Syntax

/-! ## Items one after the other -/

theorem consecutive_append {α : Type} {written : α → List Token → Prop} : ∀ {es fs : List α}
    {us vs : List Token}, consecutive written es us → consecutive written fs vs →
    consecutive written (es ++ fs) (us ++ vs)
  | [], fs, us, vs, h, h' => by
      rw [consecutive] at h
      rw [h]
      exact h'
  | e :: es, fs, us, vs, h, h' => by
      obtain ⟨us, ws, rfl, he, hes⟩ := h
      rw [List.append_assoc]
      exact ⟨us, ws ++ vs, rfl, he, consecutive_append hes h'⟩

theorem declarationsOf_append (items more : List Item) :
    declarationsOf (items ++ more) = declarationsOf items ++ declarationsOf more :=
  List.flatMap_append

theorem targetsOf_append (items more : List Item) :
    targetsOf (items ++ more) = targetsOf items ++ targetsOf more :=
  List.flatMap_append

variable {vocabulary : Vocabulary}

theorem eq_nil_of_consecutive {items : List Item}
    (h : consecutive (Item.WrittenAs vocabulary) items []) : items = [] := by
  cases items with
  | nil => rfl
  | cons item items =>
      obtain ⟨us, vs, htokens, hitem, _⟩ := h
      obtain ⟨rfl, -⟩ := List.append_eq_nil_iff.mp htokens.symm
      cases item with
      | inl d =>
          obtain ⟨_, _, _, _, _, hnil, _⟩ := hitem
          cases hnil
      | inr s =>
          obtain ⟨_, _, _, _, _, _, hnil, _⟩ := hitem
          cases hnil

/-- What stands up to the semicolon of the last declaration, and what stands behind it. -/
theorem exists_last_declaration : ∀ {items : List Item} {code : List Token} {d : Declaration},
    consecutive (Item.WrittenAs vocabulary) items code → (declarationsOf items).getLast? = some d →
    ∃ front back us closing vs, items = front ++ back ∧ code = us ++ closing :: vs ∧
      consecutive (Item.WrittenAs vocabulary) front (us ++ [closing]) ∧
      consecutive (Item.WrittenAs vocabulary) back vs ∧ declarationsOf back = [] ∧
      closing.IsMark ";" ∧ closing.range.stop = d.range.stop
  | [], _, _, _, h => by cases h
  | .inr s :: items, code, d, hcode, h => by
      obtain ⟨ts, ws, rfl, hs, hitems⟩ := hcode
      obtain ⟨front, back, us, closing, vs, rfl, rfl, hfront, hback⟩ :=
        exists_last_declaration hitems h
      refine ⟨.inr s :: front, back, ts ++ us, closing, vs, rfl, (List.append_assoc _ _ _).symm, ?_,
        hback⟩
      rw [List.append_assoc]
      exact ⟨ts, _, rfl, hs, hfront⟩
  | .inl e :: items, code, d, hcode, h => by
      obtain ⟨ts, ws, rfl, he, hitems⟩ := hcode
      have hlast : (declarationsOf items).getLast?.or (some e) = some d := by
        rw [← h]
        show _ = (e :: declarationsOf items).getLast?
        rw [List.getLast?_cons, Option.or_some]
      cases hmore : (declarationsOf items).getLast? with
      | some d' =>
          obtain rfl : d' = d := by
            rw [hmore] at hlast
            exact Option.some.inj hlast
          obtain ⟨front, back, us, closing, vs, rfl, rfl, hfront, hback⟩ :=
            exists_last_declaration hitems hmore
          refine ⟨.inl e :: front, back, ts ++ us, closing, vs, rfl,
            (List.append_assoc _ _ _).symm, ?_, hback⟩
          rw [List.append_assoc]
          exact ⟨ts, _, rfl, he, hfront⟩
      | none =>
          obtain rfl : e = d := by
            rw [hmore] at hlast
            exact Option.some.inj hlast
          have hwritten := he
          obtain ⟨first, us, vs, ws', closing, rfl, _, _, _, _, hclosing, hrange⟩ := he
          refine ⟨[.inl e], items, first :: (us ++ (vs ++ ws')), closing, ws, rfl, ?_, ?_, hitems,
            List.getLast?_eq_none_iff.mp hmore, hclosing, by rw [hrange]⟩
          · simp only [List.append_assoc, List.cons_append, List.nil_append]
          · refine ⟨_, [], (List.append_nil _).symm, ?_, rfl⟩
            simpa only [List.append_assoc, List.cons_append] using hwritten

end Syntax

namespace Document

open Syntax (Item)
open Lexer (Place StartsLine Anything Codes)

variable {c : Configuration}

theorem exists_parse_of_codes (uri : String) {cs : List Char} {items : List Item}
    {code : List Token}
    (hitems : Syntax.consecutive (Item.WrittenAs c.aliases) items code)
    (hcodes : Codes cs (code.map Token.plain)) :
    ∃ d, parse uri (String.ofList cs) c = .ok d ∧
      d.tree.bare = ((fileOf uri (String.ofList cs) items).abstraction c.aliases).bare := by
  obtain ⟨tokens, hread, hrespells⟩ := hcodes Position.origin
  rw [← String.toList_ofList (l := cs)] at hread
  obtain ⟨d, hd, hcontent⟩ := exists_parse_of_respells (f := fileOf uri (String.ofList cs) items)
    hread ⟨items, hitems, rfl, rfl⟩ hrespells
  obtain ⟨_, _, _, _, _, _, _, htree, habstraction⟩ := tokens_of_parse hd
  refine ⟨d, hd, ?_⟩
  rw [habstraction, ← htree, Syntax.File.bare_of_content c.aliases hcontent]

/-! ## Places -/

variable {uri text : String} {d : Document}

def referencePlace (d : Document) : Position :=
  (d.syntaxTree.declarations.getLast?.map (·.range.stop)).getD .origin

def targetPlace (d : Document) : Position :=
  (d.tokens.tokens.back?.map (·.range.stop)).getD .origin

/-- The place of references, as a place among the tokens: in front of it the declarations end, and
the items behind it are statements. -/
theorem exists_referencePlace (h : parse uri text c = .ok d) : ∃ front back before after shown rest,
    d.tree = (fileOf uri text (front ++ back)).abstraction c.aliases ∧
    Syntax.declarationsOf back = [] ∧ d.tokens.tokens.toList = before ++ after ∧
    Syntax.consecutive (Item.WrittenAs c.aliases) front (before.filter Token.isCode) ∧
    Syntax.consecutive (Item.WrittenAs c.aliases) back (after.filter Token.isCode) ∧
    d.referencePlace = (before.getLast?.map (·.range.stop)).getD .origin ∧
    Place Anything [] text.toList d.referencePlace (before.map Token.plain) (after.map Token.plain)
      shown rest := by
  obtain ⟨tokens, items, hread, hplain, _, hitems, _, hfile, htree⟩ := tokens_of_parse h
  have hread' : Lexer.tokenizeFrom (Position.origin.after []) text.toList = .ok tokens := hread
  cases hlast : (Syntax.declarationsOf items).getLast? with
  | none =>
      have hplace : d.referencePlace = .origin := by
        rw [referencePlace, hfile]
        show ((Syntax.declarationsOf items).getLast?.map _).getD _ = _
        rw [hlast]
        rfl
      have hindex : (Lines.mk ([] ++ text.toList)).index (Position.origin.after []) = 0 :=
        Lines.index_after (Or.inl nofun)
      refine ⟨[], items, [], d.tokens.tokens.toList, [], text.toList, htree,
        List.getLast?_eq_none_iff.mp hlast, rfl, rfl, hitems, hplace, ?_⟩
      rw [hplace, hplain]
      exact Lexer.place_start hread' hindex
  | some last =>
      obtain ⟨front, back, us, closing, vs, rfl, hcode, hfront, hback, hnone, hmark, hstop⟩ :=
        Syntax.exists_last_declaration hitems hlast
      obtain ⟨before, after, hall, hbefore, hclosing, rfl⟩ := exists_of_filter_eq hcode
      have hplace : d.referencePlace = closing.range.stop := by
        rw [referencePlace, hfile]
        show ((Syntax.declarationsOf (front ++ back)).getLast?.map _).getD _ = _
        rw [hlast, hstop]
        rfl
      rw [← hplain, hall, List.map_append, List.map_cons] at hread'
      obtain ⟨shown, rest, hshown⟩ := Lexer.exists_place hread'
      have hkind : closing.kind = .punctuation := by
        have h := hmark.1
        rw [Token.is, Bool.and_eq_true, beq_iff_eq] at h
        exact h.1
      refine ⟨front, back, before ++ [closing], after, shown, rest, htree, hnone, ?_, ?_, hback, ?_,
        ?_⟩
      · rw [hall, List.append_assoc]
        rfl
      · rw [List.filter_append, hbefore, List.filter_cons_of_pos hclosing]
        exact hfront
      · rw [hplace, List.getLast?_concat]
        rfl
      · rw [hplace, List.map_append]
        exact hshown.mono fun ds _ => Or.inl hkind

/-- A document taken apart at the two places: the declarations end in front of the first one, all
tokens in front of the second one. -/
structure Parts (uri text : String) (c : Configuration) (d : Document)
    (front back : List Item) (before after : List Token) (shown rest shown' rest' : List Char) :
    Prop where
  tree : d.tree = (fileOf uri text (front ++ back)).abstraction c.aliases
  declarations : Syntax.declarationsOf back = []
  writtenFront : Syntax.consecutive (Item.WrittenAs c.aliases) front (before.filter Token.isCode)
  writtenBack : Syntax.consecutive (Item.WrittenAs c.aliases) back (after.filter Token.isCode)
  reference : Place Anything [] text.toList d.referencePlace (before.map Token.plain)
    (after.map Token.plain) shown rest
  target : Place StartsLine shown rest d.targetPlace (after.map Token.plain) [] shown' rest'
  /-- The places are the same when nothing stands between them. -/
  order : (back = [] ∧ d.targetPlace = d.referencePlace) ∨
    (d.tokens.tokens.toList ≠ [] ∧ d.referencePlace < d.targetPlace)

theorem exists_places (h : parse uri text c = .ok d) :
    ∃ front back before after shown rest shown' rest',
      Parts uri text c d front back before after shown rest shown' rest' := by
  obtain ⟨front, back, before, after, shown, rest, htree, hnone, hall, hfront, hback, hplace, hp⟩ :=
    exists_referencePlace h
  obtain ⟨_, _, _, _, hsorted, _⟩ := tokens_of_parse h
  have hlast : d.targetPlace =
      ((before ++ after).getLast?.map (·.range.stop)).getD .origin := by
    rw [targetPlace, ← Array.getLast?_toList, hall]
  have hread := hp.after
  rw [List.nil_append] at hread
  rcases List.eq_nil_or_concat' after with rfl | ⟨middle, last, rfl⟩
  · have hsame : d.targetPlace = d.referencePlace := by rw [hlast, hplace, List.append_nil]
    refine ⟨front, back, before, [], shown, rest, [], rest, htree, hnone, hfront, hback, hp, ?_,
      Or.inl ⟨Syntax.eq_nil_of_consecutive hback, hsame⟩⟩
    refine Lexer.place_start hread ?_
    rw [hsame, ← hp.split]
    exact hp.index
  · rw [List.map_append] at hread
    obtain ⟨shown', rest', hq⟩ := Lexer.exists_place hread
    have hstop : d.targetPlace = last.range.stop := by
      rw [hlast, ← List.append_assoc, List.getLast?_concat]
      rfl
    rw [TokenStream.Sorted, hall] at hsorted
    have hproper := hsorted.proper last
      (List.mem_append_right _ (List.mem_append_right _ List.mem_cons_self))
    have hlt : d.referencePlace < last.range.stop := by
      rw [hplace]
      refine lt_of_le_of_lt ?_ hproper
      cases hbefore : before.getLast? with
      | none => exact Position.origin_le _
      | some t =>
          exact (List.pairwise_append.mp hsorted.apart).2.2 t (List.mem_of_getLast? hbefore) last
            (List.mem_append_right _ List.mem_cons_self)
    refine ⟨front, back, before, middle ++ [last], shown, rest, shown', rest', htree, hnone, hfront,
      hback, hp, ?_, Or.inr ⟨?_, by rwa [hstop]⟩⟩
    · rw [hstop, List.map_append]
      exact hq.mono fun ds => Or.inr
    · rw [hall]
      simp

end Document

end AnnotationEdit

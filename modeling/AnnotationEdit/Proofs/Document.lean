import AnnotationEdit.Document
import AnnotationEdit.Proofs.Syntax.Statements

/-!
# Reading documents

A text is read as a document exactly when its tokens write a list of items; both trees of the
document are those of the items.
-/

namespace AnnotationEdit

namespace Lexer

/-- One step of reading: a blank is dropped, or a token is scanned. -/
theorem tokenizeFrom_eq_ok {p : Position} {c : Char} {cs : List Char} {tokens : List Token}
    (h : tokenizeFrom p (c :: cs) = .ok tokens) :
    (Text.isBlank c = true ∧ tokenizeFrom (p.advance c) cs = .ok tokens) ∨
      ∃ kind tail rest tokens', scan c cs = .ok (kind, tail, rest) ∧
        tokenizeFrom (p.after (c :: tail)) rest = .ok tokens' ∧
        tokens = ⟨kind, String.ofList (c :: tail), ⟨p, p.after (c :: tail)⟩, none⟩ :: tokens' := by
  rw [tokenizeFrom.eq_def p (c :: cs)] at h
  simp only at h
  split at h
  · next hblank => exact Or.inl ⟨hblank, h⟩
  · split at h
    · cases h
    · next kind tail rest hscan =>
      split at h
      · cases h
      · next tokens' hrest =>
        exact Or.inr ⟨kind, tail, rest, tokens', hscan, hrest, (Except.ok.inj h).symm⟩

/-- The tokens that are read have no roles yet. -/
theorem identifier_of_tokenizeFrom : ∀ (n : Nat) {cs : List Char} {p : Position}
    {tokens : List Token}, cs.length ≤ n → tokenizeFrom p cs = .ok tokens →
      ∀ t ∈ tokens, t.identifier = none
  | _, [], p, tokens, _, h => by
      rw [tokenizeFrom.eq_def] at h
      obtain rfl := Except.ok.inj h
      exact fun t ht => absurd ht List.not_mem_nil
  | 0, c :: cs, _, _, hlen, _ => absurd hlen (Nat.not_succ_le_zero _)
  | n + 1, c :: cs, p, tokens, hlen, h => by
      rw [List.length_cons] at hlen
      rcases tokenizeFrom_eq_ok h with ⟨_, hrest⟩ | ⟨kind, tail, rest, tokens', hscan, hrest, rfl⟩
      · exact identifier_of_tokenizeFrom n (by omega) hrest
      · have hshort := congrArg List.length (scan_append hscan)
        rw [List.length_append] at hshort
        intro t ht
        rcases List.mem_cons.mp ht with rfl | ht
        · rfl
        · exact identifier_of_tokenizeFrom n (by omega) hrest t ht

theorem identifier_of_tokenize {text : String} {tokens : List Token}
    (h : tokenize text = .ok tokens) : ∀ t ∈ tokens, t.identifier = none :=
  identifier_of_tokenizeFrom _ (Nat.le_refl _) h

end Lexer

namespace Document

def fileOf (uri text : String) (items : List Syntax.Item) : Syntax.File :=
  ⟨uri, ⟨Position.origin, (Lines.ofString text).stop⟩, Syntax.declarationsOf items,
    Syntax.targetsOf items⟩

theorem parse_eq_ok_iff {uri text : String} {c : Configuration} {d : Document} :
    parse uri text c = .ok d ↔ ∃ tokens items code, Lexer.tokenize text = .ok tokens ∧
      Syntax.consecutive (Syntax.Item.WrittenAs c.aliases) items code ∧
      code.map Token.plain = tokens.filter Token.isCode ∧
      d = ⟨uri, Lines.ofString text,
        TokenStream.ofTokens (tokens.filter Token.isComment ++ code), fileOf uri text items,
        (fileOf uri text items).abstraction c.aliases, false⟩ := by
  unfold parse
  cases htokens : Lexer.tokenize text with
  | error e => simp [bind, Except.bind]
  | ok tokens =>
      have hplain := Lexer.identifier_of_tokenize htokens
      simp only [bind, Except.bind]
      constructor
      · intro h
        split at h
        · cases h
        · next r hparse =>
          obtain ⟨items, hitems, hcode, hfile⟩ := (Syntax.parseTokens_eq_ok_iff hplain).mp hparse
          refine ⟨tokens, items, r.2, rfl, hitems, hcode, ?_⟩
          rw [← Except.ok.inj h, hfile]
          rfl
      · rintro ⟨tokens', items, code, heq, hitems, hcode, rfl⟩
        obtain rfl := Except.ok.inj heq
        have hparse := (Syntax.parseTokens_eq_ok_iff hplain).mpr
          ⟨items, hitems, hcode, (rfl : fileOf uri text items = _)⟩
        rw [hparse]
        rfl

end Document

end AnnotationEdit

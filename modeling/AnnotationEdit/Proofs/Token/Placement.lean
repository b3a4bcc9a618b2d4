import AnnotationEdit.Proofs.Printing.Printable
import AnnotationEdit.Proofs.Token.Relexing

/-!
# Where tokens stand

The tokens of a text and the blanks between them make up the text. The positions the reader counts
while it goes on are those of the byte offsets at which a token starts and stops, and the range cuts
the token out of the text, up to the carriage returns at the end of a line
(`Lexer.blocks_of_tokenize`).
-/

namespace AnnotationEdit

/-! ## Bytes -/

namespace Text

theorem byteLength_cons (c : Char) (cs : List Char) :
    byteLength (c :: cs) = c.utf8Size + byteLength cs := rfl

theorem byteLength_append (cs ds : List Char) :
    byteLength (cs ++ ds) = byteLength cs + byteLength ds := by
  induction cs with
  | nil => exact (Nat.zero_add _).symm
  | cons c cs ih => rw [List.cons_append, byteLength_cons, ih, byteLength_cons, Nat.add_assoc]

/-- A piece without separators goes up to the next separator. -/
theorem pieces_row_append {sep : Char} {row rest : List Char} (hrow : sep ∉ row)
    (hrest : ∀ d ∈ rest.head?, d = sep) :
    pieces sep (row ++ rest) = row :: (pieces sep rest).tail := by
  cases rest with
  | nil => exact (List.append_nil row).symm ▸ pieces_eq_singleton hrow
  | cons d rest =>
      rw [hrest d rfl, pieces_append, pieces_eq_singleton hrow, pieces_sep]
      rfl

end Text

namespace Lines

/-- As many bytes as some characters at the front have make up these characters. -/
theorem boundary?_byteLength (front rest : List Char) :
    boundary? (front ++ rest) (Text.byteLength front) = some front.length := by
  induction front with
  | nil =>
      unfold boundary?
      rfl
  | cons c front ih =>
      obtain ⟨n, hn⟩ := Nat.exists_eq_succ_of_ne_zero c.utf8Size_pos.ne'
      have hbytes : Text.byteLength (c :: front) = n + Text.byteLength front + 1 := by
        rw [Text.byteLength_cons, hn]
        omega
      have hrest : n + Text.byteLength front + 1 - c.utf8Size = Text.byteLength front := by omega
      rw [hbytes, List.cons_append, boundary?, if_pos (by omega), hrest, ih]
      rfl

theorem position?_byteLength (front rest : List Char) :
    (Lines.mk (front ++ rest)).position? (Text.byteLength front) =
      some (Position.origin.after front) := by
  have hle : Text.byteLength front ≤ Text.byteLength (front ++ rest) := by
    rw [Text.byteLength_append]
    exact Nat.le_add_right _ _
  show (boundary? (front ++ rest) (Nat.min _ (Text.byteLength (front ++ rest)))).map _ = _
  rw [show Nat.min _ _ = _ from Nat.min_eq_left hle, boundary?_byteLength, Option.map_some,
    List.take_left]

/-- A search of the line starts finds an index at a position: on the last line that does not start
later, as many characters behind its start. -/
structure Finds (l : Lines) (n : Nat) (p : Position) : Prop where
  start : l.lineStart p.line + p.character = n
  last : ∀ line < l.count, l.lineStart line ≤ n → line ≤ p.line

/-- Counting lines and characters on the way leads where the search leads. -/
theorem finds_after (front rest : List Char) :
    (Lines.mk (front ++ rest)).Finds front.length (Position.origin.after front) := by
  obtain ⟨before, current, r, rs, hfront, hcharacter, hstart, _, hrow⟩ := exists_row front rest
  have hlength : front.length = before.length + current.length := by
    rw [hfront, List.length_append]
  refine ⟨by omega, fun line _ hline => Nat.le_of_not_lt fun hlt => ?_⟩
  have hnext := lineStart_succ _ hrow
  have hmono : (Lines.mk (front ++ rest)).lineStart ((Position.origin.after front).line + 1) ≤
      (Lines.mk (front ++ rest)).lineStart line :=
    (Lines.mk (front ++ rest)).lineStart_mono (Nat.succ_le_of_lt hlt)
  rw [List.length_append] at hnext
  omega

/-! ## Carriage returns -/

theorem getLast?_dropReturns (cs : List Char) : (dropReturns cs).getLast? ≠ some '\r' := by
  intro h
  rw [dropReturns, List.getLast?_reverse] at h
  have hnot := List.head?_dropWhile_not (· == '\r') cs.reverse
  rw [h] at hnot
  cases hnot

section

variable {rs : List Char} (hrs : ∀ r ∈ rs, r = '\r')

include hrs

theorem dropReturns_append_returns (cs : List Char) : dropReturns (cs ++ rs) = dropReturns cs := by
  rw [dropReturns, List.reverse_append, List.dropWhile_append_of_pos, dropReturns]
  exact fun r hr => beq_iff_eq.mpr (hrs r (List.mem_reverse.mp hr))

theorem after_returns (p : Position) : p.after rs = ⟨p.line, p.character + rs.length⟩ := by
  induction rs generalizing p with
  | nil => rfl
  | cons r rs ih =>
      obtain ⟨rfl, hrest⟩ := List.forall_mem_cons.mp hrs
      show (p.advance '\r').after rs = _
      rw [ih hrest, List.length_cons]
      show (⟨p.line, p.character + 1 + rs.length⟩ : Position) = _
      rw [Nat.add_assoc, Nat.add_comm 1]

/-- The position behind the carriage returns at the end of a line is in front of them. -/
theorem index_after_returns {front rest : List Char} (hfront : front.getLast? ≠ some '\r')
    (hrest : ∀ d ∈ rest.head?, d = '\n') :
    (Lines.mk (front ++ (rs ++ rest))).index (Position.origin.after (front ++ rs)) =
      front.length := by
  obtain ⟨before, current, r, _, hsplit, hcharacter, hstart, hpieces, hrow⟩ :=
    exists_row front (rs ++ rest)
  have hnone : '\n' ∉ rs := fun hr => absurd (hrs _ hr) (by decide)
  rw [Text.pieces_row_append hnone hrest] at hpieces
  obtain ⟨rfl, -⟩ := List.cons.inj hpieces
  have hcurrent : current.getLast? ≠ some '\r' := fun hlast => hfront (by
    rw [hsplit, List.getLast?_append, hlast]
    rfl)
  have htext : (dropReturns (current ++ rs)).length = current.length := by
    refine Nat.le_antisymm ?_ (length_le_dropReturns hcurrent)
    rw [dropReturns_append_returns hrs]
    exact length_dropReturns_le current
  have hmin : min ((Position.origin.after front).character + rs.length) current.length =
      current.length := Nat.min_eq_right (hcharacter ▸ Nat.le_add_right _ _)
  have hafter : Position.origin.after (front ++ rs) = ⟨(Position.origin.after front).line,
      (Position.origin.after front).character + rs.length⟩ := by
    rw [Lexer.after_append, after_returns hrs]
  have hline : (Position.origin.after (front ++ rs)).line <
      (Lines.mk (front ++ (rs ++ rest))).count := by
    rw [hafter]
    exact line_after_lt front (rs ++ rest)
  rw [index_of_lt _ hline, hafter]
  dsimp only
  rw [hstart, lineText_eq hrow, htext, hmin, hsplit, List.length_append]

end

end Lines

/-! ## The place of a token -/

namespace Lexer.Placed

variable {front tail rest : List Char} {c : Char} {t : Token}

/-- The end of a comment up to the end of its line is in front of the carriage returns. -/
theorem index_stop_of_lineComment (h : Placed front c tail rest t) (hkind : t.kind = .lineComment) :
    (Lines.mk (front ++ ((c :: tail) ++ rest))).index t.range.stop =
      front.length + (Lines.dropReturns (c :: tail)).length := by
  set returns := ((c :: tail).reverse.takeWhile (· == '\r')).reverse
  have hsplit : Lines.dropReturns (c :: tail) ++ returns = c :: tail :=
    Lines.dropReturns_append (c :: tail)
  have hreturns : ∀ r ∈ returns, r = '\r' := fun r hr =>
    beq_iff_eq.mp (List.all_eq_true.mp List.all_takeWhile r (List.mem_reverse.mp hr))
  have hbody : Lines.dropReturns (c :: tail) ≠ [] := by
    intro hnil
    rw [hnil, List.nil_append] at hsplit
    have hreturn := hreturns c (hsplit ▸ List.mem_cons_self)
    exact ne_of_isBlank h.first (by decide) hreturn
  have hlast : (front ++ Lines.dropReturns (c :: tail)).getLast? ≠ some '\r' := by
    rw [List.getLast?_append_of_ne_nil _ hbody]
    exact Lines.getLast?_dropReturns _
  have hindex := Lines.index_after_returns hreturns hlast (h.rest_of_lineComment hkind)
  rw [List.append_assoc front, List.append_assoc front, ← List.append_assoc _ returns, hsplit,
    List.length_append] at hindex
  rw [h.range_stop, hindex]

end Lexer.Placed

/-- The characters of a token without the carriage returns that the end of its line loses. -/
def Token.body (t : Token) : List Char :=
  if t.kind = .lineComment then Lines.dropReturns t.text.toList else t.text.toList

namespace Lexer.Placed

variable {front tail rest : List Char} {c : Char} {t : Token}

theorem body_append (h : Placed front c tail rest t) : ∃ rs : List Char,
    t.body ++ rs = c :: tail ∧ ∀ r ∈ rs, r = '\r' := by
  have htext : t.text.toList = c :: tail := by rw [h.text, String.toList_ofList]
  rw [Token.body, htext]
  split
  · refine ⟨_, Lines.dropReturns_append (c :: tail), fun r hr => ?_⟩
    exact beq_iff_eq.mp (List.all_eq_true.mp List.all_takeWhile r (List.mem_reverse.mp hr))
  · exact ⟨[], List.append_nil _, fun r hr => absurd hr List.not_mem_nil⟩

/-- The end of a token as a number of characters. -/
theorem index_stop_eq (h : Placed front c tail rest t) :
    (Lines.mk (front ++ ((c :: tail) ++ rest))).index t.range.stop =
      front.length + t.body.length := by
  have htext : t.text.toList = c :: tail := by rw [h.text, String.toList_ofList]
  rw [Token.body, htext]
  split
  · next hkind => exact h.index_stop_of_lineComment hkind
  · next hkind => exact h.index_stop hkind

/-- The range of a token cuts it out of the text. -/
theorem slice_range (h : Placed front c tail rest t) :
    (Lines.mk (front ++ ((c :: tail) ++ rest))).slice t.range = t.body := by
  obtain ⟨rs, hbody, _⟩ := h.body_append
  rw [Lines.slice, h.index_start, h.index_stop_eq, Lines.between, Nat.add_sub_cancel_left,
    List.drop_left, ← hbody, List.append_assoc, List.take_left]

/-- Both shapes in which a token is handed out are read as the same token. -/
theorem ofRaw_image (h : Placed front c tail rest t) (typeName : String)
    (identifier : Option IdentifierKind) :
    Token.ofRaw (.image t.text typeName (t.range.start.line + 1) t.range.start.character
      identifier) = Token.ofRaw (.span t.text typeName t.range identifier) := by
  have hstop : t.range.stop = t.range.start.after t.text.toList := by
    rw [h.range_stop, h.range_start, h.text, String.toList_ofList, after_append]
  show Token.mk _ _ ⟨t.range.start, t.range.start.after t.text.toList⟩ _ = _
  rw [← hstop]
  rfl

end Lexer.Placed

/-! ## Blocks -/

namespace Position

theorem after_bounds : ∀ (cs : List Char) (p : Position),
    (p.after cs).line ≤ p.line + cs.length ∧ (p.after cs).character ≤ p.character + cs.length
  | [], _ => ⟨Nat.le_refl _, Nat.le_refl _⟩
  | c :: cs, p => by
      obtain ⟨hline, hcharacter⟩ := after_bounds cs (p.advance c)
      have hstep : (p.advance c).line ≤ p.line + 1 ∧ (p.advance c).character ≤ p.character + 1 := by
        rw [advance]
        split
        · exact ⟨Nat.le_refl _, Nat.zero_le _⟩
        · exact ⟨Nat.le_succ _, Nat.le_refl _⟩
      show ((p.advance c).after cs).line ≤ _ ∧ ((p.advance c).after cs).character ≤ _
      rw [List.length_cons]
      omega

/-- Every line in front of a position takes a character, and so does what stands on its line. -/
theorem line_after_lt {front tail : List Char} {c : Char} (hc : c ≠ '\n') :
    (origin.after (front ++ c :: tail)).line < (front ++ c :: tail).length := by
  obtain ⟨hfront, _⟩ := after_bounds front origin
  obtain ⟨htail, _⟩ := after_bounds tail ((origin.after front).advance c)
  have hsame : ((origin.after front).advance c).line = (origin.after front).line := by
    rw [advance, if_neg hc]
  have hzero : origin.line = 0 := rfl
  have hsplit : origin.after (front ++ c :: tail) = ((origin.after front).advance c).after tail :=
    Lexer.after_append _ _ _
  rw [hsplit, List.length_append, List.length_cons]
  omega

end Position

namespace Lexer

/-- A token with the blanks in front of it. -/
structure Block where
  gap : List Char
  token : Token

def Block.chars (b : Block) : List Char := b.gap ++ b.token.text.toList

/-- The characters of some blocks one after the other. -/
def written (bs : List Block) : List Char := bs.flatMap Block.chars

theorem written_cons (b : Block) (bs : List Block) :
    written (b :: bs) = b.chars ++ written bs := rfl

theorem exists_placed_blocks : ∀ (n : Nat) {front cs : List Char} {ts : List Token},
    cs.length ≤ n → tokenizeFrom (Position.origin.after front) cs = .ok ts →
    ∃ bs last, bs.map (·.token) = ts ∧ cs = written bs ++ last ∧
      (∀ b ∈ bs, Text.allBlank b.gap = true) ∧ Text.allBlank last = true ∧
      ∀ before b after, bs = before ++ b :: after → ∃ c tail,
        Placed (front ++ (written before ++ b.gap)) c tail (written after ++ last) b.token
  | _, front, [], ts, _, h => by
      rw [tokenizeFrom.eq_def] at h
      refine ⟨[], [], Except.ok.inj h, rfl, fun b hb => absurd hb List.not_mem_nil, rfl, ?_⟩
      intro before b after hsplit
      exact absurd hsplit.symm (by simp)
  | 0, _, c :: cs, _, hlen, _ => absurd hlen (Nat.not_succ_le_zero _)
  | n + 1, front, c :: cs, ts, hlen, h => by
      rw [List.length_cons] at hlen
      rcases tokenizeFrom_eq_ok h with ⟨hblank, hrest⟩ | ⟨kind, tail, rest, ts', hscan, hrest, rfl⟩
      · -- the blank belongs to the gap of the next block, or to what is left in the end
        have hafter : (Position.origin.after front).advance c =
            Position.origin.after (front ++ [c]) := (after_append Position.origin front [c]).symm
        rw [hafter] at hrest
        obtain ⟨bs, last, hmap, rfl, hgaps, hlast, hplaced⟩ :=
          exists_placed_blocks n (by omega) hrest
        cases bs with
        | nil =>
            refine ⟨[], c :: last, hmap, rfl, hgaps, ?_, ?_⟩
            · exact Bool.and_eq_true_iff.mpr ⟨hblank, hlast⟩
            · intro before b after hsplit
              exact absurd hsplit.symm (by simp)
        | cons b bs =>
            obtain ⟨hgap, hgaps⟩ := List.forall_mem_cons.mp hgaps
            refine ⟨⟨c :: b.gap, b.token⟩ :: bs, last, hmap, rfl, ?_, hlast, ?_⟩
            · exact List.forall_mem_cons.mpr ⟨Bool.and_eq_true_iff.mpr ⟨hblank, hgap⟩, hgaps⟩
            · intro before v after hsplit
              cases before with
              | nil =>
                  obtain ⟨rfl, rfl⟩ := List.cons.inj hsplit
                  obtain ⟨d, tail, hd⟩ := hplaced [] b bs rfl
                  rw [List.append_assoc] at hd
                  exact ⟨d, tail, hd⟩
              | cons u before =>
                  obtain ⟨rfl, rfl⟩ := List.cons.inj hsplit
                  obtain ⟨d, tail, hd⟩ := hplaced (b :: before) v after rfl
                  rw [List.append_assoc] at hd
                  exact ⟨d, tail, hd⟩
      · obtain rfl := scan_append hscan
        rw [List.length_append] at hlen
        rw [← after_append] at hrest
        obtain ⟨bs, last, rfl, rfl, hgaps, hlast, hplaced⟩ :=
          exists_placed_blocks n (by omega) hrest
        have hfirst : (⟨[], tokenAt (Position.origin.after front) kind (c :: tail)⟩ : Block).chars =
            c :: tail := String.toList_ofList
        refine ⟨⟨[], tokenAt (Position.origin.after front) kind (c :: tail)⟩ :: bs, last, rfl, ?_,
          List.forall_mem_cons.mpr ⟨rfl, hgaps⟩, hlast, ?_⟩
        · rw [written_cons, hfirst, List.append_assoc, List.cons_append]
        · intro before v after hsplit
          cases before with
          | nil =>
              obtain ⟨rfl, rfl⟩ := List.cons.inj hsplit
              refine ⟨c, tail, ?_⟩
              show Placed (front ++ []) c tail _ _
              rw [List.append_nil]
              exact ⟨exists_lexeme hscan, rfl⟩
          | cons u before =>
              obtain ⟨rfl, rfl⟩ := List.cons.inj hsplit
              obtain ⟨d, tail', hd⟩ := hplaced before v after rfl
              refine ⟨d, tail', ?_⟩
              rw [written_cons, hfirst, List.append_assoc (c :: tail), ← List.append_assoc front]
              exact hd

/-- What the positions, the range and the raw shapes of a token say, where `front` stands in front
of it. The numbers in the positions are bounded by the number of characters of the text. -/
structure Stands (l : Lines) (front : List Char) (t : Token) : Prop where
  start : l.position? (Text.byteLength front) = some t.range.start
  start_finds : l.Finds front.length t.range.start
  stop : l.position? (Text.byteLength (front ++ t.text.toList)) = some t.range.stop
  stop_finds : l.Finds (front ++ t.text.toList).length t.range.stop
  proper : t.range.Proper
  slice : l.slice t.range = t.body
  shapes : ∀ typeName identifier,
    Token.ofRaw (.image t.text typeName (t.range.start.line + 1) t.range.start.character
      identifier) = Token.ofRaw (.span t.text typeName t.range identifier)
  line_lt : t.range.stop.line < l.chars.length
  start_character_le : t.range.start.character ≤ l.chars.length
  stop_character_le : t.range.stop.character ≤ l.chars.length

theorem Placed.stands {front tail rest : List Char} {c : Char} {t : Token}
    (h : Placed front c tail rest t) : Stands ⟨front ++ ((c :: tail) ++ rest)⟩ front t := by
  have htext : t.text.toList = c :: tail := by rw [h.text, String.toList_ofList]
  have hstart := Lines.finds_after front ((c :: tail) ++ rest)
  have hstop := Lines.finds_after (front ++ c :: tail) rest
  have hproper := Position.lt_after_cons (Position.origin.after front) c tail
  have hline : (Position.origin.after (front ++ c :: tail)).line < (front ++ c :: tail).length :=
    Position.line_after_lt (ne_of_isBlank h.first (by decide))
  obtain ⟨_, hfirst⟩ := Position.after_bounds front .origin
  obtain ⟨_, hlast⟩ := Position.after_bounds (front ++ c :: tail) .origin
  rw [← after_append, ← h.range_start, ← h.range_stop] at hproper
  rw [← h.range_start] at hstart hfirst
  rw [← h.range_stop, List.append_assoc, ← htext] at hstop
  rw [← h.range_stop] at hline hlast
  have hzero : Position.origin.character = 0 := rfl
  rw [List.length_append] at hline hlast
  have hlength : (Lines.mk (front ++ ((c :: tail) ++ rest))).chars.length =
      front.length + ((c :: tail).length + rest.length) := by
    show (front ++ ((c :: tail) ++ rest)).length = _
    rw [List.length_append, List.length_append]
  refine ⟨?_, hstart, ?_, ?_, hproper, h.slice_range, h.ofRaw_image, ?_, ?_, ?_⟩
  · rw [Lines.position?_byteLength, h.range_start]
  · rw [htext, ← List.append_assoc, Lines.position?_byteLength, h.range_stop]
  · rw [htext] at hstop ⊢
    exact hstop
  all_goals
    rw [hlength]
    omega

/-- The tokens and the blanks between them are the text, and every token stands where it is read. -/
theorem blocks_of_tokenize {text : String} {tokens : List Token} (h : tokenize text = .ok tokens) :
    ∃ bs last, bs.map (·.token) = tokens ∧ written bs ++ last = text.toList ∧
      (∀ b ∈ bs, Text.allBlank b.gap = true) ∧ Text.allBlank last = true ∧
      (∀ before b after, bs = before ++ b :: after →
        Stands (Lines.ofString text) (written before ++ b.gap) b.token) ∧
      tokens.Pairwise fun t u => t.range.Before u.range := by
  have hread : tokenizeFrom (Position.origin.after []) text.toList = .ok tokens := h
  obtain ⟨bs, last, hmap, hchars, hgaps, hlast, hplaced⟩ :=
    exists_placed_blocks _ (Nat.le_refl _) hread
  refine ⟨bs, last, hmap, hchars.symm, hgaps, hlast, fun before b after hsplit => ?_,
    (ordered_of_tokenize h).apart⟩
  obtain ⟨c, tail, hb⟩ := hplaced before b after hsplit
  rw [List.nil_append] at hb
  have htext : b.token.text.toList = c :: tail := by rw [hb.text, String.toList_ofList]
  have hall : text.toList =
      (written before ++ b.gap) ++ ((c :: tail) ++ (written after ++ last)) := by
    rw [hchars, hsplit, ← htext]
    simp only [written, List.flatMap_append, List.flatMap_cons, Block.chars, List.append_assoc]
  rw [Lines.ofString, hall]
  exact hb.stands

/-- Comments, carriage returns, a doubled quote, a string of two lines and a letter of two bytes. -/
def mixedText : String :=
  "// gr\u00fcn\r\r\n /* a\n */ annotate E with @b : [\x27it\x27\x27s\x27, \x60c\r\nd\x60]; // e\r"

theorem blocks_of_tokenize_mixed :
    ∃ tokens, tokenize mixedText = .ok tokens ∧
      tokens.map (·.kind) = [.lineComment, .blockComment, .keyword, .identifier, .keyword,
        .punctuation, .identifier, .punctuation, .punctuation, .string, .punctuation, .string,
        .punctuation, .punctuation, .lineComment] ∧
      ∃ bs last, bs.map (·.token) = tokens ∧ written bs ++ last = mixedText.toList ∧
        (∀ b ∈ bs, Text.allBlank b.gap = true) ∧ Text.allBlank last = true ∧
        (∀ before b after, bs = before ++ b :: after →
          Stands (Lines.ofString mixedText) (written before ++ b.gap) b.token) ∧
        tokens.Pairwise fun t u => t.range.Before u.range := by
  have hkinds : (tokenize mixedText).toOption.map (List.map (·.kind)) =
      some [.lineComment, .blockComment, .keyword, .identifier, .keyword, .punctuation,
        .identifier, .punctuation, .punctuation, .string, .punctuation, .string, .punctuation,
        .punctuation, .lineComment] := by decide +kernel
  cases htokens : tokenize mixedText with
  | error e =>
      rw [htokens] at hkinds
      cases hkinds
  | ok tokens =>
      rw [htokens] at hkinds
      exact ⟨tokens, rfl, Option.some.inj hkinds, blocks_of_tokenize htokens⟩

end Lexer

end AnnotationEdit

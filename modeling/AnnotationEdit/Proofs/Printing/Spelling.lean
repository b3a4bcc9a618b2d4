import AnnotationEdit.Printer
import AnnotationEdit.Proofs.Syntax.Statements
import Mathlib.Data.List.Forall2

/-!
# Spelling tokens

Which characters are read as which tokens. `Spells follow cs read` says that the characters `cs`,
with something that satisfies `follow` after them, are read as code tokens that satisfy `read`,
wherever they stand. Spellings are put together from the left: a mark, a blank or a word in front,
or one spelling after another when the second one does not continue the first.
-/

namespace AnnotationEdit.Lexer

/-! ## Reading one token -/

theorem tokenizeFrom_blank {c : Char} (h : Text.isBlank c = true) (p : Position) (cs : List Char) :
    tokenizeFrom p (c :: cs) = tokenizeFrom (p.advance c) cs := by
  rw [tokenizeFrom.eq_def p (c :: cs)]
  simp only [h, if_true]

def tokenAt (p : Position) (kind : TokenKind) (cs : List Char) : Token :=
  ⟨kind, String.ofList cs, ⟨p, p.after cs⟩, none⟩

theorem tokenizeFrom_scan {c : Char} {cs tail rest : List Char} {kind : TokenKind}
    (hblank : Text.isBlank c = false) (h : scan c cs = .ok (kind, tail, rest)) (p : Position) :
    tokenizeFrom p (c :: cs) =
      (tokenizeFrom (p.after (c :: tail)) rest).map (tokenAt p kind (c :: tail) :: ·) := by
  rw [tokenizeFrom.eq_def p (c :: cs)]
  simp only [hblank, Bool.false_eq_true, if_false]
  split
  · next fault hscan =>
    rw [h] at hscan
    cases hscan
  · next kind' tail' rest' hscan =>
    rw [h] at hscan
    obtain ⟨rfl, rfl, rfl⟩ : kind = kind' ∧ tail = tail' ∧ rest = rest' := by
      simpa using hscan
    cases tokenizeFrom (p.after (c :: tail)) rest with
    | error e => rfl
    | ok ts => rfl

def blankPoints : List Nat :=
  [9, 10, 11, 12, 13, 0x20, 0x85, 0xa0, 0x1680, 0x2000, 0x2001, 0x2002, 0x2003, 0x2004, 0x2005,
    0x2006, 0x2007, 0x2008, 0x2009, 0x200a, 0x2028, 0x2029, 0x202f, 0x205f, 0x3000]

theorem inRanges_eq_ble (ranges : List (Nat × Nat)) (code : Nat) :
    Text.inRanges ranges code = ranges.any fun r => Nat.ble r.1 code && Nat.ble code r.2 := by
  simp only [Text.inRanges, ← Nat.ble_eq, Bool.decide_eq_true]

theorem isNameChar_blankPoints : ∀ n ∈ blankPoints, isNameChar (Char.ofNat n) = false := by
  -- the tables are long, and `Nat.ble` is evaluated faster than the decision of `≤`
  simp only [isNameChar, Text.isAlphanumeric, Text.isAlphabetic, Text.isNumeric, inRanges_eq_ble]
  decide +kernel

theorem isBlank_eq_false_of_isNameChar {c : Char} (h : isNameChar c = true) :
    Text.isBlank c = false := by
  rw [← Bool.not_eq_true]
  intro hblank
  have hmem : c.toNat ∈ blankPoints := by
    simp only [Text.isBlank, Bool.or_eq_true, Bool.and_eq_true, decide_eq_true_eq, beq_iff_eq]
      at hblank
    rw [show blankPoints = List.range' 9 5 ++ [0x20, 0x85, 0xa0, 0x1680] ++ List.range' 0x2000 11 ++
      [0x2028, 0x2029, 0x202f, 0x205f, 0x3000] from rfl]
    simp only [List.mem_append, List.mem_range'_1, List.mem_cons, List.not_mem_nil, or_false]
    omega
  have hnot := isNameChar_blankPoints c.toNat hmem
  rw [Char.ofNat_toNat, h] at hnot
  exact absurd hnot (by decide)

theorem isBlank_eq_false_of_isDigit {c : Char} (h : Text.isDigit c = true) :
    Text.isBlank c = false := by
  simp only [Text.isDigit, Bool.and_eq_true, decide_eq_true_eq] at h
  have hlow : 48 ≤ c.toNat := h.1
  have hhigh : c.toNat ≤ 57 := h.2
  rw [← Bool.not_eq_true]
  intro hblank
  simp only [Text.isBlank, Bool.or_eq_true, Bool.and_eq_true, decide_eq_true_eq, beq_iff_eq]
    at hblank
  omega

/-! ## Spellings -/

/-- The characters, with something that satisfies `follow` after them, are read as code tokens that
satisfy `read`. -/
def Spells (follow : List Char → Prop) (cs : List Char) (read : List Token → Prop) : Prop :=
  ∀ p rest, follow rest → ∃ ts : List Token, read ts ∧ (∀ t ∈ ts, t.isCode = true) ∧
    tokenizeFrom p (cs ++ rest) =
      (tokenizeFrom (p.after cs) rest).map (ts.map Token.plain ++ ·)

def Anything (_ : List Char) : Prop := True

/-- What follows continues neither a name nor a number nor a string. -/
def Break (rest : List Char) : Prop :=
  ∀ c ∈ rest.head?, isNameChar c = false ∧ isNumberChar c = false ∧ c ≠ quote

/-- A character that continues neither a name nor a number nor a string. -/
def isBreak (c : Char) : Bool := !isNameChar c && !isNumberChar c && c != quote

theorem break_cons {c : Char} {cs : List Char} (h : isBreak c = true) : Break (c :: cs) := by
  intro d hd
  rw [List.head?_cons, Option.mem_some_iff] at hd
  rw [← hd]
  simpa [isBreak, and_assoc] using h

theorem break_nil : Break [] := by
  intro c hc
  cases hc

theorem Spells.mono {follow follow' : List Char → Prop} {cs : List Char}
    {read read' : List Token → Prop} (h : Spells follow cs read)
    (hfollow : ∀ rest, follow' rest → follow rest) (hread : ∀ ts, read ts → read' ts) :
    Spells follow' cs read' := by
  intro p rest hrest
  obtain ⟨ts, hts, hcode, hrun⟩ := h p rest (hfollow rest hrest)
  exact ⟨ts, hread ts hts, hcode, hrun⟩

theorem Spells.imp {follow : List Char → Prop} {cs : List Char} {read read' : List Token → Prop}
    (h : Spells follow cs read) (hread : ∀ ts, read ts → read' ts) : Spells follow cs read' :=
  h.mono (fun _ => id) hread

theorem Spells.ofAnything {follow : List Char → Prop} {cs : List Char} {read : List Token → Prop}
    (h : Spells Anything cs read) : Spells follow cs read :=
  h.mono (fun _ _ => trivial) (fun _ => id)

theorem after_append (p : Position) (cs ds : List Char) :
    p.after (cs ++ ds) = (p.after cs).after ds := List.foldl_append

theorem map_map_append (r : Except SyntaxError (List Token)) (us vs : List Token) :
    (r.map (vs ++ ·)).map (us ++ ·) = r.map ((us ++ vs) ++ ·) := by
  cases r with
  | error e => rfl
  | ok ts => simp [Except.map]

theorem Spells.append {follow follow' : List Char → Prop} {cs ds : List Char}
    {read read' : List Token → Prop} (h : Spells follow cs read) (h' : Spells follow' ds read')
    (hfollow : ∀ rest, follow' rest → follow (ds ++ rest)) :
    Spells follow' (cs ++ ds) (fun ts => ∃ us vs, ts = us ++ vs ∧ read us ∧ read' vs) := by
  intro p rest hrest
  obtain ⟨vs, hvs, hcode', hrun'⟩ := h' (p.after cs) rest hrest
  obtain ⟨us, hus, hcode, hrun⟩ := h p (ds ++ rest) (hfollow rest hrest)
  refine ⟨us ++ vs, ⟨us, vs, rfl, hus, hvs⟩, ?_, ?_⟩
  · intro t ht
    rcases List.mem_append.mp ht with ht | ht
    · exact hcode t ht
    · exact hcode' t ht
  · rw [List.append_assoc, hrun, hrun', map_map_append, after_append, List.map_append]

/-- One spelling after another that starts with a character that breaks. -/
theorem Spells.thenBreak {follow : List Char → Prop} {cs ds : List Char} {c : Char}
    {read read' : List Token → Prop} (h : Spells Break cs read) (h' : Spells follow (c :: ds) read')
    (hc : isBreak c = true) :
    Spells follow (cs ++ c :: ds) (fun ts => ∃ us vs, ts = us ++ vs ∧ read us ∧ read' vs) :=
  h.append h' fun _ _ => break_cons hc

/-! ## Marks, blanks and words -/

theorem Spells.nil {follow : List Char → Prop} : Spells follow [] (· = []) := by
  intro p rest _
  refine ⟨[], rfl, fun t ht => absurd ht List.not_mem_nil, ?_⟩
  rw [List.nil_append, show p.after [] = p from rfl]
  cases tokenizeFrom p rest with
  | error e => rfl
  | ok ts => rfl

theorem spells_scan {follow : List Char → Prop} {c : Char} {tail : List Char} {kind : TokenKind}
    (role : Option IdentifierKind) (hblank : Text.isBlank c = false)
    (hcode : kind.isComment = false)
    (h : ∀ rest, follow rest → scan c (tail ++ rest) = .ok (kind, tail, rest)) :
    Spells follow (c :: tail)
      (fun ts => ∃ t : Token, ts = [t] ∧ t.kind = kind ∧ t.identifier = role ∧
        t.text = String.ofList (c :: tail)) := by
  intro p rest hrest
  refine ⟨[{ tokenAt p kind (c :: tail) with identifier := role }], ⟨_, rfl, rfl, rfl, rfl⟩, ?_, ?_⟩
  · intro t ht
    rw [List.mem_singleton] at ht
    rw [ht]
    simp [Token.isCode, Token.isComment, tokenAt, hcode]
  · rw [List.cons_append, tokenizeFrom_scan hblank (h rest hrest)]
    rfl

/-- What the first branches of `scan` look for. -/
theorem marks_are_plain : ∀ c ∈ "@()\x7b\x7d[]:;,.#!".toList, Text.isBlank c = false ∧ c ≠ '/' ∧
    c ≠ quote ∧ c ≠ backquote ∧ Text.isDigit c = false ∧ c ≠ '-' ∧ isNameChar c = false := by
  intro c hc
  simp only [String.reduceToList, List.mem_cons, List.not_mem_nil, or_false] at hc
  rcases hc with rfl | rfl | rfl | rfl | rfl | rfl | rfl | rfl | rfl | rfl | rfl | rfl | rfl <;>
    decide

theorem spells_mark {follow : List Char → Prop} {c : Char} (h : isPunctuation c = true) :
    Spells follow [c] (fun ts => ∃ t : Token, ts = [t] ∧ t.IsMark (String.ofList [c])) := by
  obtain ⟨hblank, hslash, hquote, hbackquote, hdigit, hminus, hname⟩ :=
    marks_are_plain c (List.contains_iff_mem.mp h)
  have hscan : ∀ rest, Anything rest → scan c ([] ++ rest) = .ok (.punctuation, [], rest) := by
    intro rest _
    simp [scan, hslash, hquote, hbackquote, hdigit, hminus, hname, h]
  refine (spells_scan none hblank rfl hscan).ofAnything.imp ?_
  rintro ts ⟨t, rfl, hkind, hrole, htext⟩
  refine ⟨t, rfl, ?_, hrole⟩
  simp [Token.is, hkind, htext]

theorem Spells.mark {follow : List Char → Prop} {cs : List Char} {read : List Token → Prop}
    (h : Spells follow cs read) (c : Char) (hc : isPunctuation c = true) :
    Spells follow (c :: cs)
      (fun ts => ∃ t us, ts = t :: us ∧ t.IsMark (String.ofList [c]) ∧ read us) := by
  refine ((@spells_mark Anything c hc).append h fun _ _ => trivial).imp ?_
  rintro ts ⟨us, vs, rfl, ⟨t, rfl, ht⟩, hvs⟩
  exact ⟨t, vs, rfl, ht, hvs⟩

theorem Spells.blanks {follow : List Char → Prop} {cs : List Char} {read : List Token → Prop}
    (h : Spells follow cs read) :
    ∀ bs : List Char, Text.allBlank bs = true → Spells follow (bs ++ cs) read
  | [], _ => h
  | b :: bs, hb => by
      rw [Text.allBlank, List.all_cons, Bool.and_eq_true] at hb
      intro p rest hrest
      obtain ⟨ts, hts, hcode, hrun⟩ := h.blanks bs hb.2 (p.advance b) rest hrest
      refine ⟨ts, hts, hcode, ?_⟩
      rw [List.cons_append, List.cons_append, tokenizeFrom_blank hb.1, hrun]
      rfl

theorem Spells.blank {follow : List Char → Prop} {cs : List Char} {read : List Token → Prop}
    (h : Spells follow cs read) (b : Char) (hb : Text.isBlank b = true) :
    Spells follow (b :: cs) read :=
  h.blanks [b] (by simp [Text.allBlank, hb])

theorem Spells.thenBlank {follow : List Char → Prop} {cs : List Char} {read : List Token → Prop}
    (h : Spells Anything cs read) (b : Char) (hb : Text.isBlank b = true) :
    Spells follow (cs ++ [b]) read := by
  refine (h.append (Spells.nil.blank b hb) fun _ _ => trivial).imp ?_
  rintro ts ⟨us, vs, rfl, hus, rfl⟩
  rwa [List.append_nil]

theorem takeWhile_append_of_break {p : Char → Bool} {cs rest : List Char} (h : cs.all p = true)
    (hrest : ∀ c ∈ rest.head?, p c = false) :
    (cs ++ rest).takeWhile p = cs ∧ (cs ++ rest).dropWhile p = rest := by
  have hnone : rest.takeWhile p = [] ∧ rest.dropWhile p = rest := by
    cases rest with
    | nil => exact ⟨rfl, rfl⟩
    | cons c rest =>
        have hc := hrest c rfl
        simp [hc]
  have hall := List.all_eq_true.mp h
  rw [List.takeWhile_append_of_pos hall, List.dropWhile_append_of_pos hall, hnone.1, hnone.2,
    List.append_nil]
  exact ⟨rfl, rfl⟩

/-- Characters that are read as one word. -/
def isWord : List Char → Bool
  | [] => false
  | c :: cs => isNameChar c && !Text.isDigit c && cs.all isNameChar

/-- What follows does not continue a word. -/
def EndsWord (rest : List Char) : Prop := ∀ c ∈ rest.head?, isNameChar c = false

theorem Break.endsWord {rest : List Char} (h : Break rest) : EndsWord rest := fun c hc => (h c hc).1

theorem scan_word {c : Char} {tail rest : List Char} (h : isWord (c :: tail) = true)
    (hrest : EndsWord rest) : scan c (tail ++ rest) = .ok (wordKind (c :: tail), tail, rest) := by
  simp only [isWord, Bool.and_eq_true, Bool.not_eq_true'] at h
  obtain ⟨⟨hname, hdigit⟩, htail⟩ := h
  have hne : ∀ d, isNameChar d = false → c ≠ d := by
    rintro d hd rfl
    rw [hname] at hd
    cases hd
  obtain ⟨htake, hdrop⟩ := takeWhile_append_of_break htail hrest
  simp [scan, hne '/' (by decide), hne quote (by decide), hne backquote (by decide), hdigit,
    hne '-' (by decide), hname, htake, hdrop]

theorem spells_word {cs : List Char} (role : Option IdentifierKind) (h : isWord cs = true) :
    Spells EndsWord cs (fun ts => ∃ t : Token, ts = [t] ∧ t.kind = wordKind cs ∧
      t.identifier = role ∧ t.text = String.ofList cs) := by
  cases cs with
  | nil => cases h
  | cons c tail =>
      have hname : isNameChar c = true := by
        simp only [isWord, Bool.and_eq_true] at h
        exact h.1.1
      refine spells_scan role (isBlank_eq_false_of_isNameChar hname) ?_ fun rest hrest =>
        scan_word h hrest
      unfold wordKind
      split
      · rfl
      · rfl

/-- A word that is no keyword. -/
def isName (s : String) : Bool := isWord s.toList && !keywords.contains s

theorem spells_name {s : String} (role : IdentifierKind) (h : isName s = true) :
    Spells EndsWord s.toList (fun ts => ∃ t : Token, ts = [t] ∧ t.IsName role ∧ t.text = s) := by
  simp only [isName, Bool.and_eq_true, Bool.not_eq_true'] at h
  refine (spells_word (some role) h.1).imp ?_
  rintro ts ⟨t, rfl, hkind, hrole, htext⟩
  rw [String.ofList_toList] at htext
  refine ⟨t, rfl, ⟨?_, hrole⟩, htext⟩
  rw [hkind, wordKind, String.ofList_toList, h.2]
  rfl

theorem spells_keyword {s : String} (hword : isWord s.toList = true)
    (h : keywords.contains s = true) :
    Spells EndsWord s.toList (fun ts => ∃ t : Token, ts = [t] ∧ t.IsWord s) := by
  refine (spells_word none hword).imp ?_
  rintro ts ⟨t, rfl, hkind, hrole, htext⟩
  rw [String.ofList_toList] at htext
  rw [wordKind, String.ofList_toList, h] at hkind
  refine ⟨t, rfl, ?_, hrole⟩
  simp [Token.isKeyword, hkind, htext]

/-! ## Dotted names -/

def withDots : List String → List Char
  | [] => []
  | s :: ss => '.' :: (s.toList ++ withDots ss)

/-- Names with dots between them. -/
def isDotted (s : String) : Bool := (Text.split '.' s).all isName

theorem pieces_eq_cons (sep : Char) :
    ∀ cs : List Char, ∃ q qs, Text.pieces sep cs = q :: qs ∧ cs = q ++ qs.flatMap (sep :: ·)
  | [] => ⟨[], [], rfl, rfl⟩
  | c :: cs => by
      obtain ⟨q, qs, hpieces, hcs⟩ := pieces_eq_cons sep cs
      by_cases hc : c = sep
      · exact ⟨[], q :: qs, by simp [Text.pieces, hc, hpieces], by simp [hc, hcs]⟩
      · exact ⟨c :: q, qs, by simp [Text.pieces, hc, hpieces], by simp [hcs]⟩

theorem withDots_map_ofList :
    ∀ qs : List (List Char), withDots (qs.map String.ofList) = qs.flatMap ('.' :: ·)
  | [] => rfl
  | q :: qs => by
      rw [List.map_cons, withDots, withDots_map_ofList qs, String.toList_ofList]
      rfl

theorem split_eq_cons (s : String) :
    ∃ first rest, Text.split '.' s = first :: rest ∧ s.toList = first.toList ++ withDots rest := by
  obtain ⟨q, qs, hpieces, hcs⟩ := pieces_eq_cons '.' s.toList
  refine ⟨String.ofList q, qs.map String.ofList, ?_, ?_⟩
  · rw [Text.split, hpieces]
    rfl
  · rw [withDots_map_ofList, String.toList_ofList]
    exact hcs

theorem endsWord_withDots {ss : List String} {rest : List Char} (h : EndsWord rest) :
    EndsWord (withDots ss ++ rest) := by
  cases ss with
  | nil => exact h
  | cons s ss =>
      intro c hc
      obtain rfl : '.' = c := by simpa [withDots] using hc
      decide

open Syntax

theorem spells_segments (role : IdentifierKind) :
    ∀ {ss : List String}, ss.all isName = true →
      Spells EndsWord (withDots ss)
        (fun ts => ∃ is, segmentsWrittenAs role is ts ∧ is.map (·.text) = ss)
  | [], _ => Spells.nil.imp (fun _ hts => ⟨[], hts, rfl⟩)
  | s :: ss, h => by
      rw [List.all_cons, Bool.and_eq_true] at h
      refine (((spells_name role h.1).append (spells_segments role h.2)
        fun _ => endsWord_withDots).mark '.' (by decide)).imp ?_
      rintro ts ⟨dot, ws, rfl, hdot, us, vs, rfl, ⟨t, rfl, ht, htext⟩, is, his, hmap⟩
      refine ⟨⟨t.text, t.range⟩ :: is, ⟨dot, t, vs, rfl, hdot, ⟨ht, rfl⟩, his⟩, ?_⟩
      rw [List.map_cons, hmap, htext]

theorem toList_foldl_dots : ∀ (is : List Identifier) (s : String),
    (is.foldl (fun s i => s ++ "." ++ i.text) s).toList = s.toList ++ withDots (is.map (·.text))
  | [], s => by simp [withDots]
  | i :: is, s => by
      rw [List.foldl_cons, toList_foldl_dots is, List.map_cons, withDots, String.toList_append,
        String.toList_append, List.append_assoc, List.append_assoc]
      rfl

theorem toList_path_text {p : Path} {i : Identifier} {is : List Identifier}
    (h : p.segments = i :: is) : p.text.toList = i.text.toList ++ withDots (is.map (·.text)) := by
  rw [Path.text, h]
  exact toList_foldl_dots is i.text

theorem spells_path {s : String} (role : IdentifierKind) (h : isDotted s = true) :
    Spells EndsWord s.toList (fun ts => ∃ path : Path, path.WrittenAs role ts ∧ path.text = s ∧
      path.segments.map (·.text) = Text.split '.' s) := by
  obtain ⟨first, rest, hsplit, hs⟩ := split_eq_cons s
  rw [isDotted, hsplit, List.all_cons, Bool.and_eq_true] at h
  rw [hsplit, hs]
  refine ((spells_name role h.1).append (spells_segments role h.2)
    fun _ => endsWord_withDots).imp ?_
  rintro ts ⟨us, vs, rfl, ⟨t, rfl, ht, htext⟩, is, his, hmap⟩
  refine ⟨⟨⟨t.range.start, (is.getLast?.getD ⟨t.text, t.range⟩).range.stop⟩,
    ⟨t.text, t.range⟩ :: is⟩,
    ⟨⟨t.text, t.range⟩, is, t, vs, rfl, rfl, ⟨ht, rfl⟩, his⟩, ?_, ?_⟩
  · rw [← String.toList_inj, toList_path_text rfl, hmap, htext, hs]
  · rw [List.map_cons, hmap, htext]

/-! ## Numbers and strings -/

def isNumber (s : String) : Bool :=
  match s.toList with
  | [] => false
  | c :: cs => (Text.isDigit c || (c = '-' && cs.head?.any Text.isDigit)) && cs.all isNumberChar

/-- What follows does not continue a number. -/
def EndsNumber (rest : List Char) : Prop := ∀ c ∈ rest.head?, isNumberChar c = false

theorem scan_number {c : Char} {tail rest : List Char}
    (hc : Text.isDigit c = true ∨ (c = '-' ∧ tail.head?.any Text.isDigit = true))
    (htail : tail.all isNumberChar = true) (hrest : EndsNumber rest) :
    scan c (tail ++ rest) = .ok (.number, tail, rest) := by
  have hne : ∀ d, Text.isDigit d = false → d ≠ '-' → c ≠ d := by
    rintro d hdigit hminus rfl
    rcases hc with hc | hc
    · rw [hc] at hdigit
      cases hdigit
    · exact hminus hc.1
  have hhead : (Text.isDigit c || (c = '-' && (tail ++ rest).head?.any Text.isDigit)) = true := by
    rcases hc with hc | ⟨rfl, hc⟩
    · rw [hc, Bool.true_or]
    · cases tail with
      | nil => cases hc
      | cons d tail => simpa using Or.inr hc
  obtain ⟨htake, hdrop⟩ := takeWhile_append_of_break htail hrest
  unfold scan
  simp only [hne '/' (by decide) (by decide), hne quote (by decide) (by decide),
    hne backquote (by decide) (by decide), decide_false, Bool.false_and, Bool.false_eq_true,
    if_false]
  rw [if_pos hhead, htake, hdrop]

theorem spells_number {s : String} (h : isNumber s = true) :
    Spells EndsNumber s.toList
      (fun ts => ∃ t : Token, ts = [t] ∧ t.IsLiteral .number ∧ t.text = s) := by
  unfold isNumber at h
  split at h
  · cases h
  · next c tail hs =>
    simp only [Bool.and_eq_true, Bool.or_eq_true, decide_eq_true_eq] at h
    have hblank : Text.isBlank c = false := by
      rcases h.1 with hc | hc
      · exact isBlank_eq_false_of_isDigit hc
      · rw [hc.1]
        decide
    rw [hs]
    refine (spells_scan none hblank rfl fun rest hrest => scan_number h.1 h.2 hrest).imp ?_
    rintro ts ⟨t, rfl, hkind, hrole, htext⟩
    refine ⟨t, rfl, ⟨hkind, hrole⟩, ?_⟩
    rw [htext, ← hs, String.ofList_toList]

/-- The characters of a string with its quotes doubled are read up to the closing quote. -/
theorem throughQuote?_doubled {rest : List Char} (hrest : ∀ c ∈ rest.head?, c ≠ quote) :
    ∀ cs : List Char, throughQuote? (Printer.quote.doubled cs ++ quote :: rest) =
      some (Printer.quote.doubled cs ++ [quote], rest)
  | [] => by
      cases rest with
      | nil => rfl
      | cons c rest =>
          have hc := hrest c rfl
          simp [Printer.quote.doubled, throughQuote?, hc]
  | c :: cs => by
      have ih := throughQuote?_doubled hrest cs
      by_cases hc : c = quote
      · have hquote : c = '\x27' := hc
        simp [Printer.quote.doubled, hquote, throughQuote?, quote] at ih ⊢
        simp [ih]
      · have hquote : ¬ c = '\x27' := hc
        simp only [Printer.quote.doubled, hquote, if_false, List.cons_append]
        obtain ⟨d, ds, hds⟩ : ∃ d ds, Printer.quote.doubled cs ++ quote :: rest = d :: ds := by
          cases Printer.quote.doubled cs with
          | nil => exact ⟨quote, rest, rfl⟩
          | cons d ds => exact ⟨d, ds ++ quote :: rest, rfl⟩
        rw [hds] at ih ⊢
        rw [throughQuote?]
        simp [hc, ih]

/-- What follows does not continue a string. -/
def EndsString (rest : List Char) : Prop := ∀ c ∈ rest.head?, c ≠ quote

theorem spells_quote (s : String) :
    Spells EndsString (Printer.quote s).toList
      (fun ts => ∃ t : Token, ts = [t] ∧ t.IsLiteral .string ∧ t.text = Printer.quote s) := by
  have hs : (Printer.quote s).toList = quote :: (Printer.quote.doubled s.toList ++ [quote]) := by
    rw [Printer.quote, String.toList_ofList]
    rfl
  have hscan : ∀ rest, EndsString rest →
      scan quote ((Printer.quote.doubled s.toList ++ [quote]) ++ rest) =
        .ok (.string, Printer.quote.doubled s.toList ++ [quote], rest) := by
    intro rest hrest
    rw [List.append_assoc]
    unfold scan
    rw [if_neg (by simp [quote]), if_neg (by simp [quote]), if_pos rfl]
    rw [show [quote] ++ rest = quote :: rest from rfl, throughQuote?_doubled hrest]
  rw [hs]
  refine (spells_scan none (by decide) rfl hscan).imp ?_
  rintro ts ⟨t, rfl, hkind, hrole, htext⟩
  refine ⟨t, rfl, ⟨hkind, hrole⟩, ?_⟩
  rw [htext, ← hs, String.ofList_toList]

/-! ## Lists -/

/-- The parts of a list, each read as an item `b` with the property the list `props` has for it. -/
def Items {β : Type} (written : β → List Token → Prop) (texts : List String)
    (props : List (β → Prop)) : Prop :=
  List.Forall₂ (fun s r => Spells Break s.toList (fun ts => ∃ b, written b ts ∧ r b)) texts props

/-- The properties of a list of things that the items are to stand for. -/
theorem forall₂_of_map {α β : Type} {R : α → β → Prop} {as : List α} {bs : List β}
    (h : List.Forall₂ (fun (r : β → Prop) b => r b) (as.map R) bs) : List.Forall₂ R as bs :=
  (@List.forall₂_map_left_iff _ _ _ (fun r b => r b) R as bs).mp h

theorem spells_joined {β : Type} {written : β → List Token → Prop} {inner : String}
    (hinner : Text.allBlank inner.toList = true) :
    ∀ {texts : List String} {props : List (β → Prop)}, Items written texts props → texts ≠ [] →
      Spells Break (Text.joined ",\n" (texts.map (inner ++ ·))).toList
        (fun ts => ∃ bs, commaSeparated written bs ts ∧ List.Forall₂ (fun r b => r b) props bs)
  | [], _, _, hne => absurd rfl hne
  | [s], _, h, _ => by
      obtain ⟨r, rs, hs, hnil, rfl⟩ := List.forall₂_cons_left_iff.mp h
      obtain rfl := List.forall₂_nil_left_iff.mp hnil
      rw [List.map_cons, List.map_nil, Text.joined, String.toList_append]
      refine (hs.blanks _ hinner).imp ?_
      rintro ts ⟨b, hb, hr⟩
      exact ⟨[b], Or.inl ⟨hb, rfl⟩, .cons hr .nil⟩
  | s :: s' :: texts, _, h, _ => by
      obtain ⟨r, rs, hs, hrest, rfl⟩ := List.forall₂_cons_left_iff.mp h
      have hjoined := spells_joined hinner hrest (List.cons_ne_nil _ _)
      rw [List.map_cons, List.map_cons, Text.joined, ← List.map_cons]
      · rw [String.toList_append, String.toList_append, String.toList_append, List.append_assoc,
          List.append_assoc]
        refine ((hs.thenBreak ((hjoined.blank '\n' (by decide)).mark ',' (by decide))
          (by decide)).blanks _ hinner).imp ?_
        rintro ts ⟨us, vs, rfl, ⟨b, hb, hr⟩, comma, ws, rfl, hcomma, bs, hbs, hrs⟩
        exact ⟨b :: bs, Or.inr ⟨us, comma, ws, rfl, hb, hcomma, hbs⟩, .cons hr hrs⟩
      · exact List.cons_ne_nil _ _

theorem allBlank_times {s : String} (h : Text.allBlank s.toList = true) (n : Nat) :
    Text.allBlank (Text.times s n).toList = true := by
  induction n with
  | zero => rfl
  | succ n ih =>
      rw [Text.times, List.replicate_succ, String.join_cons, String.toList_append, Text.allBlank,
        List.all_append, Bool.and_eq_true]
      exact ⟨h, ih⟩

theorem spells_block {p : Printer} (hp : Text.allBlank p.indentUnit.toList = true) {β : Type}
    {written : β → List Token → Prop} {texts : List String} {props : List (β → Prop)}
    (h : Items written texts props) (c d : Char) (hc : isPunctuation c = true)
    (hd : isPunctuation d = true) (level : Nat) :
    Spells Anything (p.block (String.ofList [c]) (String.ofList [d]) texts level).toList
      (fun ts => ∃ opening closing us bs, ts = opening :: (us ++ [closing]) ∧
        opening.IsMark (String.ofList [c]) ∧ closing.IsMark (String.ofList [d]) ∧
        commaSeparated written bs us ∧ List.Forall₂ (fun r b => r b) props bs) := by
  have hclosing : Spells Anything [d]
      (fun ts => ∃ t : Token, ts = [t] ∧ t.IsMark (String.ofList [d])) :=
    spells_mark hd
  unfold Printer.block
  cases texts with
  | nil =>
      obtain rfl := List.forall₂_nil_left_iff.mp h
      simp only [List.isEmpty_nil, if_true, String.toList_append, String.toList_ofList]
      refine (hclosing.mark c hc).imp ?_
      rintro ts ⟨opening, us, rfl, hopening, closing, rfl, hclosing⟩
      exact ⟨opening, closing, [], [], rfl, hopening, hclosing, rfl, .nil⟩
  | cons s texts =>
      have hitems := spells_joined (allBlank_times hp (level + 1)) h (List.cons_ne_nil _ _)
      have hafter := (hclosing.blanks _ (allBlank_times hp level)).blank '\n' (by decide)
      simp only [List.isEmpty_cons, Bool.false_eq_true, if_false, String.toList_append,
        String.toList_ofList, List.append_assoc]
      refine (((hitems.thenBreak hafter (by decide)).blank '\n' (by decide)).mark c hc).imp ?_
      rintro ts ⟨opening, ws, rfl, hopening, us, vs, rfl, ⟨bs, hbs, hprops⟩, closing, rfl, hclosing⟩
      exact ⟨opening, closing, us, bs, rfl, hopening, hclosing, hbs, hprops⟩

end AnnotationEdit.Lexer

import AnnotationEdit.Token.Basic

/-!
# Reading tokens

Splits a text into tokens, left to right. A token is as long as its class allows: comments up to
the end of their line or the closing mark, strings up to their closing quote, numbers, names, and
single punctuation marks. Blanks between tokens are dropped. Main statement: a token and the text
after it make up the text it was read from (`scan_append`).
-/

namespace AnnotationEdit

/-- Why a text is not an annotation file. -/
inductive SyntaxFault where
  | unterminatedComment
  | unterminatedString
  | unexpectedCharacter (c : Char)
  | unexpected (text : String)
  | unexpectedInValue (text : String)
  | unexpectedEnd
  | expected (mark found : String)
  | expectedIdentifier
  | expectedValue
deriving DecidableEq, Repr

def SyntaxFault.message : SyntaxFault → String
  | unterminatedComment => "unterminated block comment"
  | unterminatedString => "unterminated string"
  | unexpectedCharacter c => "unexpected character '" ++ String.ofList [c] ++ "'"
  | unexpected text => "unexpected '" ++ text ++ "'"
  | unexpectedInValue text => "unexpected '" ++ text ++ "' in value"
  | unexpectedEnd => "unexpected end of file"
  | expected mark found => "expected '" ++ mark ++ "', found '" ++ found ++ "'"
  | expectedIdentifier => "expected an identifier"
  | expectedValue => "expected a value"

structure SyntaxError where
  fault : SyntaxFault
  position : Position
deriving DecidableEq, Repr

def SyntaxError.message (e : SyntaxError) : String :=
  e.fault.message ++ " at " ++ e.position.display

namespace Lexer

def quote : Char := '\x27'

/-- The quote around strings of several lines. -/
def backquote : Char := '\x60'

def keywords : List String := ["using", "from", "as", "annotate", "with", "actions"]

def isNameChar (c : Char) : Bool := Text.isAlphanumeric c || c == '_' || c == '$'

def isNumberChar (c : Char) : Bool := Text.isDigit c || c == '.'

def isPunctuation (c : Char) : Bool :=
  "@()\x7b\x7d[]:;,.#!".toList.contains c

/-- The rest of a block comment, up to and with its closing mark. -/
def throughClose? : List Char → Option (List Char × List Char)
  | [] => none
  | '*' :: '/' :: cs => some (['*', '/'], cs)
  | c :: cs => (throughClose? cs).map fun p => (c :: p.1, p.2)

/-- The rest of a string, up to and with its closing quote. Two quotes stand for one. -/
def throughQuote? : List Char → Option (List Char × List Char)
  | [] => none
  | [c] => if c = quote then some ([c], []) else none
  | c :: d :: cs =>
    if c = quote then
      if d = quote then (throughQuote? cs).map fun p => (c :: d :: p.1, p.2)
      else some ([c], d :: cs)
    else (throughQuote? (d :: cs)).map fun p => (c :: p.1, p.2)

/-- The rest of a string of several lines, up to and with its closing quote. -/
def throughBackquote? : List Char → Option (List Char × List Char)
  | [] => none
  | c :: cs =>
    if c = backquote then some ([c], cs)
    else (throughBackquote? cs).map fun p => (c :: p.1, p.2)

def wordKind (cs : List Char) : TokenKind :=
  if keywords.contains (String.ofList cs) then .keyword else .identifier

/-- The token that starts with `c`: its kind, its further characters, and what follows it. -/
def scan (c : Char) (cs : List Char) : Except SyntaxFault (TokenKind × List Char × List Char) :=
  if c = '/' && cs.head? == some '/' then
    .ok (.lineComment, cs.takeWhile (· != '\n'), cs.dropWhile (· != '\n'))
  else if c = '/' && cs.head? == some '*' then
    match throughClose? (cs.drop 1) with
    | some (body, rest) => .ok (.blockComment, cs.take 1 ++ body, rest)
    | none => .error .unterminatedComment
  else if c = quote then
    match throughQuote? cs with
    | some (body, rest) => .ok (.string, body, rest)
    | none => .error .unterminatedString
  else if c = backquote then
    match throughBackquote? cs with
    | some (body, rest) => .ok (.string, body, rest)
    | none => .error .unterminatedString
  else if Text.isDigit c || (c = '-' && cs.head?.any Text.isDigit) then
    .ok (.number, cs.takeWhile isNumberChar, cs.dropWhile isNumberChar)
  else if isNameChar c then
    .ok (wordKind (c :: cs.takeWhile isNameChar), cs.takeWhile isNameChar, cs.dropWhile isNameChar)
  else if isPunctuation c then
    .ok (.punctuation, [], cs)
  else
    .error (.unexpectedCharacter c)

theorem throughClose?_append {cs body rest : List Char} (h : throughClose? cs = some (body, rest)) :
    body ++ rest = cs := by
  fun_induction throughClose? cs generalizing body with
  | case1 => simp at h
  | case2 cs => simp at h; obtain ⟨rfl, rfl⟩ := h; rfl
  | case3 c cs _ ih =>
    obtain ⟨⟨b, r⟩, hb, he⟩ := Option.map_eq_some_iff.1 h
    simp only [Prod.mk.injEq] at he
    obtain ⟨rfl, rfl⟩ := he
    simp [ih hb]

theorem throughQuote?_append {cs body rest : List Char} (h : throughQuote? cs = some (body, rest)) :
    body ++ rest = cs := by
  fun_induction throughQuote? cs generalizing body with
  | case1 => simp at h
  | case2 => simp at h; obtain ⟨rfl, rfl⟩ := h; rfl
  | case3 => simp at h
  | case4 cs ih =>
    obtain ⟨⟨b, r⟩, hb, he⟩ := Option.map_eq_some_iff.1 h
    simp only [Prod.mk.injEq] at he
    obtain ⟨rfl, rfl⟩ := he
    simp [ih hb]
  | case5 => simp at h; obtain ⟨rfl, rfl⟩ := h; rfl
  | case6 c d cs _ ih =>
    obtain ⟨⟨b, r⟩, hb, he⟩ := Option.map_eq_some_iff.1 h
    simp only [Prod.mk.injEq] at he
    obtain ⟨rfl, rfl⟩ := he
    simp [ih hb]

theorem throughBackquote?_append {cs body rest : List Char}
    (h : throughBackquote? cs = some (body, rest)) : body ++ rest = cs := by
  fun_induction throughBackquote? cs generalizing body with
  | case1 => simp at h
  | case2 => simp at h; obtain ⟨rfl, rfl⟩ := h; rfl
  | case3 c cs _ ih =>
    obtain ⟨⟨b, r⟩, hb, he⟩ := Option.map_eq_some_iff.1 h
    simp only [Prod.mk.injEq] at he
    obtain ⟨rfl, rfl⟩ := he
    simp [ih hb]

/-- Reading a token loses nothing. -/
theorem scan_append {c : Char} {cs tail rest : List Char} {kind : TokenKind}
    (h : scan c cs = .ok (kind, tail, rest)) : tail ++ rest = cs := by
  unfold scan at h
  repeat' split at h
  all_goals try simp only [Except.ok.injEq, Prod.mk.injEq, reduceCtorEq] at h
  all_goals obtain ⟨-, rfl, rfl⟩ := h
  all_goals try simp
  next hb => rw [throughClose?_append hb, List.take_append_drop]
  next hb => exact throughQuote?_append hb
  next hb => exact throughBackquote?_append hb

def tokenizeFrom (p : Position) (cs : List Char) : Except SyntaxError (List Token) :=
  match cs with
  | [] => .ok []
  | c :: cs =>
    if Text.isBlank c then tokenizeFrom (p.advance c) cs
    else
      match _h : scan c cs with
      | .error fault => .error ⟨fault, p⟩
      | .ok (kind, tail, rest) =>
        let stop := p.after (c :: tail)
        match tokenizeFrom stop rest with
        | .error e => .error e
        | .ok tokens => .ok (⟨kind, String.ofList (c :: tail), ⟨p, stop⟩, none⟩ :: tokens)
termination_by cs.length
decreasing_by
  · simp
  · have hlen := congrArg List.length (scan_append ‹_›)
    rw [List.length_append] at hlen
    rw [List.length_cons]
    omega

/-- The tokens of a text. -/
def tokenize (text : String) : Except SyntaxError (List Token) :=
  tokenizeFrom Position.origin text.toList

end Lexer

end AnnotationEdit

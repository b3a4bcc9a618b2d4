import AnnotationEdit.Config.Vocabulary
import AnnotationEdit.Syntax.Basic
import AnnotationEdit.Token.Lexer

/-!
# Parsing

Reads the concrete tree off the code tokens, one token ahead at a time. Along the way every
identifier gets the role it has in the tree. A loop is bounded by the number of tokens left when it
starts, and nested values by the number of tokens left when the outermost one starts: each round and
each level takes at least one token, so the bounds are never met.
-/

namespace AnnotationEdit.Syntax

/-- Where a parse stands: the tokens taken, last one first, and the tokens ahead. -/
structure Cursor where
  taken : List Token
  ahead : List Token

abbrev Parser := StateT Cursor (Except SyntaxError)

namespace Parser

def peek? : Parser (Option Token) := do return (← get).ahead.head?

def fail {α : Type} (fault : SyntaxFault) : Parser α := do
  let cursor ← get
  let token := cursor.ahead.head?.or cursor.taken.head?
  throw ⟨fault, (token.map (·.range.start)).getD Position.origin⟩

def ahead (p : Token → Bool) : Parser Bool := do return (← get).ahead.head?.any p

def atMark (mark : String) : Parser Bool := ahead (·.is mark)

def atKeyword (word : String) : Parser Bool := ahead (·.isKeyword word)

def takeAs (role : Option IdentifierKind) : Parser Token := do
  let cursor ← get
  match cursor.ahead with
  | [] => fail .unexpectedEnd
  | t :: rest =>
    let t := match role with
      | some kind => { t with identifier := some kind }
      | none => t
    set (Cursor.mk (t :: cursor.taken) rest)
    return t

/-- Takes the token ahead. -/
def take : Parser Token := takeAs none

def expect (mark : String) : Parser Range := do
  if ← atMark mark then
    return (← take).range
  else
    let found := ((← peek?).map (·.text)).getD ""
    fail (.expected mark found)

/-- Takes a name, giving it a role. -/
def identifier (role : IdentifierKind) : Parser Identifier := do
  if ← ahead (·.kind == .identifier) then
    let t ← takeAs (some role)
    return ⟨t.text, t.range⟩
  else
    fail .expectedIdentifier

/-! ## Lists -/

/-- The items up to the mark `close`, at most `n` of them, with commas between; a comma may follow
the last one. -/
def commaItems {α : Type} (close : String) (item : Parser α) : Nat → Parser (List α)
  | 0 => return []
  | n + 1 => do
    if ← atMark close then
      return []
    else
      let first ← item
      if ← atMark "," then
        let _ ← take
        return first :: (← commaItems close item n)
      else
        return [first]

def commaList {α : Type} (close : String) (item : Parser α) : Parser (List α) := do
  commaItems close item ((← get).ahead.length + 1)

def itemsUntil {α : Type} (close : String) (item : Parser α) : Nat → Parser (List α)
  | 0 => return []
  | n + 1 => do
    if ← atMark close then
      return []
    else
      let first ← item
      return first :: (← itemsUntil close item n)

/-! ## Names -/

/-- The further segments of a dotted name. A dot without a name after it is left alone. -/
def moreSegments (role : IdentifierKind) : Nat → Parser (List Identifier)
  | 0 => return []
  | n + 1 => do
    let next := (← get).ahead
    if next.head?.any (·.is ".") && (next.drop 1).head?.any (·.kind == .identifier) then
      let _ ← take
      let segment ← identifier role
      return segment :: (← moreSegments role n)
    else
      return []

/-- A dotted name. -/
def path (role : IdentifierKind) : Parser Path := do
  let first ← identifier role
  let rest ← moreSegments role (← get).ahead.length
  let last := (rest.getLast?.getD first)
  return ⟨⟨first.range.start, last.range.stop⟩, first :: rest⟩

def qualifier? : Parser (Option Identifier) := do
  if ← atMark "#" then
    let hash ← take
    let name ← identifier .other
    return some ⟨"#" ++ name.text, ⟨hash.range.start, name.range.stop⟩⟩
  else
    return none

/-! ## Values -/

def nameKind (text : String) : PrimitiveKind :=
  if text == "true" || text == "false" then .boolean
  else if text == "null" then .null
  else .path

def primitive : Parser Primitive := do
  match ← peek? with
  | none => fail .expectedValue
  | some t =>
    if t.kind == .string then
      let t ← take
      let multiLine := t.text.toList.head? == some Lexer.backquote
      return ⟨t.range, if multiLine then .multiLineString else .string, t.text⟩
    else if t.kind == .number then
      let t ← take
      return ⟨t.range, .number, t.text⟩
    else if t.is "#" then
      let hash ← take
      let member ← identifier .other
      return ⟨⟨hash.range.start, member.range.stop⟩, .enum, "#" ++ member.text⟩
    else if t.kind == .identifier then
      let name ← path .other
      return ⟨name.range, nameKind name.text, name.text⟩
    else
      fail (.unexpectedInValue t.text)

def optionalValue (value : Parser Value) : Parser (Option Range × Option Value) := do
  if ← atMark ":" then
    let colon ← take
    return (some colon.range, some (← value))
  else
    return (none, none)

def endOf (value : Option Value) (head : Position) : Position :=
  match value with
  | some v => v.range.stop
  | none => head

mutual

/-- A value nested at most `n` levels deep. -/
def value : Nat → Parser Value
  | 0 => fail .expectedValue
  | n + 1 => do
    if ← atMark Token.openBrace then
      let opening ← take
      let entries ← commaList Token.closeBrace (entry n)
      let closing ← expect Token.closeBrace
      return .record ⟨⟨opening.range.start, closing.stop⟩, entries⟩
    else if ← atMark "[" then
      let opening ← take
      let items ← commaList "]" (value n)
      let closing ← expect "]"
      return .collection ⟨⟨opening.range.start, closing.stop⟩, items⟩
    else
      return .primitive (← primitive)

/-- An entry of a record: an annotation of the record, or a property. -/
def entry : Nat → Parser Entry
  | 0 => fail .expectedValue
  | n + 1 => do
    if ← atMark "!" then
      let mark ← take
      let _ ← expect "["
      let _ ← expect "@"
      let term ← path .term
      let qualifier ← qualifier?
      let closing ← expect "]"
      let (colon, v) ← optionalValue (value n)
      let range := ⟨mark.range.start, endOf v closing.stop⟩
      return .embedded ⟨range, none, term, qualifier, colon, v, true⟩
    else
      let name ← path .property
      let (colon, v) ← optionalValue (value n)
      return .property ⟨⟨name.range.start, endOf v name.range.stop⟩, name, colon, v⟩

end

/-- A value, nested as deep as the tokens ahead allow. -/
def anyValue : Parser Value := do value ((← get).ahead.length + 1)

/-! ## Annotations -/

/-- The rest of an annotation after its term. -/
def annotation (atSign : Option Range) (term : Path) : Parser Annotation := do
  let qualifier ← qualifier?
  let headEnd := match qualifier with
    | some q => q.range.stop
    | none => term.range.stop
  let (colon, v) ← optionalValue anyValue
  return ⟨⟨term.range.start, endOf v headEnd⟩, atSign, term, qualifier, colon, v, false⟩

def startsGroup (vocabulary : Vocabulary) (term : Path) : Parser Bool := do
  let next := (← get).ahead
  return term.segments.length == 1 && vocabulary.isAlias term.text && next.head?.any (·.is ":") &&
    (next.drop 1).head?.any (·.is Token.openBrace)

def assignment (vocabulary : Vocabulary) (atSign : Option Range) : Parser Assignment := do
  let term ← path .term
  if ← startsGroup vocabulary term then
    let colon ← expect ":"
    let opening ← expect Token.openBrace
    let items ← commaList Token.closeBrace do
      let itemTerm ← path .term
      annotation none itemTerm
    let closing ← expect Token.closeBrace
    return .group {
      range := ⟨term.range.start, closing.stop⟩
      atSign := atSign
      name := ⟨term.text, term.range⟩
      colon := colon
      items := ⟨⟨opening.start, closing.stop⟩, items⟩ }
  else
    return .single (← annotation atSign term)

/-- The annotations after a target name, bare ones and lists in parentheses, with the range from
the first such list to the last one. -/
def assignments (vocabulary : Vocabulary) : Nat → Parser (List Assignment × Option Range)
  | 0 => return ([], none)
  | n + 1 => do
    if ← atMark "@" then
      let sign ← take
      if ← atMark "(" then
        let _ ← take
        let items ← commaList ")" (assignment vocabulary none)
        let closing ← expect ")"
        let compound : Range := ⟨sign.range.start, closing.stop⟩
        let (rest, more) ← assignments vocabulary n
        return (items ++ rest, some (match more with
          | some r => compound.union r
          | none => compound))
      else
        let item ← assignment vocabulary (some sign.range)
        let (rest, more) ← assignments vocabulary n
        return (item :: rest, more)
    else
      return ([], none)

def allAssignments (vocabulary : Vocabulary) : Parser (List Assignment × Option Range) := do
  assignments vocabulary ((← get).ahead.length + 1)

/-! ## Statements -/

def targetOf (kind : TargetKind) (name : String) (nameRange : Range)
    (found : List Assignment × Option Range) : Target where
  kind := kind
  name := name
  nameRange := nameRange
  range := ⟨nameRange.start, match found.1.getLast? with
    | some a => a.range.stop
    | none => nameRange.stop⟩
  compound := found.2
  assignments := found.1

def declaration : Parser Declaration := do
  let first ← take
  let name ← if ← ahead (·.kind == .identifier) then some <$> path .entity else pure none
  let nickname ← if ← atKeyword "as" then do
      let _ ← take
      some <$> identifier .other
    else pure none
  let source ← if ← atKeyword "from" then do
      let _ ← take
      some <$> primitive
    else pure none
  let closing ← expect ";"
  return ⟨⟨first.range.start, closing.stop⟩, name, nickname, source⟩

def member (vocabulary : Vocabulary) (entity : String) : Parser Target := do
  let name ← identifier .element
  let found ← allAssignments vocabulary
  let _ ← expect ";"
  return targetOf .element (entity ++ "/" ++ name.text) name.range found

/-- An annotate statement. The entity is a target of its own unless only members are annotated. -/
def annotate (vocabulary : Vocabulary) : Parser (List Target) := do
  let _ ← take
  let name ← path .entity
  if ← atKeyword "with" then
    let _ ← take
  let found ← allAssignments vocabulary
  let hasMembers ← atMark Token.openBrace
  let entity :=
    if !found.1.isEmpty || !hasMembers then [targetOf .entity name.text name.range found] else []
  let members ← if hasMembers then do
      let _ ← take
      let members ← itemsUntil Token.closeBrace (member vocabulary name.text)
        ((← get).ahead.length + 1)
      let _ ← expect Token.closeBrace
      pure members
    else pure []
  let _ ← expect ";"
  return entity ++ members

def statements (vocabulary : Vocabulary) : Nat → Parser (List Declaration × List Target)
  | 0 => return ([], [])
  | n + 1 => do
    match ← peek? with
    | none => return ([], [])
    | some t =>
      if t.isKeyword "using" then
        let d ← declaration
        let (declarations, targets) ← statements vocabulary n
        return (d :: declarations, targets)
      else if t.isKeyword "annotate" then
        let ts ← annotate vocabulary
        let (declarations, targets) ← statements vocabulary n
        return (declarations, ts ++ targets)
      else
        fail (.unexpected t.text)

end Parser

def parseTokens (vocabulary : Vocabulary) (uri : String) (range : Range) (tokens : List Token) :
    Except SyntaxError (File × List Token) := do
  let code := tokens.filter Token.isCode
  let ((declarations, targets), cursor) ←
    (Parser.statements vocabulary (code.length + 1)).run ⟨[], code⟩
  return (⟨uri, range, declarations, targets⟩, cursor.taken.reverse)

end AnnotationEdit.Syntax

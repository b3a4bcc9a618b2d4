import AnnotationEdit.Deletion.Range
import AnnotationEdit.Text.Edit

/-!
# Edits for deletion ranges

Removes the tokens of a range with the separator next to them and the blanks around: whole lines
when nothing else stands on them, everything between two brackets when nothing else is between them.
-/

namespace AnnotationEdit.DeletionRange

/-- The last token to remove: the separator after the range, and a comment behind the separator. -/
def lastWithSeparator (tokens : TokenStream) (r : DeletionRange) : Nat :=
  match tokens.nextCode? r.tokens.last with
  | some next =>
    if tokens.test next r.pattern.separates then
      if (tokens.trailingComment? next).isSome then next + 1 else next
    else r.tokens.last
  | none => r.tokens.last

def separatorBefore? (tokens : TokenStream) (r : DeletionRange) : Option Range :=
  let isLast := match tokens.nextCode? r.tokens.last with
    | some next => !tokens.test next r.pattern.separates && tokens.test next Token.isCloser
    | none => true
  if isLast then
    match (tokens.prevCode? r.tokens.first).bind tokens.get? with
    | some previous => if r.pattern.separates previous then some previous.range else none
    | none => none
  else none

def betweenBrackets? (tokens : TokenStream) (first last : Nat) : Option Range :=
  if first = 0 then none
  else match tokens.get? (first - 1), tokens.get? (last + 1) with
    | some opening, some closing =>
      if (opening.is "[" && closing.is "]") || (opening.is "(" && closing.is ")") ||
          (opening.is Token.openBrace && closing.is Token.closeBrace) then
        some ⟨opening.range.stop, closing.range.start⟩
      else none
    | _, _ => none

/-- The lines from `first` to `last` with a line break: the one after them, or else the one before
them. -/
def wholeLines (lines : Lines) (first last : Nat) : Range :=
  if last + 1 < lines.count then ⟨⟨first, 0⟩, ⟨last + 1, 0⟩⟩
  else if 0 < first then ⟨lines.lineEnd (first - 1), lines.lineEnd last⟩
  else ⟨Position.origin, lines.lineEnd last⟩

/-- The range of the tokens with the blanks around them. Beside other text on a line the blanks up
to the next token go, or those after the previous token when the next one closes something. -/
def widen (context : DeletionContext) (first last : Nat) : Range :=
  let tokens := context.tokens
  let start := (tokens.rangeAt first).start
  let stop := (tokens.rangeAt last).stop
  let before := (context.lines.lineText start.line).take start.character
  let after := (context.lines.lineText stop.line).drop stop.character
  if Text.allBlank before && Text.allBlank after then
    wholeLines context.lines start.line stop.line
  else match (tokens.get? (last + 1)).filter fun next =>
      next.range.start.line == stop.line && !next.isCloser && !next.is ";" with
    | some next => ⟨start, next.range.start⟩
    | none =>
      if first = 0 then ⟨Position.origin, stop⟩
      else match tokens.get? (first - 1) with
        | some previous =>
          if previous.kind == .lineComment && previous.range.stop.line < start.line then
            ⟨start, stop⟩
          else ⟨previous.range.stop, stop⟩
        | none => ⟨Position.origin, stop⟩

/-- The edits that remove one range. -/
def edits (context : DeletionContext) (r : DeletionRange) : List TextEdit :=
  let tokens := context.tokens
  let first := r.tokens.first
  let last := r.lastWithSeparator tokens
  let range := (betweenBrackets? tokens first last).getD (widen context first last)
  ((r.separatorBefore? tokens).toList.map TextEdit.delete) ++ [TextEdit.delete range]

/-- The edits that remove all ranges. -/
def allEdits (context : DeletionContext) (ranges : List DeletionRange) : List TextEdit :=
  ranges.flatMap (edits context)

end AnnotationEdit.DeletionRange

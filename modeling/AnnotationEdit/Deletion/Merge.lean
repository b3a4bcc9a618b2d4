import AnnotationEdit.Deletion.Expand

/-!
# Merging deletion ranges

Ranges with nothing but comments and at most one separator between them become one. A merged range
may grow where its parts could not, so growing and merging are repeated until nothing changes.
-/

namespace AnnotationEdit.DeletionRange

def codeBetween (tokens : TokenStream) (left right : DeletionRange) : List Token :=
  ((tokens.tokens.toList.drop (left.tokens.last + 1)).take
    (right.tokens.first - (left.tokens.last + 1))).filter Token.isCode

/-- The ranges touch, or only comments and a separator of one of them stand between. -/
def adjacent (tokens : TokenStream) (left right : DeletionRange) : Bool :=
  if right.tokens.first ≤ left.tokens.last + 1 then true
  else match codeBetween tokens left right with
    | [] => true
    | [t] => left.pattern.separates t || right.pattern.separates t
    | _ => false

/-- The range over both, separated like the one that covers more. -/
def combine (left right : DeletionRange) : DeletionRange where
  kind := left.kind.max right.kind
  pattern := if left.kind.rank < right.kind.rank then right.pattern else left.pattern
  terms := left.terms.union right.terms
  tokens := left.tokens.union right.tokens
  expanded := false
  includeTarget := left.includeTarget || right.includeTarget

def comesFirst (a b : DeletionRange) : Bool :=
  ((compare a.tokens.first b.tokens.first).then (compare a.tokens.last b.tokens.last)) != .gt

def dropRepeated : List DeletionRange → List DeletionRange
  | [] => []
  | [r] => [r]
  | r :: s :: rest => if r = s then dropRepeated (s :: rest) else r :: dropRepeated (s :: rest)

def sweepFrom (tokens : TokenStream) (current : DeletionRange) :
    List DeletionRange → List DeletionRange
  | [] => [current]
  | r :: rest =>
    if adjacent tokens current r then sweepFrom tokens (combine current r) rest
    else current :: sweepFrom tokens r rest

def sweep (tokens : TokenStream) : List DeletionRange → List DeletionRange
  | [] => []
  | r :: rest => sweepFrom tokens r rest

/-- Combines neighbours until none are adjacent. -/
def mergeSorted (tokens : TokenStream) (ranges : List DeletionRange) : List DeletionRange :=
  let next := sweep tokens ranges
  if next.length < ranges.length then mergeSorted tokens next else next
termination_by ranges.length

def merge (tokens : TokenStream) (ranges : List DeletionRange) : List DeletionRange :=
  mergeSorted tokens (dropRepeated (ranges.mergeSort comesFirst))

/-- Grows every range and merges the results. -/
def expandAndMerge (context : DeletionContext) (ranges : List DeletionRange) : List DeletionRange :=
  merge context.tokens (ranges.map (expand context))

/-- Repeats growing and merging until nothing changes, at most `n` times. -/
def settleWithin (context : DeletionContext) : Nat → List DeletionRange → List DeletionRange
  | 0, ranges => ranges
  | n + 1, ranges =>
    let next := expandAndMerge context ranges
    if next = ranges then ranges else settleWithin context n next

/-- The rounds after which nothing changes: a round that takes in no token and joins no ranges is
followed by at most one more. -/
def rounds (context : DeletionContext) (ranges : List DeletionRange) : Nat :=
  2 * Text.total (ranges.map fun r => r.measure context.tokens + 1) + 2

/-- The ranges after all growing and merging. -/
def settle (context : DeletionContext) (ranges : List DeletionRange) : List DeletionRange :=
  settleWithin context (rounds context ranges) ranges

end AnnotationEdit.DeletionRange

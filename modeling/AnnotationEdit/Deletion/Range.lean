import AnnotationEdit.Config.Vocabulary
import AnnotationEdit.Text.Lines
import AnnotationEdit.Token.Stream
import AnnotationEdit.Tree.TargetIndex

/-!
# Deletion ranges

A deletion starts as the tokens of one node and grows over the text that would make no sense without
it. A deletion range is such a stretch of tokens with what is known about it: how much of the
surrounding text it covers, how its list separates items, and whether the whole target goes.
-/

namespace AnnotationEdit

/-- How much of the surrounding text a range covers, from least to most. -/
inductive DeletionKind where
  /-- A term or list item without its `@`. -/
  | term
  /-- A term that starts with a vocabulary alias. -/
  | qualifiedTerm
  /-- A whole annotation with its `@`. -/
  | annotation
  /-- A whole list of annotations with its brackets. -/
  | assignments
  /-- A target with its name or its clause. -/
  | target
deriving DecidableEq, Repr

namespace DeletionKind

def rank : DeletionKind → Nat
  | term => 0
  | qualifiedTerm => 1
  | annotation => 2
  | assignments => 3
  | target => 4

/-- The kind that covers more. -/
def max (a b : DeletionKind) : DeletionKind := if a.rank < b.rank then b else a

end DeletionKind

/-- How a list separates its items. -/
inductive PrintPattern where
  /-- `@A @B` -/
  | bareAnnotations
  /-- `a, b` -/
  | commaList
  /-- `a; b;` -/
  | declarations
deriving DecidableEq, Repr

def PrintPattern.separator? : PrintPattern → Option String
  | bareAnnotations => none
  | commaList => some ","
  | declarations => some ";"

def PrintPattern.separates (pattern : PrintPattern) (t : Token) : Bool :=
  pattern.separator?.any t.is

/-- A stretch of numbers, both ends included. -/
structure IndexRange where
  first : Nat
  last : Nat
deriving DecidableEq, Repr

def IndexRange.union (a b : IndexRange) : IndexRange :=
  ⟨Nat.min a.first b.first, Nat.max a.last b.last⟩

structure DeletionRange where
  kind : DeletionKind
  pattern : PrintPattern
  /-- The places in the list that the range covers. -/
  terms : IndexRange
  /-- The tokens to delete. -/
  tokens : IndexRange
  /-- The range has grown as far as it can. -/
  expanded : Bool
  /-- The whole target goes, with its name and clause. -/
  includeTarget : Bool
deriving DecidableEq, Repr

/-- What the growth of a range depends on: the tokens, the lines, where the targets are, and which
of them are deleted in the same batch. -/
structure DeletionContext where
  tokens : TokenStream
  lines : Lines
  targets : Tree.TargetIndex
  deletedTargets : List String

/-- The range of a node that is deleted, if the node covers a token. The term it starts with decides
between the first two kinds. -/
def DeletionRange.ofNode? (tokens : TokenStream) (node : Range) (term : Option String)
    (vocabulary : Vocabulary) (pattern : PrintPattern) (sibling : Nat) : Option DeletionRange :=
  let (first, stop) := tokens.within node
  if first < stop then
    some {
      kind := if term.any vocabulary.isQualified then .qualifiedTerm else .term
      pattern := pattern
      terms := ⟨sibling, sibling⟩
      tokens := ⟨first, stop - 1⟩
      expanded := false
      includeTarget := false }
  else none

end AnnotationEdit

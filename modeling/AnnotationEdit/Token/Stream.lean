import AnnotationEdit.Token.Basic

/-!
# Token streams

The tokens of a document sorted by where they start. Places are looked up by halving: the tokens a
predicate holds of are taken to come first, and `partitionPoint` finds where they end. On tokens
that are not empty and do not overlap the look-ups agree with a scan from the front.
-/

namespace AnnotationEdit

/-- Halves the stretch of `size` elements from `base` on, keeping the half in which the predicate
changes. -/
def narrow {α : Type} (xs : Array α) (p : α → Bool) (base size : Nat) : Nat :=
  if size ≤ 1 then base
  else narrow xs p (if xs[base + size / 2]?.any p then base + size / 2 else base) (size - size / 2)
termination_by size

/-- The number of elements in front that satisfy the predicate, for a predicate that holds of the
elements up to some place and of none after it. -/
def partitionPoint {α : Type} (xs : Array α) (p : α → Bool) : Nat :=
  let base := narrow xs p 0 xs.size
  if xs[base]?.any p then base + 1 else base

structure TokenStream where
  tokens : Array Token
deriving DecidableEq

namespace TokenStream

/-- Tokens in any order; those with one start keep their order. -/
def ofTokens (tokens : List Token) : TokenStream :=
  ⟨(tokens.mergeSort fun a b => a.range.start ≤ b.range.start).toArray⟩

def ofRaw (raw : List RawToken) : TokenStream := ofTokens (raw.map Token.ofRaw)

def size (s : TokenStream) : Nat := s.tokens.size

def get? (s : TokenStream) (i : Nat) : Option Token := s.tokens[i]?

/-- Whether there is a token at `i` and it satisfies `p`. -/
def test (s : TokenStream) (i : Nat) (p : Token → Bool) : Bool := (s.get? i).any p

def rangeAt (s : TokenStream) (i : Nat) : Range :=
  match s.get? i with
  | some t => t.range
  | none => Range.empty Position.origin

def comments (s : TokenStream) : List Token := s.tokens.toList.filter (·.isComment)

/-! ## Looking up places -/

def firstOnLine? (s : TokenStream) (line : Nat) : Option Nat :=
  let i := partitionPoint s.tokens fun t => t.range.start.line < line
  if s.test i fun t => t.range.start.line == line then some i else none

def atOrAfter (s : TokenStream) (p : Position) : Nat :=
  partitionPoint s.tokens fun t => t.range.start < p

def startingAt? (s : TokenStream) (p : Position) : Option Nat :=
  let i := s.atOrAfter p
  if s.test i fun t => t.range.start == p then some i else none

def endingAt? (s : TokenStream) (p : Position) : Option Nat :=
  let i := partitionPoint s.tokens fun t => t.range.stop < p
  if s.test i fun t => t.range.stop == p then some i else none

def within (s : TokenStream) (r : Range) : Nat × Nat :=
  let first := s.atOrAfter r.start
  (first, Nat.max (partitionPoint s.tokens fun t => t.range.stop ≤ r.stop) first)

/-! ## Stepping over comments -/

def firstCode? (s : TokenStream) (i : Nat) : Nat → Option Nat
  | 0 => none
  | count + 1 => if s.test i Token.isCode then some i else s.firstCode? (i + 1) count

def prevCode? (s : TokenStream) : Nat → Option Nat
  | 0 => none
  | i + 1 => if s.test i Token.isCode then some i else s.prevCode? i

def nextCode? (s : TokenStream) (i : Nat) : Option Nat := s.firstCode? (i + 1) (s.size - (i + 1))

def commaAfter? (s : TokenStream) (i : Nat) : Option Nat :=
  (s.nextCode? i).filter fun next => s.test next (·.is ",")

def codeBefore? (s : TokenStream) (p : Position) : Option Nat :=
  s.prevCode? (partitionPoint s.tokens fun t => t.range.stop ≤ p)

def codeAfter? (s : TokenStream) (p : Position) : Option Nat :=
  let i := s.atOrAfter p
  s.firstCode? i (s.size - i)

/-! ## Neighbours on a line -/

def isFirstOnLine (s : TokenStream) (i : Nat) : Bool :=
  match s.get? i with
  | none => false
  | some t => i == 0 || s.test (i - 1) fun previous => previous.range.stop.line < t.range.start.line

def isLastOnLine (s : TokenStream) (i : Nat) : Bool :=
  match s.get? i with
  | none => false
  | some t => !s.test (i + 1) fun next => next.range.start.line ≤ t.range.stop.line

def startsLine (s : TokenStream) (p : Position) : Bool :=
  match s.startingAt? p with
  | some i => s.isFirstOnLine i
  | none => false

/-- The comment after the token at `i` on the line on which that token ends. -/
def trailingComment? (s : TokenStream) (i : Nat) : Option Token :=
  match s.get? i, s.get? (i + 1) with
  | some t, some next => if next.trails t then some next else none
  | _, _ => none

def span? (s : TokenStream) (first last : Nat) : Option Range :=
  match s.get? first, s.get? last with
  | some a, some b => some ⟨a.range.start, b.range.stop⟩
  | _, _ => none

end TokenStream

end AnnotationEdit

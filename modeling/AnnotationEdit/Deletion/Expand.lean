import AnnotationEdit.Deletion.Range

/-!
# Growing a deletion range

A range grows by five rules, tried in order until none applies: over the comments that belong to it,
the brackets around a list that goes as a whole, the `@` in front, the name of the annotated member,
and the clause in front of a deleted target. Each rule takes at least one more token into the range
(`grow?_measure`), so the growth comes to an end.
-/

namespace AnnotationEdit

namespace TokenStream

theorem prevCode?_lt {s : TokenStream} {i j : Nat} (h : s.prevCode? i = some j) : j < i := by
  induction i with
  | zero => simp [prevCode?] at h
  | succ i ih =>
    simp only [prevCode?] at h
    split at h
    · simp at h; omega
    · have := ih h; omega

theorem firstCode?_bounds {s : TokenStream} {i j n : Nat} (h : s.firstCode? i n = some j) :
    i ≤ j ∧ j < i + n := by
  induction n generalizing i with
  | zero => simp [firstCode?] at h
  | succ n ih =>
    simp only [firstCode?] at h
    split at h
    · simp at h; omega
    · have := ih h; omega

theorem nextCode?_bounds {s : TokenStream} {i j : Nat} (h : s.nextCode? i = some j) :
    i < j ∧ j < s.size := by
  have := firstCode?_bounds h
  omega

/-- The word `annotate` before `i`, with nothing but a dotted name between. -/
def annotateBefore? (s : TokenStream) : Nat → Option Nat
  | 0 => none
  | i + 1 =>
    match s.get? i with
    | some t =>
      if t.isComment then s.annotateBefore? i
      else if t.isWord "annotate" then some i
      else if t.kind == .identifier || t.is "." then s.annotateBefore? i
      else none
    | none => none

theorem annotateBefore?_lt {s : TokenStream} {i j : Nat} (h : s.annotateBefore? i = some j) :
    j < i := by
  induction i with
  | zero => simp [annotateBefore?] at h
  | succ i ih => grind [annotateBefore?]

def depthAfter (depth : Nat) (t : Token) : Nat :=
  if t.is Token.openBrace || t.is "(" || t.is "[" then depth + 1
  else if t.isCloser then depth - 1
  else depth

/-- The semicolon that ends a statement, looked for among the `n` tokens from `i` on; the last code
token when there is none. -/
def statementEnd (s : TokenStream) (depth last i : Nat) : Nat → Nat
  | 0 => last
  | n + 1 =>
    match s.get? i with
    | some t =>
      if t.isComment then s.statementEnd depth last (i + 1) n
      else if t.is ";" && depth == 0 then i
      else s.statementEnd (depthAfter depth t) i (i + 1) n
    | none => last

/-- Whether the declaration of a member ends before anything else of it comes, among the `n` tokens
from `i` on. -/
def declarationEnds (s : TokenStream) (kind : IdentifierKind) (i : Nat) : Nat → Bool
  | 0 => true
  | n + 1 =>
    match s.get? i with
    | some t =>
      let isEnd := match kind with
        | .param => t.is "," || t.is ")"
        | _ => t.is ";" || t.is Token.closeBrace
      if t.isComment then s.declarationEnds kind (i + 1) n
      else if isEnd then true
      else if t.is Token.openBrace || t.is "(" || t.is "@" || t.identifier == some .param then false
      else s.declarationEnds kind (i + 1) n
    | none => true

def declarationEndsAfter (s : TokenStream) (kind : IdentifierKind) (i : Nat) : Bool :=
  s.declarationEnds kind (i + 1) (s.size - (i + 1))

def memberKind? (s : TokenStream) (i : Nat) : Option IdentifierKind :=
  match (s.get? i).bind (·.identifier) with
  | some .element => some .element
  | some .boundAction => some .boundAction
  | some .param => some .param
  | _ => none

end TokenStream

namespace DeletionRange

def withTokens (r : DeletionRange) (first last : Nat) : DeletionRange :=
  { r with tokens := ⟨first, last⟩ }

/-- A comment on the lines right above the range, or behind it on its last line. -/
def absorbComment? (tokens : TokenStream) (r : DeletionRange) : Option DeletionRange :=
  let first := r.tokens.first
  let last := r.tokens.last
  if 0 < first && tokens.test (first - 1) Token.isComment && tokens.isFirstOnLine (first - 1) &&
      tokens.isFirstOnLine first then
    some (r.withTokens (first - 1) last)
  else if (tokens.trailingComment? last).isSome then
    some (r.withTokens first (last + 1))
  else none

/-- The code token after the range, past the separator after its last item. -/
def follower? (tokens : TokenStream) (r : DeletionRange) : Option Nat :=
  match tokens.nextCode? r.tokens.last with
  | some next => if tokens.test next r.pattern.separates then tokens.nextCode? next else some next
  | none => none

def signBefore? (tokens : TokenStream) (i : Nat) : Option Nat :=
  (tokens.prevCode? i).filter fun sign => tokens.test sign (·.is "@")

def enclose? (tokens : TokenStream) (r : DeletionRange) (opening closing : Nat) :
    Option DeletionRange :=
  let isCompound := tokens.test opening (·.is "(") && tokens.test closing (·.is ")") &&
    r.kind.rank < DeletionKind.assignments.rank
  let isBlock := tokens.test opening (·.is Token.openBrace) &&
    tokens.test closing (·.is Token.closeBrace) && r.kind == .target && r.pattern == .declarations
  match isCompound, signBefore? tokens opening with
  | true, some sign =>
    some { r.withTokens sign closing with kind := .assignments, pattern := .bareAnnotations }
  | _, _ =>
    if isBlock then some { r.withTokens opening closing with pattern := .bareAnnotations } else none

/-- The brackets around the whole list of annotations of a deleted target, or around the whole block
of its members. -/
def absorbBrackets? (tokens : TokenStream) (r : DeletionRange) : Option DeletionRange :=
  if r.includeTarget then
    match tokens.prevCode? r.tokens.first, follower? tokens r with
    | some opening, some closing => enclose? tokens r opening closing
    | _, _ => none
  else none

def absorbSign? (tokens : TokenStream) (r : DeletionRange) : Option DeletionRange :=
  let first := r.tokens.first
  if r.kind.rank ≤ DeletionKind.qualifiedTerm.rank && r.pattern == .bareAnnotations && 0 < first &&
      tokens.test (first - 1) (·.is "@") then
    some { r.withTokens (first - 1) r.tokens.last with kind := DeletionKind.annotation }
  else none

def declarationPattern : IdentifierKind → PrintPattern
  | .param => .commaList
  | _ => .declarations

/-- The range up to the name of a member, which takes the whole declaration. -/
def named (r : DeletionRange) (first last : Nat) (kind : IdentifierKind) : DeletionRange :=
  { r.withTokens first last with kind := .target, pattern := declarationPattern kind }

def nameBefore? (tokens : TokenStream) (r : DeletionRange) : Option DeletionRange := do
  let i ← tokens.prevCode? r.tokens.first
  let kind ← tokens.memberKind? i
  if tokens.declarationEndsAfter kind r.tokens.last then some (r.named i r.tokens.last kind)
  else none

def nameAfter? (tokens : TokenStream) (r : DeletionRange) : Option DeletionRange := do
  let i ← tokens.nextCode? r.tokens.last
  let kind ← tokens.memberKind? i
  if tokens.declarationEndsAfter kind i then some (r.named r.tokens.first i kind) else none

def absorbName? (tokens : TokenStream) (r : DeletionRange) : Option DeletionRange :=
  if r.includeTarget && (r.kind == DeletionKind.annotation || r.kind == .assignments) then
    (nameBefore? tokens r).or (nameAfter? tokens r)
  else none

def beforeWord? (tokens : TokenStream) (word : String) (i : Nat) : Option Nat :=
  if tokens.test i (·.isWord word) then tokens.prevCode? i else some i

def clauseName? (tokens : TokenStream) (i : Nat) : Option (Nat × Option Nat) :=
  match beforeWord? tokens "actions" i with
  | none => none
  | some j =>
    if tokens.test j (·.isWord "with") then (tokens.prevCode? j).map fun name => (name, some j)
    else some (j, none)

/-- The range with the clause from `start` on, when `previous` is the code token in front of the
range. All of the clause goes when no other target survives in the statement and only its semicolon
follows; when one does, only `with` goes. -/
def absorbClauseFrom? (context : DeletionContext) (r : DeletionRange) (previous start : Nat)
    (clause : Option Nat) : Option DeletionRange :=
  let tokens := context.tokens
  let stop := tokens.statementEnd 0 start (start + 1) (tokens.size - (start + 1))
  let statement : Range := ⟨(tokens.rangeAt start).start, (tokens.rangeAt stop).stop⟩
  if context.targets.hasSurvivor statement context.deletedTargets then
    if clause == some previous then
      some { r.withTokens previous r.tokens.last with kind := .target }
    else none
  else if tokens.nextCode? r.tokens.last == some stop && tokens.test stop (·.is ";") then
    some { r.withTokens start r.tokens.last with kind := .target, pattern := .declarations }
  else none

def absorbClause? (context : DeletionContext) (r : DeletionRange) : Option DeletionRange :=
  if r.includeTarget && DeletionKind.annotation.rank ≤ r.kind.rank then do
    let previous ← context.tokens.prevCode? r.tokens.first
    let (name, clause) ← clauseName? context.tokens previous
    let start ← context.tokens.annotateBefore? (name + 1)
    absorbClauseFrom? context r previous start clause
  else none

def grow? (context : DeletionContext) (r : DeletionRange) : Option DeletionRange :=
  (absorbComment? context.tokens r).or <|
    (absorbBrackets? context.tokens r).or <|
      (absorbSign? context.tokens r).or <|
        (absorbName? context.tokens r).or (absorbClause? context r)

/-- The number of tokens a range can still take in on either side. -/
def measure (tokens : TokenStream) (r : DeletionRange) : Nat :=
  r.tokens.first + (tokens.size - r.tokens.last)

theorem absorbComment?_measure {tokens : TokenStream} {r s : DeletionRange}
    (h : absorbComment? tokens r = some s) : s.measure tokens < r.measure tokens := by
  unfold absorbComment? at h
  simp only at h
  split at h
  · next hc =>
    simp only [Option.some.injEq] at h
    subst h
    simp only [Bool.and_eq_true, decide_eq_true_eq] at hc
    simp only [measure, withTokens]
    omega
  · split at h
    · next hc =>
      simp only [Option.some.injEq] at h
      subst h
      have : r.tokens.last + 1 < tokens.size := by
        simp only [TokenStream.trailingComment?, TokenStream.get?] at hc
        split at hc
        · next h2 =>
          simp only [TokenStream.size]
          exact (Array.getElem?_eq_some_iff.1 h2).1
        · simp at hc
      simp only [measure, withTokens]
      omega
    · simp at h

theorem absorbSign?_measure {tokens : TokenStream} {r s : DeletionRange}
    (h : absorbSign? tokens r = some s) : s.measure tokens < r.measure tokens := by
  unfold absorbSign? at h
  simp only at h
  split at h
  · next hc =>
    simp only [Option.some.injEq] at h
    subst h
    simp only [Bool.and_eq_true, decide_eq_true_eq] at hc
    simp only [measure, withTokens]
    omega
  · simp at h

theorem follower?_gt {tokens : TokenStream} {r : DeletionRange} {i : Nat}
    (h : follower? tokens r = some i) : r.tokens.last < i := by
  simp only [follower?] at h
  split at h
  · next next hnext =>
    have := TokenStream.nextCode?_bounds hnext
    split at h
    · have := TokenStream.nextCode?_bounds h
      omega
    · simp only [Option.some.injEq] at h
      omega
  · simp at h

theorem absorbBrackets?_measure {tokens : TokenStream} {r s : DeletionRange}
    (h : absorbBrackets? tokens r = some s) : s.measure tokens < r.measure tokens := by
  simp only [absorbBrackets?] at h
  split at h
  · split at h
    · next opening closing hopening hclosing =>
      have hfirst := TokenStream.prevCode?_lt hopening
      have hlast := follower?_gt hclosing
      simp only [enclose?] at h
      split at h
      · next sign _ hsign =>
        have hs := TokenStream.prevCode?_lt (Option.filter_eq_some_iff.1 hsign).1
        simp only [Option.some.injEq] at h
        subst h
        simp only [measure, withTokens]
        omega
      · split at h
        · simp only [Option.some.injEq] at h
          subst h
          simp only [measure, withTokens]
          omega
        · simp at h
    · simp at h
  · simp at h

theorem absorbName?_measure {tokens : TokenStream} {r s : DeletionRange}
    (h : absorbName? tokens r = some s) : s.measure tokens < r.measure tokens := by
  simp only [absorbName?] at h
  split at h
  · rcases Option.or_eq_some_iff.1 h with h | ⟨_, h⟩
    · simp only [nameBefore?, Option.bind_eq_bind, Option.bind_eq_some_iff] at h
      obtain ⟨i, hi, kind, _, h⟩ := h
      have := TokenStream.prevCode?_lt hi
      split at h
      · simp only [Option.some.injEq] at h
        subst h
        simp only [measure, named, withTokens]
        omega
      · simp at h
    · simp only [nameAfter?, Option.bind_eq_bind, Option.bind_eq_some_iff] at h
      obtain ⟨i, hi, kind, _, h⟩ := h
      have := TokenStream.nextCode?_bounds hi
      split at h
      · simp only [Option.some.injEq] at h
        subst h
        simp only [measure, named, withTokens]
        omega
      · simp at h
  · simp at h

theorem beforeWord?_le {tokens : TokenStream} {word : String} {i j : Nat}
    (h : beforeWord? tokens word i = some j) : j ≤ i := by
  simp only [beforeWord?] at h
  split at h
  · exact Nat.le_of_lt (TokenStream.prevCode?_lt h)
  · simp only [Option.some.injEq] at h
    omega

theorem clauseName?_le {tokens : TokenStream} {i name : Nat} {clause : Option Nat}
    (h : clauseName? tokens i = some (name, clause)) : name ≤ i := by
  simp only [clauseName?] at h
  split at h
  · simp at h
  · next j hj =>
    have hji := beforeWord?_le hj
    split at h
    · obtain ⟨k, hk, hkn⟩ := Option.map_eq_some_iff.1 h
      have := TokenStream.prevCode?_lt hk
      simp only [Prod.mk.injEq] at hkn
      omega
    · simp only [Option.some.injEq, Prod.mk.injEq] at h
      omega

theorem absorbClause?_measure {context : DeletionContext} {r s : DeletionRange}
    (h : absorbClause? context r = some s) :
    s.measure context.tokens < r.measure context.tokens := by
  simp only [absorbClause?] at h
  split at h
  · simp only [Option.bind_eq_bind, Option.bind_eq_some_iff] at h
    obtain ⟨previous, hprevious, ⟨name, clause⟩, hname, start, hstart, h⟩ := h
    have h1 := TokenStream.prevCode?_lt hprevious
    have h2 := clauseName?_le hname
    have h3 := TokenStream.annotateBefore?_lt hstart
    simp only [absorbClauseFrom?] at h
    split at h
    · split at h
      · simp only [Option.some.injEq] at h
        subst h
        simp only [measure, withTokens]
        omega
      · simp at h
    · split at h
      · simp only [Option.some.injEq] at h
        subst h
        simp only [measure, withTokens]
        omega
      · simp at h
  · simp at h

/-- Every step takes in at least one token. -/
theorem grow?_measure {context : DeletionContext} {r s : DeletionRange}
    (h : grow? context r = some s) : s.measure context.tokens < r.measure context.tokens := by
  simp only [grow?, Option.or_eq_some_iff] at h
  rcases h with h | ⟨_, h | ⟨_, h | ⟨_, h | ⟨_, h⟩⟩⟩⟩
  · exact absorbComment?_measure h
  · exact absorbBrackets?_measure h
  · exact absorbSign?_measure h
  · exact absorbName?_measure h
  · exact absorbClause?_measure h

/-- The range grown until no rule applies. -/
def expand (context : DeletionContext) (r : DeletionRange) : DeletionRange :=
  match _h : grow? context r with
  | some s => expand context s
  | none => { r with expanded := true }
termination_by r.measure context.tokens
decreasing_by exact grow?_measure ‹_›

end DeletionRange

end AnnotationEdit

import AnnotationEdit.Syntax.Parser

/-!
# The grammar of annotation files

Which tokens a tree is written with. The tokens are those of a document, names with their roles; the
tokens a parse starts from are the same without roles (`Token.plain`). Every relation takes the tree
first, so that a proof about written trees follows the tree. A list with commas between its items
may have one more comma at its end.

`Proofs/Syntax/Parsing` shows that the parser accepts exactly what the grammar describes.
-/

namespace AnnotationEdit

namespace Token

/-- The token without its role. -/
def plain (t : Token) : Token := { t with identifier := none }

/-- The punctuation mark `mark`, as it stands in a document. -/
def IsMark (mark : String) (t : Token) : Prop := t.is mark = true ∧ t.identifier = none

/-- The keyword `word`, as it stands in a document. -/
def IsWord (word : String) (t : Token) : Prop := t.isKeyword word = true ∧ t.identifier = none

/-- A literal that is one token, as it stands in a document. -/
def IsLiteral (kind : TokenKind) (t : Token) : Prop := t.kind = kind ∧ t.identifier = none

def IsName (role : IdentifierKind) (t : Token) : Prop :=
  t.kind = .identifier ∧ t.identifier = some role

end Token

namespace Syntax

/-! ## Names -/

def Identifier.WrittenAs (role : IdentifierKind) (i : Identifier) (t : Token) : Prop :=
  t.IsName role ∧ i = ⟨t.text, t.range⟩

/-- The further segments of a dotted name, each after its dot. -/
def segmentsWrittenAs (role : IdentifierKind) : List Identifier → List Token → Prop
  | [], ts => ts = []
  | i :: is, ts => ∃ dot t us, ts = dot :: t :: us ∧ dot.IsMark "." ∧ i.WrittenAs role t ∧
      segmentsWrittenAs role is us

def Path.WrittenAs (role : IdentifierKind) (p : Path) (ts : List Token) : Prop :=
  ∃ i is t us, p = ⟨⟨i.range.start, (is.getLast?.getD i).range.stop⟩, i :: is⟩ ∧ ts = t :: us ∧
    i.WrittenAs role t ∧ segmentsWrittenAs role is us

def qualifierWrittenAs : Option Identifier → List Token → Prop
  | none, ts => ts = []
  | some q, ts => ∃ hash t, ts = [hash, t] ∧ hash.IsMark "#" ∧ t.IsName .other ∧
      q = ⟨"#" ++ t.text, ⟨hash.range.start, t.range.stop⟩⟩

/-! ## Values -/

/-- The literals: a string, a number, a member of an enumeration or a dotted name. -/
def Primitive.WrittenAs (p : Primitive) (ts : List Token) : Prop :=
  (∃ t, ts = [t] ∧ t.IsLiteral .string ∧ p = ⟨t.range,
    if t.text.toList.head? == some Lexer.backquote then .multiLineString else .string, t.text⟩) ∨
  (∃ t, ts = [t] ∧ t.IsLiteral .number ∧ p = ⟨t.range, .number, t.text⟩) ∨
  (∃ hash t, ts = [hash, t] ∧ hash.IsMark "#" ∧ t.IsName .other ∧
    p = ⟨⟨hash.range.start, t.range.stop⟩, .enum, "#" ++ t.text⟩) ∨
  (∃ name : Path, name.WrittenAs .other ts ∧
    p = ⟨name.range, Parser.nameKind name.text, name.text⟩)

mutual

def Value.WrittenAs : Value → List Token → Prop
  | .record ⟨range, entries⟩, ts => ∃ opening closing us, ts = opening :: (us ++ [closing]) ∧
      opening.IsMark Token.openBrace ∧ closing.IsMark Token.closeBrace ∧
      range = ⟨opening.range.start, closing.range.stop⟩ ∧ entriesWrittenAs entries us
  | .collection ⟨range, items⟩, ts => ∃ opening closing us, ts = opening :: (us ++ [closing]) ∧
      opening.IsMark "[" ∧ closing.IsMark "]" ∧
      range = ⟨opening.range.start, closing.range.stop⟩ ∧ valuesWrittenAs items us
  | .primitive p, ts => p.WrittenAs ts

def Entry.WrittenAs : Entry → List Token → Prop
  | .property ⟨range, name, colon, value⟩, ts => ∃ us vs, ts = us ++ vs ∧
      name.WrittenAs .property us ∧ valueAfterColon colon value vs ∧
      range = ⟨name.range.start, Parser.endOf value name.range.stop⟩
  | .embedded ⟨range, atSign, term, qualifier, colon, value, embedded⟩, ts =>
      ∃ mark opening sign us qs closing vs,
        ts = mark :: opening :: sign :: (us ++ (qs ++ closing :: vs)) ∧
        mark.IsMark "!" ∧ opening.IsMark "[" ∧ sign.IsMark "@" ∧ term.WrittenAs .term us ∧
        qualifierWrittenAs qualifier qs ∧ closing.IsMark "]" ∧ valueAfterColon colon value vs ∧
        range = ⟨mark.range.start, Parser.endOf value closing.range.stop⟩ ∧
        atSign = none ∧ embedded = true

def valueAfterColon (colon : Option Range) : Option Value → List Token → Prop
  | none, ts => colon = none ∧ ts = []
  | some v, ts => ∃ c us, ts = c :: us ∧ c.IsMark ":" ∧ colon = some c.range ∧ v.WrittenAs us

def entriesWrittenAs : List Entry → List Token → Prop
  | [], ts => ts = []
  | e :: es, ts => (e.WrittenAs ts ∧ es = []) ∨
      ∃ us comma vs, ts = us ++ comma :: vs ∧ e.WrittenAs us ∧ comma.IsMark "," ∧
        entriesWrittenAs es vs

def valuesWrittenAs : List Value → List Token → Prop
  | [], ts => ts = []
  | e :: es, ts => (e.WrittenAs ts ∧ es = []) ∨
      ∃ us comma vs, ts = us ++ comma :: vs ∧ e.WrittenAs us ∧ comma.IsMark "," ∧
        valuesWrittenAs es vs

end

/-- Items with commas between them, and perhaps one more comma at the end. -/
def commaSeparated {α : Type} (written : α → List Token → Prop) : List α → List Token → Prop
  | [], ts => ts = []
  | e :: es, ts => (written e ts ∧ es = []) ∨
      ∃ us comma vs, ts = us ++ comma :: vs ∧ written e us ∧ comma.IsMark "," ∧
        commaSeparated written es vs

theorem entriesWrittenAs_iff : ∀ (es : List Entry) (ts : List Token),
    entriesWrittenAs es ts ↔ commaSeparated Entry.WrittenAs es ts
  | [], ts => by rw [entriesWrittenAs, commaSeparated]
  | e :: es, ts => by simp only [entriesWrittenAs, commaSeparated, entriesWrittenAs_iff es]

theorem valuesWrittenAs_iff : ∀ (vs : List Value) (ts : List Token),
    valuesWrittenAs vs ts ↔ commaSeparated Value.WrittenAs vs ts
  | [], ts => by rw [valuesWrittenAs, commaSeparated]
  | v :: vs, ts => by simp only [valuesWrittenAs, commaSeparated, valuesWrittenAs_iff vs]

/-! ## Annotations -/

/-- An annotation from its term on. -/
def Annotation.WrittenAs (a : Annotation) (ts : List Token) : Prop :=
  ∃ us qs vs, ts = us ++ (qs ++ vs) ∧ a.term.WrittenAs .term us ∧
    qualifierWrittenAs a.qualifier qs ∧ valueAfterColon a.colon a.value vs ∧
    a.range = ⟨a.term.range.start, Parser.endOf a.value a.headEnd⟩ ∧ a.embedded = false

/-- The annotation is not taken for a group: its term is not an alias alone, it has a qualifier, or
its value is no record. -/
def Annotation.IsSingle (vocabulary : Vocabulary) (a : Annotation) : Prop :=
  a.term.segments.length = 1 → vocabulary.isAlias a.term.text = true → a.qualifier = none →
    ∀ r : Record, a.value ≠ some (.record r)

/-- An assignment whose `@`, if it has one of its own, has the range `atSign`. -/
def Assignment.WrittenAs (vocabulary : Vocabulary) (atSign : Option Range) :
    Assignment → List Token → Prop
  | .single a, ts => a.WrittenAs ts ∧ a.atSign = atSign ∧ a.IsSingle vocabulary
  | .group g, ts => ∃ term us colon opening vs closing,
      ts = us ++ colon :: opening :: (vs ++ [closing]) ∧ Path.WrittenAs .term term us ∧
      term.segments.length = 1 ∧ vocabulary.isAlias term.text = true ∧ colon.IsMark ":" ∧
      opening.IsMark Token.openBrace ∧ closing.IsMark Token.closeBrace ∧
      commaSeparated (fun (a : Annotation) ts => a.WrittenAs ts ∧ a.atSign = none)
        g.items.items vs ∧
      g = ⟨⟨term.range.start, closing.range.stop⟩, atSign, ⟨term.text, term.range⟩, colon.range,
        ⟨⟨opening.range.start, closing.range.stop⟩, g.items.items⟩⟩

theorem Assignment.WrittenAs.atSign_eq {vocabulary : Vocabulary} {a : Assignment}
    {s : Option Range} {ts : List Token} (h : a.WrittenAs vocabulary s ts) : a.atSign = s := by
  cases a with
  | single a => exact h.2.1
  | group g =>
      obtain ⟨_, _, _, _, _, _, _, _, _, _, _, _, _, _, hg⟩ := h
      exact congrArg Group.atSign hg

/-- Bare assignments and lists of assignments in parentheses, with the range from the first such
list to the last one. -/
inductive AssignmentsWrittenAs (vocabulary : Vocabulary) :
    List Assignment → Option Range → List Token → Prop where
  | nil : AssignmentsWrittenAs vocabulary [] none []
  | bare {sign : Token} {a : Assignment} {as : List Assignment} {compound : Option Range}
      {us vs : List Token} : sign.IsMark "@" → a.WrittenAs vocabulary (some sign.range) us →
      AssignmentsWrittenAs vocabulary as compound vs →
      AssignmentsWrittenAs vocabulary (a :: as) compound (sign :: (us ++ vs))
  | compound {sign opening closing : Token} {items as : List Assignment} {more : Option Range}
      {us vs : List Token} : sign.IsMark "@" → opening.IsMark "(" →
      commaSeparated (Assignment.WrittenAs vocabulary none) items us → closing.IsMark ")" →
      AssignmentsWrittenAs vocabulary as more vs →
      AssignmentsWrittenAs vocabulary (items ++ as)
        (some (match more with
          | some r => Range.union ⟨sign.range.start, closing.range.stop⟩ r
          | none => ⟨sign.range.start, closing.range.stop⟩))
        (sign :: opening :: (us ++ closing :: vs))

/-! ## Statements -/

def afterWord {α : Type} (word : String) (written : α → List Token → Prop) :
    Option α → List Token → Prop
  | none, ts => ts = []
  | some a, ts => ∃ t us, ts = t :: us ∧ t.IsWord word ∧ written a us

def nameWrittenAs : Option Path → List Token → Prop
  | none, ts => ts = []
  | some name, ts => name.WrittenAs .entity ts

def Declaration.WrittenAs (d : Declaration) (ts : List Token) : Prop :=
  ∃ first us vs ws closing, ts = first :: (us ++ (vs ++ (ws ++ [closing]))) ∧
    first.IsWord "using" ∧ nameWrittenAs d.name us ∧
    afterWord "as" (fun i ts => ∃ t, ts = [t] ∧ Identifier.WrittenAs .other i t) d.nickname vs ∧
    afterWord "from" Primitive.WrittenAs d.source ws ∧ closing.IsMark ";" ∧
    d.range = ⟨first.range.start, closing.range.stop⟩

def memberWrittenAs (vocabulary : Vocabulary) (entity : String) (m : Target) (ts : List Token) :
    Prop :=
  ∃ i t us closing as compound, ts = t :: (us ++ [closing]) ∧
    Identifier.WrittenAs .element i t ∧ AssignmentsWrittenAs vocabulary as compound us ∧
    closing.IsMark ";" ∧
    m = Parser.targetOf .element (entity ++ "/" ++ i.text) i.range (as, compound)

def consecutive {α : Type} (written : α → List Token → Prop) : List α → List Token → Prop
  | [], ts => ts = []
  | e :: es, ts => ∃ us vs, ts = us ++ vs ∧ written e us ∧ consecutive written es vs

def blockWrittenAs (vocabulary : Vocabulary) (entity : String) :
    Option (List Target) → List Token → Prop
  | none, ts => ts = []
  | some members, ts => ∃ opening us closing, ts = opening :: (us ++ [closing]) ∧
      opening.IsMark Token.openBrace ∧ closing.IsMark Token.closeBrace ∧
      consecutive (memberWrittenAs vocabulary entity) members us

/-- The parts of an annotate statement. -/
structure Statement where
  entity : Path
  assignments : List Assignment
  compound : Option Range
  members : Option (List Target)

namespace Statement

/-- The target of the entity itself, missing when only members are annotated. -/
def entityTargets (s : Statement) : List Target :=
  if !s.assignments.isEmpty || s.members.isNone then
    [Parser.targetOf .entity s.entity.text s.entity.range (s.assignments, s.compound)]
  else []

/-- The targets of the statement. -/
def targets (s : Statement) : List Target := s.entityTargets ++ s.members.getD []

def WrittenAs (vocabulary : Vocabulary) (s : Statement) (ts : List Token) : Prop :=
  ∃ first us ws as bs closing, ts = first :: (us ++ (ws ++ (as ++ (bs ++ [closing])))) ∧
    first.IsWord "annotate" ∧ s.entity.WrittenAs .entity us ∧
    (ws = [] ∨ ∃ t, ws = [t] ∧ t.IsWord "with") ∧
    AssignmentsWrittenAs vocabulary s.assignments s.compound as ∧
    blockWrittenAs vocabulary s.entity.text s.members bs ∧ closing.IsMark ";"

end Statement

abbrev Item := Declaration ⊕ Statement

def Item.WrittenAs (vocabulary : Vocabulary) : Item → List Token → Prop
  | .inl d, ts => d.WrittenAs ts
  | .inr s, ts => s.WrittenAs vocabulary ts

def declarationsOf (items : List Item) : List Declaration :=
  items.flatMap fun
    | .inl d => [d]
    | .inr _ => []

def targetsOf (items : List Item) : List Target :=
  items.flatMap fun
    | .inl _ => []
    | .inr s => s.targets

end Syntax

end AnnotationEdit

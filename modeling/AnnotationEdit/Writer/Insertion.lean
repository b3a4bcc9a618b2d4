import AnnotationEdit.Writer.Draft

/-!
# Writing insertions

A new member of a list goes in front of an existing one or after the last one, on a line of its own
where its neighbours have lines of their own. A comma that ends the list stays at its end, and a
comment behind the last member stays behind it. Lists without members and annotations that get
annotations of their own are only noted in the draft, and written once at the end.
-/

namespace AnnotationEdit

open Syntax (Node)
open AnnotationEdit.Tree (Element)

structure BracketedList where
  pointer : Pointer
  opening : Range
  closing : Range
  members : List Range
  /-- The level of the line on which the list starts. -/
  level : Nat

def withoutGroup (group text : String) : String := (Text.stripFront? (group ++ ".") text).getD text

namespace Scene

def bracketed (s : Scene) (p : Pointer) (r : Range) (members : List Range) :
    Except Error BracketedList :=
  match s.tokens.startingAt? r.start, s.tokens.endingAt? r.stop with
  | some first, some last =>
    .ok ⟨p, s.tokens.rangeAt first, s.tokens.rangeAt last, members, s.level r.start.line⟩
  | _, _ => .error (.internal ("no brackets around " ++ r.display))

def compoundList (s : Scene) (p : Pointer) (t : Syntax.Target) (compound : Range) :
    Except Error BracketedList :=
  match (s.tokens.startingAt? compound.start).bind s.tokens.nextCode? with
  | some i => do
    let start := (s.tokens.rangeAt i).start
    let list ← s.bracketed p ⟨start, compound.stop⟩ (t.assignments.map (·.range))
    return { list with level := s.level compound.start.line }
  | none => .error (.internal "compound annotation without '('")

/-! ## Members of lists -/

def addToEmptyList (d : Draft) (list : BracketedList) (text : String) : Draft :=
  { d with
    emptyLists := upsert list.pointer
      (fun l => { l with fragments := l.fragments ++ [text] })
      ⟨list.opening, list.closing, list.level, [text]⟩ d.emptyLists }

def insertBefore (s : Scene) (d : Draft) (list : BracketedList) (neighbour : Range)
    (fragment : Nat → String) : Draft :=
  if s.tokens.startsLine neighbour.start then
    let level := s.level neighbour.start.line
    d.insert neighbour.start (fragment level ++ ",\n" ++ s.indent level)
  else d.insert neighbour.start (fragment list.level ++ ", ")

/-- Writes a member on its own line after the last one, whose last token is at `final`; `comma` is
the token of the comma behind it. Without one, a comment behind the last member separates it from
its new comma, which is then written once and for all. -/
def appendLine (s : Scene) (d : Draft) (last : Range) (final : Nat) (comma : Option Nat)
    (fragment : Nat → String) : Draft :=
  let level := s.level last.start.line
  let line := "\n" ++ s.indent level ++ fragment level
  let comment := s.tokens.trailingComment? (comma.getD final)
  match comma, comment with
  | some i, _ =>
    let position := match comment with
      | some c => c.range.stop
      | none => (s.tokens.rangeAt i).stop
    d.insert position (line ++ ",")
  | none, some c =>
    if d.separated.contains last.stop then d.insert c.range.stop ("," ++ line)
    else
      let marked := { d with separated := last.stop :: d.separated }
      (marked.insert last.stop ",").insert c.range.stop line
  | none, none => d.insert last.stop ("," ++ line)

def moveBracket (s : Scene) (d : Draft) (list : BracketedList) : Draft :=
  if d.movedBrackets.contains list.pointer then d
  else
    let marked := { d with movedBrackets := list.pointer :: d.movedBrackets }
    match s.tokens.startingAt? list.closing.start with
    | some i =>
      if 0 < i && !s.tokens.isFirstOnLine i then
        marked.replace ⟨(s.tokens.rangeAt (i - 1)).stop, list.closing.start⟩
          ("\n" ++ s.indent list.level)
      else marked
    | none => marked

def appendInline (s : Scene) (d : Draft) (list : BracketedList) (last : Range) (comma : Option Nat)
    (fragment : Nat → String) : Draft :=
  let text := fragment list.level
  let written := match comma with
    | some i => d.insert (s.tokens.rangeAt i).stop (" " ++ text ++ ",")
    | none => d.insert last.stop (", " ++ text)
  if text.toList.contains '\n' then s.moveBracket written list else written

/-- Writes a member after the last one. -/
def append (s : Scene) (d : Draft) (list : BracketedList) (last : Range)
    (fragment : Nat → String) : Except Error Draft :=
  match s.tokens.endingAt? last.stop with
  | none => .error (.internal ("no token ends at " ++ last.stop.display))
  | some final =>
    let comma := s.tokens.commaAfter? final
    if s.tokens.startsLine last.start then .ok (s.appendLine d last final comma fragment)
    else .ok (s.appendInline d list last comma fragment)

/-- Adds a member to a list, at the end unless the place is taken. -/
def insertMember (s : Scene) (d : Draft) (list : BracketedList) (index : Option Nat)
    (fragment : Nat → String) : Except Error Draft :=
  match list.members.getLast? with
  | none => .ok (addToEmptyList d list (fragment (list.level + 1)))
  | some last =>
    match index.bind (list.members[·]?) with
    | some neighbour => .ok (s.insertBefore d list neighbour fragment)
    | none => s.append d list last fragment

/-! ## Annotations of targets -/

def insertBare (s : Scene) (d : Draft) (t : Syntax.Target) (index : Option Nat) (e : Element) :
    Draft :=
  let fragment := s.printer.annotation .bare e
  match t.assignments.getLast? with
  | none =>
    let position := match (s.tokens.codeAfter? t.nameRange.stop).bind s.tokens.get? with
      | some next => if next.isWord "with" then next.range.stop else t.nameRange.stop
      | none => t.nameRange.stop
    d.insert position (" " ++ fragment (s.level t.nameRange.start.line))
  | some last =>
    match index.bind (t.assignments[·]?) with
    | some neighbour =>
      let start := neighbour.fullRange.start
      let level := s.level start.line
      let gap := if s.tokens.startsLine start then "\n" ++ s.indent level else " "
      d.insert start (fragment level ++ gap)
    | none =>
      let range := last.fullRange
      let level := s.level range.start.line
      if range.start.line == t.nameRange.start.line || !s.tokens.startsLine range.start then
        d.insert range.stop (" " ++ fragment level)
      else
        let position := match (s.tokens.endingAt? range.stop).bind s.tokens.trailingComment? with
          | some comment => comment.range.stop
          | none => range.stop
        d.insert position ("\n" ++ s.indent level ++ fragment level)

/-- Adds an annotation beside the only one of a target that gets parentheses. -/
def insertConverting (s : Scene) (d : Draft) (t : Syntax.Target) (index : Option Nat)
    (e : Element) : Except Error Draft :=
  match t.assignments.head? with
  | none => .error (.internal "converted target has no annotation")
  | some first =>
    let level := s.level first.fullRange.start.line + 1
    let text := s.printer.annotation .compound e level
    if index == some 0 then .ok (d.insert first.range.start (text ++ ",\n" ++ s.indent level))
    else .ok (d.insert first.range.stop (",\n" ++ s.indent level ++ text))

def groupOf (s : Scene) (items : Pointer) : Except Error Syntax.Group :=
  match items.parent?.bind s.document.syntaxTree.resolve? with
  | some (.group g) => .ok g
  | _ => .error (.internal "group items outside a group")

def insertAnnotation (s : Scene) (d : Draft) (p : Pointer) (index : Option Nat) (e : Element) :
    Except Error Draft := do
  match ← s.node p with
  | .target t =>
    if s.isConverting p then s.insertConverting d t index e
    else match t.compound with
      | some compound =>
        let list ← s.compoundList p t compound
        s.insertMember d list index (s.printer.annotation .compound e)
      | none => return s.insertBare d t index e
  | .groupItems items =>
    let group ← s.groupOf p
    let list ← s.bracketed p items.range (items.items.map (·.range))
    s.insertMember d list index fun level =>
      withoutGroup group.name.text (s.printer.annotation .compound e level)
  | node => throw (.internal ("cannot insert an annotation into a " ++ node.kindName))

/-! ## Entries of records, values, qualifiers -/

def promote (s : Scene) (d : Draft) (p : Pointer) (a : Syntax.Annotation) (e : Element) : Draft :=
  let level := s.level a.range.start.line
  let text := s.printer.annotation .embedded e (level + 1)
  { d with
    promotions := upsert p (fun m => { m with fragments := m.fragments ++ [text] })
      ⟨a.headEnd, a.value.map (·.range), level, [text]⟩ d.promotions }

def insertEmbedded (s : Scene) (d : Draft) (p : Pointer) (index : Option Nat) (e : Element) :
    Except Error Draft := do
  match ← s.node p with
  | .record r =>
    let list ← s.bracketed p r.range (r.entries.map (·.range))
    s.insertMember d list index (s.printer.annotation .embedded e)
  | Node.annotation a => return s.promote d p a e
  | node => throw (.internal ("cannot embed an annotation into a " ++ node.kindName))

def fillSlot (s : Scene) (d : Draft) (node : Node) (fragment : Nat → String) : Except Error Draft :=
  let refusal : Except Error Draft :=
    .error (.internal (node.kindName ++ " has no empty value slot"))
  match node with
  | Node.annotation a =>
    if a.value.isNone then .ok (d.insert a.headEnd (" : " ++ fragment (s.level a.range.start.line)))
    else refusal
  | .property p =>
    if p.value.isNone then
      .ok (d.insert p.name.range.stop (" : " ++ fragment (s.level p.range.start.line)))
    else refusal
  | _ => refusal

def insertValue (s : Scene) (d : Draft) (p : Pointer) (index : Option Nat) (e : Element) :
    Except Error Draft := do
  match ← s.node p with
  | .collection c =>
    let list ← s.bracketed p c.range (c.items.map (·.range))
    s.insertMember d list index (s.printer.value e)
  | node => s.fillSlot d node (s.printer.value e)

def insertProperty (s : Scene) (d : Draft) (p : Pointer) (index : Option Nat) (e : Element) :
    Except Error Draft := do
  match ← s.node p with
  | .record r =>
    let list ← s.bracketed p r.range (r.entries.map (·.range))
    s.insertMember d list index (s.printer.property e)
  | _ => throw (.internal "record property outside a record")

def insertQualifier (s : Scene) (d : Draft) (p : Pointer) (value : String) :
    Except Error Draft := do
  match ← s.node p with
  | Node.annotation a => return d.insert a.term.range.stop ("#" ++ value)
  | _ => throw (.internal "qualifier outside an annotation")

/-! ## Targets and references -/

/-- Writes a statement for a new target, in front of the statement of another one or at the end. -/
def insertTarget (s : Scene) (d : Draft) (index : Option Nat) (t : Tree.Target) : Draft :=
  let text := s.printer.target t
  let tokens := s.tokens.tokens
  match index.bind (s.document.syntaxTree.targets[·]?) with
  | some neighbour =>
    let start := match tokens.toList.reverse.find? fun token =>
        token.range.start ≤ neighbour.range.start && token.isWord "annotate" with
      | some token => token.range.start
      | none => neighbour.range.start
    d.insert start (text ++ "\n\n")
  | none =>
    match tokens.back? with
    | some last => d.insert last.range.stop ("\n\n" ++ text)
    | none => d.insert Position.origin (text ++ "\n")

/-- Writes a new reference after the last one, or at the start. -/
def insertReference (s : Scene) (d : Draft) (r : Tree.Reference) : Draft :=
  let text := Printer.reference r
  match s.document.syntaxTree.declarations.getLast? with
  | some last => d.insert last.range.stop ("\n" ++ text)
  | none => d.insert Position.origin (text ++ "\n")

def insertElement (s : Scene) (d : Draft) (p : Pointer) (what : Insertable) (index : Option Nat)
    (e : Element) : Except Error Draft :=
  match what with
  | Insertable.annotation => s.insertAnnotation d p index e
  | Insertable.embeddedAnnotation => s.insertEmbedded d p index e
  | .recordProperty => s.insertProperty d p index e
  | .record | .collection | .primitiveValue => s.insertValue d p index e

/-! ## What is written once at the end -/

def writeEmptyList (s : Scene) (d : Draft) (list : EmptyList) : Draft :=
  d.replace ⟨list.opening.stop, list.closing.start⟩
    (s.printer.block "" "" list.fragments list.level)

def writePromotion (s : Scene) (d : Draft) (m : Promotion) : Draft :=
  let value := match m.value with
    | some range => reindent (s.document.lines.slice range) s.printer.indentUnit 1
    | none => "true"
  let text := s.printer.braces (("$value : " ++ value) :: m.fragments) m.level
  match m.value with
  | some range => d.replace range text
  | none => d.insert m.headEnd (" : " ++ text)

def writeEmptyLists (s : Scene) (d : Draft) : Draft :=
  d.emptyLists.foldl (fun d l => s.writeEmptyList d l.2) d

def writePromotions (s : Scene) (d : Draft) : Draft :=
  d.promotions.foldl (fun d m => s.writePromotion d m.2) d

end Scene

end AnnotationEdit

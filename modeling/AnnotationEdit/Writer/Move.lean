import AnnotationEdit.Writer.Draft

/-!
# Writing moves

Items that move are cut out of their collections together with the comment lines above them and the
comment behind them, and written again in front of the item that follows them in the new order.
Items that keep their place are not touched. When no item of the collection keeps its place, the
new items are written over the old ones.
-/

namespace AnnotationEdit

/-- The text of an item that moves. -/
structure Chunk where
  /-- The comments on the lines above the item. -/
  comments : List String
  code : String
  /-- The comment behind the item. -/
  trailer : Option String

namespace Chunk

def lines (c : Chunk) (indent : String) (comma : Bool) : String :=
  String.join (c.comments.map (· ++ "\n" ++ indent)) ++ c.code ++ (if comma then "," else "") ++
    (match c.trailer with
    | some comment => " " ++ comment
    | none => "")

end Chunk

/-- Where an item of the collection stands among the others. -/
structure Slot where
  item : Range
  /-- The start of the comment lines above the item, or of the item. -/
  start : Position
  comma : Option Range
  /-- The comment behind the item. -/
  comment : Option Range

namespace TokenStream

/-- The first of the comments on the lines right above the token at `i`, which must start a line
too; `i` itself when there are none. -/
def commentsAbove (s : TokenStream) : Nat → Nat
  | 0 => 0
  | i + 1 =>
    if s.test i Token.isComment && s.isFirstOnLine i && s.isFirstOnLine (i + 1) then
      s.commentsAbove i
    else i + 1

end TokenStream

namespace Scene

def chunk (s : Scene) (range : Range) (level : Nat) : Chunk where
  comments :=
    match s.tokens.startingAt? range.start with
    | some i =>
      let first := s.tokens.commentsAbove i
      ((s.tokens.tokens.toList.drop first).take (i - first)).map (·.text)
    | none => []
  code :=
    reindent (s.document.lines.slice range) s.printer.indentUnit
      ((level : Int) - (s.level range.start.line : Int))
  trailer :=
    match s.tokens.endingAt? range.stop with
    | some last =>
      let comma := (s.tokens.commaAfter? last).filter fun i =>
        (s.tokens.rangeAt i).start.line == range.stop.line
      (s.tokens.trailingComment? (comma.getD last)).map (·.text)
    | none => none

def slot (s : Scene) (item : Range) : Except Error Slot :=
  match s.tokens.startingAt? item.start, s.tokens.endingAt? item.stop with
  | some first, some last =>
    let comma := s.tokens.commaAfter? last
    .ok {
      item := item
      start := (s.tokens.rangeAt (s.tokens.commentsAbove first)).start
      comma := comma.map s.tokens.rangeAt
      comment := (s.tokens.trailingComment? (comma.getD last)).map (·.range) }
  | _, _ => .error (.internal ("no tokens for the collection item at " ++ item.display))

/-- An item that moves, and whether it stays in its collection. -/
structure Cut where
  isLocal : Bool
  range : Range
  sibling : Nat

def Cut.request (c : Cut) : DeletionRequest := ⟨c.range, none, .commaList, c.sibling, false⟩

def cut (s : Scene) (items source : Pointer) : Except Error Cut := do
  let node ← s.node source
  match source.lastIndex? with
  | some sibling => return ⟨source.parent? == some items, node.range, sibling⟩
  | none => throw (.internal ("'" ++ source.display ++ "' is not a collection item"))

def survivors (s : Scene) (c : Syntax.Collection) (cuts : List Cut) :
    Except Error (List (Nat × Slot)) :=
  let moved := (cuts.filter (·.isLocal)).map (·.sibling)
  (c.items.zipIdx.filter fun (_, i) => !moved.contains i).mapM fun (item, i) =>
    (s.slot item.range).map fun slot => (i, slot)

/-- Writes new items over all old ones. -/
def permute (s : Scene) (d : Draft) (c : Syntax.Collection) (chunks : List Chunk) (level : Nat)
    (ownLines : Bool) : Draft :=
  match c.items.getLast? with
  | none =>
    d.replace c.range (s.printer.block "[" "]" (chunks.map (·.code)) (s.level c.range.start.line))
  | some last =>
    let replaced := (c.items.zip chunks).foldl
      (fun d (item, chunk) => d.replace item.range chunk.code) d
    let extra := chunks.drop c.items.length
    if extra.isEmpty then replaced
    else
      let separator := if ownLines then ",\n" ++ s.indent level else ", "
      replaced.insert last.range.stop (String.join (extra.map fun chunk => separator ++ chunk.code))

/-- Writes items in front of one that keeps its place. -/
def moveBefore (s : Scene) (d : Draft) (neighbour : Slot) (chunks : List Chunk) (level : Nat)
    (ownLines : Bool) : Draft :=
  let indent := s.indent level
  d.insert neighbour.start (String.join (chunks.map fun chunk =>
    if ownLines then chunk.lines indent true ++ "\n" ++ indent else chunk.code ++ ", "))

/-- Writes items after the last one that keeps its place; `endsInComma` tells whether the
collection has a comma at its end. -/
def moveToEnd (s : Scene) (d : Draft) (last : Slot) (endsInComma : Bool) (chunks : List Chunk)
    (level : Nat) (ownLines : Bool) : Draft :=
  let indent := s.indent level
  match last.comma.filter (fun _ => endsInComma) with
  | some comma =>
    if ownLines then
      d.insert (last.comment.getD comma).stop
        (String.join (chunks.map fun chunk => "\n" ++ indent ++ chunk.lines indent true))
    else d.insert comma.stop (String.join (chunks.map fun chunk => " " ++ chunk.code ++ ","))
  | none =>
    if ownLines then
      let count := chunks.length
      let texts := chunks.zipIdx.map fun (chunk, i) => chunk.lines indent (i + 1 < count)
      let position := match last.comment with
        | some comment => comment.stop
        | none => last.item.stop
      (d.insert last.item.stop ",").insert position
        ("\n" ++ indent ++ Text.joined ("\n" ++ indent) texts)
    else d.insert last.item.stop (String.join (chunks.map fun chunk => ", " ++ chunk.code))

/-- The collection has a comma after its last item, as far as that matters for the last item that
keeps its place. -/
def endsInComma (s : Scene) (c : Syntax.Collection) (lastSurvivor : Nat) : Except Error Bool :=
  match c.items.getLast? with
  | some item =>
    if lastSurvivor + 1 < c.items.length then (s.slot item.range).map (·.comma.isSome)
    else .ok true
  | none => .ok true

/-- Gives the closing bracket of a collection on one line a line of its own when items on several
lines move into it. -/
def expandCollection (s : Scene) (d : Draft) (c : Syntax.Collection) (chunks : List Chunk)
    (level : Nat) : Draft :=
  let stop := c.range.stop
  let expands := c.range.start.line == stop.line && chunks.any fun chunk =>
    chunk.code.toList.contains '\n'
  if expands && 0 < stop.character then
    d.insert ⟨stop.line, stop.character - 1⟩ ("\n" ++ s.indent (level - 1))
  else d

def moveItems (s : Scene) (d : Draft) (p : Pointer) (index : Option Nat) (sources : List Pointer) :
    Except Error Draft := do
  match ← s.node p with
  | .collection c =>
    let ownLines := c.items.head?.any fun item => s.tokens.startsLine item.range.start
    let level := match c.items.head? with
      | some item =>
        if ownLines then s.level item.range.start.line else s.level c.range.start.line + 1
      | none => s.level c.range.start.line + 1
    let cuts ← sources.mapM (s.cut (p.child "items"))
    let chunks := cuts.map fun cut => s.chunk cut.range level
    let survivors ← s.survivors c cuts
    match survivors.getLast? with
    | none =>
      let requests := (cuts.filter (!·.isLocal)).map Cut.request
      return s.permute { d with deletions := d.deletions ++ requests } c chunks level ownLines
    | some (place, last) =>
      let d := { d with deletions := d.deletions ++ cuts.map Cut.request }
      let before := match index with
        | some i => survivors.countP fun (q : Nat × Slot) => q.1 < i
        | none => survivors.length
      match survivors[before]? with
      | some (_, neighbour) =>
        return s.expandCollection (s.moveBefore d neighbour chunks level ownLines) c chunks level
      | none =>
        let comma ← s.endsInComma c place
        return s.expandCollection (s.moveToEnd d last comma chunks level ownLines) c chunks level
  | _ => throw (.internal ("'" ++ p.display ++ "' is not a collection"))

end Scene

end AnnotationEdit

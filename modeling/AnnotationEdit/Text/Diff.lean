import AnnotationEdit.Text.Cut

/-!
# Unified diffs

The difference of two texts by lines. The lines kept are a longest common subsequence of the two
texts; around every change two unchanged lines are shown, and changes with at most four unchanged
lines between them share a hunk. Lines keep their terminators, so a last line without one differs
from the same line with one.
-/

namespace AnnotationEdit.Text

/-- The lines of a text with their terminators: line feed, carriage return, or both. -/
def terminatedLines : List Char → List (List Char)
  | [] => []
  | '\r' :: '\n' :: cs => ['\r', '\n'] :: terminatedLines cs
  | c :: cs =>
    if c = '\n' ∨ c = '\r' then [c] :: terminatedLines cs
    else match terminatedLines cs with
      | [] => [[c]]
      | line :: rest => (c :: line) :: rest

namespace Diff

abbrev Line := List Char

/-- A stretch of the two texts: lines they share, or lines of the old one replaced by lines of the
new one. -/
inductive Block where
  | same (lines : List Line)
  | changed (old new : List Line)
deriving DecidableEq

/-- One row of the table of common subsequence lengths from the row of the next old line: the
entries belong to the suffixes of the new text, the longest suffix first. -/
def lengthsRow (line : Line) (next : List Nat) : List Line → List Nat
  | [] => [0]
  | l :: ls =>
    let row := lengthsRow line (next.drop 1) ls
    let here :=
      if line = l then (next.drop 1).headD 0 + 1 else Nat.max (next.headD 0) (row.headD 0)
    here :: row

/-- For every suffix of the old lines, the lengths of its common subsequences with the suffixes of
the new lines. -/
def lengths (new : List Line) : List Line → List (List Nat)
  | [] => [List.replicate (new.length + 1) 0]
  | l :: ls =>
    let rows := lengths new ls
    lengthsRow l (rows.headD []) new :: rows

def consOld (l : Line) : List Block → List Block
  | .changed old new :: bs => .changed (l :: old) new :: bs
  | bs => .changed [l] [] :: bs

def consNew (l : Line) : List Block → List Block
  | .changed old new :: bs => .changed old (l :: new) :: bs
  | bs => .changed [] [l] :: bs

def consSame (l : Line) : List Block → List Block
  | .same lines :: bs => .same (l :: lines) :: bs
  | bs => .same [l] :: bs

/-- Drop the first entry of every row, on to the next new line. -/
def dropColumn (rows : List (List Nat)) : List (List Nat) := rows.map (·.drop 1)

/-- The blocks of two texts, read off the table of lengths of their suffixes. -/
def blocks (rows : List (List Nat)) : List Line → List Line → List Block
  | [], [] => []
  | a :: as, [] => consOld a (blocks (rows.drop 1) as [])
  | [], b :: bs => consNew b (blocks (dropColumn rows) [] bs)
  | a :: as, b :: bs =>
    if a = b then consSame a (blocks (dropColumn (rows.drop 1)) as bs)
    else
      let withoutOld := ((rows.drop 1).headD []).headD 0
      let withoutNew := ((rows.headD []).drop 1).headD 0
      if withoutNew ≤ withoutOld then consOld a (blocks (rows.drop 1) as (b :: bs))
      else consNew b (blocks (dropColumn rows) (a :: as) bs)
termination_by as bs => as.length + bs.length

/-- Blocks shown together, with the number of lines of either text before them. -/
structure Hunk where
  oldStart : Nat
  newStart : Nat
  blocks : List Block

/-- Unchanged lines shown on either side of a change. -/
def context : Nat := 2

def Block.oldLines : Block → List Line
  | .same lines => lines
  | .changed old _ => old

def Block.newLines : Block → List Line
  | .same lines => lines
  | .changed _ new => new

/-- Shares the blocks out to hunks. `current` is the hunk being filled; a long stretch of shared
lines closes it and opens the next one with its last lines. -/
def hunksFrom (oldAt newAt : Nat) (current : Hunk) : List Block → List Hunk
  | [] => [current]
  | .same lines :: rest =>
    let skipped := lines.length - context
    if rest.isEmpty then
      [{ current with blocks := current.blocks ++ [.same (lines.take context)] }]
    else if 2 * context < lines.length then
      { current with blocks := current.blocks ++ [.same (lines.take context)] } ::
        hunksFrom (oldAt + lines.length) (newAt + lines.length)
          ⟨oldAt + skipped, newAt + skipped, [.same (lines.drop skipped)]⟩ rest
    else
      hunksFrom (oldAt + lines.length) (newAt + lines.length)
        { current with blocks := current.blocks ++ [.same lines] } rest
  | .changed old new :: rest =>
    hunksFrom (oldAt + old.length) (newAt + new.length)
      { current with blocks := current.blocks ++ [.changed old new] } rest

/-- The hunks of a list of blocks; shared lines alone make none. -/
def hunks : List Block → List Hunk
  | [] => []
  | [.same _] => []
  | .same lines :: rest =>
    let skipped := lines.length - context
    hunksFrom lines.length lines.length ⟨skipped, skipped, [.same (lines.drop skipped)]⟩ rest
  | bs => hunksFrom 0 0 ⟨0, 0, []⟩ bs

/-- A stretch of lines in a hunk header: its first line, and its length unless that is one. An
empty stretch is named by the line before it. -/
def stretch (start length : Nat) : String :=
  if length = 1 then toString (start + 1)
  else toString (if length = 0 then start else start + 1) ++ "," ++ toString length

def markedLine (mark : String) (line : Line) : String :=
  let terminated := match line.getLast? with
    | some c => c = '\n' || c = '\r'
    | none => false
  mark ++ String.ofList line ++ if terminated then "" else "\n\\ No newline at end of file\n"

def renderBlock : Block → String
  | .same lines => joined "" (lines.map (markedLine " "))
  | .changed old new =>
    joined "" (old.map (markedLine "-")) ++ joined "" (new.map (markedLine "+"))

def renderHunk (h : Hunk) : String :=
  let old := total (h.blocks.map (·.oldLines.length))
  let new := total (h.blocks.map (·.newLines.length))
  "@@ -" ++ stretch h.oldStart old ++ " +" ++ stretch h.newStart new ++ " @@\n" ++
    joined "" (h.blocks.map renderBlock)

end Diff

/-- The unified diff of two versions of a document; empty when they are equal. -/
def unifiedDiff (uri before after : String) : String :=
  let old := terminatedLines before.toList
  let new := terminatedLines after.toList
  match Diff.hunks (Diff.blocks (Diff.lengths new old) old new) with
  | [] => ""
  | hs => "--- " ++ uri ++ "\n+++ " ++ uri ++ "\n" ++ joined "" (hs.map Diff.renderHunk)

end AnnotationEdit.Text

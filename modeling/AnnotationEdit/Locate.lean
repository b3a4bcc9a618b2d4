import AnnotationEdit.Config.Vocabulary
import AnnotationEdit.Syntax.Node
import AnnotationEdit.Tree.File

/-!
# Locating nodes

Finds the concrete node for a node of the annotation tree. The two trees do not have the same
shape: a group adds a level, a dotted name removes levels, and `$value` moves a value into a record.
So children are never matched by number. On every level the concrete child is taken whose range
contains the range of the node that is looked for, and where there is none the search fails.

A level that is folded into a dotted name has no concrete node of its own. The search then stays
where it is, and the names still to come are kept in `pending`.
-/

namespace AnnotationEdit

open Syntax (Node)
open AnnotationEdit.Tree (View Element ElementKind)

/-- The place of a node in the concrete tree. -/
structure Located where
  pointer : Pointer
  /-- Levels on the way are folded into a dotted name. -/
  flattened : Bool
  /-- The node itself is such a level. -/
  collapsed : Bool
deriving DecidableEq, Repr

namespace Locate

/-- What a search does not change: the pointer it is for, the known names and the range that every
node on the way contains. -/
structure Goal where
  source : Pointer
  vocabulary : Vocabulary
  range : Range

/-- How far a search has come. -/
structure State where
  node : Node
  pointer : Pointer
  /-- The names of the current concrete node that no level has matched yet. -/
  pending : List String
  flattened : Bool
  collapsed : Bool

namespace Goal

def fail {α : Type} (g : Goal) (reason : String) : Except Error α :=
  .error (.unresolved g.source.display reason)

def enter (g : Goal) (accept : Node → Bool) (what : String) (s : State) : Except Error State :=
  match s.node.children.find? fun (_, child) => accept child && child.range.contains g.range with
  | some (segments, child) => .ok { s with node := child, pointer := s.pointer.append segments }
  | none =>
    g.fail ("no " ++ what ++ " below " ++ s.node.kindName ++ " '" ++ s.pointer.display ++
      "' contains " ++ g.range.display)

def enterValue (g : Goal) (accept : Node → Bool) (s : State) : Except Error State :=
  match s.node with
  | Node.annotation _ | .property _ => g.enter (fun n => n.isValue && accept n) "value" s
  | n => g.fail (n.kindName ++ " has no value")

def namesBeyond (g : Goal) (written : String) (e : Element) : List String :=
  let term := g.vocabulary.shorten (e.term?.getD "")
  match Text.stripFront? (term ++ ".") (g.vocabulary.shorten written) with
  | some rest => Text.split '.' rest
  | none => []

/-- Goes down to an annotation of the target, through its group if it stands in one. -/
def enterAssignment (g : Goal) (e : Element) (s : State) : Except Error State := do
  let s ← g.enter (fun | Node.annotation _ | .group _ => true | _ => false) "assignment" s
  let (groupName, s) ← match s.node with
    | .group group => do
      let s ← g.enter (fun | .groupItems _ => true | _ => false) "group items" s
      let s ← g.enter (fun | Node.annotation _ => true | _ => false) "group item" s
      pure ([group.name.text], s)
    | _ => pure ([], s)
  let names := match s.node with
    | Node.annotation a => groupName ++ a.term.segments.map (·.text)
    | _ => groupName
  return { s with pending := g.namesBeyond (Text.joined "." names) e }

def enterEmbedded (g : Goal) (e : Element) (s : State) : Except Error State := do
  let s ← g.enter (fun | Node.annotation a => a.embedded | _ => false) "embedded annotation" s
  match s.node with
  | Node.annotation a => return { s with pending := g.namesBeyond a.term.text e }
  | _ => return s

/-- Goes on to the value inside `$value` when the range lies there. -/
def unwrapValue (g : Goal) (s : State) : State :=
  match s.node with
  | .record r =>
    match r.valueEntry? with
    | some (i, ⟨_, _, _, some v⟩) =>
      if v.range.contains g.range then
        { s with
          node := .ofValue v
          pointer := s.pointer.append ["properties", toString i, "value"] }
      else s
    | _ => s
  | _ => s

def enterType (g : Goal) (s : State) : Except Error State :=
  match s.node with
  | .record r =>
    match r.typeEntry? with
    | some (i, ⟨_, _, _, some v⟩) =>
      .ok { s with
        node := .ofValue v
        pointer := s.pointer.append ["properties", toString i, "value"] }
    | some _ => g.fail "$Type entry has no value"
    | none => g.fail "record has no $Type entry"
  | _ => g.fail "type attribute outside a record"

def fold (s : State) : State := { s with flattened := true, collapsed := true }

def enterProperty (g : Goal) (e : Element) (s : State) : Except Error State := do
  let name := (e.attributeValue? Tree.propertyKey).getD ""
  match s.pending with
  | segment :: rest =>
    if segment == name then return fold { s with pending := rest }
    else
      g.fail ("flattened segment '" ++ segment ++ "' does not match property '" ++ name ++ "'")
  | [] =>
    let s ← g.enter (fun | .property _ => true | _ => false) "record property" s
    match s.node with
    | .property p => return { s with pending := (p.name.segments.drop 1).map (·.text) }
    | _ => return s

/-- Goes down to the value of an annotation or property value. -/
def enterContent (g : Goal) (kind : ElementKind) (s : State) : Except Error State := do
  if s.pending.isEmpty then
    let s ← g.enterValue (fun _ => true) s
    return g.unwrapValue s
  else if kind = .record then return fold s
  else g.fail ("flattened path expects a record, found " ++ kind.name)

def enterElement (g : Goal) (parent : Option ElementKind) (e : Element) (s : State) :
    Except Error State :=
  match parent, e.kind with
  | none, ElementKind.annotation => g.enterAssignment e s
  | some ElementKind.annotation, ElementKind.annotation => do
    let s ← g.enterValue (fun | .record _ => true | _ => false) s
    g.enterEmbedded e s
  | some .record, ElementKind.annotation =>
    if s.pending.isEmpty then g.enterEmbedded e s
    else g.fail "embedded annotation inside a flattened record"
  | some ElementKind.annotation, kind => g.enterContent kind s
  | some .propertyValue, kind => g.enterContent kind s
  | some .record, .propertyValue => g.enterProperty e s
  | some .collection, _ => g.enter Node.isValue "collection item" s
  | parent, kind =>
    g.fail (kind.name ++ " cannot be placed below " ++
      (match parent with
      | some kind => kind.name
      | none => "a target"))

/-- Goes down one level of the annotation tree. -/
def step (g : Goal) (parent child : View) (s : State) : Except Error State :=
  let s := { s with collapsed := false }
  match child with
  | .file _ | .text .. => .ok s
  | .reference _ => g.enter (fun | .declaration _ => true | _ => false) "using" s
  | .target _ => g.enter (fun | .target _ => true | _ => false) "target" s
  | .element e =>
    match parent with
    | .target _ => g.enterElement none e s
    | .element p => g.enterElement (some p.kind) e s
    | _ => g.fail "element below a non-element node"
  | .attr a _ =>
    if a.name == Tree.qualifierKey then
      g.enter (fun | .qualifier _ => true | _ => false) "qualifier" s
    else if a.name == Tree.typeKey then g.enterType s
    else .ok s

/-- Goes down along the nodes of a path. -/
def steps (g : Goal) : View → List View → State → Except Error State
  | _, [], s => .ok s
  | parent, child :: rest, s =>
    match g.step parent child s with
    | .ok s => g.steps child rest s
    | .error e => .error e

end Goal

end Locate

/-- The place in the concrete tree of the node that a pointer addresses in the annotation tree. -/
def locate (p : Pointer) (tree : Tree.File) (file : Syntax.File) (vocabulary : Vocabulary) :
    Except Error Located :=
  match tree.walk? p with
  | none => .error (.unresolved p.display "no such node in the annotation tree")
  | some [] => .error (.unresolved p.display "empty path")
  | some [_] => .ok ⟨.root, false, false⟩
  | some (first :: rest) =>
    match (rest.getLast?).bind View.range with
    | none => .error (.unresolved p.display "node has no source range")
    | some range =>
      (Locate.Goal.steps ⟨p, vocabulary, range⟩ first rest
        ⟨.file file, .root, [], false, false⟩).map fun s =>
          ⟨s.pointer, s.flattened, s.collapsed⟩

/-- The place in a concrete list at which a place in an abstract list lands: in front of the member
that contains the abstract child there, or at the end when none does. Without such a child there is
no place, which appends. -/
def insertIndex? (index : Option Nat) (abstractChildren : List (Option Range))
    (members : List Range) : Option Nat :=
  match index.bind fun i => (abstractChildren[i]?).join with
  | none => none
  | some range => some ((members.findIdx? fun m => m.contains range).getD members.length)

end AnnotationEdit

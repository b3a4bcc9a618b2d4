import AnnotationEdit.Document
import AnnotationEdit.Operation

/-!
# Missing references

A new target may name an entity of another file. Where no reference of the document makes the name
visible, the file that defines it is looked up and a reference to it is added, unless that would
lead from one isolated part of the project into another.
-/

namespace AnnotationEdit

/-- The uri of the file that defines a name, as seen from a file. -/
abbrev ImportResolver := (name source : String) → Except Error (Option String)

namespace Tree.Reference

/-- The reference makes the entity visible; `root` is the first part of its name. -/
def shows (r : Reference) (entity root : String) : Bool :=
  r.name == entity || r.name == root || Text.startsWith (r.name ++ ".") entity ||
    r.nickname == some root

end Tree.Reference

def firstPart (name : String) : String :=
  match Text.splitOnce? '.' name with
  | some (first, _) => first
  | none => name

def commonFront : List String → List String → Nat
  | a :: as, b :: bs => if a = b then commonFront as bs + 1 else 0
  | _, _ => 0

/-- The path from the directory of one file to another file, without the extension. -/
def relativePath (source destination : String) : String :=
  let directory := match Text.cutLast? '/' source.toList with
    | some (front, _) => (Text.pieces '/' front).map String.ofList
    | none => []
  let parts := Text.split '/' ((Text.stripBack? ".cds" destination).getD destination)
  let common := commonFront directory parts
  let rest := Text.joined "/" (parts.drop common)
  if directory.length = common then "./" ++ rest
  else Text.times "../" (directory.length - common) ++ rest

namespace Document

def shows (d : Document) (entity : String) : Bool :=
  d.tree.references.any (·.shows entity (firstPart entity))

/-- The operation that adds a reference to the file at `uri`. -/
def referenceTo (d : Document) (name uri : String) : Operation :=
  ⟨Pointer.root, .insertReference ⟨name, none, some (relativePath d.uri uri), none⟩⟩

/-- The references that new targets need; `seen` lists the files that already get one. A name whose
look-up fails needs none. -/
def missingReferencesFrom (d : Document) (layout : ProjectLayout) (resolve : ImportResolver)
    (seen : List String) : List Operation → Except Error (List Operation)
  | [] => .ok []
  | o :: rest =>
    match o.action with
    | .insertTarget _ target =>
      let root := firstPart target.entity
      if d.shows target.entity then d.missingReferencesFrom layout resolve seen rest
      else match (ignoringErrors (resolve root d.uri)).join with
        | none => d.missingReferencesFrom layout resolve seen rest
        | some uri =>
          if uri = d.uri || seen.contains uri then d.missingReferencesFrom layout resolve seen rest
          else if layout.crossesBoundary d.uri uri then .error (.crossesBoundary d.uri uri)
          else (d.missingReferencesFrom layout resolve (uri :: seen) rest).map
            (d.referenceTo root uri :: ·)
    | _ => d.missingReferencesFrom layout resolve seen rest

/-- The references that the new targets among some operations need, each file once. -/
def missingReferences (d : Document) (layout : ProjectLayout) (resolve : ImportResolver)
    (operations : List Operation) : Except Error (List Operation) :=
  d.missingReferencesFrom layout resolve [] operations

end Document

end AnnotationEdit

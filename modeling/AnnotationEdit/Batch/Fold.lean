import AnnotationEdit.Operation
import AnnotationEdit.Syntax.Node

/-!
# Folding operations on assignments

Two things about the assignments of a target are seen only in the whole batch. Deleting an
assignment and inserting one in its place is a replacement. And a target with a single bare
annotation needs parentheses when it gets another one; the last insertion into it is followed by a
marker that says so.
-/

namespace AnnotationEdit.Batch

def assignmentPointer (p : Pointer) (i : Nat) : Pointer :=
  (p.child "assignments").child (toString i)

def deletesAssignment (p : Pointer) (o : Operation) : Bool :=
  match o.action with
  | .delete Deletable.annotation | .delete .annotationGroup => o.pointer == p
  | _ => false

def insertedPlace? (o : Operation) : Option Pointer :=
  match o.action with
  | .insert Insertable.annotation (some i) _ => some (assignmentPointer o.pointer i)
  | _ => none

def replacementsFrom (all before : List Operation) : List Operation → List Command
  | [] => []
  | o :: rest =>
    let command : Command :=
      match o.action, insertedPlace? o with
      | .insert _ _ element, some place =>
        if all.any (deletesAssignment place) &&
            !before.any (fun earlier => insertedPlace? earlier == some place) then
          .replace [⟨place, .replaceNode element⟩]
        else .pick
      | _, _ =>
        if deletesAssignment o.pointer o && !before.any (deletesAssignment o.pointer) &&
            all.any (fun other => insertedPlace? other == some o.pointer) then .drop
        else .pick
    command :: replacementsFrom all (before ++ [o]) rest

/-- Joins the deletion of an assignment and the first insertion in its place. -/
def replacements (operations : List Operation) : List Command :=
  replacementsFrom operations [] operations

def isBareSingle (file : Syntax.File) (p : Pointer) : Bool :=
  match file.resolve? p with
  | some (.target t) => t.compound.isNone && t.assignments.length == 1
  | _ => false

def insertsAnnotationAt (p : Pointer) (o : Operation) : Bool :=
  match o.action with
  | .insert Insertable.annotation _ _ => o.pointer == p
  | _ => false

def compoundsFrom (file : Syntax.File) (all : List Operation) : List Operation → List Command
  | [] => []
  | o :: rest =>
    let command : Command :=
      if insertsAnnotationAt o.pointer o && !rest.any (insertsAnnotationAt o.pointer) &&
          isBareSingle file o.pointer then
        let unnecessary := all.any (deletesAssignment (assignmentPointer o.pointer 0))
        .replace [o, ⟨o.pointer, .convertToCompound unnecessary⟩]
      else .pick
    command :: compoundsFrom file all rest

/-- Marks the targets that need parentheses after the last insertion into each. -/
def compounds (file : Syntax.File) (operations : List Operation) : List Command :=
  compoundsFrom file operations operations

end AnnotationEdit.Batch

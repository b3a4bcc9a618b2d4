import AnnotationEdit.Document

/-!
# Compiling source files

A compiler holds the texts of some files and reads those it is asked for, all of them or none: if
one has a syntax error, only the errors are reported, file by file.
-/

namespace AnnotationEdit

inductive Severity where
  | error
  | warning
  | info
deriving DecidableEq, Repr

def Severity.name : Severity → String
  | error => "error"
  | warning => "warning"
  | info => "info"

structure Diagnostic where
  message : String
  range : Option Range
  severity : Severity
deriving DecidableEq, Repr

def Diagnostic.ofSyntaxError (e : SyntaxError) : Diagnostic :=
  ⟨e.fault.message, some (Range.empty e.position), .error⟩

abbrev Diagnostics := List (String × List Diagnostic)

namespace Diagnostics

def add (uri : String) (d : Diagnostic) : Diagnostics → Diagnostics
  | [] => [(uri, [d])]
  | (u, ds) :: rest => if u = uri then (u, ds ++ [d]) :: rest else (u, ds) :: add uri d rest

end Diagnostics

inductive Compilation where
  | parsed (documents : List Document)
  | failed (diagnostics : Diagnostics)

structure Compiler where
  /-- The text of each file, the current one first. -/
  sources : List (String × String)
  /-- The files that are read as ghosts. -/
  ghosts : List String

namespace Compiler

def empty : Compiler := ⟨[], []⟩

def setSource (c : Compiler) (uri text : String) : Compiler :=
  { c with sources := (uri, text) :: c.sources }

/-- Sets the text of a file that is read as a ghost from now on. -/
def setGhost (c : Compiler) (uri text : String) : Compiler :=
  { c.setSource uri text with ghosts := uri :: c.ghosts }

def source? (c : Compiler) (uri : String) : Option String := c.sources.lookup uri

def read (c : Compiler) (uri text : String) : Except SyntaxError Document :=
  (Document.parse uri text Configuration.default).map fun d =>
    { d with ghost := c.ghosts.contains uri }

/-- Reads the files after those that gave `documents` and `diagnostics`. -/
def compileFrom (c : Compiler) (documents : List Document) (diagnostics : Diagnostics) :
    List String → Except Error Compilation
  | [] => .ok (if diagnostics.isEmpty then .parsed documents else .failed diagnostics)
  | uri :: rest =>
    match c.source? uri with
    | none => .error (.compiler ("unknown file " ++ uri))
    | some text =>
      match c.read uri text with
      | .ok d => c.compileFrom (documents ++ [d]) diagnostics rest
      | .error e =>
        c.compileFrom documents (diagnostics.add uri (.ofSyntaxError e)) rest

/-- Reads files; one without a source is an error. -/
def compile (c : Compiler) (uris : List String) : Except Error Compilation :=
  c.compileFrom [] [] uris

end Compiler

end AnnotationEdit

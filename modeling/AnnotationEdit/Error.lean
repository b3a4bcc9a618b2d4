/-!
# Errors

What can go wrong, by cause, and the wording of each cause. An operation the writer cannot decide
about (`ambiguous`) is the only error a batch survives: that operation is skipped.
-/

namespace AnnotationEdit

inductive Error where
  /-- A pointer into the annotation tree has no place in the source. -/
  | unresolved (pointer reason : String)
  /-- The operation does not fit the node it addresses. -/
  | unsupported (operation reason : String)
  /-- There is more than one way to write the operation. -/
  | ambiguous (operation reason : String)
  /-- An import would leave its isolated unit. -/
  | crossesBoundary (source destination : String)
  | readOnly (uri : String)
  | notFound (uri : String)
  | compiler (message : String)
  | config (message : String)
  | serialization (message : String)
  /-- The edits cannot be applied to the text. -/
  | invalidEdit (message : String)
  | io (path cause : String)
  /-- A promise of the concrete tree does not hold. -/
  | internal (message : String)
deriving DecidableEq, Repr

namespace Error

/-- The families of errors. -/
inductive Kind where
  | pointerResolution
  | unsupportedOperation
  | ambiguousWriterCase
  | crossBoundaryReference
  | document
  | compiler
  | config
  | serialization
  | edit
  | io
  | internal
deriving DecidableEq, Repr

def kind : Error → Kind
  | unresolved .. => .pointerResolution
  | unsupported .. => .unsupportedOperation
  | ambiguous .. => .ambiguousWriterCase
  | crossesBoundary .. => .crossBoundaryReference
  | readOnly _ => .document
  | notFound _ => .document
  | compiler _ => .compiler
  | config _ => .config
  | serialization _ => .serialization
  | invalidEdit _ => .edit
  | io .. => .io
  | internal _ => .internal

/-- Only an ambiguous operation leaves the rest of its batch usable. -/
def isRecoverable (e : Error) : Bool := e.kind == .ambiguousWriterCase

def message : Error → String
  | unresolved pointer reason => "Cannot resolve pointer '" ++ pointer ++ "': " ++ reason
  | unsupported operation reason => "Unsupported '" ++ operation ++ "' operation: " ++ reason
  | ambiguous operation reason => "Ambiguous '" ++ operation ++ "' operation skipped: " ++ reason
  | crossesBoundary source destination =>
    "Reference from '" ++ source ++ "' to '" ++ destination ++ "' crosses an isolation boundary"
  | readOnly uri => "Document '" ++ uri ++ "' is read-only"
  | notFound uri => "Document not found: " ++ uri
  | compiler message => "Compiler error: " ++ message
  | config message => "Configuration error: " ++ message
  | serialization message => "Serialization error: " ++ message
  | invalidEdit message => "Invalid text edit: " ++ message
  | io path cause => "IO error for path '" ++ path ++ "': " ++ cause
  | internal message => "Internal error: " ++ message

end Error

/-- What is left of a result after skipping: nothing for a recoverable error, the error itself for
any other. -/
def recoverable {α : Type} : Except Error α → Except Error (Option α)
  | .ok a => .ok (some a)
  | .error e => if e.isRecoverable then .ok none else .error e

/-- The value of a result, whatever error stands in its place. -/
def ignoringErrors {α : Type} : Except Error α → Option α
  | .ok a => some a
  | .error _ => none

end AnnotationEdit

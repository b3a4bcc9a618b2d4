import AnnotationEdit.Service.Reference
import AnnotationEdit.Service.Store
import AnnotationEdit.Writer.Queue

/-!
# The annotation service

Applies batches of operations to the documents of a store. The changes of one batch are grouped by
file, in the order in which the files are first named, and each file is written by one writer. The
first error ends the whole batch, and nothing of it is returned.
-/

namespace AnnotationEdit

/-- Operations for one file. -/
structure FileChange where
  uri : String
  operations : List Operation

/-- The edits of a batch, file by file. -/
structure WorkspaceEdit where
  changes : List (String × List TextEdit)
deriving DecidableEq, Repr

def WorkspaceEdit.isEmpty (e : WorkspaceEdit) : Bool := e.changes.all (·.2.isEmpty)

namespace FileChange

def addTo (change : FileChange) : List FileChange → List FileChange
  | [] => [change]
  | c :: rest =>
    if c.uri = change.uri then ⟨c.uri, c.operations ++ change.operations⟩ :: rest
    else c :: addTo change rest

def group (changes : List FileChange) : List FileChange :=
  changes.foldl (fun grouped change => change.addTo grouped) []

end FileChange

structure Service where
  compiler : Compiler
  store : DocumentStore
  config : Configuration
  resolve : ImportResolver

namespace Service

def new (compiler : Compiler) (config : Configuration) (resolve : ImportResolver) : Service :=
  ⟨compiler, DocumentStore.empty, config, resolve⟩

/-- Reads files into the store. -/
def synchronize (s : Service) (uris : List String) : Except Error (SyncOutcome × Service) := do
  let (outcome, store) ← s.store.synchronize s.compiler uris
  return (outcome, { s with store := store })

/-- Changes the text of a file; the store keeps what it has. -/
def setSource (s : Service) (uri text : String) : Service :=
  { s with compiler := s.compiler.setSource uri text }

def fileEdits (s : Service) (change : FileChange) : Except Error (List TextEdit) := do
  match s.store.get? change.uri with
  | none => throw (.notFound change.uri)
  | some document =>
    let references ← document.missingReferences s.config.layout s.resolve change.operations
    let writer ← (Writer.ofDocument document s.config).addAll (references ++ change.operations)
    writer.textEdits

def apply (s : Service) (changes : List FileChange) : Except Error WorkspaceEdit := do
  let edits ← (FileChange.group changes).mapM fun change =>
    (s.fileEdits change).map fun edits => (change.uri, edits)
  return ⟨edits⟩

end Service

end AnnotationEdit

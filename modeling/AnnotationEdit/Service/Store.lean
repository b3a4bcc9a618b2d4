import AnnotationEdit.Service.Compiler

/-!
# The store of documents

The documents of the last compilation that succeeded. A compilation that fails leaves the store as
it was.
-/

namespace AnnotationEdit

/-- Documents, each uri once, sorted by uri. -/
structure DocumentStore where
  documents : List Document

/-- What came of a synchronization. -/
inductive SyncOutcome where
  | synchronized (count : Nat)
  | failed (diagnostics : Diagnostics)
deriving DecidableEq

namespace DocumentStore

def empty : DocumentStore := ⟨[]⟩

def insertSorted (d : Document) : List Document → List Document
  | [] => [d]
  | e :: rest =>
    if d.uri = e.uri then d :: rest
    else if d.uri < e.uri then d :: e :: rest
    else e :: insertSorted d rest

/-- Puts a document into the store, in place of one with its uri. -/
def insert (s : DocumentStore) (d : Document) : DocumentStore := ⟨insertSorted d s.documents⟩

def ofDocuments (documents : List Document) : DocumentStore := documents.foldl insert empty

def get? (s : DocumentStore) (uri : String) : Option Document := s.documents.find? (·.uri == uri)

def size (s : DocumentStore) : Nat := s.documents.length

def isEmpty (s : DocumentStore) : Bool := s.documents.isEmpty

/-- Compiles files and keeps the result instead of everything before. -/
def synchronize (s : DocumentStore) (c : Compiler) (uris : List String) :
    Except Error (SyncOutcome × DocumentStore) := do
  match ← c.compile uris with
  | .parsed documents =>
    let store := ofDocuments documents
    return (.synchronized store.size, store)
  | .failed diagnostics => return (.failed diagnostics, s)

end DocumentStore

end AnnotationEdit

import RouteScript.Document.Edit
import RouteScript.Table

/-!
# The document store

The documents that are known, by URI.
-/

namespace RouteScript

variable [Python.Recovery]

/-- The known documents. -/
structure Store where
  documents : Table String Document

/-- Why a document cannot be changed. -/
inductive StoreError where
  | notOpen (uri : String)
deriving DecidableEq, Repr

/-- The message for the user. -/
def StoreError.message : StoreError → String
  | notOpen uri => "document " ++ uri ++ " is not open"

namespace Store

/-- The store without documents. -/
def empty : Store := ⟨.empty⟩

/-- The document under a URI. -/
def get? (s : Store) (uri : String) : Option Document := s.documents.get? uri

/-- There is a document under the URI. -/
def contains (s : Store) (uri : String) : Bool := s.documents.contains uri

/-- The store with a document added under its URI, in place of any other. -/
def put (s : Store) (d : Document) : Store := ⟨s.documents.insert d.uri d⟩

/-- The store with the given text under the URI, and the new document. -/
def openText (s : Store) (uri : String) (text : Text) (version : Int) : Store × Document :=
  let d := Document.ofText uri text version
  (s.put d, d)

/-- The store after a batch of edits of a document, the document and what changed, given what the
parser tells about trees. -/
def changeBy (diff : TreeDiff) (s : Store) (uri : String) (edits : List Edit) (version : Int) :
    Except StoreError (Store × Document × ChangeSummary) :=
  match s.get? uri with
  | none => .error (.notOpen uri)
  | some d =>
    let (d, summary) := d.edit diff edits version
    .ok (s.put d, d, summary)

/-- The store after a batch of edits, with the written bytes for what changed. -/
def change (s : Store) (uri : String) (edits : List Edit) (version : Int) :
    Except StoreError (Store × Document × ChangeSummary) :=
  s.changeBy .silent uri edits version

/-- The store without the document. -/
def close (s : Store) (uri : String) : Store := ⟨s.documents.erase uri⟩

/-- The URIs of all documents, in ascending order. -/
def uris (s : Store) : List String := s.documents.keys

/-- The number of documents. -/
def size (s : Store) : Nat := s.documents.size

end Store

end RouteScript

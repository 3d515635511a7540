import RouteScript.Analysis.Defaults
import RouteScript.Config
import RouteScript.Workspace.Debounce
import RouteScript.Workspace.IndexQueue

/-!
# Sessions

A session holds the documents that an editor has opened and those that were read from the disk,
and what the analyzers know about them.  A document that the editor has opened belongs to it: what
happens on the disk does not touch the document until the editor closes it.  A document is stored
under its canonical URI, so that the editor and the disk speak of the same one.

* `openDocument`, `change`, `closeDocument`: what the editor does.
* `fileEvent`, `indexBatch`: what happens on the disk, and reading from it.
* `diagnostics`, `definitions`, `references`, `hover`, `completions`, `tokens`: questions.
-/

namespace RouteScript

variable [Python.Recovery]

/-- The state of the analysis. -/
structure Session where
  config : Config
  store : Store
  knowledge : Knowledge
  /-- The roots of the workspace, in the order in which they were added. -/
  workspaceRoots : List Path
  /-- The documents that belong to the editor. -/
  editorOpen : OrdSet String
  debounce : Debounce
  queue : IndexQueue

/-- What happened to a file. -/
inductive FileEvent where
  | created
  | changed
  | deleted
deriving DecidableEq, Repr

namespace Session

/-- The version of a document that was read from the disk. -/
def diskVersion : Int := 0

/-- The session in which nothing has happened. -/
def start (config : Config) : Session :=
  ⟨config, .empty, .empty, [], .empty, .start config.debounceMs, .start config.indexBatchSize⟩

/-- Where imported modules are looked up. -/
def roots (s : Session) : List Path := s.config.roots ++ s.workspaceRoots

/-- What the analyzers may look at. -/
def view (s : Session) : View := ⟨s.store, s.roots⟩

/-- The analyzers. -/
def dispatcher (s : Session) : Dispatcher Knowledge :=
  defaultDispatcher s.config.declaredTables s.config.declaredStatistics

/-- The directories that are not searched for scripts. -/
def excluded (s : Session) : List String := Disk.skipped ++ s.config.excludedDirectories

/-- The document under a URI, however the URI is escaped. -/
def document? (s : Session) (uri : String) : Option Document := s.store.get? (Uri.canonical uri)

/-- The editor has opened the document. -/
def isEditorOpen (s : Session) (uri : String) : Bool := s.editorOpen.contains uri

/-! ### Documents come and go -/

/-- The analyzers learn of a document. -/
def analyze (s : Session) (d : Document) : Session :=
  { s with knowledge := (s.dispatcher.analyze s.view d s.knowledge).1 }

/-- The document is stored, in place of any other under its URI, and analyzed. -/
def put (s : Session) (d : Document) : Session :=
  let s := { s with store := s.store.put d }
  s.analyze d

/-- The document under a URI goes away. -/
def remove (s : Session) (uri : String) : Session :=
  if s.store.contains uri then
    let s := { s with store := s.store.close uri }
    { s with knowledge := (s.dispatcher.removed s.view uri s.knowledge).1 }
  else s

/-- The document of a file that can be read. -/
def load? (s : Session) (disk : Disk) (path : Path) (uri : String) : Option Session :=
  match disk.readText path with
  | .ok text => some (s.put (.ofText uri text diskVersion))
  | .error _ => none

/-- The document of a file; nothing happens if it cannot be read. -/
def load (s : Session) (disk : Disk) (path : Path) (uri : String) : Session :=
  (s.load? disk path uri).getD s

/-! ### The editor -/

/-- The editor opens a document. -/
def openDocument (s : Session) (uri : String) (text : Text) (version : Int) (now : Nat) : Session :=
  let uri := Uri.canonical uri
  let s := { s with editorOpen := s.editorOpen.add uri }
  let s := s.put (.ofText uri text version)
  { s with debounce := s.debounce.schedule uri now }

/-- The editor changes a document. -/
def change (s : Session) (uri : String) (edits : List Edit) (version : Int) (now : Nat) :
    Except StoreError Session := do
  let uri := Uri.canonical uri
  let (store, document, _) ← s.store.change uri edits version
  let s := { s with store }.analyze document
  return { s with debounce := s.debounce.schedule uri now }

/-- The editor closes a document.  If its file is still there, the text of the file takes its
place. -/
def closeDocument (s : Session) (disk : Disk) (uri : String) : Session :=
  let uri := Uri.canonical uri
  let s := { s with editorOpen := s.editorOpen.erase uri, debounce := s.debounce.cancel uri }
  match Uri.toPath? uri with
  | some path => if disk.isFile path then s.load disk path uri else s.remove uri
  | none => s.remove uri

/-! ### The disk -/

/-- Something happened to a file. -/
def fileEvent (s : Session) (disk : Disk) (path : Path) (event : FileEvent) : Session :=
  let uri := Uri.ofPath path
  if !path.isScript || s.isEditorOpen uri then s
  else match event with
    | .created | .changed => s.load disk path uri
    | .deleted => s.remove uri

/-- One more root of the workspace. -/
def addRoot (s : Session) (root : Path) : Session :=
  if s.workspaceRoots.any root.same then s
  else { s with workspaceRoots := s.workspaceRoots ++ [root] }

/-- The scripts at and below some paths wait to be read; the number tells how many of them are
new. -/
def enqueuePaths (s : Session) (disk : Disk) (paths : List Path) : Session × Nat :=
  let (queue, added) := s.queue.extend (paths.flatMap (disk.scripts s.excluded))
  ({ s with queue }, added)

/-- The scripts of the workspace wait to be read. -/
def enqueueRoots (s : Session) (disk : Disk) : Session × Nat := s.enqueuePaths disk s.workspaceRoots

/-- Reads a file that waited, unless its document belongs to the editor; the number counts the
files that have been read. -/
def indexFile (disk : Disk) (state : Session × Nat) (path : Path) : Session × Nat :=
  let (s, indexed) := state
  let uri := Uri.ofPath path
  if s.isEditorOpen uri then (s, indexed)
  else match s.load? disk path uri with
    | some s => (s, indexed + 1)
    | none => (s, indexed)

/-- Reads one batch of the files that wait. -/
def indexBatch (s : Session) (disk : Disk) : Session × Nat :=
  let (batch, queue) := s.queue.nextBatch
  batch.foldl (indexFile disk) ({ s with queue }, 0)

/-- What has been read, and how things stood between one batch and the next: the number of files
that waited and of documents. -/
structure Progress where
  total : Nat
  pauses : List (Nat × Nat)
deriving DecidableEq, Repr

/-- Reads batch after batch, as many as there are steps or until no file waits. -/
def indexBatches (disk : Disk) : (steps : Nat) → Session → Session × Progress
  | 0, s => (s, ⟨0, []⟩)
  | steps + 1, s =>
    if s.queue.pending.isEmpty then (s, ⟨0, []⟩)
    else
      let (s, indexed) := s.indexBatch disk
      let pause := if s.queue.pending.isEmpty then [] else [(s.queue.pending.length, s.store.size)]
      let (s, progress) := indexBatches disk steps s
      (s, ⟨indexed + progress.total, pause ++ progress.pauses⟩)

/-- Reads all files that wait; a batch takes at least one of them. -/
def indexAll (s : Session) (disk : Disk) : Session × Progress :=
  indexBatches disk s.queue.pending.length s

/-! ### Publishing -/

/-- The documents whose diagnostics are to be published now. -/
def takeDue (s : Session) (now : Nat) : List String × Session :=
  let (due, debounce) := s.debounce.takeDue now
  (due, { s with debounce })

/-! ### Questions -/

/-- The place in a document. -/
def query? (s : Session) (uri : String) (position : Position) : Option Query :=
  (s.document? uri).map fun d => ⟨d, d.text.offsetOf position⟩

/-- The answers to a question about a place, none if there is no such document. -/
def asked {α : Type} (s : Session) (uri : String) (position : Position)
    (question : Dispatcher Knowledge → Knowledge → Query → Reply (List α)) : List α :=
  match s.query? uri position with
  | some q => (question s.dispatcher s.knowledge q).result
  | none => []

/-- Where the thing at a place is defined. -/
def definitions (s : Session) (uri : String) (position : Position) : List Location :=
  s.asked uri position Dispatcher.definitions

/-- Where the thing at a place is used. -/
def references (s : Session) (uri : String) (position : Position) : List Location :=
  s.asked uri position Dispatcher.references

/-- What may be typed at a place. -/
def completions (s : Session) (uri : String) (position : Position) : List Completion :=
  s.asked uri position Dispatcher.completions

/-- What is to be said about a place. -/
def hover (s : Session) (uri : String) (position : Position) : Option Hover :=
  (s.query? uri position).bind fun q => (s.dispatcher.hover s.knowledge q).result

/-- All findings in a document. -/
def diagnostics (s : Session) (uri : String) : List Diagnostic :=
  match s.document? uri with
  | some d => (s.dispatcher.diagnostics s.knowledge d).result
  | none => []

/-- The tokens of a document. -/
def tokens (s : Session) (uri : String) : List SemanticToken :=
  match s.document? uri with
  | some d => (s.dispatcher.tokens s.knowledge d).result
  | none => []

end Session

end RouteScript

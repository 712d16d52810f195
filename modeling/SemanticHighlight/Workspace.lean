import SemanticHighlight.Document
import SemanticHighlight.Settings
import SemanticHighlight.Workspace.Feed

/-!
# Workspaces

A workspace keeps a document for each URI that is open, and answers requests about it by running a
tokenizer. The first request for a URI opens it. The settings may refuse a request before anything
is done for it.

A session is one opening of a URI. Its number serves as a handle on its document: while the session
is open, the handle and the workspace show the same document; once it is closed, the document stays
with the handle alone, and the URI may be opened again in a session of its own.
-/

set_option autoImplicit false

namespace SemanticHighlight

structure Session where
  uri : String
  isOpen : Bool
  document : Document
deriving DecidableEq

namespace Session

/-- Whether a session is the open one of a URI. -/
def isFor (uri : String) (session : Session) : Bool :=
  session.isOpen && session.uri == uri

def withDocument (document : Document) (session : Session) : Session :=
  { session with document := document }

def ended (session : Session) : Session :=
  { session with isOpen := false }

def endedFor (uri : String) (session : Session) : Session :=
  if session.isFor uri then session.ended else session

end Session

structure Workspace where
  settings : Settings
  legend : Legend
  /-- All sessions there ever were, the oldest first. -/
  sessions : List Session
  feed : Feed
deriving DecidableEq

/-- The ids drawn for one call. -/
structure FreshIds where
  /-- For the document, should the call open one. -/
  opened : String
  /-- For the encoding, should the call begin a new one. -/
  encoded : String
deriving DecidableEq

structure Response (α : Type) where
  /-- The answer; `none` when the settings refuse the request. -/
  result : Except Fault (Option α)
  /-- How many tokens there were behind each push of the tokenizer; `none` when it was not run. -/
  trace : Option (List Nat)

namespace Workspace

def new (settings : Settings) : Workspace :=
  ⟨settings, settings.legend, [], .empty⟩

/-- A workspace without documents that answers everything with a legend of its own. -/
def ofLegend (legend : Legend) : Workspace :=
  ⟨.standard, legend, [], .empty⟩

def handle? (workspace : Workspace) (uri : String) : Option Nat :=
  workspace.sessions.findIdx? (Session.isFor uri)

def documentAt? (workspace : Workspace) (handle : Nat) : Option Document :=
  workspace.sessions[handle]?.map Session.document

def document? (workspace : Workspace) (uri : String) : Option Document :=
  (workspace.handle? uri).bind workspace.documentAt?

def contains (workspace : Workspace) (uri : String) : Bool :=
  (workspace.document? uri).isSome

def openUris (workspace : Workspace) : List String :=
  (workspace.sessions.filter Session.isOpen).map Session.uri

def size (workspace : Workspace) : Nat :=
  workspace.openUris.length

def isEmpty (workspace : Workspace) : Bool :=
  workspace.openUris.isEmpty

def putAt (workspace : Workspace) (handle : Nat) (document : Document) : Workspace :=
  { workspace with
    sessions := workspace.sessions.modify handle (Session.withDocument document) }

/-- Replaces the document of an open URI, or opens the URI with that document. -/
def put (workspace : Workspace) (uri : String) (document : Document) : Workspace :=
  match workspace.handle? uri with
  | some handle => workspace.putAt handle document
  | none => { workspace with sessions := workspace.sessions ++ [⟨uri, true, document⟩] }

def send (workspace : Workspace) (events : List Event) : Workspace :=
  { workspace with feed := workspace.feed.send events }

def openDocument (fresh : String) (uri : String) (workspace : Workspace) : Nat × Workspace :=
  match workspace.handle? uri with
  | some handle => (handle, workspace)
  | none => (workspace.sessions.length, workspace.put uri (.new workspace.legend fresh))

def close (uri : String) (workspace : Workspace) : Bool × Workspace :=
  if workspace.contains uri then
    let closed := { workspace with
      sessions := workspace.sessions.map (Session.endedFor uri) }
    (true, closed.send [.closed uri])
  else
    (false, workspace)

def clear (workspace : Workspace) : Workspace :=
  let closed := { workspace with sessions := workspace.sessions.map Session.ended }
  closed.send (workspace.openUris.map .closed)

/-- Serves a request that the settings let through. The document is opened if need be and an
encoding begins in it; then the tokenizer runs. When it fails, the document stays as it is by then.
When it succeeds, its tokens are committed, the answer is taken and the subscribers are told. -/
def serve {α : Type} (start : Document → Document) (finish : Document → α × Document)
    (resultId : α → String) (fresh : FreshIds) (uri : String) (pushes : List Push)
    (workspace : Workspace) : Response α × Workspace :=
  let document := start ((workspace.document? uri).getD (.new workspace.legend fresh.opened))
  let outcome := Draft.empty.pushAll document.legend pushes
  match outcome.result with
  | .error fault => (⟨.error fault, some outcome.trace⟩, workspace.put uri document)
  | .ok draft =>
      let answered := finish (document.commit draft)
      (⟨.ok (some answered.1), some outcome.trace⟩,
        (workspace.put uri answered.2).send [.updated uri (resultId answered.1)])

def refuse {α : Type} (result : Except Fault (Option α)) (workspace : Workspace) :
    Response α × Workspace :=
  (⟨result, none⟩, workspace)

def full (fresh : FreshIds) (uri : String) (pushes : List Push) (workspace : Workspace) :
    Response Snapshot × Workspace :=
  if workspace.settings.enabled && workspace.settings.full then
    workspace.serve (Document.create fresh.encoded) Document.full Snapshot.resultId fresh uri pushes
  else
    workspace.refuse (.ok none)

/-- Asks for the edits since the answer with the id `previous`. Where edits are switched off, it is
a request for all tokens. -/
def fullDelta (fresh : FreshIds) (uri previous : String) (pushes : List Push)
    (workspace : Workspace) : Response Answer × Workspace :=
  if !workspace.settings.delta then
    let served := workspace.full fresh uri pushes
    (⟨served.1.result.map fun snapshot => snapshot.map .full, served.1.trace⟩, served.2)
  else if workspace.settings.enabled then
    workspace.serve (Document.edit fresh.encoded previous) Document.edits Answer.resultId fresh uri
      pushes
  else
    workspace.refuse (.ok none)

def part (fresh : FreshIds) (uri : String) (span : Span) (pushes : List Push)
    (workspace : Workspace) : Response Snapshot × Workspace :=
  if !workspace.settings.enabled then
    workspace.refuse (.ok none)
  else if workspace.settings.range then
    workspace.serve (Document.create fresh.encoded) (Document.part span) Snapshot.resultId fresh uri
      pushes
  else
    workspace.refuse (.error .rangeUnsupported)

def performAt (fresh : String) (handle : Nat) (step : Document.Step) (workspace : Workspace) :
    Option Document.Outcome × Workspace :=
  match workspace.documentAt? handle with
  | none => (none, workspace)
  | some document =>
      let performed := document.perform fresh step
      (some performed.1, workspace.putAt handle performed.2)

inductive Call where
  | openDocument (uri : String)
  | full (uri : String) (pushes : List Push)
  | fullDelta (uri previous : String) (pushes : List Push)
  | part (uri : String) (span : Span) (pushes : List Push)
  | contains (uri : String)
  | close (uri : String)
  | clear
  | step (handle : Nat) (step : Document.Step)
deriving DecidableEq

inductive Reply where
  | opened (handle : Nat)
  | snapshot (response : Response Snapshot)
  | answer (response : Response Answer)
  | flag (value : Bool)
  | done
  /-- What a step on a handle shows; `none` when there is no such handle. -/
  | stepped (outcome : Option Document.Outcome)

def perform (fresh : FreshIds) (workspace : Workspace) : Call → Reply × Workspace
  | .openDocument uri =>
      let opened := workspace.openDocument fresh.opened uri
      (.opened opened.1, opened.2)
  | .full uri pushes =>
      let served := workspace.full fresh uri pushes
      (.snapshot served.1, served.2)
  | .fullDelta uri previous pushes =>
      let served := workspace.fullDelta fresh uri previous pushes
      (.answer served.1, served.2)
  | .part uri span pushes =>
      let served := workspace.part fresh uri span pushes
      (.snapshot served.1, served.2)
  | .contains uri => (.flag (workspace.contains uri), workspace)
  | .close uri => let closed := workspace.close uri; (.flag closed.1, closed.2)
  | .clear => (.done, workspace.clear)
  | .step handle step =>
      let performed := workspace.performAt fresh.encoded handle step
      (.stepped performed.1, performed.2)

def run (workspace : Workspace) : List (FreshIds × Call) → List Reply × Workspace
  | [] => ([], workspace)
  | (fresh, call) :: calls =>
      let performed := workspace.perform fresh call
      let later := performed.2.run calls
      (performed.1 :: later.1, later.2)

end Workspace

end SemanticHighlight

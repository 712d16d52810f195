import Mathlib.Data.List.Infix
import SemanticHighlight.Proofs.Workspace.Drawn

/-!
# Clients of a workspace

A client remembers the latest answer it was given for each URI, and asks for edits with the id of
that answer. A whole array replaces the array remembered, and edits are made in it. Any number of
clients take turns; a turn is one request with its answer.
-/

set_option autoImplicit false

namespace SemanticHighlight

/-- What a client asks of a workspace. -/
inductive Request where
  | openDocument (uri : String)
  | full (uri : String) (pushes : List Push)
  /-- Asks for edits; `unknown` stands in for the id where the client remembers none. -/
  | fullDelta (uri unknown : String) (pushes : List Push)
  | part (uri : String) (span : Span) (pushes : List Push)
  | close (uri : String)
  | clear

/-- One request of one client, with the ids drawn for it. -/
structure Turn (Client : Type) where
  client : Client
  fresh : FreshIds
  request : Request

/-- A workspace, and what each client remembers of each URI. -/
structure Exchange (Client : Type) where
  workspace : Workspace
  memory : Client → String → Option Snapshot

/-- The URI and the answer that a client takes in. Parts of a document are not remembered. -/
def Workspace.Call.answer? : Call → Reply → Option (String × Answer)
  | .full uri _, .snapshot ⟨.ok (some snapshot), _⟩ => some (uri, .full snapshot)
  | .fullDelta uri _ _, .answer ⟨.ok (some answer), _⟩ => some (uri, answer)
  | _, _ => none

/-- What is remembered once an answer is taken in. Edits that do not fit leave it as it was. -/
def Answer.takenIn (held? : Option Snapshot) : Answer → Option Snapshot
  | .full snapshot => some snapshot
  | .delta edited =>
      held?.map fun held =>
        match Edit.applyAll held.data edited.edits with
        | .ok data => ⟨edited.resultId, data⟩
        | .error _ => held

namespace Exchange

variable {Client : Type}

def start (workspace : Workspace) : Exchange Client :=
  ⟨workspace, fun _ _ => none⟩

/-- The id that a client asks with: the one it remembers, or else the given string. -/
def asked (exchange : Exchange Client) (client : Client) (uri unknown : String) : String :=
  ((exchange.memory client uri).map Snapshot.resultId).getD unknown

def call (exchange : Exchange Client) (turn : Turn Client) : Workspace.Call :=
  match turn.request with
  | .openDocument uri => .openDocument uri
  | .full uri pushes => .full uri pushes
  | .fullDelta uri unknown pushes =>
      .fullDelta uri (exchange.asked turn.client uri unknown) pushes
  | .part uri span pushes => .part uri span pushes
  | .close uri => .close uri
  | .clear => .clear

def answer? (exchange : Exchange Client) (turn : Turn Client) : Option (String × Answer) :=
  (exchange.call turn).answer? (exchange.workspace.perform turn.fresh (exchange.call turn)).1

def drawn (exchange : Exchange Client) (turn : Turn Client) : List String :=
  exchange.workspace.drawn turn.fresh (exchange.call turn)

theorem drawn_fullDelta {exchange : Exchange Client} {client : Client} {fresh : FreshIds}
    {uri unknown : String} {pushes : List Push}
    (on : exchange.workspace.settings.delta = true)
    (enabled : exchange.workspace.settings.enabled = true) :
    exchange.drawn ⟨client, fresh, .fullDelta uri unknown pushes⟩ =
      exchange.workspace.openingIds fresh.opened uri ++
        (exchange.workspace.documentFor fresh.opened uri).editIds fresh.encoded
          (exchange.asked client uri unknown) :=
  Workspace.drawn_fullDelta on enabled

/-- The string that a turn asks with although its client was never answered about the URI. -/
def unknown (exchange : Exchange Client) (turn : Turn Client) : List String :=
  match turn.request with
  | .fullDelta uri unknown _ => if (exchange.memory turn.client uri).isSome then [] else [unknown]
  | _ => []

/-- No array that a document holds is too long for edits to count its words. -/
def Short (exchange : Exchange Client) : Prop :=
  ∀ session ∈ exchange.workspace.sessions, session.document.data.length < UInt32.size

instance (exchange : Exchange Client) : Decidable exchange.Short :=
  inferInstanceAs
    (Decidable (∀ session ∈ exchange.workspace.sessions,
      session.document.data.length < UInt32.size))

variable [DecidableEq Client]

def perform (exchange : Exchange Client) (turn : Turn Client) : Exchange Client where
  workspace := (exchange.workspace.perform turn.fresh (exchange.call turn)).2
  memory := match exchange.answer? turn with
    | none => exchange.memory
    | some (uri, answer) => fun client other =>
        if client = turn.client ∧ other = uri then answer.takenIn (exchange.memory client other)
        else exchange.memory client other

def run (exchange : Exchange Client) (turns : List (Turn Client)) : Exchange Client :=
  turns.foldl perform exchange

theorem run_snoc (exchange : Exchange Client) (done : List (Turn Client)) (turn : Turn Client) :
    exchange.run (done ++ [turn]) = (exchange.run done).perform turn :=
  List.foldl_concat ..

def allDrawn (exchange : Exchange Client) : List (Turn Client) → List String
  | [] => []
  | turn :: turns => exchange.drawn turn ++ (exchange.perform turn).allDrawn turns

def allUnknown (exchange : Exchange Client) : List (Turn Client) → List String
  | [] => []
  | turn :: turns => exchange.unknown turn ++ (exchange.perform turn).allUnknown turns

/-- What is assumed of a run, `past` being the ids drawn before it: every id drawn differs from all
others and from every string asked with that its client has not received, and arrays stay shorter
than 2^32 words. -/
structure Reliable (past : List String) (exchange : Exchange Client) (turns : List (Turn Client)) :
    Prop where
  distinct : (past ++ exchange.allDrawn turns).Nodup
  apart : ∀ asked ∈ exchange.allUnknown turns, asked ∉ past ++ exchange.allDrawn turns
  short : ∀ done ∈ turns.inits, (exchange.run done).Short

end Exchange

end SemanticHighlight

import SemanticHighlight.Answer
import SemanticHighlight.Draft
import SemanticHighlight.Edit.Between
import SemanticHighlight.Token.Excerpt
import SemanticHighlight.Token.Named

/-!
# Documents

A document keeps the last committed array under a result id. A new encoding takes a new id. An
encoding announced as an edit of the array with the current id keeps the id, and sets the current
array aside as the base of a delta. Asking for the whole array or a part of it drops the base, and
asking for the edits keeps it.

Ids are drawn outside: each step is given the one to use should it need a new one.
-/

set_option autoImplicit false

namespace SemanticHighlight

structure Document where
  legend : Legend
  id : String
  data : List UInt32
  /-- The array that a delta counts from. -/
  base : Option (List UInt32)
deriving DecidableEq

namespace Document

def new (legend : Legend) (id : String) : Document :=
  ⟨legend, id, [], none⟩

def tokenCount (document : Document) : Nat :=
  SemanticHighlight.tokenCount document.data

def hasBase (document : Document) : Bool :=
  document.base.isSome

def create (fresh : String) (document : Document) : Document :=
  { document with id := fresh, base := none }

/-- Begins an encoding as an edit of the array that was answered as `previous`. When that is not
the current array, a new encoding begins instead. -/
def edit (fresh previous : String) (document : Document) : Document :=
  if previous = document.id then
    { document with base := some document.data }
  else
    document.create fresh

def commit (draft : Draft) (document : Document) : Document :=
  { document with data := draft.data.toList }

def full (document : Document) : Snapshot × Document :=
  (⟨document.id, document.data⟩, { document with base := none })

def part (span : Span) (document : Document) : Snapshot × Document :=
  (⟨document.id, Token.excerpt span document.data⟩, { document with base := none })

/-- Answers the edit since the base, or the whole array where there is none. -/
def edits (document : Document) : Answer × Document :=
  match document.base with
  | none =>
      let answered := document.full
      (.full answered.1, answered.2)
  | some base => (.delta ⟨document.id, [.between base document.data]⟩, document)

def named (document : Document) : Except Fault (List NamedToken) :=
  Token.decodeNamed document.legend document.data

/-- One thing done with a document. An encoding that is not committed is dropped with all its
tokens. -/
inductive Step where
  | create (pushes : List Push) (committed : Bool)
  | edit (previous : String) (pushes : List Push) (committed : Bool)
  | full
  | part (span : Span)
  | edits
deriving DecidableEq

inductive Outcome where
  /-- For each push, how many tokens there were behind it, or its fault. -/
  | drafted (results : List (Except Fault Nat))
  | snapshot (snapshot : Snapshot)
  | answer (answer : Answer)

/-- Fills a draft for a document in which an encoding has begun, and commits it if asked to. -/
def encode (pushes : List Push) (committed : Bool) (document : Document) : Outcome × Document :=
  let drafted := Draft.empty.pushEach document.legend pushes
  (.drafted drafted.1, if committed then document.commit drafted.2 else document)

/-- Does one step, with the id to use should it need a new one. -/
def perform (fresh : String) (document : Document) : Step → Outcome × Document
  | .create pushes committed => (document.create fresh).encode pushes committed
  | .edit previous pushes committed => (document.edit fresh previous).encode pushes committed
  | .full => let answered := document.full; (.snapshot answered.1, answered.2)
  | .part span => let answered := document.part span; (.snapshot answered.1, answered.2)
  | .edits => let answered := document.edits; (.answer answered.1, answered.2)

def run (document : Document) (steps : List (String × Step)) : Document :=
  steps.foldl (fun current step => (current.perform step.1 step.2).2) document

end Document

end SemanticHighlight

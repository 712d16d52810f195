import SemanticHighlight.Proofs.Document.History
import SemanticHighlight.Proofs.Exchange

/-!
# Clients stay in step with the workspace

The current id of a document is remembered by one client at most, and that client holds the array of
the document. A request may leave a new id that nobody remembers, but never an id that is remembered
with another array.
-/

set_option autoImplicit false

namespace SemanticHighlight

/-! ## One document and those who remember it -/

section OneDocument

variable {Client : Type}

/-- What the clients remember fits a document whose id is among `past`. -/
structure Document.Agrees (past : List String) (holds : Client → Option Snapshot)
    (document : Document) : Prop where
  drawn : document.id ∈ past
  whole : document.Whole
  same : ∀ client held, holds client = some held → held.resultId = document.id →
    held.data = document.data
  sole : ∀ client other held otherHeld, holds client = some held → holds other = some otherHeld →
    held.resultId = document.id → otherHeld.resultId = document.id → client = other

/-- What the clients remember of a URI fits its document, should it be open. -/
structure Synced (past : List String) (holds : Client → Option Snapshot)
    (document? : Option Document) : Prop where
  known : ∀ client held, holds client = some held → held.resultId ∈ past
  agrees : ∀ document, document? = some document → document.Agrees past holds

namespace Synced

variable {past : List String} {holds : Client → Option Snapshot} {document? : Option Document}
  {document changed : Document}

theorem mono (synced : Synced past holds document?) (ids : List String) :
    Synced (past ++ ids) holds document? := by
  refine ⟨fun client held remembers => ?_, fun document found => ?_⟩
  · exact List.mem_append_left _ (synced.known client held remembers)
  · have agrees := synced.agrees document found
    exact ⟨List.mem_append_left _ agrees.drawn, agrees.whole, agrees.same, agrees.sole⟩

theorem closed (synced : Synced past holds document?) : Synced past holds none :=
  ⟨synced.known, fun _ impossible => by cases impossible⟩

/-- Nobody remembers an id that was just drawn. -/
theorem renewed (synced : Synced past holds document?) (fresh : document.id ∉ past)
    (whole : document.Whole) : Synced (past ++ [document.id]) holds (some document) := by
  have nobody : ∀ client held, holds client = some held → held.resultId ≠ document.id := by
    intro client held remembers same
    exact fresh (same ▸ synced.known client held remembers)
  refine ⟨(synced.mono _).known, fun found same => ?_⟩
  cases same
  exact ⟨List.mem_append_right _ List.mem_cons_self, whole,
    fun client held remembers same => absurd same (nobody client held remembers),
    fun client _ held _ remembers _ same _ => absurd same (nobody client held remembers)⟩

theorem kept (synced : Synced past holds (some document)) (sameId : changed.id = document.id)
    (sameData : changed.data = document.data) : Synced past holds (some changed) := by
  have agrees := synced.agrees document rfl
  refine ⟨synced.known, fun found same => ?_⟩
  cases same
  have whole : changed.Whole := by
    unfold Document.Whole
    rw [sameData]
    exact agrees.whole
  refine ⟨sameId ▸ agrees.drawn, whole, ?_, ?_⟩
  · rw [sameId, sameData]
    exact agrees.same
  · rw [sameId]
    exact agrees.sole

variable [DecidableEq Client] {client : Client}

/-- A client that takes in the array of a document is the only one to remember its id, provided that
the others remember another one. -/
theorem takenIn (synced : Synced past holds document?) (drawn : document.id ∈ past)
    (whole : document.Whole)
    (others : ∀ other held, other ≠ client → holds other = some held →
      held.resultId ≠ document.id) :
    Synced past
      (fun other => if other = client then some ⟨document.id, document.data⟩ else holds other)
      (some document) := by
  have ours : ∀ other held,
      (if other = client then some ⟨document.id, document.data⟩ else holds other) = some held →
        held.resultId = document.id → other = client ∧ held.data = document.data := by
    intro other held remembers current
    split at remembers
    · rename_i same
      cases remembers
      exact ⟨same, rfl⟩
    · rename_i apart
      exact absurd current (others other held apart remembers)
  refine ⟨fun other held remembers => ?_, fun found same => ?_⟩
  · split at remembers
    · cases remembers
      exact drawn
    · exact synced.known other held remembers
  · cases same
    refine ⟨drawn, whole, fun other held remembers current => (ours other held remembers current).2,
      ?_⟩
    intro other another held otherHeld remembers otherRemembers current otherCurrent
    exact (ours other held remembers current).1.trans
      (ours another otherHeld otherRemembers otherCurrent).1.symm

/-- A client takes in an array under an id that was just drawn. -/
theorem answered (synced : Synced past holds document?) (fresh : document.id ∉ past)
    (whole : document.Whole) :
    Synced (past ++ [document.id])
      (fun other => if other = client then some ⟨document.id, document.data⟩ else holds other)
      (some document) := by
  refine takenIn (synced.mono _) (List.mem_append_right _ List.mem_cons_self) whole ?_
  intro other held _ remembers same
  exact fresh (same ▸ synced.known other held remembers)

/-- The client that remembers the current id takes in another array under it. -/
theorem patched {held : Snapshot} (synced : Synced past holds (some document))
    (remembers : holds client = some held) (current : held.resultId = document.id)
    (sameId : changed.id = document.id) (whole : changed.Whole) :
    Synced past
      (fun other => if other = client then some ⟨changed.id, changed.data⟩ else holds other)
      (some changed) := by
  have agrees := synced.agrees document rfl
  refine takenIn synced (sameId ▸ agrees.drawn) whole ?_
  intro other otherHeld apart otherRemembers otherCurrent
  exact apart (agrees.sole other client otherHeld held otherRemembers remembers
    (otherCurrent.trans sameId) current)

end Synced

end OneDocument

/-- Opening a URI keeps what is remembered of it in step. -/
theorem Synced.opened {Client : Type} {past : List String} {holds : Client → Option Snapshot}
    {workspace : Workspace} {uri fresh : String}
    (synced : Synced past holds (workspace.document? uri))
    (unused : ∀ id ∈ workspace.openingIds fresh uri, id ∉ past) :
    Synced (past ++ workspace.openingIds fresh uri) holds
      (some (workspace.documentFor fresh uri)) := by
  cases found : workspace.document? uri with
  | some document =>
      rw [Workspace.openingIds_of_document? fresh found, List.append_nil,
        Workspace.documentFor_of_document? fresh found, ← found]
      exact synced
  | none =>
      rw [Workspace.openingIds_of_absent fresh found] at unused ⊢
      rw [Workspace.documentFor_of_absent fresh found]
      exact renewed synced (unused fresh List.mem_cons_self) (Document.whole_new _ fresh)

/-! ## Turns -/

namespace Exchange

variable {Client : Type}

/-- What the clients remember fits the documents, and all ids are among `past`. -/
def InSync (past : List String) (exchange : Exchange Client) : Prop :=
  ∀ uri, Synced past (fun client => exchange.memory client uri) (exchange.workspace.document? uri)

theorem inSync_start {workspace : Workspace} (blank : workspace.sessions = []) :
    InSync [] (start workspace : Exchange Client) := by
  intro uri
  constructor
  · intro client held remembers
    cases remembers
  · intro document found
    simp [start, Workspace.document?, Workspace.handle?, blank] at found

theorem Short.length_lt {exchange : Exchange Client} (short : exchange.Short) {uri : String}
    {document : Document} (found : exchange.workspace.document? uri = some document) :
    document.data.length < UInt32.size := by
  unfold Workspace.document? at found
  obtain ⟨handle, _, stands⟩ := Option.bind_eq_some_iff.mp found
  obtain ⟨session, inside, rfl⟩ := Option.map_eq_some_iff.mp stands
  exact short session (List.mem_of_getElem? inside)

theorem Short.length_documentFor_lt {exchange : Exchange Client} (short : exchange.Short)
    (fresh uri : String) :
    (exchange.workspace.documentFor fresh uri).data.length < UInt32.size := by
  cases found : exchange.workspace.document? uri with
  | some document =>
      rw [Workspace.documentFor_of_document? fresh found]
      exact short.length_lt found
  | none =>
      rw [Workspace.documentFor_of_absent fresh found]
      exact Nat.zero_lt_succ _

theorem InSync.whole_documentFor {past : List String} {exchange : Exchange Client}
    (inSync : InSync past exchange) (fresh uri : String) :
    (exchange.workspace.documentFor fresh uri).Whole := by
  cases found : exchange.workspace.document? uri with
  | some document =>
      rw [Workspace.documentFor_of_document? fresh found]
      exact ((inSync uri).agrees document found).whole
  | none =>
      rw [Workspace.documentFor_of_absent fresh found]
      exact Document.whole_new _ fresh

theorem InSync.opened {past ids : List String} {exchange : Exchange Client}
    {uri fresh : String} (inSync : InSync past exchange)
    (distinct : (past ++ (exchange.workspace.openingIds fresh uri ++ ids)).Nodup) :
    Synced (past ++ exchange.workspace.openingIds fresh uri)
      (fun client => exchange.memory client uri)
      (some (exchange.workspace.documentFor fresh uri)) := by
  apply (inSync uri).opened
  intro id opening drawn
  exact (List.nodup_append.mp distinct).2.2 id drawn id (List.mem_append_left _ opening) rfl

/-- What a single turn may rely on, `past` being the ids drawn so far. -/
structure Fair (past : List String) (exchange : Exchange Client) (turn : Turn Client) : Prop where
  distinct : (past ++ exchange.drawn turn).Nodup
  apart : ∀ asked ∈ exchange.unknown turn, asked ∉ past ++ exchange.drawn turn
  short : exchange.Short

/-- A client took in an answer: it now remembers the array and the id of the document, and edits
that it was sent led there from the array that it remembered. -/
def TookIn (before after : Exchange Client) (client : Client) (uri : String) (answer : Answer) :
    Prop :=
  ∃ document, after.workspace.document? uri = some document ∧
    answer.resultId = document.id ∧
    after.memory client uri = some ⟨document.id, document.data⟩ ∧
    ∀ edited, answer = .delta edited → ∃ held, before.memory client uri = some held ∧
      Edit.applyAll held.data edited.edits = .ok document.data

variable [DecidableEq Client]

structure Advances (past : List String) (exchange : Exchange Client) (turn : Turn Client) :
    Prop where
  inSync : InSync (past ++ exchange.drawn turn) (exchange.perform turn)
  tookIn : ∀ uri answer, exchange.answer? turn = some (uri, answer) →
    TookIn exchange (exchange.perform turn) turn.client uri answer

section Turns

variable {past : List String} {exchange : Exchange Client} {turn : Turn Client}
  {call : Workspace.Call} {reply : Workspace.Reply} {workspace : Workspace}

/-- The last id drawn is new. -/
theorem fresh_of_nodup {opening : List String} {id : String}
    (distinct : (past ++ (opening ++ [id])).Nodup) : id ∉ past ++ opening := by
  rw [← List.append_assoc] at distinct
  intro drawn
  exact (List.nodup_append.mp distinct).2.2 id drawn id List.mem_cons_self rfl

theorem advances_of_silent (made : exchange.call turn = call)
    (done : exchange.workspace.perform turn.fresh call = (reply, workspace))
    (silent : call.answer? reply = none)
    (synced : ∀ uri, Synced (past ++ exchange.drawn turn) (fun client => exchange.memory client uri)
      (workspace.document? uri)) : Advances past exchange turn := by
  have nothing : exchange.answer? turn = none := by
    rw [answer?, made, done, silent]
  have after : exchange.perform turn = ⟨workspace, exchange.memory⟩ := by
    rw [perform, nothing, made, done]
  refine ⟨?_, fun uri answer answered => ?_⟩
  · rw [after]
    exact synced
  · rw [nothing] at answered
    cases answered

theorem advances_of_answered {uri : String} {answer : Answer} {document : Document}
    (inSync : InSync past exchange) (made : exchange.call turn = call)
    (done : exchange.workspace.perform turn.fresh call = (reply, workspace))
    (answers : call.answer? reply = some (uri, answer))
    (documents : ∀ other, workspace.document? other =
      if other = uri then some document else exchange.workspace.document? other)
    (named : answer.resultId = document.id)
    (taken : answer.takenIn (exchange.memory turn.client uri) =
      some ⟨document.id, document.data⟩)
    (patched : ∀ edited, answer = .delta edited → ∃ held,
      exchange.memory turn.client uri = some held ∧
        Edit.applyAll held.data edited.edits = .ok document.data)
    (synced : Synced (past ++ exchange.drawn turn)
      (fun other => if other = turn.client then some ⟨document.id, document.data⟩
        else exchange.memory other uri) (some document)) : Advances past exchange turn := by
  have something : exchange.answer? turn = some (uri, answer) := by
    rw [answer?, made, done, answers]
  have after : exchange.perform turn = ⟨workspace, fun client other =>
      if client = turn.client ∧ other = uri then answer.takenIn (exchange.memory client other)
      else exchange.memory client other⟩ := by
    rw [perform, something, made, done]
  refine ⟨fun other => ?_, fun other told answered => ?_⟩
  · rw [after]
    simp only [documents]
    by_cases same : other = uri
    · subst same
      have memories : (fun client => if client = turn.client ∧ other = other then
            answer.takenIn (exchange.memory client other) else exchange.memory client other) =
          fun client => if client = turn.client then some ⟨document.id, document.data⟩
            else exchange.memory client other := by
        funext client
        by_cases ours : client = turn.client
        · rw [ours, if_pos ⟨rfl, rfl⟩, if_pos rfl, taken]
        · rw [if_neg fun both => ours both.1, if_neg ours]
      rw [if_pos rfl, memories]
      exact synced
    · simp only [same, and_false, ↓reduceIte]
      exact (inSync other).mono _
  · rw [something, Option.some.injEq, Prod.mk.injEq] at answered
    obtain ⟨rfl, rfl⟩ := answered
    rw [after]
    refine ⟨document, ?_, named, ?_, patched⟩
    · rw [documents, if_pos rfl]
    · exact (if_pos ⟨rfl, rfl⟩).trans taken

theorem advances_of_renewed {uri : String} {document : Document}
    (inSync : InSync past exchange) (fair : Fair past exchange turn)
    (made : exchange.call turn = call)
    (done : exchange.workspace.perform turn.fresh call = (reply, workspace))
    (silent : call.answer? reply = none)
    (documents : ∀ other, workspace.document? other =
      if other = uri then some document else exchange.workspace.document? other)
    (draws : exchange.drawn turn =
      exchange.workspace.openingIds turn.fresh.opened uri ++ [document.id])
    (whole : document.Whole) : Advances past exchange turn := by
  have distinct := fair.distinct
  rw [draws] at distinct
  refine advances_of_silent made done silent fun other => ?_
  rw [documents]
  split
  · rename_i same
    subst same
    rw [draws, ← List.append_assoc]
    exact (inSync.opened distinct).renewed (fresh_of_nodup distinct) whole
  · exact (inSync other).mono _

theorem advances_of_replaced {uri : String} {document : Document}
    (inSync : InSync past exchange) (fair : Fair past exchange turn)
    (made : exchange.call turn = call)
    (done : exchange.workspace.perform turn.fresh call = (reply, workspace))
    (answers : call.answer? reply = some (uri, .full ⟨document.id, document.data⟩))
    (documents : ∀ other, workspace.document? other =
      if other = uri then some document else exchange.workspace.document? other)
    (draws : exchange.drawn turn =
      exchange.workspace.openingIds turn.fresh.opened uri ++ [document.id])
    (whole : document.Whole) : Advances past exchange turn := by
  have distinct := fair.distinct
  rw [draws] at distinct
  refine advances_of_answered inSync made done answers documents rfl rfl ?_ ?_
  · intro edited impossible
    cases impossible
  · rw [draws, ← List.append_assoc]
    exact (inSync.opened distinct).answered (fresh_of_nodup distinct) whole

end Turns

end Exchange

end SemanticHighlight

import SemanticHighlight.Proofs.Exchange.Sync

/-!
# Every turn keeps the clients in step

One lemma for each kind of request, then the turn, then the run.
-/

set_option autoImplicit false

namespace SemanticHighlight.Exchange

variable {Client : Type} {past : List String} {exchange : Exchange Client} {client : Client}
  {fresh : FreshIds} {uri : String} {pushes : List Push}

/-- A client asks with the current id only if it remembers it: what it asks with otherwise is not
the id of any document. -/
theorem remembered_of_asked {unknown id : String}
    (fair : Fair past exchange ⟨client, fresh, .fullDelta uri unknown pushes⟩)
    (drawn : id ∈ past ++ exchange.drawn ⟨client, fresh, .fullDelta uri unknown pushes⟩)
    (current : exchange.asked client uri unknown = id) :
    ∃ held, exchange.memory client uri = some held ∧ held.resultId = id := by
  unfold asked at current
  cases remembers : exchange.memory client uri with
  | some held =>
      rw [remembers] at current
      exact ⟨held, rfl, current⟩
  | none =>
      rw [remembers] at current
      subst current
      have said : unknown ∈ exchange.unknown ⟨client, fresh, .fullDelta uri unknown pushes⟩ := by
        simp only [Exchange.unknown, remembers, Option.isSome_none, Bool.false_eq_true, ↓reduceIte,
          List.mem_singleton]
      exact absurd drawn (fair.apart unknown said)

variable [DecidableEq Client]

/-! ## Requests that leave the settings out -/

theorem advances_openDocument (inSync : InSync past exchange)
    (fair : Fair past exchange ⟨client, fresh, .openDocument uri⟩) :
    Advances past exchange ⟨client, fresh, .openDocument uri⟩ := by
  have distinct := fair.distinct
  rw [← List.append_nil (exchange.drawn _)] at distinct
  refine advances_of_silent rfl rfl rfl fun other => ?_
  rw [Workspace.document?_openDocument]
  split
  · rename_i same
    subst same
    exact inSync.opened distinct
  · exact (inSync other).mono _

theorem advances_close (inSync : InSync past exchange) :
    Advances past exchange ⟨client, fresh, .close uri⟩ := by
  refine advances_of_silent rfl rfl rfl fun other => ?_
  rw [Workspace.document?_close]
  split
  · exact ((inSync other).mono _).closed
  · exact (inSync other).mono _

theorem advances_clear (inSync : InSync past exchange) :
    Advances past exchange ⟨client, fresh, .clear⟩ := by
  refine advances_of_silent rfl rfl rfl fun other => ?_
  rw [Workspace.document?_clear]
  exact ((inSync other).mono _).closed

/-! ## Requests that begin a new encoding -/

/-- Such a request is answered with the whole array, or with nothing that its client takes in. -/
theorem advances_of_renews {α : Type} {turn : Turn Client} {call : Workspace.Call}
    {served : Response α × Workspace} {answer : List UInt32 → α}
    {reply : Response α → Workspace.Reply}
    (inSync : InSync past exchange) (fair : Fair past exchange turn)
    (made : exchange.call turn = call)
    (renews : exchange.workspace.Renews turn.fresh uri pushes answer served)
    (performs : ∀ {response after}, served = (response, after) →
      exchange.workspace.perform turn.fresh call = (reply response, after))
    (draws : exchange.drawn turn =
      exchange.workspace.openingIds turn.fresh.opened uri ++ [turn.fresh.encoded])
    (failing : ∀ fault trace, call.answer? (reply ⟨.error fault, trace⟩) = none)
    (answers :
      (∀ data trace, call.answer? (reply ⟨.ok (some (answer data)), trace⟩) = none) ∨
        ∀ data trace, call.answer? (reply ⟨.ok (some (answer data)), trace⟩) =
          some (uri, .full ⟨turn.fresh.encoded, data⟩)) : Advances past exchange turn := by
  have replaced := Workspace.document?_put exchange.workspace uri
  rcases renews with ⟨fault, _, failed⟩ | ⟨draft, succeeded, answered⟩
  · exact advances_of_renewed inSync fair made (performs failed) (failing _ _) (replaced · _) draws
      (inSync.whole_documentFor turn.fresh.opened uri)
  · have whole := (Draft.writes_empty.pushAll succeeded).whole
    rcases answers with silent | told
    · exact advances_of_renewed inSync fair made (performs answered) (silent _ _) (replaced · _)
        draws whole
    · exact advances_of_replaced inSync fair made (performs answered) (told _ _) (replaced · _)
        draws whole

theorem advances_full (inSync : InSync past exchange)
    (fair : Fair past exchange ⟨client, fresh, .full uri pushes⟩) :
    Advances past exchange ⟨client, fresh, .full uri pushes⟩ := by
  by_cases admitted :
      (exchange.workspace.settings.enabled && exchange.workspace.settings.full) = true
  · exact advances_of_renews inSync fair rfl (Workspace.renews_full admitted)
      Workspace.perform_full (if_pos admitted) (fun _ _ => rfl) (Or.inr fun _ _ => rfl)
  · exact advances_of_silent rfl (Workspace.perform_full (Workspace.full_of_refused admitted)) rfl
      fun other => (inSync other).mono _

theorem advances_part {span : Span} (inSync : InSync past exchange)
    (fair : Fair past exchange ⟨client, fresh, .part uri span pushes⟩) :
    Advances past exchange ⟨client, fresh, .part uri span pushes⟩ := by
  by_cases admitted :
      (exchange.workspace.settings.enabled && exchange.workspace.settings.range) = true
  · exact advances_of_renews inSync fair rfl (Workspace.renews_part admitted)
      Workspace.perform_part (if_pos admitted) (fun _ _ => rfl) (Or.inl fun _ _ => rfl)
  · obtain ⟨result, refused⟩ := Workspace.part_of_refused admitted
    exact advances_of_silent rfl (Workspace.perform_part refused) rfl
      fun other => (inSync other).mono _

/-! ## Requests for edits -/

section Edits

variable {unknown : String}

/-- Where edits are switched off, the request is one for all tokens. -/
theorem advances_fullDelta_of_off (off : exchange.workspace.settings.delta = false)
    (inSync : InSync past exchange)
    (fair : Fair past exchange ⟨client, fresh, .fullDelta uri unknown pushes⟩) :
    Advances past exchange ⟨client, fresh, .fullDelta uri unknown pushes⟩ := by
  have without : (!exchange.workspace.settings.delta) = true := by rw [off, Bool.not_false]
  by_cases admitted :
      (exchange.workspace.settings.enabled && exchange.workspace.settings.full) = true
  · exact advances_of_renews inSync fair rfl (Workspace.renews_full admitted)
      (Workspace.perform_fullDelta_of_off off) ((if_pos without).trans (if_pos admitted))
      (fun _ _ => rfl) (Or.inr fun _ _ => rfl)
  · exact advances_of_silent rfl
      (Workspace.perform_fullDelta_of_off off (Workspace.full_of_refused admitted)) rfl
      fun other => (inSync other).mono _

theorem advances_fullDelta_of_stale (on : exchange.workspace.settings.delta = true)
    (enabled : exchange.workspace.settings.enabled = true) (inSync : InSync past exchange)
    (fair : Fair past exchange ⟨client, fresh, .fullDelta uri unknown pushes⟩)
    (stale : exchange.asked client uri unknown ≠
      (exchange.workspace.documentFor fresh.opened uri).id) :
    Advances past exchange ⟨client, fresh, .fullDelta uri unknown pushes⟩ := by
  have draws : exchange.drawn ⟨client, fresh, .fullDelta uri unknown pushes⟩ =
      exchange.workspace.openingIds fresh.opened uri ++ [fresh.encoded] := by
    rw [drawn_fullDelta on enabled, Document.editIds, if_neg stale]
  exact advances_of_renews inSync fair rfl (Workspace.renews_fullDelta_of_stale on enabled stale)
    Workspace.perform_fullDelta draws (fun _ _ => rfl) (Or.inr fun _ _ => rfl)

theorem advances_fullDelta_of_current (on : exchange.workspace.settings.delta = true)
    (enabled : exchange.workspace.settings.enabled = true) (inSync : InSync past exchange)
    (fair : Fair past exchange ⟨client, fresh, .fullDelta uri unknown pushes⟩)
    (current : exchange.asked client uri unknown =
      (exchange.workspace.documentFor fresh.opened uri).id) :
    Advances past exchange ⟨client, fresh, .fullDelta uri unknown pushes⟩ := by
  have draws : exchange.drawn ⟨client, fresh, .fullDelta uri unknown pushes⟩ =
      exchange.workspace.openingIds fresh.opened uri := by
    rw [drawn_fullDelta on enabled, Document.editIds, if_pos current, List.append_nil]
  have distinct := fair.distinct
  rw [draws, ← List.append_nil (exchange.workspace.openingIds _ _)] at distinct
  have opened := inSync.opened distinct
  rw [← draws] at opened
  have agrees := opened.agrees _ rfl
  obtain ⟨held, remembers, same⟩ := remembered_of_asked fair agrees.drawn current
  have sameData := agrees.same client held remembers same
  have replaced := Workspace.document?_put exchange.workspace uri
  -- The id stays either way, so the array may only change together with what this client holds.
  rcases Workspace.fullDelta_cases_of_current on enabled current with
    ⟨fault, _, served⟩ | ⟨draft, succeeded, served⟩
  · refine advances_of_silent rfl (Workspace.perform_fullDelta served) rfl fun other => ?_
    rw [replaced]
    split
    · rename_i sameUri
      subst sameUri
      exact opened.kept rfl rfl
    · exact (inSync other).mono _
  · have whole := (Draft.writes_empty.pushAll succeeded).whole
    have done := Workspace.perform_fullDelta served
    have patched :=
      Edit.applyAll_between (fair.short.length_documentFor_lt fresh.opened uri) whole
    rw [← sameData] at patched
    refine advances_of_answered inSync rfl done rfl (replaced · _) rfl ?_ ?_
      (opened.patched remembers same rfl whole)
    · rw [remembers]
      simp only [Answer.takenIn, Option.map_some, ← sameData, patched]
    · intro edited sent
      cases sent
      exact ⟨held, remembers, sameData ▸ patched⟩

theorem advances_fullDelta (inSync : InSync past exchange)
    (fair : Fair past exchange ⟨client, fresh, .fullDelta uri unknown pushes⟩) :
    Advances past exchange ⟨client, fresh, .fullDelta uri unknown pushes⟩ := by
  cases delta : exchange.workspace.settings.delta with
  | false => exact advances_fullDelta_of_off delta inSync fair
  | true =>
      cases enabled : exchange.workspace.settings.enabled with
      | false =>
          exact advances_of_silent rfl
            (Workspace.perform_fullDelta (Workspace.fullDelta_of_disabled delta enabled)) rfl
            fun other => (inSync other).mono _
      | true =>
          by_cases current : exchange.asked client uri unknown =
            (exchange.workspace.documentFor fresh.opened uri).id
          · exact advances_fullDelta_of_current delta enabled inSync fair current
          · exact advances_fullDelta_of_stale delta enabled inSync fair current

end Edits

/-! ## Turns and runs -/

theorem advances {turn : Turn Client} (inSync : InSync past exchange)
    (fair : Fair past exchange turn) : Advances past exchange turn := by
  obtain ⟨client, fresh, request⟩ := turn
  cases request with
  | openDocument uri => exact advances_openDocument inSync fair
  | full uri pushes => exact advances_full inSync fair
  | fullDelta uri unknown pushes => exact advances_fullDelta inSync fair
  | part uri span pushes => exact advances_part inSync fair
  | close uri => exact advances_close inSync
  | clear => exact advances_clear inSync

theorem Reliable.fair {turn : Turn Client} {turns : List (Turn Client)}
    (reliable : Reliable past exchange (turn :: turns)) : Fair past exchange turn := by
  obtain ⟨distinct, apart, short⟩ := reliable
  simp only [allDrawn, ← List.append_assoc] at distinct
  refine ⟨(List.nodup_append.mp distinct).1, fun id asked drawn => ?_, ?_⟩
  · refine apart id (List.mem_append_left _ asked) ?_
    simp only [allDrawn, ← List.append_assoc]
    exact List.mem_append_left _ drawn
  · exact short [] (by simp)

theorem Reliable.later {turn : Turn Client} {turns : List (Turn Client)}
    (reliable : Reliable past exchange (turn :: turns)) :
    Reliable (past ++ exchange.drawn turn) (exchange.perform turn) turns := by
  obtain ⟨distinct, apart, short⟩ := reliable
  simp only [allDrawn, ← List.append_assoc] at distinct apart
  refine ⟨distinct, fun id asked => apart id (List.mem_append_right _ asked), fun done early => ?_⟩
  exact short (turn :: done) (by simpa using early)

/-- Before every turn of a run the clients are in step, and the rest of the run may rely on as much
as the whole. -/
theorem InSync.run {done later : List (Turn Client)} (inSync : InSync past exchange)
    (reliable : Reliable past exchange (done ++ later)) :
    InSync (past ++ exchange.allDrawn done) (exchange.run done) ∧
      Reliable (past ++ exchange.allDrawn done) (exchange.run done) later := by
  induction done generalizing past exchange with
  | nil =>
      rw [allDrawn, List.append_nil]
      exact ⟨inSync, reliable⟩
  | cons turn done ih =>
      rw [allDrawn, ← List.append_assoc]
      exact ih (advances inSync reliable.fair).inSync reliable.later

/-- Whenever a client is answered, it then holds the committed array of the document under its id,
and the edits it was sent fitted what it held. -/
theorem tookIn_of_answer {workspace : Workspace} {done later : List (Turn Client)}
    {turn : Turn Client} {uri : String} {answer : Answer} (blank : workspace.sessions = [])
    (reliable : Reliable [] (start workspace) (done ++ turn :: later))
    (answered : ((start workspace).run done).answer? turn = some (uri, answer)) :
    TookIn ((start workspace).run done) ((start workspace).run (done ++ [turn])) turn.client uri
      answer := by
  obtain ⟨inSync, rest⟩ := (inSync_start blank).run reliable
  rw [run_snoc]
  exact (advances inSync rest.fair).tookIn uri answer answered

/-- Two clients, a second document, and a request that fails behind its first token. -/
theorem tookIn_of_answer_delta :
    let workspace := Workspace.ofLegend ⟨[], []⟩
    let first := Push.token ⟨0, 0, 3, 1, 0⟩
    let second := Push.token ⟨2, 5, 2, 2, 0⟩
    let done : List (Turn Bool) :=
      [⟨true, ⟨"a", "b"⟩, .full "left" [first, second]⟩,
        ⟨false, ⟨"c", "d"⟩, .fullDelta "right" "unheard" [second]⟩,
        ⟨true, ⟨"e", "f"⟩, .fullDelta "left" "unheard" [first, .fail .rangeUnsupported]⟩]
    let turn : Turn Bool := ⟨true, ⟨"g", "h"⟩, .fullDelta "left" "unheard" [first]⟩
    let edited : Delta := ⟨"b", [⟨5, 5, []⟩]⟩
    workspace.sessions = [] ∧ Reliable [] (start workspace) (done ++ [turn]) ∧
      ((start workspace).run done).answer? turn = some ("left", .delta edited) ∧
      TookIn ((start workspace).run done) ((start workspace).run (done ++ [turn])) true "left"
        (.delta edited) := by
  intro workspace first second done turn edited
  have reliable : Reliable [] (start workspace) (done ++ [turn]) :=
    ⟨by decide, by decide, by decide⟩
  have answered : ((start workspace).run done).answer? turn = some ("left", .delta edited) := by
    decide
  exact ⟨rfl, reliable, answered, tookIn_of_answer rfl reliable answered⟩

end SemanticHighlight.Exchange

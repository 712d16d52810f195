import SemanticHighlight.Proofs.Workspace.Agreement
import SemanticHighlight.Proofs.Workspace.Effect

/-!
# Which ids bring a delta

Which id a document has can be told from the calls alone. Ids are generated when a URI is opened, by
every request for all tokens or for a part that the settings let through, and by a request for edits
unless it is made with the latest id; whether the tokenizer succeeds makes no difference. A request
for edits is answered by a delta exactly when it is made with the latest id.
-/

set_option autoImplicit false

namespace SemanticHighlight

def Event.resultIds : Event → List String
  | .updated _ resultId => [resultId]
  | .closed _ => []

namespace Workspace

/-- The id that a call asks with. -/
def Call.asked : Call → List String
  | .fullDelta _ previous _ => [previous]
  | .openDocument _ | .full _ _ | .part _ _ _ | .contains _ | .close _ | .clear | .step _ _ => []

def Call.closes (uri : String) : Call → Bool
  | .close other => other == uri
  | .clear => true
  | .openDocument _ | .full _ _ | .fullDelta _ _ _ | .part _ _ _ | .contains _ | .step _ _ => false

/-- What is known of a run to those who see the calls and the ids generated, but no document. -/
structure History where
  /-- The ids generated for a URI since it was closed last, the latest at the end. -/
  issued : String → List String
  /-- All ids generated and all ids asked with. -/
  seen : List String

namespace History

def blank : History := ⟨fun _ => [], []⟩

/-- A URI for which nothing was issued is opened, under a new id. -/
def opening (fresh uri : String) (history : History) : List String :=
  if (history.issued uri).isEmpty then [fresh] else []

/-- The ids that a call generates. -/
def generates (settings : Settings) (fresh : FreshIds) (history : History) : Call → List String
  | .openDocument uri => history.opening fresh.opened uri
  | .full uri _ =>
      if settings.enabled && settings.full then
        history.opening fresh.opened uri ++ [fresh.encoded]
      else []
  | .fullDelta uri previous _ =>
      if !settings.delta then
        if settings.enabled && settings.full then
          history.opening fresh.opened uri ++ [fresh.encoded]
        else []
      else if settings.enabled then
        let opening := history.opening fresh.opened uri
        let latest? := (history.issued uri ++ opening).getLast?
        opening ++ if latest? = some previous then [] else [fresh.encoded]
      else []
  | .part uri _ _ =>
      if settings.enabled && settings.range then
        history.opening fresh.opened uri ++ [fresh.encoded]
      else []
  | .contains _ | .close _ | .clear | .step _ _ => []

def after (settings : Settings) (fresh : FreshIds) (history : History) (call : Call) : History where
  issued uri :=
    if call.closes uri then []
    else if call.uri? = some uri then
      history.issued uri ++ history.generates settings fresh call
    else history.issued uri
  seen := history.generates settings fresh call ++ (call.asked ++ history.seen)

def run (settings : Settings) (history : History) (calls : List (FreshIds × Call)) : History :=
  calls.foldl (fun current turn => current.after settings turn.1 turn.2) history

/-- Every id that the calls generate differs from the others and from all that was seen before. -/
def GeneratesNew (settings : Settings) (history : History) : List (FreshIds × Call) → Prop
  | [] => True
  | (fresh, call) :: calls =>
      let ids := history.generates settings fresh call
      (ids.Nodup ∧ ∀ id ∈ ids, id ∉ call.asked ++ history.seen) ∧
        GeneratesNew settings (history.after settings fresh call) calls

instance decidableGeneratesNew (settings : Settings) (history : History) :
    (calls : List (FreshIds × Call)) → Decidable (history.GeneratesNew settings calls)
  | [] => inferInstanceAs (Decidable True)
  | (fresh, call) :: calls =>
      have := decidableGeneratesNew settings (history.after settings fresh call) calls
      inferInstanceAs (Decidable ((_ ∧ _) ∧ _))

end History

/-! ## The history tells the current ids -/

/-- A history that keeps up with a workspace. -/
structure Tracks (history : History) (workspace : Workspace) : Prop where
  current : ∀ uri, (workspace.document? uri).map Document.id = (history.issued uri).getLast?
  issued : ∀ uri, ∀ id ∈ history.issued uri, id ∈ history.seen
  told : ∀ event ∈ workspace.feed.log, ∀ id ∈ event.resultIds, id ∈ history.seen

namespace Tracks

variable {history : History} {workspace : Workspace} (tracks : Tracks history workspace)

include tracks

theorem openingIds_eq_opening (fresh uri : String) :
    workspace.openingIds fresh uri = history.opening fresh uri := by
  have latest := tracks.current uri
  unfold History.opening
  cases found : workspace.document? uri with
  | none =>
      rw [found, Option.map_none, eq_comm, List.getLast?_eq_none_iff] at latest
      rw [openingIds_of_absent fresh found, latest]
      rfl
  | some document =>
      rw [found, Option.map_some] at latest
      cases issued : history.issued uri with
      | nil =>
          rw [issued] at latest
          cases latest
      | cons => exact openingIds_of_document? fresh found

theorem getLast?_issued_opening (fresh uri : String) :
    (history.issued uri ++ history.opening fresh uri).getLast? =
      some (workspace.documentFor fresh uri).id := by
  have latest := tracks.current uri
  rw [← tracks.openingIds_eq_opening]
  cases found : workspace.document? uri with
  | none =>
      rw [openingIds_of_absent fresh found, documentFor_of_absent fresh found]
      exact List.getLast?_concat
  | some document =>
      rw [openingIds_of_document? fresh found, documentFor_of_document? fresh found,
        List.append_nil, ← latest, found]
      rfl

theorem drawn_eq_generates (fresh : FreshIds) {call : Call} (direct : call.isStep = false) :
    workspace.drawn fresh call = history.generates workspace.settings fresh call := by
  cases call with
  | step handle step => cases direct
  | fullDelta uri previous pushes =>
      have latest : previous = (workspace.documentFor fresh.opened uri).id ↔
          (history.issued uri ++ history.opening fresh.opened uri).getLast? = some previous := by
        rw [tracks.getLast?_issued_opening, Option.some.injEq, eq_comm]
      simp only [drawn, History.generates, tracks.openingIds_eq_opening, Document.editIds, latest]
  | openDocument | full | part | contains | close | clear =>
      simp only [drawn, History.generates, tracks.openingIds_eq_opening]

end Tracks

theorem document?_perform_of_closes {uri : String} {call : Call} (closes : call.closes uri = true)
    (fresh : FreshIds) (workspace : Workspace) :
    (workspace.perform fresh call).2.document? uri = none := by
  cases call with
  | close other =>
      cases beq_iff_eq.mp closes
      exact document?_close_self workspace uri
  | clear => exact document?_clear workspace uri
  | openDocument | full | fullDelta | part | contains | step => cases closes

section Step

variable {history : History} {workspace after : Workspace} {fresh : FreshIds} {call : Call}
  {reply : Reply}

theorem Tracks.current_after (tracks : Tracks history workspace)
    (does : Does workspace fresh call reply after) (direct : call.isStep = false) {uri : String}
    (keeps : call.closes uri = false) :
    (after.document? uri).map Document.id =
      ((history.after workspace.settings fresh call).issued uri).getLast? := by
  have draws := tracks.drawn_eq_generates fresh direct
  have before := tracks.current uri
  simp only [History.after, keeps, Bool.false_eq_true, ↓reduceIte]
  cases does with
  | nothing unused =>
      rw [← draws, unused, List.append_nil, ite_self]
      exact before
  | puts other document ids about drawn named =>
      rw [about, ← draws, drawn, tracks.openingIds_eq_opening, document?_send,
        document?_put]
      by_cases same : uri = other
      · subst same
        rw [if_pos rfl, if_pos rfl, ← List.append_assoc, List.getLast?_append,
          tracks.getLast?_issued_opening, Option.map_some, named, Option.or_some]
      · rw [if_neg same, if_neg (by simpa using Ne.symm same), before]
  | closes other =>
      have apart : uri ≠ other := by
        rintro rfl
        exact absurd keeps (by simp [Call.closes])
      have elsewhere : (Call.close other).uri? ≠ some uri := by simpa [Call.uri?] using apart.symm
      rw [if_neg elsewhere, document?_close, if_neg apart, before]
  | clears => cases keeps
  | steps => cases direct

theorem Does.shown (does : Does workspace fresh call reply after) (direct : call.isStep = false) :
    ∀ id ∈ reply.resultIds, ∃ uri, (after.document? uri).map Document.id = some id := by
  intro id shown
  cases does with
  | nothing unused silent =>
      rw [silent] at shown
      cases shown
  | puts uri document ids about drawn named told =>
      refine ⟨uri, ?_⟩
      rcases told with silent | told
      · rw [silent] at shown
        cases shown
      · rw [told, List.mem_singleton] at shown
        rw [document?_send, document?_put_self, Option.map_some, shown]
  | closes => cases shown
  | clears => cases shown
  | steps => cases direct

/-- The subscribers are told no id that the caller is not. -/
theorem Does.log (does : Does workspace fresh call reply after) :
    ∀ event ∈ after.feed.log, event ∈ workspace.feed.log ∨
      ∀ id ∈ event.resultIds, id ∈ reply.resultIds := by
  have closed (uris : List String) : ∀ event ∈ uris.map Event.closed, event.resultIds = [] := by
    intro event member
    obtain ⟨uri, _, rfl⟩ := List.mem_map.mp member
    rfl
  intro event logged
  cases does with
  | nothing => exact Or.inl logged
  | puts uri document =>
      rw [send, Feed.log_send, feed_put] at logged
      refine (List.mem_append.mp logged).imp_right fun sent => ?_
      obtain ⟨told, replied, rfl⟩ := List.mem_map.mp sent
      intro id shown
      rwa [List.mem_singleton.mp shown]
  | closes uri isOpen =>
      rw [close, if_pos isOpen] at logged
      refine (List.mem_append.mp logged).imp_right fun sent => ?_
      rw [closed [uri] event sent]
      exact fun _ => False.elim ∘ List.not_mem_nil
  | clears =>
      refine (List.mem_append.mp logged).imp_right fun sent => ?_
      rw [closed _ event sent]
      exact fun _ => False.elim ∘ List.not_mem_nil
  | steps => exact Or.inl logged

end Step

section Run

variable {history : History} {workspace : Workspace}

theorem History.mem_seen_after {id : String} (seen : id ∈ history.seen) (settings : Settings)
    (fresh : FreshIds) (call : Call) : id ∈ (history.after settings fresh call).seen :=
  List.mem_append_right _ (List.mem_append_right _ seen)

theorem Tracks.perform (tracks : Tracks history workspace) (fresh : FreshIds) {call : Call}
    (direct : call.isStep = false) :
    let next := history.after workspace.settings fresh call
    Tracks next (workspace.perform fresh call).2 ∧
      ∀ id ∈ (workspace.perform fresh call).1.resultIds, id ∈ next.seen := by
  intro next
  have does := does_perform fresh workspace call
  have current : ∀ uri, ((workspace.perform fresh call).2.document? uri).map Document.id =
      (next.issued uri).getLast? := by
    intro uri
    cases closes : call.closes uri with
    | false => exact tracks.current_after does direct closes
    | true =>
        rw [document?_perform_of_closes closes]
        simp only [next, History.after, closes, ↓reduceIte]
        rfl
  have issued : ∀ uri, ∀ id ∈ next.issued uri, id ∈ next.seen := by
    intro uri id member
    simp only [next, History.after] at member
    split at member
    · cases member
    · split at member
      · rcases List.mem_append.mp member with earlier | generated
        · exact History.mem_seen_after (tracks.issued uri id earlier) _ _ _
        · exact List.mem_append_left _ generated
      · exact History.mem_seen_after (tracks.issued uri id member) _ _ _
  have shown : ∀ id ∈ (workspace.perform fresh call).1.resultIds, id ∈ next.seen := by
    intro id member
    obtain ⟨uri, held⟩ := does.shown direct id member
    rw [current] at held
    exact issued uri id (List.mem_of_getLast? held)
  refine ⟨⟨current, issued, ?_⟩, shown⟩
  intro event logged id told
  rcases does.log event logged with earlier | replied
  · exact History.mem_seen_after (tracks.told event earlier id told) _ _ _
  · exact shown id (replied id told)

theorem History.mem_seen_run {id : String} (seen : id ∈ history.seen) (settings : Settings)
    (calls : List (FreshIds × Call)) : id ∈ (history.run settings calls).seen := by
  induction calls generalizing history with
  | nil => exact seen
  | cons turn calls ih => exact ih (mem_seen_after seen settings turn.1 turn.2)

theorem Tracks.run (tracks : Tracks history workspace) {calls : List (FreshIds × Call)}
    (direct : ∀ turn ∈ calls, turn.2.isStep = false) :
    let last := history.run workspace.settings calls
    Tracks last (workspace.run calls).2 ∧
      ∀ reply ∈ (workspace.run calls).1, ∀ id ∈ reply.resultIds, id ∈ last.seen := by
  induction calls generalizing history workspace with
  | nil => exact ⟨tracks, fun _ replied => nomatch replied⟩
  | cons turn calls ih =>
      obtain ⟨fresh, call⟩ := turn
      obtain ⟨callDirect, restDirect⟩ := List.forall_mem_cons.mp direct
      obtain ⟨tracksNext, shown⟩ := tracks.perform fresh callDirect
      have later := ih tracksNext restDirect
      have kept : (workspace.perform fresh call).2.settings = workspace.settings :=
        congrArg Prod.fst (terms_perform fresh workspace call)
      rw [kept] at later
      obtain ⟨tracksLast, laterShown⟩ := later
      refine ⟨tracksLast, ?_⟩
      intro reply replied id member
      rcases List.mem_cons.mp replied with rfl | replied
      · exact History.mem_seen_run (shown id member) _ calls
      · exact laterShown reply replied id member

theorem Tracks.ofBlank (blank : workspace.sessions = []) (silent : workspace.feed = .empty) :
    Tracks .blank workspace where
  current uri := by
    have absent : workspace.document? uri = none := by
      rw [document?_eq_none_iff, handle?, blank]
      rfl
    rw [absent]
    rfl
  issued _ _ member := nomatch member
  told event logged := by
    rw [silent] at logged
    cases logged

end Run

/-! ## Superseded ids -/

namespace History

variable {history : History} {settings : Settings} {uri previous : String}

theorem generatesNew_append {front later : List (FreshIds × Call)} :
    history.GeneratesNew settings (front ++ later) ↔
      history.GeneratesNew settings front ∧
        (history.run settings front).GeneratesNew settings later := by
  induction front generalizing history with
  | nil => exact (iff_of_eq (true_and _)).symm
  | cons turn front ih => exact (and_congr_right fun _ => ih).trans and_assoc.symm

theorem run_append (settings : Settings) (history : History)
    (front later : List (FreshIds × Call)) :
    history.run settings (front ++ later) = (history.run settings front).run settings later :=
  List.foldl_append

/-- An id that was seen and is not the latest is never generated again. -/
theorem superseded_after {fresh : FreshIds} {call : Call}
    (new : ∀ id ∈ history.generates settings fresh call, id ∉ call.asked ++ history.seen)
    (seen : previous ∈ history.seen) (superseded : (history.issued uri).getLast? ≠ some previous) :
    ((history.after settings fresh call).issued uri).getLast? ≠ some previous := by
  simp only [after]
  split
  · exact nofun
  · split
    · rw [List.getLast?_append]
      cases latest : (history.generates settings fresh call).getLast? with
      | none => exact superseded
      | some id =>
          rintro same
          cases same
          exact new previous (List.mem_of_getLast? latest) (List.mem_append_right _ seen)
    · exact superseded

theorem superseded_run {calls : List (FreshIds × Call)} (new : history.GeneratesNew settings calls)
    (seen : previous ∈ history.seen) (superseded : (history.issued uri).getLast? ≠ some previous) :
    ((history.run settings calls).issued uri).getLast? ≠ some previous := by
  induction calls generalizing history with
  | nil => exact superseded
  | cons turn calls ih =>
      obtain ⟨⟨_, newCall⟩, newLater⟩ := new
      exact ih newLater (mem_seen_after seen settings turn.1 turn.2)
        (superseded_after newCall seen superseded)

end History

/-! ## Requests for edits -/

theorem fullDelta_of_current {workspace : Workspace} {fresh : FreshIds} {uri previous : String}
    {pushes : List Push} (own : workspace.All fun document => document.legend = workspace.legend)
    (succeeds : ∀ item ∈ pushes, (item.resolve workspace.legend).isOk = true)
    (delta : workspace.settings.delta = true) (enabled : workspace.settings.enabled = true)
    (current : previous = (workspace.documentFor fresh.opened uri).id) :
    ∃ edits trace after,
      workspace.fullDelta fresh uri previous pushes =
          (⟨.ok (some (.delta ⟨previous, edits⟩)), some trace⟩, after) ∧
        (after.document? uri).map Document.id = some previous := by
  obtain ⟨draft, succeeded, _⟩ := exists_draft own succeeds fresh uri
  rcases @fullDelta_cases_of_current _ _ _ _ pushes delta enabled current with
    ⟨fault, failed, _⟩ | ⟨_, _, served⟩
  · rw [succeeded] at failed
    cases failed
  · subst current
    refine ⟨_, _, _, served, ?_⟩
    rw [document?_send, document?_put_self]
    rfl

/-- A request is made with the current id exactly when it is made with the latest one, provided that
an id generated for opening the URI is not the one asked with. -/
theorem current_iff_latest {history : History} {workspace : Workspace} {fresh uri previous : String}
    (tracks : Tracks history workspace)
    (apart : ∀ id ∈ history.opening fresh uri, id ≠ previous) :
    previous = (workspace.documentFor fresh uri).id ↔
      (history.issued uri).getLast? = some previous := by
  rw [← tracks.openingIds_eq_opening] at apart
  rw [← tracks.current]
  cases found : workspace.document? uri with
  | none =>
      rw [openingIds_of_absent fresh found, List.forall_mem_singleton] at apart
      rw [documentFor_of_absent fresh found]
      exact ⟨fun same => absurd same.symm apart, nofun⟩
  | some document =>
      rw [documentFor_of_document? fresh found, Option.map_some, Option.some.injEq, eq_comm]

/-- What a request for edits is answered depends on the id that it is made with being the latest. -/
theorem fullDelta_answers {history : History} {workspace : Workspace} {fresh : FreshIds}
    {uri previous : String} {pushes : List Push} (tracks : Tracks history workspace)
    (own : workspace.All fun document => document.legend = workspace.legend)
    (succeeds : ∀ item ∈ pushes, (item.resolve workspace.legend).isOk = true)
    (delta : workspace.settings.delta = true) (enabled : workspace.settings.enabled = true)
    (new : ∀ id ∈ workspace.drawn fresh (.fullDelta uri previous pushes),
      id ∉ previous :: history.seen) :
    ∃ answer trace after,
      workspace.fullDelta fresh uri previous pushes = (⟨.ok (some answer), some trace⟩, after) ∧
        ((history.issued uri).getLast? = some previous ∧
            (∃ edits, answer = .delta ⟨previous, edits⟩) ∧
            (after.document? uri).map Document.id = some previous ∨
          (history.issued uri).getLast? ≠ some previous ∧
            (∃ data, answer = .full ⟨fresh.encoded, data⟩) ∧ fresh.encoded ∉ history.seen) := by
  rw [drawn_fullDelta delta enabled] at new
  have latest := current_iff_latest tracks fun id opening same => by
    rw [← tracks.openingIds_eq_opening] at opening
    exact new id (List.mem_append_left _ opening) (same ▸ List.mem_cons_self)
  by_cases current : previous = (workspace.documentFor fresh.opened uri).id
  · obtain ⟨edits, trace, after, served, held⟩ :=
      fullDelta_of_current own succeeds delta enabled current
    exact ⟨_, trace, after, served, Or.inl ⟨latest.mp current, ⟨edits, rfl⟩, held⟩⟩
  · obtain ⟨trace, after, served, _⟩ :=
      (renews_fullDelta_of_stale delta enabled current).answered own succeeds
    have encodes : fresh.encoded ∈
        (workspace.documentFor fresh.opened uri).editIds fresh.encoded previous := by
      rw [Document.editIds, if_neg current]
      exact List.mem_cons_self
    have unseen := new fresh.encoded (List.mem_append_right _ encodes)
    exact ⟨_, trace, after, served, Or.inr ⟨fun isLatest => current (latest.mpr isLatest),
      ⟨_, rfl⟩, fun seen => unseen (List.mem_cons_of_mem _ seen)⟩⟩

/-- The next request for edits that is made with an id is answered by a delta under that id. -/
def Usable (workspace : Workspace) (uri id : String) : Prop :=
  ∀ fresh pushes, (∀ item ∈ pushes, (item.resolve workspace.legend).isOk = true) →
    ∃ edits trace, (workspace.fullDelta fresh uri id pushes).1 =
      ⟨.ok (some (.delta ⟨id, edits⟩)), some trace⟩

theorem usable_of_current {workspace : Workspace} {uri id : String}
    (own : workspace.All fun document => document.legend = workspace.legend)
    (delta : workspace.settings.delta = true) (enabled : workspace.settings.enabled = true)
    (held : (workspace.document? uri).map Document.id = some id) : workspace.Usable uri id := by
  intro fresh pushes succeeds
  obtain ⟨document, found, rfl⟩ := Option.map_eq_some_iff.mp held
  have current : document.id = (workspace.documentFor fresh.opened uri).id :=
    congrArg Document.id (documentFor_of_document? fresh.opened found).symm
  obtain ⟨edits, trace, after, served, _⟩ :=
    fullDelta_of_current own succeeds delta enabled current
  exact ⟨edits, trace, congrArg Prod.fst served⟩

/-- A request for edits whose tokenizer succeeds is answered by a delta exactly when, before it, the
id that it is made with is the latest generated for the URI since it was closed. A delta is answered
under that id, which serves the next request as well; a whole array is answered under an id that
nobody was told before. An id that is superseded once brings no delta any more. -/
theorem isDelta_iff_latest {start : Workspace} (blank : start.sessions = [])
    (silent : start.feed = .empty) (enabled : start.settings.enabled = true)
    (delta : start.settings.delta = true) {done : List (FreshIds × Call)}
    (direct : ∀ turn ∈ done, turn.2.isStep = false) {fresh : FreshIds} {uri previous : String}
    {pushes : List Push} (succeeds : ∀ item ∈ pushes, (item.resolve start.legend).isOk = true)
    (new : History.blank.GeneratesNew start.settings
      (done ++ [(fresh, .fullDelta uri previous pushes)])) :
    let history (front : List (FreshIds × Call)) := History.blank.run start.settings front
    let workspace := (start.run done).2
    (∀ front, front <+: done → ∀ fresh call, call.isStep = false →
        (start.run front).2.drawn fresh call =
          (history front).generates start.settings fresh call) ∧
      ∃ answer trace after,
        workspace.fullDelta fresh uri previous pushes =
            (⟨.ok (some answer), some trace⟩, after) ∧
          (answer.isDelta = true ↔ ((history done).issued uri).getLast? = some previous) ∧
          (answer.isDelta = true → answer.resultId = previous ∧ after.Usable uri previous) ∧
          (answer.isDelta = false →
            (∀ reply ∈ (start.run done).1, answer.resultId ∉ reply.resultIds) ∧
              ∀ event ∈ workspace.feed.log, answer.resultId ∉ event.resultIds) ∧
          ∀ front, front <+: done → previous ∈ (history front).seen →
            ((history front).issued uri).getLast? ≠ some previous → answer.isDelta = false := by
  intro history workspace
  have tracksFront : ∀ front, front <+: done → Tracks (history front) (start.run front).2 ∧
      ∀ reply ∈ (start.run front).1, ∀ id ∈ reply.resultIds, id ∈ (history front).seen :=
    fun front part => (Tracks.ofBlank blank silent).run fun turn member =>
      direct turn (part.subset member)
  have draws : ∀ front, front <+: done → ∀ fresh call, call.isStep = false →
      (start.run front).2.drawn fresh call =
        (history front).generates start.settings fresh call := by
    intro front part fresh call callDirect
    have draws := (tracksFront front part).1.drawn_eq_generates fresh callDirect
    rwa [settings_run] at draws
  obtain ⟨tracks, replied⟩ := tracksFront done (List.prefix_refl done)
  obtain ⟨newDone, ⟨_, newIds⟩, _⟩ := History.generatesNew_append.mp new
  rw [← draws done (List.prefix_refl done) fresh _ rfl] at newIds
  rw [← legend_run start done] at succeeds
  have own calls : (start.run calls).2.All fun document =>
      document.legend = (start.run calls).2.legend := by
    rw [legend_run]
    exact all_legend_run blank calls
  have deltaOn calls := (congrArg Settings.delta (settings_run start calls)).trans delta
  have enabledOn calls := (congrArg Settings.enabled (settings_run start calls)).trans enabled
  obtain ⟨answer, trace, after, served, answers⟩ :=
    fullDelta_answers tracks (own done) succeeds (deltaOn done) (enabledOn done) newIds
  have reached : (start.run (done ++ [(fresh, .fullDelta uri previous pushes)])).2 = after := by
    rw [run_snoc]
    exact congrArg Prod.snd (perform_fullDelta served)
  refine ⟨draws, ?_⟩
  refine ⟨answer, trace, after, served, ?_⟩
  rcases answers with ⟨latest, ⟨edits, rfl⟩, held⟩ | ⟨superseded, ⟨data, rfl⟩, unseen⟩
  · refine ⟨⟨fun _ => latest, fun _ => rfl⟩, fun _ => ⟨rfl, ?_⟩, nofun, ?_⟩
    · rw [← reached] at held ⊢
      exact usable_of_current (own _) (deltaOn _) (enabledOn _) held
    · rintro front ⟨later, rfl⟩ seen superseded
      have newLater := (History.generatesNew_append.mp newDone).2
      have outdated := History.superseded_run newLater seen superseded
      rw [← History.run_append] at outdated
      exact absurd latest outdated
  · refine ⟨⟨nofun, fun latest => absurd latest superseded⟩, nofun, fun _ => ⟨?_, ?_⟩,
      fun _ _ _ _ => rfl⟩
    · exact fun reply member told => unseen (replied reply member _ told)
    · exact fun event member told => unseen (tracks.told event member _ told)

/-- A failed edit leaves its id in use, and a request for a part that fails supersedes it. -/
theorem isDelta_iff_latest_behind_failures :
    let start : Workspace := ⟨.standard, ⟨[], []⟩, [], .empty⟩
    let word := Push.token ⟨0, 0, 3, 0, 0⟩
    let broken : Span := ⟨⟨1, 4⟩, ⟨2, 0⟩⟩
    let edited : List (FreshIds × Call) :=
      [(⟨"a", "b"⟩, .full "left" [word]),
        (⟨"c", "d"⟩, .fullDelta "left" "b" [.encodedSpan broken 0 0])]
    let parted := edited ++ [(⟨"e", "f"⟩, .part "left" broken [.encodedSpan broken 0 0])]
    let history (front : List (FreshIds × Call)) := History.blank.run start.settings front
    start.sessions = [] ∧ start.feed = .empty ∧ start.settings.enabled = true ∧
      start.settings.delta = true ∧ (∀ turn ∈ parted, turn.2.isStep = false) ∧
      (∀ item ∈ [word, word], (item.resolve start.legend).isOk = true) ∧
      (history []).GeneratesNew start.settings
        (parted ++ [(⟨"g", "h"⟩, .fullDelta "left" "b" [word, word])]) ∧
      (∃ answer trace after,
        (start.run edited).2.fullDelta ⟨"g", "h"⟩ "left" "b" [word, word] =
            (⟨.ok (some answer), some trace⟩, after) ∧
          answer.isDelta = true ∧ answer.resultId = "b" ∧ after.Usable "left" "b") ∧
      ∃ answer trace after,
        (start.run parted).2.fullDelta ⟨"g", "h"⟩ "left" "b" [word, word] =
            (⟨.ok (some answer), some trace⟩, after) ∧
          answer.isDelta = false ∧
          ∀ reply ∈ (start.run parted).1, answer.resultId ∉ reply.resultIds := by
  intro start word broken edited parted history
  have directEdited : ∀ turn ∈ edited, turn.2.isStep = false := by decide
  have directParted : ∀ turn ∈ parted, turn.2.isStep = false := by decide
  have succeeds : ∀ item ∈ [word, word], (item.resolve start.legend).isOk = true := by decide
  have newEdited : History.blank.GeneratesNew start.settings
      (edited ++ [(⟨"g", "h"⟩, .fullDelta "left" "b" [word, word])]) := by decide
  have newParted : History.blank.GeneratesNew start.settings
      (parted ++ [(⟨"g", "h"⟩, .fullDelta "left" "b" [word, word])]) := by decide
  obtain ⟨_, delta, _, _, served, whenDelta, keeps, _⟩ :=
    @isDelta_iff_latest start rfl rfl rfl rfl edited directEdited _ _ _ _ succeeds newEdited
  obtain ⟨_, whole, _, _, answered, whenWhole, _, untold, _⟩ :=
    @isDelta_iff_latest start rfl rfl rfl rfl parted directParted _ _ _ _ succeeds newParted
  have isDelta : delta.isDelta = true := whenDelta.mpr (by decide)
  have isWhole : whole.isDelta = false :=
    Bool.eq_false_iff.mpr fun isDelta => absurd (whenWhole.mp isDelta) (by decide)
  exact ⟨rfl, rfl, rfl, rfl, directParted, succeeds, newParted,
    ⟨delta, _, _, served, isDelta, keeps isDelta⟩,
    ⟨whole, _, _, answered, isWhole, (untold isWhole).1⟩⟩

end Workspace

end SemanticHighlight

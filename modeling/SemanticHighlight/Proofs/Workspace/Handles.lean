import SemanticHighlight.Proofs.Workspace.Announced
import SemanticHighlight.Proofs.Workspace.DistinctIds

/-!
# Handles share a document until it is closed

A handle is taken by opening a URI. Until the URI is closed, the handle and the workspace show one
document, and what is done through either is seen through the other. From then on the document is
the handle's alone.
-/

set_option autoImplicit false

namespace SemanticHighlight.Workspace

/-- Whether a call, given its reply, closes a URI that was open. -/
def Call.ends (uri : String) : Call → Reply → Bool
  | .close other, .flag true => other == uri
  | .clear, _ => true
  | .close _, _ | .openDocument _, _ | .full _ _, _ | .fullDelta _ _ _, _ | .part _ _ _, _
  | .contains _, _ | .step _ _, _ => false

/-- Whether a URI is closed in the course of a run, by itself or with all others. -/
def endsIn (uri : String) (workspace : Workspace) : List (FreshIds × Call) → Bool
  | [] => false
  | (fresh, call) :: calls =>
      let performed := workspace.perform fresh call
      call.ends uri performed.1 || performed.2.endsIn uri calls

/-- What is done through one handle shows through the other. -/
def Shares (workspace : Workspace) (left right : Nat) : Prop :=
  ∀ fresh step, let after := (workspace.performAt fresh left step).2
    after.documentAt? right = after.documentAt? left

/-- A handle and a URI show one document. -/
structure Attached (workspace : Workspace) (uri : String) (handle : Nat) : Prop where
  shows : ∃ document, workspace.document? uri = some document ∧
    workspace.documentAt? handle = some document
  /-- A step through the handle is seen at the URI. -/
  steps : ∀ document, workspace.documentAt? handle = some document → ∀ fresh step,
    (workspace.performAt fresh handle step).2.document? uri =
      some (document.perform fresh step).2
  /-- What a call does to the document is seen through the handle. -/
  calls : ∀ fresh call, let performed := workspace.perform fresh call
    call.ends uri performed.1 = false →
      performed.2.documentAt? handle = performed.2.document? uri

/-- A document is its handle's alone. -/
structure Detached (workspace : Workspace) (handle : Nat) : Prop where
  /-- No call changes it. -/
  calls : ∀ fresh call, call.isStep = false →
    (workspace.perform fresh call).2.documentAt? handle = workspace.documentAt? handle
  /-- What is done through the handle is seen at no URI. -/
  steps : ∀ fresh step uri,
    (workspace.performAt fresh handle step).2.document? uri = workspace.document? uri

/-! ## Open and closed sessions -/

/-- The session of a handle is closed. -/
def IsClosed (workspace : Workspace) (handle : Nat) : Prop :=
  workspace.sessions[handle]?.map Session.isOpen = some false

section Sessions

variable {workspace : Workspace} {uri : String} {handle : Nat}

theorem IsClosed.lt_length (isClosed : workspace.IsClosed handle) :
    handle < workspace.sessions.length := by
  obtain ⟨session, stands, _⟩ := Option.map_eq_some_iff.mp isClosed
  exact (List.getElem?_eq_some_iff.mp stands).1

theorem IsClosed.handle?_ne (isClosed : workspace.IsClosed handle) (uri : String) :
    workspace.handle? uri ≠ some handle := by
  intro found
  obtain ⟨session, stands, isFor⟩ := handle?_sound found
  rw [IsClosed, stands, Option.map_some, (Session.isFor_iff.mp isFor).1] at isClosed
  cases isClosed

theorem IsClosed.place_ne (isClosed : workspace.IsClosed handle) (uri : String) :
    handle ≠ workspace.place uri := by
  unfold place
  cases found : workspace.handle? uri with
  | some other =>
      rintro rfl
      exact isClosed.handle?_ne uri found
  | none => exact isClosed.lt_length.ne

theorem handle?_put (workspace : Workspace) (uri other : String) (document : Document) :
    (workspace.put uri document).handle? other =
      if other = uri then some (workspace.place uri) else workspace.handle? other := by
  unfold put place
  cases found : workspace.handle? uri with
  | some handle =>
      rw [handle?_putAt]
      split
      · rename_i same
        rw [same, found, Option.getD_some]
      · rfl
  | none =>
      have absent : workspace.sessions.findIdx? (Session.isFor uri) = none := found
      by_cases same : other = uri
      · simp [handle?, List.findIdx?_append, absent, same, Session.isFor]
      · simp [handle?, List.findIdx?_append, Session.isFor, same, Ne.symm same]

theorem IsClosed.putAt (isClosed : workspace.IsClosed handle) (other : Nat)
    (document : Document) : (workspace.putAt other document).IsClosed handle := by
  obtain ⟨session, stands, closed⟩ := Option.map_eq_some_iff.mp isClosed
  change ((workspace.sessions.modify other (Session.withDocument document))[handle]?).map
    Session.isOpen = some false
  rw [List.getElem?_modify, stands]
  split <;> exact congrArg some closed

theorem IsClosed.put (isClosed : workspace.IsClosed handle) (uri : String) (document : Document) :
    (workspace.put uri document).IsClosed handle := by
  unfold Workspace.put
  split
  · exact isClosed.putAt _ document
  · change (workspace.sessions ++ [_])[handle]?.map Session.isOpen = some false
    rw [List.getElem?_append_left isClosed.lt_length]
    exact isClosed

theorem IsClosed.close (isClosed : workspace.IsClosed handle) (uri : String) :
    (workspace.close uri).2.IsClosed handle := by
  obtain ⟨session, stands, closed⟩ := Option.map_eq_some_iff.mp isClosed
  unfold Workspace.close
  split
  · change ((workspace.sessions.map (Session.endedFor uri))[handle]?).map Session.isOpen =
      some false
    have other : ¬ session.isFor uri = true := by
      rw [Session.isFor_iff, closed]
      exact fun isFor => Bool.false_ne_true isFor.1
    rw [List.getElem?_map, stands, Option.map_some, Option.map_some, Session.endedFor,
      if_neg other, closed]
  · exact isClosed

theorem isClosed_clear (inside : handle < workspace.sessions.length) :
    workspace.clear.IsClosed handle := by
  change ((workspace.sessions.map Session.ended)[handle]?).map Session.isOpen = some false
  rw [List.getElem?_map, List.getElem?_eq_getElem inside]
  rfl

theorem isClosed_close (found : workspace.handle? uri = some handle)
    (isOpen : workspace.contains uri = true) : (workspace.close uri).2.IsClosed handle := by
  obtain ⟨session, stands, isFor⟩ := handle?_sound found
  rw [Workspace.close, if_pos isOpen]
  change ((workspace.sessions.map (Session.endedFor uri))[handle]?).map Session.isOpen = some false
  rw [List.getElem?_map, stands, Option.map_some, Option.map_some, Session.endedFor, if_pos isFor]
  rfl

theorem exists_documentAt? (inside : handle < workspace.sessions.length) :
    ∃ document, workspace.documentAt? handle = some document := by
  rw [documentAt?, List.getElem?_eq_getElem inside]
  exact ⟨_, rfl⟩

theorem contains_of_handle? (found : workspace.handle? uri = some handle) :
    workspace.contains uri = true := by
  obtain ⟨session, stands, _⟩ := handle?_sound found
  rw [contains, document?, found, Option.bind_some, documentAt?, stands]
  rfl

/-- Two URIs have no handle in common. -/
theorem uri_eq_of_handle? {other : String} (found : workspace.handle? uri = some handle)
    (otherFound : workspace.handle? other = some handle) : other = uri := by
  obtain ⟨session, stands, isFor⟩ := handle?_sound found
  obtain ⟨same, otherStands, otherIsFor⟩ := handle?_sound otherFound
  rw [stands, Option.some.injEq] at otherStands
  subst otherStands
  exact (Session.isFor_iff.mp otherIsFor).2.symm.trans (Session.isFor_iff.mp isFor).2

end Sessions

/-! ## Calls -/

section Calls

variable {workspace after : Workspace} {fresh : FreshIds} {call : Call} {reply : Reply}
  {uri : String} {handle : Nat}

theorem Does.isClosed (does : Does workspace fresh call reply after)
    (isClosed : workspace.IsClosed handle) : after.IsClosed handle := by
  cases does with
  | nothing => exact isClosed
  | puts uri document => exact isClosed.put uri document
  | closes uri => exact isClosed.close uri
  | clears => exact isClosed_clear isClosed.lt_length
  | steps document => exact isClosed.putAt _ document

theorem Does.handle? (does : Does workspace fresh call reply after)
    (found : workspace.handle? uri = some handle) (stays : call.ends uri reply = false) :
    after.handle? uri = some handle := by
  cases does with
  | nothing => exact found
  | puts other document =>
      rw [handle?_send, handle?_put]
      split
      · rename_i same
        rw [place, ← same, found, Option.getD_some]
      · exact found
  | closes other =>
      rw [handle?_close_of_ne, found]
      rintro rfl
      exact absurd stays (by simp [Call.ends])
  | clears => cases stays
  | steps => rw [handle?_putAt, found]

theorem isClosed_of_ends (found : workspace.handle? uri = some handle)
    (ends : call.ends uri (workspace.perform fresh call).1 = true) :
    (workspace.perform fresh call).2.IsClosed handle := by
  have isOpen := contains_of_handle? found
  cases call with
  | close other =>
      have same : other = uri := by
        change Call.ends uri (.close other) (.flag (workspace.close other).1) = true at ends
        unfold Call.ends at ends
        split at ends <;> simp_all
      subst same
      exact isClosed_close found isOpen
  | clear => exact isClosed_clear (handle?_lt_length found)
  | openDocument | full | fullDelta | part | contains | step => cases ends

theorem attached_of_handle? (found : workspace.handle? uri = some handle) :
    workspace.Attached uri handle where
  shows := by
    obtain ⟨document, shows⟩ := contains_eq_true_iff.mp (contains_of_handle? found)
    refine ⟨document, shows, ?_⟩
    rw [document?, found] at shows
    exact shows
  steps document stands fresh step := by
    have inside := lt_length_of_documentAt? stands
    rw [performAt, stands]
    dsimp only
    rw [document?, handle?_putAt, found, Option.bind_some]
    exact documentAt?_putAt_self _ inside
  calls fresh call := by
    intro performed stays
    have kept := (does_perform fresh workspace call).handle? found stays
    change performed.2.handle? uri = some handle at kept
    rw [document?, kept, Option.bind_some]

theorem detached_of_isClosed (isClosed : workspace.IsClosed handle) :
    workspace.Detached handle where
  calls fresh call direct := by
    have does := does_perform fresh workspace call
    generalize (workspace.perform fresh call).1 = reply,
      (workspace.perform fresh call).2 = after at does ⊢
    cases does with
    | nothing => rfl
    | puts uri document =>
        refine (documentAt?_put workspace uri document handle).trans ?_
        rw [if_neg (isClosed.place_ne uri)]
    | closes uri => exact documentAt?_close workspace uri handle
    | clears => exact documentAt?_clear workspace handle
    | steps => cases direct
  steps fresh step uri := by
    rw [performAt]
    split
    · rfl
    · dsimp only
      rw [document?, handle?_putAt, document?]
      cases found : workspace.handle? uri with
      | none => rfl
      | some other =>
          have apart : other ≠ handle := by
            rintro rfl
            exact isClosed.handle?_ne uri found
          exact documentAt?_putAt_of_ne _ apart

/-- What is done through a handle opens and closes no URI, and no one is told. -/
theorem openUris_performAt (fresh : String) (handle : Nat) (step : Document.Step)
    (workspace : Workspace) :
    (workspace.performAt fresh handle step).2.openUris = workspace.openUris := by
  unfold performAt
  split
  · rfl
  · exact openUris_putAt workspace handle _

theorem contains_performAt (fresh : String) (handle : Nat) (step : Document.Step)
    (workspace : Workspace) (uri : String) :
    (workspace.performAt fresh handle step).2.contains uri = workspace.contains uri := by
  rw [Bool.eq_iff_iff, ← mem_openUris_iff, openUris_performAt, mem_openUris_iff]

theorem shares_iff {left right : Nat} (leftInside : left < workspace.sessions.length)
    (rightInside : right < workspace.sessions.length) :
    workspace.Shares left right ↔ right = left := by
  refine ⟨fun shares => ?_, fun same => same ▸ fun _ _ => rfl⟩
  by_contra apart
  obtain ⟨leftDocument, leftStands⟩ := exists_documentAt? leftInside
  obtain ⟨rightDocument, rightStands⟩ := exists_documentAt? rightInside
  obtain ⟨fresh, other⟩ : ∃ fresh : String, fresh ≠ rightDocument.id := by
    by_cases blank : rightDocument.id = ""
    · exact ⟨"a", by rw [blank]; decide⟩
    · exact ⟨"", Ne.symm blank⟩
  -- A new encoding through the one gives it an id that the other does not have.
  have seen := shares fresh (.create [] false)
  simp only [performAt, leftStands] at seen
  rw [documentAt?_putAt_of_ne _ apart, rightStands,
    documentAt?_putAt_self _ leftInside] at seen
  exact other (congrArg Document.id (Option.some.inj seen)).symm

end Calls

/-! ## Runs -/

section Runs

variable {workspace : Workspace} {uri : String} {handle : Nat}

theorem fst_openDocument (fresh uri : String) (workspace : Workspace) :
    (workspace.openDocument fresh uri).1 = workspace.place uri := by
  unfold openDocument place
  cases workspace.handle? uri <;> rfl

theorem handle?_openDocument (fresh uri : String) (workspace : Workspace) :
    (workspace.openDocument fresh uri).2.handle? uri =
      some (workspace.openDocument fresh uri).1 := by
  unfold openDocument
  cases found : workspace.handle? uri with
  | some handle => exact found
  | none =>
      dsimp only
      rw [handle?_put, if_pos rfl, place, found, Option.getD_none]

theorem IsClosed.run (isClosed : workspace.IsClosed handle) (calls : List (FreshIds × Call)) :
    (workspace.run calls).2.IsClosed handle := by
  induction calls generalizing workspace with
  | nil => exact isClosed
  | cons turn calls ih => exact ih ((does_perform turn.1 workspace turn.2).isClosed isClosed)

/-- A handle stays with its URI until that is closed, and is closed from then on. -/
theorem handle?_or_isClosed_run (found : workspace.handle? uri = some handle)
    (calls : List (FreshIds × Call)) :
    workspace.endsIn uri calls = false ∧ (workspace.run calls).2.handle? uri = some handle ∨
      workspace.endsIn uri calls = true ∧ (workspace.run calls).2.IsClosed handle := by
  induction calls generalizing workspace with
  | nil => exact Or.inl ⟨rfl, found⟩
  | cons turn calls ih =>
      obtain ⟨fresh, call⟩ := turn
      rw [endsIn]
      cases ends : call.ends uri (workspace.perform fresh call).1 with
      | true =>
          rw [Bool.true_or]
          exact Or.inr ⟨rfl, (isClosed_of_ends found ends).run calls⟩
      | false =>
          rw [Bool.false_or]
          exact ih ((does_perform fresh workspace call).handle? found ends)

theorem lt_length_run (found : workspace.handle? uri = some handle)
    (calls : List (FreshIds × Call)) : handle < (workspace.run calls).2.sessions.length := by
  rcases handle?_or_isClosed_run found calls with ⟨_, kept⟩ | ⟨_, isClosed⟩
  · exact handle?_lt_length kept
  · exact isClosed.lt_length

/-- A closed document is not the one that its URI shows, if the URI shows one again. -/
theorem document?_ne_of_isClosed {past : List String} (distinct : Distinct past workspace)
    (isClosed : workspace.IsClosed handle) (uri : String) :
    workspace.document? uri ≠ workspace.documentAt? handle := by
  intro same
  obtain ⟨document, stands⟩ := exists_documentAt? isClosed.lt_length
  rw [stands] at same
  obtain ⟨other, found, otherStands⟩ := Option.bind_eq_some_iff.mp same
  cases distinct.apart other handle document document otherStands stands rfl
  exact isClosed.handle?_ne uri found

theorem openDocument_of_absent (absent : workspace.contains uri = false) (fresh : String) :
    let opened := workspace.openDocument fresh uri
    opened.2.document? uri = some (.new workspace.legend fresh) ∧
      workspace.documentAt? opened.1 = none := by
  intro opened
  have missing : workspace.document? uri = none := by
    rwa [contains, Option.isSome_eq_false_iff, Option.isNone_iff_eq_none] at absent
  refine ⟨?_, ?_⟩
  · rw [document?_openDocument, if_pos rfl, documentFor_of_absent fresh missing]
  · rw [fst_openDocument, place, document?_eq_none_iff.mp missing, documentAt?,
      Option.getD_none, List.getElem?_eq_none le_rfl]
    rfl

/-- An absent URI is opened under an id that no document has. -/
theorem Distinct.id_ne_opened {past : List String} (distinct : Distinct past workspace)
    {fresh : FreshIds} (absent : workspace.contains uri = false)
    (once : (past ++ workspace.allDrawn [(fresh, .openDocument uri)]).Nodup) :
    workspace.All fun document => document.id ≠ fresh.opened := by
  have draws : workspace.allDrawn [(fresh, .openDocument uri)] = [fresh.opened] := by
    rw [allDrawn, allDrawn, List.append_nil, Workspace.drawn, openingIds, absent]
    rfl
  rw [draws] at once
  intro other document stands same
  exact new_of_nodup once fresh.opened List.mem_cons_self
    (same ▸ distinct.drawn other document stands)

theorem place_eq_iff {calls : List (FreshIds × Call)} (found : workspace.handle? uri = some handle)
    (other : String) :
    (workspace.run calls).2.place other = handle ↔
      other = uri ∧ workspace.endsIn uri calls = false := by
  rcases handle?_or_isClosed_run found calls with ⟨stays, kept⟩ | ⟨ends, isClosed⟩
  · rw [stays]
    refine ⟨fun same => ⟨?_, rfl⟩, ?_⟩
    · unfold place at same
      cases otherFound : (workspace.run calls).2.handle? other with
      | some otherHandle =>
          rw [otherFound, Option.getD_some] at same
          exact uri_eq_of_handle? kept (same ▸ otherFound)
      | none =>
          rw [otherFound, Option.getD_none] at same
          exact absurd same (handle?_lt_length kept).ne'
    · rintro ⟨rfl, _⟩
      rw [place, kept, Option.getD_some]
  · rw [ends]
    refine ⟨fun same => absurd same.symm (isClosed.place_ne other), ?_⟩
    rintro ⟨_, impossible⟩
    cases impossible

end Runs

/-- A handle on a URI and the workspace show one document until the URI is closed. From then on
neither changes what the other shows, and they differ. The URI is opened again with a new document.
Two handles share a document exactly when they were taken for one URI that was not closed in
between. Whatever is done through a handle, no URI is opened or closed, and no one is told. -/
theorem attached_until_closed {start : Workspace} (blank : start.sessions = [])
    (front later : List (FreshIds × Call)) (fresh : FreshIds) (uri : String) :
    let opened := (start.run front).2.openDocument fresh.opened uri
    let handle := opened.1
    let calls := front ++ (fresh, .openDocument uri) :: later
    let workspace := (start.run calls).2
    (opened.2.endsIn uri later = false → workspace.Attached uri handle) ∧
      (opened.2.endsIn uri later = true → workspace.Detached handle ∧
        ((start.allDrawn calls).Nodup →
          workspace.document? uri ≠ workspace.documentAt? handle)) ∧
      (∀ next : FreshIds, workspace.contains uri = false →
        let again := workspace.openDocument next.opened uri
        again.2.document? uri = some (.new start.legend next.opened) ∧
          workspace.documentAt? again.1 = none ∧
          ((start.allDrawn (calls ++ [(next, .openDocument uri)])).Nodup →
            workspace.All fun document => document.id ≠ next.opened)) ∧
      (∀ next other, let again := workspace.openDocument next other
        (again.1 = handle ↔ other = uri ∧ opened.2.endsIn uri later = false) ∧
          (again.2.Shares handle again.1 ↔ again.1 = handle)) ∧
      ∀ next step, let stepped := (workspace.performAt next handle step).2
        (∀ other, stepped.contains other = workspace.contains other) ∧
          stepped.size = workspace.size ∧ stepped.feed = workspace.feed := by
  intro opened handle calls workspace
  have found : opened.2.handle? uri = some handle := handle?_openDocument fresh.opened uri _
  have reached : workspace = (opened.2.run later).2 := run_append start front _
  have distinct : (start.allDrawn calls).Nodup → Distinct (start.allDrawn calls) workspace :=
    (distinct_blank blank).run
  refine ⟨fun stays => ?_, fun ends => ?_, fun next absent => ?_, fun next other => ?_,
    fun next step => ?_⟩
  · rcases handle?_or_isClosed_run found later with ⟨_, kept⟩ | ⟨ends, _⟩
    · exact attached_of_handle? (reached ▸ kept)
    · rw [stays] at ends
      cases ends
  · rcases handle?_or_isClosed_run found later with ⟨stays, _⟩ | ⟨_, isClosed⟩
    · rw [ends] at stays
      cases stays
    · rw [← reached] at isClosed
      exact ⟨detached_of_isClosed isClosed,
        fun once => document?_ne_of_isClosed (distinct once) isClosed uri⟩
  · intro again
    obtain ⟨shows, missing⟩ := openDocument_of_absent absent next.opened
    rw [show workspace.legend = start.legend from legend_run start calls] at shows
    refine ⟨shows, missing, fun once => ?_⟩
    rw [allDrawn_append] at once
    exact (distinct (List.nodup_append.mp once).1).id_ne_opened absent once
  · intro again
    have placed : again.1 = workspace.place other := fst_openDocument next other workspace
    refine ⟨?_, ?_⟩
    · rw [placed, reached]
      exact place_eq_iff found other
    · have grown := lt_length_run found (later ++ [(⟨next, next⟩, .openDocument other)])
      rw [run_snoc, ← reached] at grown
      exact shares_iff grown (handle?_lt_length (handle?_openDocument next other workspace))
  · intro stepped
    exact ⟨contains_performAt next handle step workspace,
      congrArg List.length (openUris_performAt next handle step workspace),
      feed_performAt next handle step workspace⟩

/-- A document is edited through its handle, then closed, edited once more and opened again, and
edited through its new handle. -/
theorem attached_until_closed_reopened :
    let start : Workspace := ⟨.standard, ⟨[], []⟩, [], .empty⟩
    let word := Push.token ⟨0, 0, 3, 0, 0⟩
    let front : List (FreshIds × Call) := [(⟨"a", "b"⟩, .full "left" [word])]
    let edited : List (FreshIds × Call) :=
      [(⟨"d", "e"⟩, .step 0 (.create [word, word] true)), (⟨"f", "g"⟩, .openDocument "right")]
    let closed := edited ++
      [(⟨"h", "i"⟩, .close "right"), (⟨"j", "k"⟩, .close "left"), (⟨"l", "m"⟩, .step 0 .edits)]
    let reopened := closed ++
      [(⟨"n", "o"⟩, .openDocument "left"), (⟨"p", "q"⟩, .step 2 (.create [word] true))]
    let calls (later : List (FreshIds × Call)) :=
      front ++ (⟨"c", "c"⟩, .openDocument "left") :: later
    let workspace (later : List (FreshIds × Call)) := (start.run (calls later)).2
    start.sessions = [] ∧ (start.allDrawn (calls reopened)).Nodup ∧
      (workspace edited).Attached "left" 0 ∧
      ((workspace edited).openDocument "r" "left").1 = 0 ∧
      (workspace closed).contains "left" = false ∧
      ((workspace closed).openDocument "r" "left").2.document? "left" =
        some (.new ⟨[], []⟩ "r") ∧
      (workspace reopened).Detached 0 ∧
      (workspace reopened).document? "left" ≠ (workspace reopened).documentAt? 0 ∧
      ((workspace reopened).openDocument "r" "left").1 ≠ 0 := by
  intro start word front edited closed reopened calls workspace
  obtain ⟨attached, _, _, again, _⟩ :=
    @attached_until_closed start rfl front edited ⟨"c", "c"⟩ "left"
  obtain ⟨_, _, opens, _, _⟩ := @attached_until_closed start rfl front closed ⟨"c", "c"⟩ "left"
  obtain ⟨_, detached, _, apart, _⟩ :=
    @attached_until_closed start rfl front reopened ⟨"c", "c"⟩ "left"
  have once : (start.allDrawn (calls reopened)).Nodup := by decide +kernel
  have absent : (workspace closed).contains "left" = false := by decide +kernel
  obtain ⟨alone, differs⟩ := detached (by decide +kernel)
  refine ⟨rfl, once, attached (by decide +kernel), ?_, absent, (opens ⟨"r", "s"⟩ absent).1, alone,
    differs once, ?_⟩
  · exact (again "r" "left").1.mpr ⟨rfl, by decide +kernel⟩
  · intro same
    exact absurd ((apart "r" "left").1.mp same).2 (by decide +kernel)

end SemanticHighlight.Workspace

import SemanticHighlight.Proofs.Workspace.Effect

/-!
# The URIs that are open

A URI is open in one session at most, so that the list of open URIs names each of them once.
-/

set_option autoImplicit false

namespace SemanticHighlight.Workspace

theorem mem_openUris_iff {workspace : Workspace} {uri : String} :
    uri ∈ workspace.openUris ↔ workspace.contains uri = true := by
  have absent : workspace.contains uri = false ↔ workspace.handle? uri = none := by
    rw [← document?_eq_none_iff, contains, Option.isSome_eq_false_iff, Option.isNone_iff_eq_none]
  rw [← Bool.not_eq_false, absent, handle?, List.findIdx?_eq_none_iff]
  simp only [openUris, List.mem_map, List.mem_filter, Session.isFor, not_forall, Bool.not_eq_false,
    Bool.and_eq_true, beq_iff_eq]
  constructor
  · rintro ⟨session, ⟨member, isOpen⟩, same⟩
    exact ⟨session, member, isOpen, same⟩
  · rintro ⟨session, member, isOpen, same⟩
    exact ⟨session, ⟨member, isOpen⟩, same⟩

theorem openUris_putAt (workspace : Workspace) (handle : Nat) (document : Document) :
    (workspace.putAt handle document).openUris = workspace.openUris := by
  change ((workspace.sessions.modify handle (Session.withDocument document)).filter
    Session.isOpen).map Session.uri = (workspace.sessions.filter Session.isOpen).map Session.uri
  generalize workspace.sessions = sessions
  induction sessions generalizing handle with
  | nil => cases handle <;> rfl
  | cons session sessions ih =>
      cases handle with
      | zero =>
          obtain ⟨name, isOpen, held⟩ := session
          cases isOpen <;> rfl
      | succ handle =>
          rw [List.modify_succ_cons, List.filter_cons, List.filter_cons]
          split
          · rw [List.map_cons, List.map_cons, ih]
          · exact ih handle

theorem openUris_put (workspace : Workspace) (uri : String) (document : Document) :
    (workspace.put uri document).openUris =
      if workspace.contains uri then workspace.openUris else workspace.openUris ++ [uri] := by
  unfold put
  cases found : workspace.handle? uri with
  | some handle =>
      have isOpen : workspace.contains uri = true := by
        by_contra closed
        rw [contains, Option.not_isSome_iff_eq_none, document?_eq_none_iff, found] at closed
        cases closed
      rw [if_pos isOpen]
      exact openUris_putAt workspace handle document
  | none =>
      have closed : workspace.contains uri = false := by
        rw [contains, document?_eq_none_iff.mpr found]
        rfl
      rw [closed]
      simp [openUris]

theorem openUris_close (workspace : Workspace) (uri : String) :
    (workspace.close uri).2.openUris = workspace.openUris.filter (· ≠ uri) := by
  unfold close
  split
  · change ((workspace.sessions.map (Session.endedFor uri)).filter Session.isOpen).map Session.uri =
      ((workspace.sessions.filter Session.isOpen).map Session.uri).filter _
    generalize workspace.sessions = sessions
    induction sessions with
    | nil => rfl
    | cons session sessions ih =>
        obtain ⟨name, isOpen, document⟩ := session
        rw [List.map_cons, List.filter_cons, List.filter_cons]
        cases isOpen with
        | false => simpa [Session.endedFor, Session.isFor] using ih
        | true =>
            by_cases same : name = uri
            · simpa [Session.endedFor, Session.isFor, Session.ended, same] using ih
            · simpa [Session.endedFor, Session.isFor, same] using ih
  · rename_i closed
    rw [← mem_openUris_iff] at closed
    symm
    rw [List.filter_eq_self]
    rintro other member
    rw [decide_eq_true_eq]
    rintro rfl
    exact closed member

theorem openUris_clear (workspace : Workspace) : workspace.clear.openUris = [] := by
  change ((workspace.sessions.map Session.ended).filter Session.isOpen).map Session.uri = []
  rw [List.map_eq_nil_iff, List.filter_eq_nil_iff]
  rintro _ member
  obtain ⟨session, _, rfl⟩ := List.mem_map.mp member
  exact Bool.false_ne_true

theorem Does.nodup_openUris {workspace after : Workspace} {fresh : FreshIds} {call : Call}
    {reply : Reply} (does : Does workspace fresh call reply after)
    (once : workspace.openUris.Nodup) : after.openUris.Nodup := by
  cases does with
  | nothing => exact once
  | puts uri document =>
      change (workspace.put uri document).openUris.Nodup
      rw [openUris_put]
      split
      · exact once
      · rename_i closed
        rw [← mem_openUris_iff] at closed
        refine List.nodup_append.mpr ⟨once, List.nodup_cons.mpr ⟨List.not_mem_nil, List.nodup_nil⟩, ?_⟩
        rintro other member _ isUri rfl
        rw [List.mem_singleton.mp isUri] at member
        exact closed member
  | closes =>
      rw [openUris_close]
      exact once.filter _
  | clears =>
      rw [openUris_clear]
      exact List.nodup_nil
  | steps =>
      rw [openUris_putAt]
      exact once

theorem nodup_openUris_run {start : Workspace} (once : start.openUris.Nodup)
    (calls : List (FreshIds × Call)) : (start.run calls).2.openUris.Nodup := by
  induction calls generalizing start with
  | nil => exact once
  | cons turn calls ih => exact ih ((does_perform turn.1 start turn.2).nodup_openUris once)

theorem openUris_of_blank {start : Workspace} (blank : start.sessions = []) :
    start.openUris = [] := by
  rw [openUris, blank]
  rfl

end SemanticHighlight.Workspace

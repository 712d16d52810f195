import SemanticHighlight.Proofs.Toml.Language

/-!
# The keys of the root table

Building carries out one statement at a time. Each sets the one key of the root that it speaks of,
and no key comes to be there twice.
-/

set_option autoImplicit false

namespace SemanticHighlight.Toml

/-- What a statement does to the root table behind this header. -/
def Statement.effect? (header : List String) (root : Entries) : Statement → Option Entries
  | assign path value => root.update? (Entries.assign? value path) header
  | table path => path.getLast?.bind fun key => root.update? (Entries.define? key) path.dropLast
  | element path => path.getLast?.bind fun key => root.update? (Entries.append? key) path.dropLast

theorem build?_cons (header : List String) (root : Entries) (statement : Statement)
    (statements : List Statement) :
    build? header root (statement :: statements) =
      (statement.effect? header root).bind fun root =>
        build? (statement.headerBehind header) root statements := by
  cases statement with
  | assign path value => rfl
  | table path | element path =>
      simp only [build?, Statement.effect?, Option.bind_eq_bind, Option.bind_assoc]
      rfl

/-! ## One statement -/

/-- How building sets the key that is spoken of. -/
inductive Step (entries : Entries) : Entries → String × Option Value → Prop where
  | sets {key : String} {value : Value} (absent : entries.get? key = none) :
      Step entries (entries.set key value) (key, some value)
  | opens {key : String} {value : Value} (opened : value.isOpen = true)
      (before : ∀ old, entries.get? key = some old → old.isOpen = true) :
      Step entries (entries.set key value) (key, none)

theorem Step.change {entries after : Entries} {mentioned : String × Option Value}
    (step : Step entries after mentioned) : Change entries after mentioned := by
  cases step with
  | @sets key value absent =>
      exact .sets absent (Entries.get?_set_self ..) fun _ apart =>
        Entries.get?_set_of_ne value apart entries
  | @opens key value opened before =>
      exact .opens (Entries.get?_set_self ..) opened before fun _ apart =>
        Entries.get?_set_of_ne value apart entries

theorem Entries.mem_keys_set {entries : Entries} {key other : String} {value : Value} :
    other ∈ (entries.set key value).map Prod.fst ↔ other = key ∨ other ∈ entries.map Prod.fst := by
  induction entries with
  | nil => simp [set]
  | cons entry entries ih =>
      obtain ⟨name, old⟩ := entry
      by_cases same : name = key
      · simp [set, same]
      · simp only [set, same, ↓reduceIte, List.map_cons, List.mem_cons, ih, or_left_comm]

theorem Entries.nodup_keys_set {entries : Entries} (distinct : (entries.map Prod.fst).Nodup)
    (key : String) (value : Value) : ((entries.set key value).map Prod.fst).Nodup := by
  induction entries with
  | nil => simp [set]
  | cons entry entries ih =>
      obtain ⟨name, old⟩ := entry
      obtain ⟨unlisted, others⟩ := List.nodup_cons.mp distinct
      by_cases same : name = key
      · subst same
        simpa [set] using distinct
      · simp only [set, same, ↓reduceIte, List.map_cons, List.nodup_cons]
        refine ⟨fun listed => ?_, ih others⟩
        exact (mem_keys_set.mp listed).elim same unlisted

theorem Step.nodup_keys {entries after : Entries} {mentioned : String × Option Value}
    (step : Step entries after mentioned) (distinct : (entries.map Prod.fst).Nodup) :
    (after.map Prod.fst).Nodup := by
  cases step <;> exact Entries.nodup_keys_set distinct _ _

namespace Entries

section Step

variable {entries : Entries} {key : String} {old value : Value}

theorem step_of_absent (absent : entries.get? key = none) (opened : value.isOpen = true) :
    Step entries (entries.set key value) (key, none) := by
  refine .opens opened ?_
  intro old found
  rw [absent] at found
  cases found

theorem step_of_open (found : entries.get? key = some old) (before : old.isOpen = true)
    (opened : value.isOpen = true) : Step entries (entries.set key value) (key, none) := by
  refine .opens opened ?_
  intro other same
  rw [found] at same
  cases same
  exact before

end Step

theorem assign?_single {value : Value} {key : String} {entries after : Entries}
    (assigned : assign? value [key] entries = some after) :
    Step entries after (key, some value) := by
  simp only [assign?] at assigned
  split at assigned
  · rename_i absent
    cases assigned
    exact .sets (Option.isNone_iff_eq_none.mp absent)
  · cases assigned

/-- What a path does to a table under its first key. -/
theorem step_of_passage {passage : Passage} (lawful : passage.Lawful)
    {change : Entries → Option Entries} {key : String} {entries after : Entries}
    (changed : (passage.change? change (entries.get? key)).map (entries.set key) = some after) :
    Step entries after (key, none) := by
  obtain ⟨value, new, rfl⟩ := Option.map_eq_some_iff.mp changed
  obtain ⟨opened, before⟩ := passage.isOpen_of_change lawful new
  exact .opens opened before

theorem define?_step {key : String} {entries after : Entries}
    (defined : define? key entries = some after) : Step entries after (key, none) := by
  unfold define? at defined
  split at defined
  · rename_i absent
    cases defined
    exact step_of_absent absent rfl
  · rename_i found
    cases defined
    exact step_of_open found rfl rfl
  · cases defined

theorem append?_step {key : String} {entries after : Entries}
    (appended : append? key entries = some after) : Step entries after (key, none) := by
  unfold append? at appended
  split at appended
  · rename_i absent
    cases appended
    exact step_of_absent absent rfl
  · rename_i found
    cases appended
    exact step_of_open found rfl rfl
  · cases appended

/-- A header changes the root under the first key of its path. -/
theorem header_step {change : String → Entries → Option Entries} {path : List String}
    {root after : Entries}
    (changes : ∀ {key entries after}, change key entries = some after →
      Step entries after (key, none))
    (done : (path.getLast?.bind fun key => root.update? (change key) path.dropLast) = some after) :
    ∃ key, path.head? = some key ∧ Step root after (key, none) := by
  obtain ⟨last, found, updated⟩ := Option.bind_eq_some_iff.mp done
  cases path with
  | nil => cases found
  | cons key path =>
      refine ⟨key, rfl, ?_⟩
      cases path with
      | nil =>
          cases found
          exact changes updated
      | cons next path =>
          rw [List.dropLast_cons_cons, update?_cons] at updated
          exact step_of_passage Passage.lawful_header updated

end Entries

theorem Statement.effect?_step {statement : Statement} {header : List String}
    {root after : Entries} (done : statement.effect? header root = some after) :
    ∃ mentioned, statement.mention header = some mentioned ∧ Step root after mentioned := by
  cases statement with
  | assign path value =>
      cases header with
      | nil =>
          match path with
          | [] => cases done
          | [key] => exact ⟨_, rfl, Entries.assign?_single done⟩
          | key :: next :: path =>
              have changed := (Entries.assign?_dotted ..).symm.trans done
              exact ⟨_, rfl, Entries.step_of_passage (Passage.lawful_dotted path) changed⟩
      | cons key header =>
          have changed := (Entries.update?_cons ..).symm.trans done
          exact ⟨_, rfl, Entries.step_of_passage Passage.lawful_header changed⟩
  | table path =>
      obtain ⟨key, first, changed⟩ := Entries.header_step Entries.define?_step done
      exact ⟨_, by simp [mention, first], changed⟩
  | element path =>
      obtain ⟨key, first, changed⟩ := Entries.header_step Entries.append?_step done
      exact ⟨_, by simp [mention, first], changed⟩

/-! ## Statements in their order -/

theorem build?_append (header : List String) (root : Entries) (front back : List Statement) :
    build? header root (front ++ back) = (build? header root front).bind fun root =>
      build? (front.foldl Statement.headerBehind header) root back := by
  induction front generalizing header root with
  | nil => rfl
  | cons statement front ih =>
      simp only [List.cons_append, build?_cons, ih, Option.bind_assoc, List.foldl_cons]

/-- The last of the statements makes one step. -/
theorem exists_step_of_build_concat {statements : List Statement} {statement : Statement}
    {root after : Entries} {header : List String}
    (built : build? header root (statements ++ [statement]) = some after) :
    ∃ before mentioned, build? header root statements = some before ∧
      statement.mention (statements.foldl Statement.headerBehind header) = some mentioned ∧
      Step before after mentioned := by
  rw [build?_append] at built
  obtain ⟨before, earlier, last⟩ := Option.bind_eq_some_iff.mp built
  rw [build?_cons] at last
  obtain ⟨_, done, made⟩ := Option.bind_eq_some_iff.mp last
  cases made
  obtain ⟨mentioned, told, step⟩ := statement.effect?_step done
  exact ⟨before, mentioned, earlier, told, step⟩

theorem nodup_keys_build {statements : List Statement} {root after : Entries}
    {header : List String} (distinct : (root.map Prod.fst).Nodup)
    (built : build? header root statements = some after) : (after.map Prod.fst).Nodup := by
  induction statements using List.reverseRecOn generalizing after with
  | nil =>
      cases built
      exact distinct
  | append_singleton statements statement ih =>
      obtain ⟨before, _, earlier, _, step⟩ := exists_step_of_build_concat built
      exact step.nodup_keys (ih earlier)

end SemanticHighlight.Toml

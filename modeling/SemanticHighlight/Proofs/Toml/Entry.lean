import SemanticHighlight.Toml.Table

/-!
# Changes under one key

Statements reach a table by its path. The first key of the path is the only one that is looked up
and set anew; what happens under it is told by a passage, the conditions under which a path goes
through the table that is found there.
-/

set_option autoImplicit false

namespace SemanticHighlight.Toml

/-- Tables that statements may still add to, made by headers and dotted keys. -/
def Value.isOpen : Value → Bool
  | .table origin _ => origin ≠ .braces
  | .tableArray _ => true
  | _ => false

/-- How a path goes through a table. -/
structure Passage where
  /-- What a table is made by where there is none. -/
  fresh : Origin
  admits : Origin → Bool
  /-- Whether a path goes through the last table of an array. -/
  admitsArray : Bool

namespace Passage

/-- The way of a dotted key, with so many keys behind the next. -/
def dotted (behind : List String) : Passage where
  fresh := .dotted
  admits origin := origin = .dotted || (origin = .implied && behind ≠ [])
  admitsArray := behind ≠ []

/-- The way to the table of a header. -/
def header : Passage where
  fresh := .implied
  admits origin := origin ≠ .braces
  admitsArray := true

/-- Changes the table that is found, or one made in its place. -/
def change? (passage : Passage) (change : Entries → Option Entries) :
    Option Value → Option Value
  | none => (change []).map (.table passage.fresh)
  | some (.table origin inner) =>
      if passage.admits origin then (change inner).map (.table origin) else none
  | some (.tableArray tables) =>
      if passage.admitsArray then
        tables.getLast?.bind fun inner =>
          (change inner).map fun inner => .tableArray (tables.dropLast ++ [inner])
      else
        none
  | some _ => none

/-- What holds of each passage that a path may take. -/
structure Lawful (passage : Passage) : Prop where
  fresh : passage.admits passage.fresh = true
  closed : passage.admits .braces = false

theorem lawful_dotted (behind : List String) : (dotted behind).Lawful :=
  ⟨by simp [dotted], by simp [dotted]⟩

theorem lawful_header : header.Lawful :=
  ⟨rfl, rfl⟩

theorem Lawful.isOpen {passage : Passage} (lawful : passage.Lawful) {origin : Origin}
    (admitted : passage.admits origin = true) (inner : Entries) :
    (Value.table origin inner).isOpen = true := by
  have apart : origin ≠ .braces := by
    intro same
    rw [same, lawful.closed] at admitted
    cases admitted
  simpa [Value.isOpen] using apart

/-- Paths go through open tables alone, and leave them open. -/
theorem isOpen_of_change {passage : Passage} (lawful : passage.Lawful)
    {change : Entries → Option Entries} {found : Option Value} {value : Value}
    (changed : passage.change? change found = some value) :
    value.isOpen = true ∧ ∀ old, found = some old → old.isOpen = true := by
  unfold change? at changed
  split at changed
  · obtain ⟨inner, _, rfl⟩ := Option.map_eq_some_iff.mp changed
    exact ⟨lawful.isOpen lawful.fresh inner, nofun⟩
  · split at changed
    · rename_i admitted
      obtain ⟨inner, _, rfl⟩ := Option.map_eq_some_iff.mp changed
      refine ⟨lawful.isOpen admitted inner, ?_⟩
      intro old same
      cases same
      exact lawful.isOpen admitted _
    · cases changed
  · split at changed
    · obtain ⟨last, _, changed⟩ := Option.bind_eq_some_iff.mp changed
      obtain ⟨inner, _, rfl⟩ := Option.map_eq_some_iff.mp changed
      refine ⟨rfl, ?_⟩
      intro old same
      cases same
      rfl
    · cases changed
  · cases changed

/-- The way of two paths, one behind the other. -/
def both (first second : Passage) : Passage where
  fresh := first.fresh
  admits origin := first.admits origin && second.admits origin
  admitsArray := first.admitsArray && second.admitsArray

/-- Two changes under one key are one change of the table there. -/
theorem change?_bind {first second : Passage} (admitted : second.admits first.fresh = true)
    (change next : Entries → Option Entries) (found : Option Value) :
    (first.change? change found).bind (fun value => second.change? next (some value)) =
      (first.both second).change? (fun entries => (change entries).bind next) found := by
  match found with
  | none =>
      cases changed : change [] <;> simp [change?, both, changed, admitted]
  | some (.table origin inner) =>
      by_cases firstAdmits : first.admits origin = true
      · by_cases secondAdmits : second.admits origin = true
        · cases changed : change inner <;> simp [change?, both, firstAdmits, secondAdmits, changed]
        · cases changed : change inner <;> simp [change?, both, firstAdmits, secondAdmits, changed]
      · simp [change?, both, firstAdmits]
  | some (.tableArray tables) =>
      cases last : tables.getLast? with
      | none => simp [change?, last]
      | some inner =>
          by_cases firstAdmits : first.admitsArray = true
          · cases changed : change inner <;> simp [change?, both, firstAdmits, last, changed]
          · simp [change?, both, firstAdmits]
  | some (.text _) | some (.integer _) | some .float | some (.boolean _) | some .moment
  | some (.array _) => rfl

end Passage

namespace Entries

theorem set_set (key : String) (value next : Value) (entries : Entries) :
    (entries.set key value).set key next = entries.set key next := by
  induction entries with
  | nil => simp [set]
  | cons entry entries ih =>
      obtain ⟨name, old⟩ := entry
      by_cases same : name = key <;> simp [set, same, ih]

/-- Changes under one key, one behind the other. -/
theorem map_set_bind (key : String) (value : Option Value) (next : Option Value → Option Value)
    (entries : Entries) :
    ((value.map (entries.set key)).bind fun after => (next (after.get? key)).map (after.set key)) =
      (value.bind fun value => next (some value)).map (entries.set key) := by
  cases value with
  | none => rfl
  | some value =>
      cases changed : next (some value) <;> simp [get?_set_self, set_set, changed]

theorem assign?_dotted (value : Value) (key next : String) (path : List String)
    (entries : Entries) :
    assign? value (key :: next :: path) entries =
      ((Passage.dotted path).change? (assign? value (next :: path)) (entries.get? key)).map
        (entries.set key) := by
  rw [assign?]
  cases found : entries.get? key with
  | none => simp [Passage.change?, Passage.dotted, Function.comp_def]
  | some old =>
      cases old with
      | table origin inner =>
          by_cases extensible : origin = .dotted ∨ origin = .implied ∧ path ≠ []
          · simp [Passage.change?, Passage.dotted, Function.comp_def, extensible]
          · simp [Passage.change?, Passage.dotted, extensible]
      | tableArray tables =>
          cases last : tables.getLast? with
          | none => simp [Passage.change?, Passage.dotted, last]
          | some inner =>
              by_cases more : path = [] <;>
                simp [Passage.change?, Passage.dotted, Function.comp_def, last, more]
      | _ => rfl

/-- What an assignment does under the first key of its path, told by the keys behind it. -/
def under? (value : Value) : List String → Option Value → Option Value
  | [], none => some value
  | [], some _ => none
  | next :: path, found => (Passage.dotted path).change? (assign? value (next :: path)) found

theorem assign?_cons (value : Value) (key : String) (path : List String) (entries : Entries) :
    assign? value (key :: path) entries =
      (under? value path (entries.get? key)).map (entries.set key) := by
  cases path with
  | nil => cases found : entries.get? key <;> simp [assign?, under?, found]
  | cons next path => exact assign?_dotted value key next path entries

theorem update?_cons (change : Entries → Option Entries) (key : String) (path : List String)
    (entries : Entries) :
    update? change (key :: path) entries =
      (Passage.header.change? (update? change path) (entries.get? key)).map (entries.set key) := by
  rw [update?]
  cases found : entries.get? key with
  | none => simp [Passage.change?, Passage.header, Function.comp_def]
  | some old =>
      cases old with
      | table origin inner =>
          cases origin <;> simp [Passage.change?, Passage.header, Function.comp_def]
      | tableArray tables =>
          cases last : tables.getLast? <;>
            simp [Passage.change?, Passage.header, Function.comp_def, last]
      | _ => rfl

/-- Two changes of the table of one header are one change. -/
theorem update?_bind (change next : Entries → Option Entries) (path : List String)
    (entries : Entries) :
    (update? change path entries).bind (update? next path) =
      update? (fun entries => (change entries).bind next) path entries := by
  induction path generalizing entries with
  | nil => rfl
  | cons key path ih =>
      have whole : Passage.header.both Passage.header = Passage.header := by
        simp [Passage.both, Passage.header]
      have goesOn : update? next (key :: path) = fun after =>
          (Passage.header.change? (update? next path) (after.get? key)).map (after.set key) :=
        funext (update?_cons next key path)
      rw [update?_cons, goesOn, map_set_bind key _ (Passage.header.change? (update? next path)),
        Passage.change?_bind Passage.lawful_header.fresh, whole, funext ih, update?_cons]

end Entries

end SemanticHighlight.Toml

import SemanticHighlight.Proofs.Toml.Root

/-!
# The order of keys

Two assignments behind one header may be exchanged. The tables that are built then may list their
keys in another order, and nothing that is done with them later depends on it.
-/

set_option autoImplicit false

namespace SemanticHighlight.Toml

/-! ## Tables that differ in the order of their keys -/

/-- What is found in two tables under one key, where the tables below may differ in the order of
their keys. Of an array of tables only the last one is compared, the others are out of reach. -/
inductive Alike : Option Value → Option Value → Prop where
  | same (found : Option Value) : Alike found found
  | table {origin : Origin} {entries others : Entries}
      (inner : ∀ key, Alike (entries.get? key) (others.get? key)) :
      Alike (some (.table origin entries)) (some (.table origin others))
  | tables {tables rest : List Entries} {entries others : Entries}
      (last : tables.getLast? = some entries) (otherLast : rest.getLast? = some others)
      (inner : ∀ key, Alike (entries.get? key) (others.get? key)) :
      Alike (some (.tableArray tables)) (some (.tableArray rest))

def AlikeValues (value other : Value) : Prop :=
  Alike (some value) (some other)

def AlikeTables (entries others : Entries) : Prop :=
  ∀ key, Alike (entries.get? key) (others.get? key)

theorem AlikeTables.refl (entries : Entries) : AlikeTables entries entries :=
  fun _ => .same _

theorem AlikeTables.set {entries others : Entries} {value other : Value}
    (alike : AlikeTables entries others) (values : AlikeValues value other) (key : String) :
    AlikeTables (entries.set key value) (others.set key other) := by
  intro asked
  by_cases same : asked = key
  · subst same
    rw [Entries.get?_set_self, Entries.get?_set_self]
    exact values
  · simpa only [Entries.get?_set_of_ne _ same] using alike asked

theorem Alike.isNone {found other : Option Value} (alike : Alike found other) :
    found.isNone = other.isNone := by
  cases alike <;> rfl

/-- Related results stay related under related functions. -/
theorem Rel.map {α β γ δ : Type} {related : α → β → Prop} {made : γ → δ → Prop} {f : α → γ}
    {g : β → δ} {first : Option α} {second : Option β} (both : Option.Rel related first second)
    (keeps : ∀ {a b}, related a b → made (f a) (g b)) :
    Option.Rel made (first.map f) (second.map g) := by
  cases both with
  | none => exact .none
  | some held => exact .some (keeps held)

theorem Rel.isSome {α β : Type} {related : α → β → Prop} {first : Option α} {second : Option β}
    (both : Option.Rel related first second) : first.isSome = second.isSome := by
  cases both <;> rfl

theorem Rel.bind {α β γ δ : Type} {related : α → β → Prop} {made : γ → δ → Prop}
    {f : α → Option γ} {g : β → Option δ} {first : Option α} {second : Option β}
    (both : Option.Rel related first second)
    (keeps : ∀ {a b}, related a b → Option.Rel made (f a) (g b)) :
    Option.Rel made (first.bind f) (second.bind g) := by
  cases both with
  | none => exact .none
  | some held => exact keeps held

/-! ## What statements do to such tables -/

namespace Passage

variable {passage : Passage} {change other : Entries → Option Entries}

theorem change?_same (agree : ∀ entries, Option.Rel AlikeTables (change entries) (other entries))
    (found : Option Value) :
    Option.Rel AlikeValues (passage.change? change found) (passage.change? other found) := by
  unfold change?
  split
  · exact Rel.map (agree []) .table
  · split
    · exact Rel.map (agree _) .table
    · exact .none
  · split
    · rename_i tables _
      cases last : tables.getLast? with
      | none => exact .none
      | some inner =>
          exact Rel.map (agree inner) (.tables List.getLast?_concat List.getLast?_concat)
    · exact .none
  · exact .none

theorem change?_congr
    (agree : ∀ {entries others}, AlikeTables entries others →
      Option.Rel AlikeTables (change entries) (other others))
    {found also : Option Value} (alike : Alike found also) :
    Option.Rel AlikeValues (passage.change? change found) (passage.change? other also) := by
  cases alike with
  | same => exact change?_same (fun entries => agree (.refl entries)) _
  | @table origin entries others inner =>
      simp only [change?]
      split
      · exact Rel.map (agree inner) .table
      · exact .none
  | @tables tables rest entries others last otherLast inner =>
      simp only [change?, last, otherLast, Option.bind_some]
      split
      · exact Rel.map (agree inner) (.tables List.getLast?_concat List.getLast?_concat)
      · exact .none

end Passage

namespace Entries

/-- Entries that agree under the key that is set, and are alike otherwise, are alike. -/
theorem set_congr {entries others : Entries} (alike : AlikeTables entries others) (key : String)
    {value other : Option Value} (values : Option.Rel AlikeValues value other) :
    Option.Rel AlikeTables (value.map (entries.set key)) (other.map (others.set key)) := by
  cases values with
  | none => exact .none
  | some held => exact .some (alike.set held key)

theorem assign?_congr {entries others : Entries} (value : Value) (path : List String)
    (alike : AlikeTables entries others) :
    Option.Rel AlikeTables (assign? value path entries) (assign? value path others) := by
  induction path generalizing entries others with
  | nil => exact .none
  | cons key path ih =>
      rw [assign?_cons, assign?_cons]
      refine set_congr alike key ?_
      cases path with
      | nil =>
          have absent := (alike key).isNone
          cases found : entries.get? key <;> cases also : others.get? key <;>
            simp only [found, also, Option.isNone_none, Option.isNone_some, reduceCtorEq] at absent
          · exact .some (.same _)
          · exact .none
      | cons next path => exact Passage.change?_congr ih (alike key)

theorem update?_congr {change other : Entries → Option Entries}
    (agree : ∀ {entries others}, AlikeTables entries others →
      Option.Rel AlikeTables (change entries) (other others))
    (path : List String) {entries others : Entries} (alike : AlikeTables entries others) :
    Option.Rel AlikeTables (update? change path entries) (update? other path others) := by
  induction path generalizing entries others with
  | nil => exact agree alike
  | cons key path ih =>
      rw [update?_cons, update?_cons]
      exact set_congr alike key (Passage.change?_congr ih (alike key))

theorem update?_same {change other : Entries → Option Entries}
    (agree : ∀ entries, Option.Rel AlikeTables (change entries) (other entries))
    (path : List String) (entries : Entries) :
    Option.Rel AlikeTables (update? change path entries) (update? other path entries) := by
  induction path generalizing entries with
  | nil => exact agree entries
  | cons key path ih =>
      rw [update?_cons, update?_cons]
      exact set_congr (.refl entries) key (Passage.change?_same ih _)

theorem define?_congr {entries others : Entries} (key : String)
    (alike : AlikeTables entries others) :
    Option.Rel AlikeTables (define? key entries) (define? key others) := by
  have under := alike key
  unfold define?
  generalize entries.get? key = found at under
  generalize others.get? key = also at under
  cases under with
  | same =>
      split
      · exact .some (alike.set (.same _) key)
      · exact .some (alike.set (.same _) key)
      · exact .none
  | @table origin inner innerOther innerAlike =>
      cases origin with
      | implied => exact .some (alike.set (.table innerAlike) key)
      | header | dotted | braces => exact .none
  | tables => exact .none

theorem append?_congr {entries others : Entries} (key : String)
    (alike : AlikeTables entries others) :
    Option.Rel AlikeTables (append? key entries) (append? key others) := by
  have under := alike key
  unfold append?
  generalize entries.get? key = found at under
  generalize others.get? key = also at under
  cases under with
  | same =>
      split
      · exact .some (alike.set (.same _) key)
      · exact .some (alike.set (.same _) key)
      · exact .none
  | table => exact .none
  | @tables tables rest =>
      have added : AlikeValues (.tableArray (tables ++ [[]])) (.tableArray (rest ++ [[]])) :=
        .tables List.getLast?_concat List.getLast?_concat (AlikeTables.refl [])
      exact .some (alike.set added key)

end Entries

theorem Statement.effect?_congr (statement : Statement) (header : List String)
    {root other : Entries} (alike : AlikeTables root other) :
    Option.Rel AlikeTables (statement.effect? header root) (statement.effect? header other) := by
  cases statement with
  | assign path value => exact Entries.update?_congr (Entries.assign?_congr value path) header alike
  | table path =>
      simp only [effect?]
      cases path.getLast? with
      | none => exact .none
      | some key => exact Entries.update?_congr (Entries.define?_congr key) path.dropLast alike
  | element path =>
      simp only [effect?]
      cases path.getLast? with
      | none => exact .none
      | some key => exact Entries.update?_congr (Entries.append?_congr key) path.dropLast alike

theorem build?_congr (statements : List Statement) (header : List String) {root other : Entries}
    (alike : AlikeTables root other) :
    Option.Rel AlikeTables (build? header root statements) (build? header other statements) := by
  induction statements generalizing header root other with
  | nil => exact .some alike
  | cons statement statements ih =>
      rw [build?_cons, build?_cons]
      exact Rel.bind (statement.effect?_congr header alike) (ih _)

/-! ## Assignments in another order -/

namespace Entries

/-- Changes under different keys do not meet. -/
theorem set_comm_of_ne {key next : String} (apart : key ≠ next) (value other : Value)
    (entries : Entries) :
    AlikeTables ((entries.set key value).set next other)
      ((entries.set next other).set key value) := by
  intro asked
  have same : ((entries.set key value).set next other).get? asked =
      ((entries.set next other).set key value).get? asked := by
    by_cases first : asked = key
    · subst first
      rw [get?_set_of_ne _ apart, get?_set_self, get?_set_self]
    · rw [get?_set_of_ne _ first]
      by_cases second : asked = next
      · subst second
        rw [get?_set_self, get?_set_self]
      · rw [get?_set_of_ne _ second, get?_set_of_ne _ first, get?_set_of_ne _ second]
  rw [same]
  exact .same _

theorem map_set_comm_of_ne {key next : String} (apart : key ≠ next)
    (change other : Option Value → Option Value) (entries : Entries) :
    Option.Rel AlikeTables
      (((change (entries.get? key)).map (entries.set key)).bind fun after =>
        (other (after.get? next)).map (after.set next))
      (((other (entries.get? next)).map (entries.set next)).bind fun after =>
        (change (after.get? key)).map (after.set key)) := by
  cases first : change (entries.get? key) <;> cases second : other (entries.get? next) <;>
    simp only [Option.map_none, Option.map_some, Option.bind_none, Option.bind_some,
      get?_set_of_ne _ apart, get?_set_of_ne _ apart.symm, first, second]
  · exact .none
  · exact .none
  · exact .none
  · exact .some (set_comm_of_ne apart _ _ entries)

/-- No path goes on through a closed value. -/
theorem under?_closed {value old : Value} (closed : old.isOpen = false) (next : String)
    (path : List String) : under? value (next :: path) (some old) = none := by
  cases changed : under? value (next :: path) (some old) with
  | none => rfl
  | some new =>
      have before := (Passage.isOpen_of_change (Passage.lawful_dotted path) changed).2 old rfl
      rw [closed] at before
      cases before

theorem under?_nil_comm {value : Value} (other : Value) (closed : value.isOpen = false)
    (next : List String) (found : Option Value) :
    ((under? value [] found).bind fun new => under? other next (some new)) = none ∧
      ((under? other next found).bind fun new => under? value [] (some new)) = none := by
  refine ⟨?_, Option.bind_fun_none _⟩
  cases found with
  | some old => rfl
  | none =>
      cases next with
      | nil => rfl
      | cons key next => exact under?_closed closed key next

/-- Two assignments under one key may be exchanged if those of what is behind the key may. -/
theorem under?_comm {value other : Value} (closed : value.isOpen = false)
    (otherClosed : other.isOpen = false) {path next : List String}
    (agree : ∀ entries, Option.Rel AlikeTables
      ((assign? value path entries).bind (assign? other next))
      ((assign? other next entries).bind (assign? value path)))
    (found : Option Value) :
    Option.Rel AlikeValues ((under? value path found).bind fun new => under? other next (some new))
      ((under? other next found).bind fun new => under? value path (some new)) := by
  match path, next with
  | [], next =>
      obtain ⟨first, second⟩ := under?_nil_comm other closed next found
      rw [first, second]
      exact .none
  | path, [] =>
      obtain ⟨first, second⟩ := under?_nil_comm value otherClosed path found
      rw [first, second]
      exact .none
  | key :: path, last :: next =>
      have admitted : ∀ behind, (Passage.dotted behind).admits .dotted = true := fun behind =>
        (Passage.lawful_dotted behind).fresh
      have whole : (Passage.dotted path).both (.dotted next) =
          (Passage.dotted next).both (.dotted path) := by
        simp [Passage.both, Passage.dotted, Bool.and_comm]
      simp only [under?]
      rw [Passage.change?_bind (admitted next), Passage.change?_bind (admitted path), whole]
      exact Passage.change?_same agree found

theorem assign?_comm {value other : Value} (closed : value.isOpen = false)
    (otherClosed : other.isOpen = false) (path next : List String) (entries : Entries) :
    Option.Rel AlikeTables ((assign? value path entries).bind (assign? other next))
      ((assign? other next entries).bind (assign? value path)) := by
  induction path generalizing next entries with
  | nil =>
      have never : ((assign? other next entries).bind (assign? value [])) = none :=
        Option.bind_fun_none _
      rw [never]
      exact .none
  | cons key path ih =>
      cases next with
      | nil =>
          have never : ((assign? value (key :: path) entries).bind (assign? other [])) = none :=
            Option.bind_fun_none _
          rw [never]
          exact .none
      | cons first next =>
          have goesOn : ∀ value key path, assign? value (key :: path) = fun entries =>
              (under? value path (entries.get? key)).map (entries.set key) :=
            fun value key path => funext (assign?_cons value key path)
          simp only [goesOn]
          by_cases same : key = first
          · subst same
            rw [map_set_bind key _ (under? other next), map_set_bind key _ (under? value path)]
            exact set_congr (.refl entries) key (under?_comm closed otherClosed (ih next) _)
          · exact map_set_comm_of_ne same (under? value path) (under? other next) entries

end Entries

theorem build?_swap {value other : Value} (closed : value.isOpen = false)
    (otherClosed : other.isOpen = false) (path next header : List String) (root : Entries)
    (statements : List Statement) :
    Option.Rel AlikeTables
      (build? header root (.assign path value :: .assign next other :: statements))
      (build? header root (.assign next other :: .assign path value :: statements)) := by
  have both : ∀ value path other next,
      build? header root (.assign path value :: .assign next other :: statements) =
        (root.update? (fun entries =>
            (entries.assign? value path).bind (Entries.assign? other next)) header).bind
          fun root => build? header root statements := by
    intro value path other next
    rw [← Entries.update?_bind, Option.bind_assoc]
    rfl
  rw [both, both]
  refine Rel.bind ?_ (build?_congr statements header)
  exact Entries.update?_same (Entries.assign?_comm closed otherClosed path next) header root

end SemanticHighlight.Toml

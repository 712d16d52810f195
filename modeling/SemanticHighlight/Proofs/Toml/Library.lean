import SemanticHighlight.Proofs.Record
import SemanticHighlight.Proofs.Toml.Lines
import SemanticHighlight.Proofs.Toml.Order
import SemanticHighlight.Toml.Library

/-!
# What is assumed of a TOML library

A library reads the texts of a language, records as their documentation says, and flags and lists of
names from values of these kinds and of no other. The library that runs does so, with the language
of its grammar and of its way to build tables.
-/

set_option autoImplicit false

namespace SemanticHighlight.Toml

/-- What the documentation says of the language, and of each thing that is read. -/
structure Library.Documented (library : Library) (language : Language) : Prop where
  grammar : language.Documented
  records : library.records.Documented
  /-- A text is read as what the language makes of its statements, and not at all if it has none. -/
  read_laidOut : ∀ statements text, language.LaidOut statements text →
    library.read? text = language.build? statements
  read_other : ∀ text, (∀ statements, ¬ language.LaidOut statements text) →
    library.read? text = none
  flag_iff : ∀ value flag, library.flag? value = some flag ↔ value = .boolean flag
  names_iff : ∀ value names, library.names? value = some names ↔
    ∃ list : List String, names = some list ∧ value = .array (list.map .text)

theorem Library.Documented.read_iff {library : Library} {language : Language}
    (documented : library.Documented language) {text : String} {root : Entries} :
    library.read? text = some root ↔ language.Reads text root := by
  constructor
  · intro read
    by_cases laidOut : ∃ statements, language.LaidOut statements text
    · obtain ⟨statements, laidOut⟩ := laidOut
      exact ⟨statements, laidOut, (documented.read_laidOut _ _ laidOut).symm.trans read⟩
    · rw [documented.read_other text (not_exists.mp laidOut)] at read
      cases read
  · intro reads
    obtain ⟨statements, laidOut, built⟩ := reads
    exact (documented.read_laidOut _ _ laidOut).trans built

/-! ## Root tables as records -/

namespace Entries

theorem get?_eq_none {entries : Entries} {key : String} (unlisted : key ∉ entries.map Prod.fst) :
    entries.get? key = none := by
  induction entries with
  | nil => rfl
  | cons entry entries ih =>
      obtain ⟨name, value⟩ := entry
      rw [List.map_cons, List.mem_cons, not_or] at unlisted
      rw [get?, if_neg (Ne.symm unlisted.1), ih unlisted.2]

/-- What is given for a field is the one value at its key, as keys are not there twice. -/
theorem given_eq_toList {entries : Entries} (distinct : (entries.map Prod.fst).Nodup)
    (key : String) : Shape.given key entries = (entries.get? key).toList := by
  induction entries with
  | nil => rfl
  | cons entry entries ih =>
      obtain ⟨name, value⟩ := entry
      obtain ⟨unlisted, others⟩ := List.nodup_cons.mp distinct
      by_cases same : name = key
      · subst same
        rw [Shape.given_cons_self, ih others, get?_eq_none unlisted, get?, if_pos rfl]
        rfl
      · rw [Shape.given_cons_of_ne same, ih others, get?, if_neg same]

end Entries

/-! ## Values without others -/

theorem isOpen_of_readMoment {chars : List Char} {result : Value × List Char}
    (found : readMoment? chars = some result) : result.1.isOpen = false := by
  unfold readMoment? at found
  split at found
  · cases found
    rfl
  · obtain ⟨_, _, rfl⟩ := Option.map_eq_some_iff.mp found
    rfl

theorem isOpen_of_readBased {base : Nat} {chars : List Char} {result : Value × List Char}
    (found : readBased? base chars = some result) : result.1.isOpen = false := by
  unfold readBased? at found
  obtain ⟨_, _, bounded⟩ := Option.bind_eq_some_iff.mp found
  obtain ⟨_, _, made⟩ := Option.bind_eq_some_iff.mp bounded
  cases made
  rfl

theorem isOpen_of_readDecimal {negative : Bool} {chars : List Char} {result : Value × List Char}
    (found : readDecimal? negative chars = some result) : result.1.isOpen = false := by
  unfold readDecimal? at found
  obtain ⟨_, _, behindWhole⟩ := Option.bind_eq_some_iff.mp found
  obtain ⟨_, _, behindFraction⟩ := Option.bind_eq_some_iff.mp behindWhole
  obtain ⟨_, _, bounded⟩ := Option.bind_eq_some_iff.mp behindFraction
  simp only at bounded
  split at bounded
  all_goals
    obtain ⟨_, _, made⟩ := Option.bind_eq_some_iff.mp bounded
    cases made
    rfl

theorem isOpen_of_readNumber {chars : List Char} {result : Value × List Char}
    (found : readNumber? chars = some result) : result.1.isOpen = false := by
  unfold readNumber? at found
  split at found
  · exact isOpen_of_readBased found
  · exact isOpen_of_readBased found
  · exact isOpen_of_readBased found
  · simp only at found
    split at found
    · cases found
      rfl
    · cases found
      rfl
    · exact isOpen_of_readDecimal found

theorem isOpen_of_readScalar {chars : List Char} {result : Value × List Char}
    (found : readScalar? chars = some result) : result.1.isOpen = false := by
  unfold readScalar? at found
  split at found
  · cases found
    rfl
  · cases found
    rfl
  · cases quoted : readText? chars with
    | some read =>
        rw [quoted] at found
        cases found
        rfl
    | none =>
        rw [quoted] at found
        cases dated : readMoment? chars with
        | some moment =>
            rw [dated] at found
            cases found
            exact isOpen_of_readMoment dated
        | none =>
            rw [dated] at found
            exact isOpen_of_readNumber found

/-! ## The library that runs -/

def language : Language where
  toLexicon := lexicon
  build? := build? [] []

theorem documented_language : language.Documented where
  scalar_closed _ _ spelled := isOpen_of_readScalar (spelled [] endsValue_nil)
  build_nil := rfl
  build_concat := by
    intro statements statement after built
    obtain ⟨before, mentioned, earlier, told, step⟩ := exists_step_of_build_concat built
    exact ⟨before, mentioned, earlier, told, step.change⟩
  build_distinct := by
    intro statements root built
    have distinct : (([] : Entries).map Prod.fst).Nodup := List.nodup_nil
    exact nodup_keys_build distinct built
  build_exchange := by
    intro front path value next other back closed otherClosed
    simp only [language, build?_append]
    cases build? [] [] front with
    | none => rfl
    | some root => exact Rel.isSome (build?_swap closed otherClosed path next _ root back)

theorem mapM_nameOf?_eq_some_iff {items : List Value} {names : List String} :
    items.mapM nameOf? = some names ↔ items = names.map .text := by
  induction items generalizing names with
  | nil => cases names <;> simp
  | cons item items ih =>
      simp only [List.mapM_cons, Option.bind_eq_bind, Option.bind_eq_some_iff, ih]
      constructor
      · intro read
        obtain ⟨name, named, others, rfl, made⟩ := read
        cases made
        unfold nameOf? at named
        split at named
        · cases named
          rfl
        · cases named
      · intro whole
        cases names with
        | nil => cases whole
        | cons name names =>
            cases whole
            exact ⟨name, rfl, names, rfl, rfl⟩

theorem flag?_eq_some_iff {value : Value} {flag : Bool} :
    flag? value = some flag ↔ value = .boolean flag := by
  cases value <;> simp [flag?]

theorem names?_eq_some_iff {value : Value} {names : Option (List String)} :
    names? value = some names ↔
      ∃ list : List String, names = some list ∧ value = .array (list.map .text) := by
  cases value with
  | array items =>
      simp only [names?, Option.map_eq_some_iff, mapM_nameOf?_eq_some_iff, Value.array.injEq]
      constructor
      · intro read
        obtain ⟨list, whole, made⟩ := read
        exact ⟨list, made.symm, whole⟩
      · intro given
        obtain ⟨list, made, whole⟩ := given
        exact ⟨list, whole, made.symm⟩
  | _ => simp [names?]

theorem documented_library : library.Documented language where
  grammar := documented_language
  records := RecordReader.documented_tracking
  read_laidOut _ _ laidOut := laidOut.parse?
  read_other := by
    intro text other
    rw [Option.eq_none_iff_forall_ne_some]
    intro root read
    obtain ⟨statements, laidOut, _⟩ := parse?_eq_some_iff.mp read
    exact other statements laidOut
  flag_iff _ _ := flag?_eq_some_iff
  names_iff _ _ := names?_eq_some_iff

end SemanticHighlight.Toml

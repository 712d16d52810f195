import Mathlib
import SemanticHighlight.Proofs.Toml.Library
import SemanticHighlight.Settings.Source
import SemanticHighlight.Workspace

/-!
# Settings override the standard ones

A text sets the settings whose keys it has at its root and leaves all others as they are in the
standard settings. It is refused if it is no TOML, or if a setting has a value of a wrong kind, and
nothing else in it makes a difference. This holds with every library that does what is documented.
-/

set_option autoImplicit false

namespace SemanticHighlight.Settings

open Toml (Entries Value)

/-! ## Settings and root keys -/

def flagKeys : List String :=
  ["enabled", "full", "delta", "range"]

def nameKeys : List String :=
  ["token_types", "token_modifiers"]

/-- The flag that is set by what is found under a key, the standard one if there is nothing. -/
inductive Flag (standard : Bool) : Option Value → Bool → Prop where
  | standard : Flag standard none standard
  | given (flag : Bool) : Flag standard (some (.boolean flag)) flag

/-- The names that are set by what is found under a key, if there is anything. -/
inductive Names : Option Value → Option (List String) → Prop where
  | standard : Names none none
  | given (names : List String) : Names (some (.array (names.map .text))) (some names)

/-- The settings are those at the root, and the standard ones where there are none. -/
structure Override (root : Entries) (settings : Settings) : Prop where
  enabled : Flag standard.enabled (root.get? "enabled") settings.enabled
  full : Flag standard.full (root.get? "full") settings.full
  delta : Flag standard.delta (root.get? "delta") settings.delta
  range : Flag standard.range (root.get? "range") settings.range
  tokenTypes : Names (root.get? "token_types") settings.tokenTypes
  tokenModifiers : Names (root.get? "token_modifiers") settings.tokenModifiers

/-- The names that a legend lists, those found under a key or the standard ones. -/
inductive Listed {α : Type} (make : String → α) (standard : List α) :
    Option Value → List α → Prop where
  | standard : Listed make standard none standard
  | given (names : List String) :
      Listed make standard (some (.array (names.map .text))) (names.map make)

/-- A setting has a value of a wrong kind. -/
inductive Misfit (root : Entries) : Prop where
  | flag {key : String} {value : Value} (setting : key ∈ flagKeys)
      (found : root.get? key = some value) (wrong : ∀ flag, value ≠ .boolean flag) : Misfit root
  | names {key : String} {value : Value} (setting : key ∈ nameKeys)
      (found : root.get? key = some value)
      (wrong : ∀ names : List String, value ≠ .array (names.map .text)) : Misfit root

variable {library : Toml.Library} {language : Toml.Language}

section Keys

variable (documented : library.Documented language)

include documented

theorem flag_iff {found : Option Value} {absent flag : Bool} :
    found.elim (some absent) library.flag? = some flag ↔ Flag absent found flag := by
  constructor
  · intro taken
    cases found with
    | none =>
        cases taken
        exact .standard
    | some value =>
        cases (documented.flag_iff value flag).mp taken
        exact .given flag
  · intro fits
    cases fits with
    | standard => rfl
    | given => exact (documented.flag_iff _ flag).mpr rfl

theorem names_iff {found : Option Value} {names : Option (List String)} :
    found.elim (some none) library.names? = some names ↔ Names found names := by
  constructor
  · intro taken
    cases found with
    | none =>
        cases taken
        exact .standard
    | some value =>
        obtain ⟨list, given, whole⟩ := (documented.names_iff value names).mp taken
        cases given
        cases whole
        exact .given list
  · intro fits
    cases fits with
    | standard => rfl
    | given list => exact (documented.names_iff _ _).mpr ⟨list, rfl, rfl⟩

end Keys

theorem find?_eq_elim {root : Entries} (distinct : (root.map Prod.fst).Nodup)
    (field : shape.Field) :
    Shape.find? (readers library) field root =
      (root.get? (shape.key field)).elim (shape.standard? field)
        ((readers library).read? field) := by
  rw [Shape.find?, Entries.given_eq_toList distinct]
  cases root.get? (shape.key field) <;> rfl

theorem strict_readers : (readers library).Strict := by
  intro field
  cases field <;> rfl

theorem ofTable?_eq_some_iff (documented : library.Documented language) {root : Entries}
    (distinct : (root.map Prod.fst).Nodup) {settings : Settings} :
    ofTable? library root = some settings ↔ Override root settings := by
  have tracks := documented.records shape (readers library)
  rw [ofTable?, RecordReader.object?_eq_some_iff tracks strict_readers]
  simp only [find?_eq_elim distinct]
  constructor
  · intro taken
    exact {
      enabled := (flag_iff documented).mp (taken Field.enabled)
      full := (flag_iff documented).mp (taken Field.full)
      delta := (flag_iff documented).mp (taken Field.delta)
      range := (flag_iff documented).mp (taken Field.range)
      tokenTypes := (names_iff documented).mp (taken Field.tokenTypes)
      tokenModifiers := (names_iff documented).mp (taken Field.tokenModifiers) }
  · intro override field
    cases field with
    | enabled => exact (flag_iff documented).mpr override.enabled
    | full => exact (flag_iff documented).mpr override.full
    | delta => exact (flag_iff documented).mpr override.delta
    | range => exact (flag_iff documented).mpr override.range
    | tokenTypes => exact (names_iff documented).mpr override.tokenTypes
    | tokenModifiers => exact (names_iff documented).mpr override.tokenModifiers

namespace Override

variable {root : Entries} {settings : Settings}

theorem exists_flag (override : Override root settings) {key : String} (setting : key ∈ flagKeys) :
    ∃ standard flag, Flag standard (root.get? key) flag := by
  simp only [flagKeys, List.mem_cons, List.not_mem_nil, or_false] at setting
  rcases setting with rfl | rfl | rfl | rfl
  · exact ⟨_, _, override.enabled⟩
  · exact ⟨_, _, override.full⟩
  · exact ⟨_, _, override.delta⟩
  · exact ⟨_, _, override.range⟩

theorem exists_names (override : Override root settings) {key : String}
    (setting : key ∈ nameKeys) : ∃ names, Names (root.get? key) names := by
  simp only [nameKeys, List.mem_cons, List.not_mem_nil, or_false] at setting
  cases setting with
  | inl same => exact ⟨_, same ▸ override.tokenTypes⟩
  | inr same => exact ⟨_, same ▸ override.tokenModifiers⟩

theorem not_misfit (override : Override root settings) : ¬ Misfit root := by
  intro misfit
  cases misfit with
  | flag setting found wrong =>
      obtain ⟨_, flag, fits⟩ := override.exists_flag setting
      rw [found] at fits
      cases fits with
      | given => exact wrong flag rfl
  | names setting found wrong =>
      obtain ⟨_, fits⟩ := override.exists_names setting
      rw [found] at fits
      cases fits with
      | given names => exact wrong names rfl

end Override

/-- There are settings unless there is a misfit. -/
theorem exists_override {root : Entries} (fits : ¬ Misfit root) :
    ∃ settings, Override root settings := by
  have flag : ∀ key ∈ flagKeys, ∀ standard, ∃ flag, Flag standard (root.get? key) flag := by
    intro key setting standard
    cases found : root.get? key with
    | none => exact ⟨standard, .standard⟩
    | some value =>
        by_cases right : ∃ flag, value = .boolean flag
        · obtain ⟨flag, rfl⟩ := right
          exact ⟨flag, .given flag⟩
        · exact absurd (.flag setting found fun flag same => right ⟨flag, same⟩) fits
  have names : ∀ key ∈ nameKeys, ∃ names, Names (root.get? key) names := by
    intro key setting
    cases found : root.get? key with
    | none => exact ⟨none, .standard⟩
    | some value =>
        by_cases right : ∃ names : List String, value = .array (names.map .text)
        · obtain ⟨names, rfl⟩ := right
          exact ⟨some names, .given names⟩
        · exact absurd (.names setting found fun names same => right ⟨names, same⟩) fits
  obtain ⟨_, enabled⟩ := flag "enabled" (by decide) standard.enabled
  obtain ⟨_, full⟩ := flag "full" (by decide) standard.full
  obtain ⟨_, delta⟩ := flag "delta" (by decide) standard.delta
  obtain ⟨_, range⟩ := flag "range" (by decide) standard.range
  obtain ⟨_, types⟩ := names "token_types" (by decide)
  obtain ⟨_, modifiers⟩ := names "token_modifiers" (by decide)
  exact ⟨⟨_, _, _, _, _, _⟩, enabled, full, delta, range, types, modifiers⟩

/-! ## What makes no difference -/

section Texts

variable (documented : library.Documented language)

include documented

theorem ofTable?_eq_none_iff {root : Entries} (distinct : (root.map Prod.fst).Nodup) :
    ofTable? library root = none ↔ Misfit root := by
  constructor
  · intro refused
    by_cases misfit : Misfit root
    · exact misfit
    · obtain ⟨settings, override⟩ := exists_override misfit
      rw [(ofTable?_eq_some_iff documented distinct).mpr override] at refused
      cases refused
  · intro misfit
    cases read : ofTable? library root with
    | none => rfl
    | some settings =>
        exact absurd misfit ((ofTable?_eq_some_iff documented distinct).mp read).not_misfit

theorem read?_of_isOpen {value : Value} (opened : value.isOpen = true) (field : shape.Field) :
    (readers library).read? field value = none := by
  have noFlag : library.flag? value = none := by
    rw [Option.eq_none_iff_forall_ne_some]
    intro flag read
    cases (documented.flag_iff _ _).mp read
    cases opened
  have noNames : library.names? value = none := by
    rw [Option.eq_none_iff_forall_ne_some]
    intro names read
    obtain ⟨_, _, rfl⟩ := (documented.names_iff _ _).mp read
    cases opened
  cases field with
  | enabled | full | delta | range => exact noFlag
  | tokenTypes | tokenModifiers => exact noNames

theorem ofTable?_congr {root other : Entries} (distinct : (root.map Prod.fst).Nodup)
    (otherDistinct : (other.map Prod.fst).Nodup)
    (agree : ∀ key ∈ flagKeys ++ nameKeys, ∀ told,
      root.Holds (key, told) ↔ other.Holds (key, told)) :
    ofTable? library root = ofTable? library other := by
  have tracks := documented.records shape (readers library)
  refine RecordReader.object?_congr tracks strict_readers fun field => ?_
  have setting : shape.key field ∈ flagKeys ++ nameKeys := by
    cases field <;> decide
  rw [find?_eq_elim distinct, find?_eq_elim otherDistinct]
  cases Entries.get?_of_holds_iff (agree _ setting) with
  | inl same => rw [same]
  | inr tables =>
      obtain ⟨value, also, found, otherFound, opened, otherOpened⟩ := tables
      rw [found, otherFound, Option.elim_some, Option.elim_some,
        read?_of_isOpen documented opened, read?_of_isOpen documented otherOpened]

/-! ## Texts -/

theorem nodup_keys_of_reads {text : String} {root : Entries} (reads : language.Reads text root) :
    (root.map Prod.fst).Nodup := by
  obtain ⟨statements, _, built⟩ := reads
  exact documented.grammar.build_distinct statements root built

theorem ofTextWith_eq_ok_iff {text : String} {settings : Settings} :
    ofTextWith library text = .ok settings ↔
      ∃ root, language.Reads text root ∧ Override root settings := by
  simp only [← documented.read_iff]
  unfold ofTextWith
  cases read : library.read? text with
  | none => simp
  | some root =>
      have distinct := nodup_keys_of_reads documented (documented.read_iff.mp read)
      simp only [Option.bind_some, Option.some.injEq, exists_eq_left',
        ← ofTable?_eq_some_iff documented distinct]
      cases ofTable? library root <;> simp

theorem ofTextWith_eq_error_iff {text : String} {fault : SettingsFault} :
    ofTextWith library text = .error fault ↔ fault = .invalid ∧
      ((∀ root, ¬ language.Reads text root) ∨ ∃ root, language.Reads text root ∧ Misfit root) := by
  simp only [← documented.read_iff]
  unfold ofTextWith
  cases read : library.read? text with
  | none => simp [eq_comm]
  | some root =>
      have distinct := nodup_keys_of_reads documented (documented.read_iff.mp read)
      simp only [Option.bind_some, Option.some.injEq, exists_eq_left',
        ← ofTable?_eq_none_iff documented distinct]
      cases ofTable? library root <;> simp [eq_comm]

/-- Of two texts that can be read, only what their statements tell of the settings counts. -/
theorem ofTextWith_congr {text other : String} {statements others : List Toml.Statement}
    (laidOut : language.LaidOut statements text) (otherLaidOut : language.LaidOut others other)
    (readable : (language.build? statements).isSome = (language.build? others).isSome)
    (agree : ∀ key ∈ flagKeys ++ nameKeys, ∀ told,
      (key, told) ∈ Toml.mentions [] statements ↔ (key, told) ∈ Toml.mentions [] others) :
    ofTextWith library text = ofTextWith library other := by
  unfold ofTextWith
  rw [documented.read_laidOut _ _ laidOut, documented.read_laidOut _ _ otherLaidOut]
  cases built : language.build? statements with
  | none =>
      rw [built] at readable
      have unread : language.build? others = none :=
        Option.isNone_iff_eq_none.mp (Option.isSome_eq_false_iff.mp readable.symm)
      rw [unread]
  | some root =>
      rw [built] at readable
      obtain ⟨otherRoot, otherBuilt⟩ := Option.isSome_iff_exists.mp readable.symm
      have same : ofTable? library root = ofTable? library otherRoot := by
        refine ofTable?_congr documented (documented.grammar.build_distinct _ _ built)
          (documented.grammar.build_distinct _ _ otherBuilt) fun key setting told => ?_
        rw [documented.grammar.holds_iff laidOut built,
          documented.grammar.holds_iff otherLaidOut otherBuilt]
        exact agree key setting told
      rw [otherBuilt, Option.bind_some, Option.bind_some, same]

/-- The settings depend neither on the layout nor on the order of keys. -/
theorem ofTextWith_of_reordered {text other : String} {statements others : List Toml.Statement}
    (laidOut : language.LaidOut statements text) (otherLaidOut : language.LaidOut others other)
    (reordered : Toml.Reordered statements others) :
    ofTextWith library text = ofTextWith library other := by
  have closed : ∀ path value, .assign path value ∈ statements → value.isOpen = false :=
    fun _ _ => documented.grammar.assigned_closed laidOut
  exact ofTextWith_congr documented laidOut otherLaidOut
    (reordered.isSome_build documented.grammar closed []) fun key _ told =>
      reordered.mentions_iff [] (key, told)

end Texts

/-! ## Legends -/

theorem Override.listed {root : Entries} {settings : Settings} (override : Override root settings) :
    Listed .mk TokenType.standard (root.get? "token_types") settings.legend.types ∧
      Listed .mk Modifier.standard (root.get? "token_modifiers") settings.legend.modifiers := by
  obtain ⟨_, _, _, _, types, modifiers⟩ := override
  unfold legend
  generalize root.get? "token_types" = found at types
  generalize root.get? "token_modifiers" = otherFound at modifiers
  generalize settings.tokenTypes = names at types
  generalize settings.tokenModifiers = otherNames at modifiers
  constructor
  · cases types with
    | standard => exact .standard
    | given names => exact .given names
  · cases modifiers with
    | standard => exact .standard
    | given names => exact .given names

/-- A text is a partial override of the standard settings, with each library and language that do
what is documented. It is refused if it cannot be read as TOML or a setting has a value of a wrong
kind, and otherwise each setting is the value of its key at the root or the standard one. The root
holds what the statements tell. Layout, the order of keys, keys that are no settings and what is
inside of tables make no difference, and each list of names in the legend is overridden on its
own. -/
theorem ofText_overrides_standard (documented : library.Documented language) (text : String) :
    (∀ fault, ofTextWith library text = .error fault ↔ fault = .invalid ∧
      ((∀ root, ¬ language.Reads text root) ∨
        ∃ root, language.Reads text root ∧ Misfit root)) ∧
    (∀ settings, ofTextWith library text = .ok settings ↔
      ∃ root, language.Reads text root ∧ Override root settings) ∧
    (∀ statements root, language.LaidOut statements text →
      language.build? statements = some root →
        ∀ asked, root.Holds asked ↔ asked ∈ Toml.mentions [] statements) ∧
    (∀ other statements others, language.LaidOut statements text →
      language.LaidOut others other → Toml.Reordered statements others →
        ofTextWith library text = ofTextWith library other) ∧
    (∀ other statements others, language.LaidOut statements text →
      language.LaidOut others other → (language.build? statements).isSome = true →
      (language.build? others).isSome = true →
      (∀ key ∈ flagKeys ++ nameKeys, ∀ told,
        (key, told) ∈ Toml.mentions [] statements ↔ (key, told) ∈ Toml.mentions [] others) →
      ofTextWith library text = ofTextWith library other) ∧
    (∀ settings root, ofTextWith library text = .ok settings → language.Reads text root →
      Listed .mk TokenType.standard (root.get? "token_types") settings.legend.types ∧
        Listed .mk Modifier.standard (root.get? "token_modifiers") settings.legend.modifiers ∧
        (Workspace.new settings).legend = settings.legend) := by
  refine ⟨fun _ => ofTextWith_eq_error_iff documented, fun _ => ofTextWith_eq_ok_iff documented,
    fun _ _ => documented.grammar.holds_iff, fun _ _ _ => ofTextWith_of_reordered documented,
    ?agree, ?legend⟩
  case agree =>
    intro other statements others laidOut otherLaidOut readable otherReadable agree
    exact ofTextWith_congr documented laidOut otherLaidOut
      (readable.trans otherReadable.symm) agree
  case legend =>
    intro settings root accepted reads
    obtain ⟨other, otherReads, override⟩ := (ofTextWith_eq_ok_iff documented).mp accepted
    have same := (documented.read_iff.mpr reads).symm.trans (documented.read_iff.mpr otherReads)
    cases same
    exact ⟨override.listed.1, override.listed.2, rfl⟩

set_option maxRecDepth 20000 in
/-- The same settings in another order, with a comment and other blanks, and beside keys and tables
that are none of them. -/
theorem ofText_overrides_standard_rearranged :
    ofText "enabled = false\ntoken_types = ['a']\n[x]\nfull = ''\n" =
        ofText "token_types=[ # b\n 'a',]\r\n\tenabled = false#\n[x]\nfull=\"\"" ∧
      ofText "enabled = false\ntoken_types = ['a']\n[x]\nfull = ''\n" =
        ofText "token_types = ['a']\nx.full = []\nenabled = false\n[[y.delta]]" ∧
      (∃ settings, ofText "enabled = false\ntoken_types = ['a']\n[x]\nfull = ''\n" = .ok settings ∧
        Listed .mk TokenType.standard (some (.array [.text "a"])) settings.legend.types ∧
        Listed .mk Modifier.standard none settings.legend.modifiers ∧
        (Workspace.new settings).legend = settings.legend) ∧
      ofText "enabled = ''" = .error .invalid := by
  let shared : List Toml.Statement := [.table ["x"], .assign ["full"] (.text "")]
  have laidOut : Toml.language.LaidOut (.assign ["enabled"] (.boolean false) ::
      .assign ["token_types"] (.array [.text "a"]) :: shared)
      "enabled = false\ntoken_types = ['a']\n[x]\nfull = ''\n" :=
    Toml.exists_lines (show Toml.readStatements? 60 _ = _ by cbv)
  have reordered : Toml.language.LaidOut (.assign ["token_types"] (.array [.text "a"]) ::
      .assign ["enabled"] (.boolean false) :: shared)
      "token_types=[ # b\n 'a',]\r\n\tenabled = false#\n[x]\nfull=\"\"" :=
    Toml.exists_lines (show Toml.readStatements? 60 _ = _ by cbv)
  have others : Toml.language.LaidOut [.assign ["token_types"] (.array [.text "a"]),
      .assign ["x", "full"] (.array []), .assign ["enabled"] (.boolean false),
      .element ["y", "delta"]]
      "token_types = ['a']\nx.full = []\nenabled = false\n[[y.delta]]" :=
    Toml.exists_lines (show Toml.readStatements? 60 _ = _ by cbv)
  obtain ⟨_, accepts, _, anyOrder, ignores, legends⟩ := ofText_overrides_standard
    Toml.documented_library "enabled = false\ntoken_types = ['a']\n[x]\nfull = ''\n"
  have parsed : Toml.parse? "enabled = false\ntoken_types = ['a']\n[x]\nfull = ''\n" =
      some [("enabled", .boolean false), ("token_types", .array [.text "a"]),
        ("x", .table .header [("full", .text "")])] := by
    cbv
  have reads := Toml.documented_library.read_iff.mp parsed
  have accepted := (accepts ⟨false, true, true, true, some ["a"], none⟩).mpr
    ⟨_, reads, .given false, .standard, .standard, .standard, .given ["a"], .standard⟩
  refine ⟨anyOrder _ _ _ laidOut reordered .swap,
    ignores _ _ _ laidOut others (by cbv) (by cbv) ?_, ⟨_, accepted, ?_⟩, ?_⟩
  · intro key setting told
    have apart : key ≠ "x" ∧ key ≠ "y" := by
      constructor <;> (intro same; subst same; exact absurd setting (by decide))
    simp [shared, Toml.mentions, Toml.Statement.mention, Toml.Statement.headerBehind, apart,
      or_comm]
  · exact legends _ _ accepted reads
  · have misparsed : Toml.parse? "enabled = ''" = some [("enabled", .text "")] := by
      cbv
    have setting : "enabled" ∈ flagKeys := by
      decide
    have wrong : ∀ flag, Value.text "" ≠ .boolean flag := by
      intro flag same
      cases same
    have misfit : Misfit [("enabled", .text "")] := .flag setting rfl wrong
    have misreads := Toml.documented_library.read_iff.mp misparsed
    exact ((ofText_overrides_standard Toml.documented_library "enabled = ''").1 .invalid).mpr
      ⟨rfl, .inr ⟨_, misreads, misfit⟩⟩

end SemanticHighlight.Settings

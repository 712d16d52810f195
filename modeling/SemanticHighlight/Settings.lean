import SemanticHighlight.Legend.Standard
import SemanticHighlight.Record

/-!
# Settings

Which requests are answered, and which names the legend lists. A list of names that is not set is
the standard one. As a record, settings may have any of their fields left out, which are then the
standard ones.
-/

set_option autoImplicit false

namespace SemanticHighlight

structure Settings where
  enabled : Bool
  /-- Whether requests for a whole document are answered. -/
  full : Bool
  /-- Whether edits are answered in place of whole documents. -/
  delta : Bool
  /-- Whether requests for a part of a document are answered. -/
  range : Bool
  tokenTypes : Option (List String)
  tokenModifiers : Option (List String)
deriving DecidableEq

namespace Settings

def standard : Settings :=
  ⟨true, true, true, true, none, none⟩

/-- The legend of the names that are set, and of the standard ones for the rest. -/
def legend (settings : Settings) : Legend where
  types := match settings.tokenTypes with
    | some names => names.map .mk
    | none => TokenType.standard
  modifiers := match settings.tokenModifiers with
    | some names => names.map .mk
    | none => Modifier.standard

inductive Field where
  | enabled
  | full
  | delta
  | range
  | tokenTypes
  | tokenModifiers
deriving DecidableEq

namespace Field

def key : Field → String
  | enabled => "enabled"
  | full => "full"
  | delta => "delta"
  | range => "range"
  | tokenTypes => "token_types"
  | tokenModifiers => "token_modifiers"

def Content : Field → Type
  | enabled | full | delta | range => Bool
  | tokenTypes | tokenModifiers => Option (List String)

end Field

def shape : Shape Settings where
  Field := Field
  fields := [.enabled, .full, .delta, .range, .tokenTypes, .tokenModifiers]
  key := Field.key
  Content := Field.Content
  get
    | .enabled => Settings.enabled
    | .full => Settings.full
    | .delta => Settings.delta
    | .range => Settings.range
    | .tokenTypes => Settings.tokenTypes
    | .tokenModifiers => Settings.tokenModifiers
  make contents := {
    enabled := contents .enabled
    full := contents .full
    delta := contents .delta
    range := contents .range
    tokenTypes := contents .tokenTypes
    tokenModifiers := contents .tokenModifiers }
  standard := some standard
  complete field := by cases field <;> decide
  distinct := by decide
  get_make contents field := by cases field <;> rfl
  make_get _ := rfl

end Settings

end SemanticHighlight

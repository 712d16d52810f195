import SemanticHighlight.Settings
import SemanticHighlight.Toml.Library

/-!
# Settings from a file

Settings are kept as the root table of a TOML text. A key that is not there leaves its setting as
it is in the standard settings, and keys that are no settings are passed over. A file that does not
exist stands for the standard settings.
-/

set_option autoImplicit false

namespace SemanticHighlight

inductive SettingsFault where
  /-- The text is no TOML, or a setting has a value of a wrong kind. -/
  | invalid
  /-- The file at this path holds no text that can be read. -/
  | unreadable (path : String)
deriving DecidableEq

def SettingsFault.message : SettingsFault → String
  | .invalid => "Invalid semantic tokens configuration"
  | .unreadable path => "Failed to read " ++ path

namespace Settings

def readers (library : Toml.Library) : shape.Readers Toml.Value where
  read?
    | .enabled | .full | .delta | .range => library.flag?
    | .tokenTypes | .tokenModifiers => library.names?
  missing?
    | .enabled | .full | .delta | .range => none
    | .tokenTypes | .tokenModifiers => some none

def ofTable? (library : Toml.Library) (root : Toml.Entries) : Option Settings :=
  library.records.object? shape (readers library) (RecordReader.keyed root)

def ofTextWith (library : Toml.Library) (text : String) : Except SettingsFault Settings :=
  match (library.read? text).bind (ofTable? library) with
  | some settings => .ok settings
  | none => .error .invalid

def ofText (text : String) : Except SettingsFault Settings :=
  ofTextWith Toml.library text

/-- What there is at a path. -/
inductive Source where
  | missing
  | directory
  | file (bytes : ByteArray)

def load (path : String) : Source → Except SettingsFault Settings
  | .missing => .ok standard
  | .directory => .error (.unreadable path)
  | .file bytes =>
      match String.fromUTF8? bytes with
      | none => .error (.unreadable path)
      | some text => ofText text

end Settings

end SemanticHighlight

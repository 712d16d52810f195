import SemanticHighlight.Answer
import SemanticHighlight.Json.Form
import SemanticHighlight.Settings

/-!
# The JSON forms of shared values

Positions, answers, legends and settings as they are exchanged with others.
-/

set_option autoImplicit false

namespace SemanticHighlight

/-! ## Fields -/

def Position.shape : Shape Position :=
  .pair "line" "character" Position.line Position.character Position.mk (by decide)
    (fun _ _ => rfl) (fun _ _ => rfl) (fun _ => rfl)

def Span.shape : Shape Span :=
  .pair "start" "end" Span.start Span.stop Span.mk (by decide) (fun _ _ => rfl) (fun _ _ => rfl)
    (fun _ => rfl)

def Snapshot.shape : Shape Snapshot :=
  .pair "result_id" "data" Snapshot.resultId Snapshot.data Snapshot.mk (by decide)
    (fun _ _ => rfl) (fun _ _ => rfl) (fun _ => rfl)

inductive Edit.Field where
  | start
  | deleteCount
  | data
deriving DecidableEq

namespace Edit.Field

def key : Edit.Field → String
  | start => "start"
  | deleteCount => "delete_count"
  | data => "data"

def Content : Edit.Field → Type
  | start | deleteCount => UInt32
  | data => List UInt32

end Edit.Field

def Edit.shape : Shape Edit where
  Field := Edit.Field
  fields := [.start, .deleteCount, .data]
  key := Edit.Field.key
  Content := Edit.Field.Content
  get
    | .start => Edit.start
    | .deleteCount => Edit.deleteCount
    | .data => Edit.data
  make contents := ⟨contents .start, contents .deleteCount, contents .data⟩
  standard := none
  complete field := by cases field <;> decide
  distinct := by decide
  get_make contents field := by cases field <;> rfl
  make_get _ := rfl

def Delta.shape : Shape Delta :=
  .pair "result_id" "edits" Delta.resultId Delta.edits Delta.mk (by decide) (fun _ _ => rfl)
    (fun _ _ => rfl) (fun _ => rfl)

def Legend.shape : Shape Legend :=
  .pair "tokenTypes" "tokenModifiers" Legend.types Legend.modifiers Legend.mk (by decide)
    (fun _ _ => rfl) (fun _ _ => rfl) (fun _ => rfl)

def Answer.toSum : Answer → Snapshot ⊕ Delta
  | .full snapshot => .inl snapshot
  | .delta edited => .inr edited

def Answer.ofSum : Snapshot ⊕ Delta → Answer
  | .inl snapshot => .full snapshot
  | .inr edited => .delta edited

namespace Json

/-! ## Codecs -/

namespace Library

variable (library : Library)

def pair {β γ : Type} (first : Codec β) (second : Codec γ) :
    (side : Side) → Codec (Side.Content β γ side)
  | .first => first
  | .second => second

def position : Codec Position :=
  library.record Position.shape (pair library.word library.word)

def span : Codec Span :=
  library.record Span.shape (pair library.position library.position)

def words : Codec (List UInt32) :=
  library.list library.word

def snapshot : Codec Snapshot :=
  library.record Snapshot.shape (pair library.text library.words)

def editField : (field : Edit.Field) → Codec field.Content
  | .start | .deleteCount => library.word
  | .data => library.words

def edit : Codec Edit :=
  library.record Edit.shape library.editField

def delta : Codec Delta :=
  library.record Delta.shape (pair library.text (library.list library.edit))

def answer : Codec Answer :=
  library.through Answer.toSum Answer.ofSum
    (library.either "Full" library.snapshot "Delta" library.delta)

def tokenType : Codec TokenType :=
  library.through TokenType.name TokenType.mk library.text

def modifier : Codec Modifier :=
  library.through Modifier.name Modifier.mk library.text

def legend : Codec Legend :=
  library.record Legend.shape
    (pair (library.list library.tokenType) (library.list library.modifier))

def settingsField : (field : Settings.Field) → Codec field.Content
  | .enabled | .full | .delta | .range => library.flag
  | .tokenTypes | .tokenModifiers => library.option (library.list library.text)

def settings : Codec Settings :=
  library.record Settings.shape library.settingsField

end Library

/-! ## Forms -/

instance : Form Bool := ⟨library.flag⟩

instance : Form UInt32 := ⟨library.word⟩

instance : Form String := ⟨library.text⟩

instance {α : Type} [Form α] : Form (List α) := ⟨library.list Form.codec⟩

instance {α : Type} [Form α] : Form (Option α) := ⟨library.option Form.codec⟩

instance : Form Position := ⟨library.position⟩

instance : Form Span := ⟨library.span⟩

instance : Form Snapshot := ⟨library.snapshot⟩

instance : Form Edit := ⟨library.edit⟩

instance : Form Delta := ⟨library.delta⟩

instance : Form Answer := ⟨library.answer⟩

instance : Form TokenType := ⟨library.tokenType⟩

instance : Form Modifier := ⟨library.modifier⟩

instance : Form Legend := ⟨library.legend⟩

instance : Form Settings := ⟨library.settings⟩

end Json

end SemanticHighlight

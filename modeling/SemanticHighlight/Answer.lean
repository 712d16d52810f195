import SemanticHighlight.Edit

/-!
# Answers to highlighting requests

A request is answered with a whole array, or with the edits that lead to it from an array that the
asker holds already.
-/

set_option autoImplicit false

namespace SemanticHighlight

/-- A whole array under the id that a later request may refer to. -/
structure Snapshot where
  resultId : String
  data : List UInt32
deriving DecidableEq

def Snapshot.tokenCount (snapshot : Snapshot) : Nat :=
  SemanticHighlight.tokenCount snapshot.data

/-- The edits since an earlier answer, and the id of the array they lead to. -/
structure Delta where
  resultId : String
  edits : List Edit
deriving DecidableEq

def Delta.hasChanges (delta : Delta) : Bool :=
  delta.edits.any fun edit => !edit.isNoop

inductive Answer where
  | full (snapshot : Snapshot)
  | delta (delta : Delta)
deriving DecidableEq

namespace Answer

def resultId : Answer → String
  | .full snapshot => snapshot.resultId
  | .delta edits => edits.resultId

def isDelta : Answer → Bool
  | .full _ => false
  | .delta _ => true

end Answer

end SemanticHighlight

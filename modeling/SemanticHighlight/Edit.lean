import SemanticHighlight.Token.Relative

/-!
# Edits of word arrays

An edit takes a run of words out of an array and puts others in its place. A list of edits is
applied one after the other, each to what the edits in front of it made, and either as a whole or
not at all.
-/

set_option autoImplicit false

namespace SemanticHighlight

structure Edit where
  /-- How many words stay in front of the change. -/
  start : UInt32
  deleteCount : UInt32
  data : List UInt32
deriving DecidableEq

namespace Edit

def empty : Edit := ⟨0, 0, []⟩

def isNoop (edit : Edit) : Bool :=
  edit.deleteCount == 0 && edit.data.isEmpty

/-- An array with the words from `start` on replaced: `count` of them make way for `inserted`. -/
def splice (data : List UInt32) (start count : Nat) (inserted : List UInt32) : List UInt32 :=
  data.take start ++ inserted ++ data.drop (start + count)

/-- Makes one edit, which has to lie within the array. -/
def apply (data : List UInt32) (edit : Edit) : Except Fault (List UInt32) :=
  if edit.start.toNat + edit.deleteCount.toNat ≤ data.length then
    .ok (splice data edit.start.toNat edit.deleteCount.toNat edit.data)
  else
    .error (.editOutOfBounds edit.start edit.deleteCount data.length)

/-- Makes edits one after the other, without a look at the length they lead to. -/
def applyInTurn (data : List UInt32) (edits : List Edit) : Except Fault (List UInt32) :=
  edits.foldlM apply data

/-- Makes edits one after the other; the last array has to consist of whole tokens. -/
def applyAll (data : List UInt32) (edits : List Edit) : Except Fault (List UInt32) := do
  let patched ← applyInTurn data edits
  checkWholeTokens patched
  return patched

/-- Makes edits on an array in its place. What they lead to is kept apart until all of them are
made. -/
def patch (edits : List Edit) : ExceptT Fault (StateM (List UInt32)) Unit := do
  let patched ← ofExcept (applyAll (← get) edits)
  set patched

theorem isNoop_iff {edit : Edit} :
    edit.isNoop = true ↔ edit.deleteCount = 0 ∧ edit.data = [] := by
  simp [isNoop]

theorem length_splice {data : List UInt32} {start count : Nat} (inserted : List UInt32)
    (inside : start + count ≤ data.length) :
    (splice data start count inserted).length + count = data.length + inserted.length := by
  simp only [splice, List.length_append, List.length_take, List.length_drop]
  omega

theorem apply_eq_ok_iff {data patched : List UInt32} {edit : Edit} :
    apply data edit = .ok patched ↔
      edit.start.toNat + edit.deleteCount.toNat ≤ data.length ∧
        splice data edit.start.toNat edit.deleteCount.toNat edit.data = patched := by
  unfold apply
  split
  · simp_all
  · rename_i outside
    simp only [reduceCtorEq, outside, false_and]

theorem applyInTurn_cons (data : List UInt32) (edit : Edit) (edits : List Edit) :
    applyInTurn data (edit :: edits) =
      apply data edit >>= fun patched => applyInTurn patched edits :=
  rfl

theorem applyInTurn_append (data : List UInt32) (first second : List Edit) :
    applyInTurn data (first ++ second) =
      applyInTurn data first >>= fun patched => applyInTurn patched second := by
  simp [applyInTurn, List.foldlM_append]

/-- In its place stands the array that the edits lead to, and after a fault the array that was
there. -/
theorem run_patch (data : List UInt32) (edits : List Edit) :
    (patch edits).run.run data =
      match applyAll data edits with
      | .ok patched => (.ok (), patched)
      | .error fault => (.error fault, data) := by
  change (ofExcept (applyAll data edits) >>= set :
    ExceptT Fault (StateM (List UInt32)) Unit).run.run data = _
  cases applyAll data edits <;> rfl

end Edit

end SemanticHighlight

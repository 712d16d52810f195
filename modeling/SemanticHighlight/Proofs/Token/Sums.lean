import Mathlib.Algebra.BigOperators.Intervals
import Mathlib.Data.List.Forall2
import Mathlib.Data.Nat.Find
import SemanticHighlight.Token.Relative

/-!
# Positions as sums

The line of a token is the sum of the line deltas up to it, and its column the sum of the column
deltas since its line began. Reading an array keeps both sums in words, so an array is refused at the
first token one of whose sums, taken without bound, is no word.
-/

set_option autoImplicit false

namespace SemanticHighlight.Token

/-! ## Sums without bound -/

/-- One of the five words of the token at `index`. -/
def wordAt (data : List UInt32) (index field : Nat) : UInt32 :=
  data.getD (wordsPerToken * index + field) 0

def lineSum (data : List UInt32) (index : Nat) : Nat :=
  ∑ token ∈ Finset.range (index + 1), (wordAt data token 0).toNat

/-- The last token up to `index` that moves to another line, or the first token when none does. -/
def lineHead (data : List UInt32) (index : Nat) : Nat :=
  Nat.findGreatest (fun token => wordAt data token 0 ≠ 0) index

def columnSum (data : List UInt32) (index : Nat) : Nat :=
  ∑ token ∈ Finset.Icc (lineHead data index) index, (wordAt data token 1).toNat

/-- Both sums up to `index` are words. -/
def FitsAt (data : List UInt32) (index : Nat) : Prop :=
  lineSum data index < UInt32.size ∧ columnSum data index < UInt32.size

instance (data : List UInt32) (index : Nat) : Decidable (FitsAt data index) :=
  inferInstanceAs (Decidable (_ ∧ _))

/-- The token at `index` is the first with a sum that is no word. -/
def FirstBeyond (data : List UInt32) (index : Nat) : Prop :=
  index < tokenCount data ∧ ¬ FitsAt data index ∧ ∀ earlier < index, FitsAt data earlier

/-- A token lies where the sums up to `index` say, and has the other three words. -/
structure SummedAt (data : List UInt32) (index : Nat) (token : Token) : Prop where
  line : token.line.toNat = lineSum data index
  start : token.start.toNat = columnSum data index
  length : token.length = wordAt data index 2
  typeId : token.typeId = wordAt data index 3
  modifiers : token.modifiers = wordAt data index 4

theorem lineSum_succ (data : List UInt32) (index : Nat) :
    lineSum data (index + 1) = lineSum data index + (wordAt data (index + 1) 0).toNat :=
  Finset.sum_range_succ ..

theorem lineHead_succ (data : List UInt32) (index : Nat) :
    lineHead data (index + 1) =
      if wordAt data (index + 1) 0 = 0 then lineHead data index else index + 1 := by
  simp only [lineHead, Nat.findGreatest_succ, ne_eq, ite_not]

theorem columnSum_succ (data : List UInt32) (index : Nat) :
    columnSum data (index + 1) =
      (if wordAt data (index + 1) 0 = 0 then columnSum data index else 0) +
        (wordAt data (index + 1) 1).toNat := by
  by_cases still : wordAt data (index + 1) 0 = 0
  · have head : lineHead data index ≤ index + 1 :=
      Nat.le_succ_of_le (Nat.findGreatest_le index)
    simp only [columnSum, lineHead_succ, still, ↓reduceIte, Finset.sum_Icc_succ_top head]
  · simp only [columnSum, lineHead_succ, still, ↓reduceIte, Finset.Icc_self,
      Finset.sum_singleton, Nat.zero_add]

/-! ## The place that is kept while reading -/

/-- The tokens in front of `index` lead to `here`. -/
def Reached (data : List UInt32) (here : Position) : Nat → Prop
  | 0 => here = .origin
  | index + 1 => here.line.toNat = lineSum data index ∧ here.character.toNat = columnSum data index

/-- Where the token at `index` begins, when its sums are words. -/
def summedPlace (data : List UInt32) (index : Nat) : Position :=
  ⟨.ofNat (lineSum data index), .ofNat (columnSum data index)⟩

theorem FitsAt.reached {data : List UInt32} {index : Nat} (fits : FitsAt data index) :
    Reached data (summedPlace data index) (index + 1) :=
  ⟨UInt32.toNat_ofNat_of_lt' fits.1, UInt32.toNat_ofNat_of_lt' fits.2⟩

section Step

variable {data : List UInt32} {here : Position} {index : Nat} (reached : Reached data here index)

include reached

theorem Reached.lineSum_eq :
    lineSum data index = here.line.toNat + (wordAt data index 0).toNat := by
  cases index with
  | zero =>
      cases reached
      simp [lineSum, Position.origin]
  | succ index => rw [lineSum_succ, reached.1]

theorem Reached.columnSum_eq :
    columnSum data index =
      (if wordAt data index 0 = 0 then here.character.toNat else 0) +
        (wordAt data index 1).toNat := by
  cases index with
  | zero =>
      cases reached
      simp [columnSum, lineHead, Position.origin]
  | succ index => rw [columnSum_succ, reached.2]

/-- A step is refused for its sums only. The column of a line left behind does not count. -/
theorem Reached.after?_eq :
    here.after? (wordAt data index 0) (wordAt data index 1) =
      if FitsAt data index then some (summedPlace data index) else none := by
  have line := reached.lineSum_eq
  have column := reached.columnSum_eq
  by_cases still : wordAt data index 0 = 0
  · have lineFits : here.line.toNat < UInt32.size := here.line.toNat_lt
    simp only [still, ↓reduceIte, UInt32.toNat_zero, Nat.add_zero] at line column
    simp only [FitsAt, summedPlace, line, column, still, Position.after?_zero, Word.sum?, lineFits,
      true_and, UInt32.ofNat_add, UInt32.ofNat_toNat]
    split <;> rfl
  · have columnFits : (wordAt data index 1).toNat < UInt32.size := (wordAt data index 1).toNat_lt
    simp only [still, ↓reduceIte, Nat.zero_add] at line column
    simp only [FitsAt, summedPlace, line, column, Position.after?_of_ne_zero _ _ still, Word.sum?,
      columnFits, and_true, UInt32.ofNat_add, UInt32.ofNat_toNat]
    split <;> rfl

end Step

/-! ## Reading whole tokens -/

def summedToken (data : List UInt32) (index : Nat) : Token :=
  ⟨(summedPlace data index).line, (summedPlace data index).character, wordAt data index 2,
    wordAt data index 3, wordAt data index 4⟩

theorem summedAt_iff {data : List UInt32} {index : Nat} {token : Token} :
    SummedAt data index token ↔ FitsAt data index ∧ token = summedToken data index := by
  constructor
  · intro summed
    obtain ⟨line, start, length, typeId, modifiers⟩ := summed
    have fits : FitsAt data index := ⟨line ▸ token.line.toNat_lt, start ▸ token.start.toNat_lt⟩
    refine ⟨fits, ?_⟩
    simp only [summedToken, summedPlace, ← line, ← start, ← length, ← typeId, ← modifiers,
      UInt32.ofNat_toNat]
  · intro summed
    obtain ⟨fits, rfl⟩ := summed
    exact ⟨fits.reached.1, fits.reached.2, rfl, rfl, rfl⟩

theorem take_drop_succ {data : List UInt32} {index : Nat} (remaining : Nat)
    (inside : index < tokenCount data) :
    (data.drop (wordsPerToken * index)).take (wordsPerToken * (remaining + 1)) =
      wordAt data index 0 :: wordAt data index 1 :: wordAt data index 2 :: wordAt data index 3 ::
        wordAt data index 4 ::
          (data.drop (wordsPerToken * (index + 1))).take (wordsPerToken * remaining) := by
  have room : wordsPerToken * index + 4 < data.length := by
    simp only [tokenCount, wordsPerToken] at inside ⊢
    omega
  have word : ∀ field < 5, wordAt data index field :: data.drop (wordsPerToken * index + field + 1) =
      data.drop (wordsPerToken * index + field) := by
    intro field bound
    have present : wordsPerToken * index + field < data.length := by omega
    rw [wordAt, List.getD_eq_getElem?_getD, List.getElem?_eq_getElem present, Option.getD_some,
      List.getElem_cons_drop]
  have total : wordsPerToken * (remaining + 1) = wordsPerToken * remaining + 1 + 1 + 1 + 1 + 1 := rfl
  have next : wordsPerToken * (index + 1) = wordsPerToken * index + 4 + 1 := rfl
  rw [total, next, ← Nat.add_zero (wordsPerToken * index), ← word 0 (by decide),
    ← word 1 (by decide), ← word 2 (by decide), ← word 3 (by decide), ← word 4 (by decide)]
  simp only [List.take_succ_cons]

/-- The first of these tokens with a sum that is no word. -/
def beyond? (data : List UInt32) (indices : List Nat) : Option Nat :=
  indices.find? fun index => !decide (FitsAt data index)

theorem beyond?_range_eq_none_iff {data : List UInt32} {count : Nat} :
    beyond? data (List.range count) = none ↔ ∀ index < count, FitsAt data index := by
  simp only [beyond?, List.find?_range_eq_none, Bool.not_not, decide_eq_true_eq]

theorem beyond?_range_eq_some_iff {data : List UInt32} {count index : Nat} :
    beyond? data (List.range count) = some index ↔
      index < count ∧ ¬ FitsAt data index ∧ ∀ earlier < index, FitsAt data earlier := by
  simp only [beyond?, List.find?_range_eq_some, Bool.not_eq_true', decide_eq_false_iff_not,
    Bool.not_not, decide_eq_true_eq, List.mem_range]
  exact and_left_comm

/-- What is read from `remaining` tokens, the first of them having the given index. -/
def readFrom (data : List UInt32) (index remaining : Nat) : Except Fault (List Token) :=
  match beyond? data (List.range' index remaining) with
  | some beyond => .error (.positionOverflow beyond)
  | none => .ok ((List.range' index remaining).map (summedToken data))

theorem readFrom_succ (data : List UInt32) (index remaining : Nat) :
    readFrom data index (remaining + 1) =
      if FitsAt data index then
        (readFrom data (index + 1) remaining).map (summedToken data index :: ·)
      else .error (.positionOverflow index) := by
  by_cases fits : FitsAt data index
  · simp only [readFrom, beyond?, List.range'_succ, List.find?_cons, fits, decide_true,
      Bool.not_true, ↓reduceIte]
    cases (List.range' (index + 1) remaining).find? fun later => !decide (FitsAt data later) <;> rfl
  · simp only [readFrom, beyond?, List.range'_succ, List.find?_cons, fits, decide_false,
      Bool.not_false, ↓reduceIte]

theorem readFrom_of_fits {data : List UInt32} {count : Nat}
    (fits : ∀ index < count, FitsAt data index) :
    readFrom data 0 count = .ok ((List.range count).map (summedToken data)) := by
  simp only [readFrom, ← List.range_eq_range', beyond?_range_eq_none_iff.mpr fits]

theorem readFrom_eq_ok_iff {data : List UInt32} {index remaining : Nat} {tokens : List Token} :
    readFrom data index remaining = .ok tokens ↔
      List.Forall₂ (SummedAt data) (List.range' index remaining) tokens := by
  induction remaining generalizing index tokens with
  | zero =>
      simp only [readFrom, beyond?, List.range'_zero, List.find?_nil, List.map_nil, Except.ok.injEq,
        List.forall₂_nil_left_iff, eq_comm]
  | succ remaining ih =>
      simp only [readFrom_succ, List.range'_succ, List.forall₂_cons_left_iff, summedAt_iff]
      by_cases fits : FitsAt data index
      · simp only [fits, ↓reduceIte, Fault.map_eq_ok_iff, ih, true_and, exists_and_left,
          exists_eq_left, @eq_comm _ tokens]
      · simp only [fits, ↓reduceIte, reduceCtorEq, false_and, exists_false]

theorem readFrom_eq_error_iff {data : List UInt32} {count : Nat} {fault : Fault} :
    readFrom data 0 count = .error fault ↔
      ∃ beyond, (beyond < count ∧ ¬ FitsAt data beyond ∧ ∀ earlier < beyond, FitsAt data earlier) ∧
        fault = .positionOverflow beyond := by
  simp only [readFrom, ← List.range_eq_range', ← beyond?_range_eq_some_iff]
  cases beyond? data (List.range count) with
  | none => simp
  | some beyond => simp [eq_comm]

theorem exists_readFrom_iff {data : List UInt32} {count : Nat} :
    (∃ tokens, readFrom data 0 count = .ok tokens) ↔ ∀ index < count, FitsAt data index := by
  simp only [readFrom, ← List.range_eq_range', ← beyond?_range_eq_none_iff]
  cases beyond? data (List.range count) <;> simp

theorem decodeFrom_take_drop {data : List UInt32} {here : Position} {index remaining : Nat}
    (inside : index + remaining ≤ tokenCount data) (reached : Reached data here index) :
    decodeFrom here index ((data.drop (wordsPerToken * index)).take (wordsPerToken * remaining)) =
      readFrom data index remaining := by
  induction remaining generalizing here index with
  | zero => simp only [Nat.mul_zero, List.take_zero]; rfl
  | succ remaining ih =>
      rw [take_drop_succ remaining (by omega), readFrom_succ]
      simp only [decodeFrom, reached.after?_eq]
      by_cases fits : FitsAt data index
      · simp only [fits, ↓reduceIte, ih (show index + 1 + remaining ≤ tokenCount data by omega)
          fits.reached]
        cases readFrom data (index + 1) remaining <;> rfl
      · simp only [fits, ↓reduceIte]

theorem decode_take {data : List UInt32} {count : Nat} (inside : count ≤ tokenCount data) :
    decode (data.take (wordsPerToken * count)) = readFrom data 0 count := by
  have whole : (data.take (wordsPerToken * count)).length % wordsPerToken = 0 := by
    simp only [List.length_take, tokenCount, wordsPerToken] at inside ⊢
    omega
  have read := @decodeFrom_take_drop data .origin 0 count (by omega) rfl
  unfold decode
  rw [checkWholeTokens_eq_ok_iff.mpr whole]
  exact read

theorem decode_of_whole {data : List UInt32} (whole : data.length % wordsPerToken = 0) :
    decode data = readFrom data 0 (tokenCount data) := by
  have all : data.take (wordsPerToken * tokenCount data) = data := by
    apply List.take_of_length_le
    simp only [tokenCount, wordsPerToken] at whole ⊢
    omega
  rw [← decode_take (Nat.le_refl (tokenCount data)), all]

theorem decode_of_not_whole {data : List UInt32} (broken : data.length % wordsPerToken ≠ 0) :
    decode data = .error (.malformedData data.length) := by
  unfold decode checkWholeTokens
  rw [if_neg broken]
  rfl

/-- An array is malformed exactly when its length is not that of whole tokens. One of whole tokens
is refused at the first of them with a sum that is no word, and when there is none it is read as the
tokens that lie where their sums say. -/
theorem decode_eq_sums (data : List UInt32) :
    (∀ length, decode data = .error (.malformedData length) ↔
        data.length % wordsPerToken ≠ 0 ∧ length = data.length) ∧
      (∀ index, decode data = .error (.positionOverflow index) ↔
        data.length % wordsPerToken = 0 ∧ FirstBeyond data index) ∧
      ((∃ tokens, decode data = .ok tokens) ↔
        data.length % wordsPerToken = 0 ∧ ∀ index < tokenCount data, FitsAt data index) ∧
      ∀ tokens, decode data = .ok tokens ↔
        data.length % wordsPerToken = 0 ∧
          List.Forall₂ (SummedAt data) (List.range (tokenCount data)) tokens := by
  by_cases whole : data.length % wordsPerToken = 0
  · have decoded := decode_of_whole whole
    refine ⟨fun length => ?_, fun index => ?_, ?_, fun tokens => ?_⟩
    · constructor
      · intro refused
        obtain ⟨_, _, named⟩ := readFrom_eq_error_iff.mp (decoded.symm.trans refused)
        cases named
      · intro broken
        exact absurd whole broken.1
    · simp only [decoded, readFrom_eq_error_iff, Fault.positionOverflow.injEq,
        exists_eq_right', whole, true_and, FirstBeyond]
    · simp only [decoded, exists_readFrom_iff, whole, true_and]
    · simp only [decoded, readFrom_eq_ok_iff, whole, true_and, List.range_eq_range']
  · have decoded := decode_of_not_whole whole
    refine ⟨fun length => ?_, fun index => ?_, ?_, fun tokens => ?_⟩
    · simp only [decoded, Except.error.injEq, Fault.malformedData.injEq, ne_eq, whole,
        not_false_eq_true, true_and, @eq_comm _ data.length]
    · simp only [decoded, Except.error.injEq, reduceCtorEq, whole, false_and]
    · simp only [decoded, reduceCtorEq, exists_false, whole, false_and]
    · simp only [decoded, reduceCtorEq, whole, false_and]

/-- The column of the first line is at its greatest when the second line begins, where columns count
anew; the third token then passes the greatest line. -/
example : decode [0, 4294967295, 1, 0, 0, 4294967295, 9, 1, 0, 0, 1, 0, 1, 0, 0] =
    .error (.positionOverflow 2) := by
  rfl

end SemanticHighlight.Token

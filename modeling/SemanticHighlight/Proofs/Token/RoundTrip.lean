import SemanticHighlight.Token.Relative

/-!
# Reading back what was written

Writing wraps round where a token begins before the one in front of it, and reading refuses the
step that wrapped. A list in order therefore comes back as it was, and any other list is refused at
its first step back. The other way round, an array that is accepted is the writing of the tokens
read from it.
-/

set_option autoImplicit false

namespace SemanticHighlight.Token

theorem after?_step (previous : Position) (line character : UInt32) :
    previous.after? (line - previous.line)
        (if line - previous.line = 0 then character - previous.character else character) =
      if previous ≤ ⟨line, character⟩ then some ⟨line, character⟩ else none := by
  by_cases sameLine : line = previous.line
  · subst sameLine
    rw [UInt32.sub_self, if_pos rfl, Position.after?_zero, Word.sum?_sub]
    simp only [Position.le_iff, UInt32.lt_irrefl, true_and, false_or]
    split <;> rfl
  · have moved : line - previous.line ≠ 0 := by
      intro still
      apply sameLine
      rw [← UInt32.sub_add_cancel line previous.line, still, UInt32.zero_add]
    have forward : previous.line ≤ line ↔ previous ≤ ⟨line, character⟩ := by
      simp only [Position.le_iff, UInt32.lt_iff_toNat_lt, UInt32.le_iff_toNat_le,
        ← UInt32.toNat_inj] at sameLine ⊢
      omega
    rw [if_neg moved, Position.after?_of_ne_zero _ _ moved, Word.sum?_sub]
    simp only [forward]
    split <;> rfl

theorem step_of_after? {previous place : Position} {deltaLine deltaStart : UInt32}
    (taken : previous.after? deltaLine deltaStart = some place) :
    previous ≤ place ∧ deltaLine = place.line - previous.line ∧
      deltaStart = if deltaLine = 0 then place.character - previous.character
        else place.character := by
  by_cases still : deltaLine = 0
  · subst still
    rw [Position.after?_zero, Option.map_eq_some_iff] at taken
    obtain ⟨character, fits, rfl⟩ := taken
    obtain ⟨ordered, difference⟩ := Word.eq_sub_of_sum? fits
    rw [UInt32.sub_self, if_pos rfl]
    exact ⟨Or.inr ⟨rfl, ordered⟩, rfl, difference⟩
  · rw [Position.after?_of_ne_zero _ _ still, Option.map_eq_some_iff] at taken
    obtain ⟨line, fits, rfl⟩ := taken
    obtain ⟨ordered, difference⟩ := Word.eq_sub_of_sum? fits
    have apart : previous.line ≠ line := by
      intro sameLine
      rw [sameLine, UInt32.sub_self] at difference
      exact still difference
    have forward : previous.line < line := by
      simp only [UInt32.lt_iff_toNat_lt, UInt32.le_iff_toNat_le, ne_eq, ← UInt32.toNat_inj]
        at ordered apart ⊢
      omega
    rw [if_neg still]
    exact ⟨Or.inl forward, difference, rfl⟩

theorem decodeFrom_wordsAfter_append (previous : Position) (index : Nat) (token : Token)
    (rest : List UInt32) :
    decodeFrom previous index (token.wordsAfter previous ++ rest) =
      if previous ≤ token.position then
        (decodeFrom token.position (index + 1) rest).map (token :: ·)
      else
        .error (.positionOverflow index) := by
  simp only [wordsAfter, List.cons_append, List.nil_append, decodeFrom, after?_step, position]
  by_cases ordered : previous ≤ ⟨token.line, token.start⟩
  · simp only [ordered, ↓reduceIte]
    cases decodeFrom ⟨token.line, token.start⟩ (index + 1) rest <;> rfl
  · simp only [ordered, ↓reduceIte]

/-! ## Lists that follow a position in order -/

/-- No token begins before the one in front of it, and the first one not before `previous`. -/
def InOrderFrom (previous : Position) : List Token → Prop
  | [] => True
  | token :: tokens => previous ≤ token.position ∧ InOrderFrom token.position tokens

theorem inOrderFrom_iff {previous : Position} {tokens : List Token} :
    InOrderFrom previous tokens ↔
      (∀ token ∈ tokens, previous ≤ token.position) ∧ InOrder tokens := by
  induction tokens generalizing previous with
  | nil => simp [InOrderFrom, InOrder]
  | cons token tokens ih =>
      rw [InOrderFrom, ih, InOrder, InOrder, List.pairwise_cons, List.forall_mem_cons]
      constructor
      · intro following
        obtain ⟨first, behind, ordered⟩ := following
        exact ⟨⟨first, fun later member => Position.le_trans first (behind later member)⟩,
          behind, ordered⟩
      · intro following
        obtain ⟨⟨first, _⟩, behind, ordered⟩ := following
        exact ⟨first, behind, ordered⟩

theorem inOrder_iff_inOrderFrom_origin {tokens : List Token} :
    InOrder tokens ↔ InOrderFrom .origin tokens := by
  rw [inOrderFrom_iff]
  exact ⟨fun ordered => ⟨fun token _ => Position.origin_le token.position, ordered⟩, And.right⟩

theorem decodeFrom_encodeFrom_eq_ok_iff {previous : Position} {index : Nat}
    {tokens read : List Token} :
    decodeFrom previous index (encodeFrom previous tokens) = .ok read ↔
      InOrderFrom previous tokens ∧ read = tokens := by
  induction tokens generalizing previous index read with
  | nil =>
      constructor
      · intro accepted
        cases accepted
        exact ⟨trivial, rfl⟩
      · intro expected
        obtain ⟨_, rfl⟩ := expected
        rfl
  | cons token tokens ih =>
      rw [encodeFrom_cons, decodeFrom_wordsAfter_append, InOrderFrom]
      by_cases ordered : previous ≤ token.position
      · rw [if_pos ordered, Fault.map_eq_ok_iff]
        constructor
        · intro decoded
          obtain ⟨behind, accepted, rfl⟩ := decoded
          obtain ⟨orderedBehind, rfl⟩ := ih.mp accepted
          exact ⟨⟨ordered, orderedBehind⟩, rfl⟩
        · intro expected
          obtain ⟨⟨_, orderedBehind⟩, rfl⟩ := expected
          exact ⟨tokens, ih.mpr ⟨orderedBehind, rfl⟩, rfl⟩
      · rw [if_neg ordered]
        constructor
        · intro refused
          cases refused
        · intro expected
          exact absurd expected.1.1 ordered

theorem decode_eq_ok_iff {data : List UInt32} {tokens : List Token} :
    decode data = .ok tokens ↔
      data.length % wordsPerToken = 0 ∧ decodeFrom .origin 0 data = .ok tokens := by
  unfold decode checkWholeTokens
  split
  · rename_i whole
    simp only [bind, Except.bind, whole, true_and]
  · rename_i broken
    simp only [bind, Except.bind, reduceCtorEq, broken, false_and]

theorem decode_encode_eq (tokens : List Token) :
    decode (encode tokens) = decodeFrom .origin 0 (encode tokens) := by
  have whole : (encode tokens).length % wordsPerToken = 0 := by
    rw [encode, length_encodeFrom, Nat.mul_mod_right]
  unfold decode
  rw [checkWholeTokens_eq_ok_iff.mpr whole]
  rfl

theorem decode_encode_eq_ok_iff {tokens read : List Token} :
    decode (encode tokens) = .ok read ↔ InOrder tokens ∧ read = tokens := by
  rw [decode_encode_eq, encode, decodeFrom_encodeFrom_eq_ok_iff, inOrder_iff_inOrderFrom_origin]

theorem decode_encode {tokens : List Token} (ordered : InOrder tokens) :
    decode (encode tokens) = .ok tokens :=
  decode_encode_eq_ok_iff.mpr ⟨ordered, rfl⟩

/-- Words that are read without a fault were written from the tokens read, but for a rest that is
no whole token. -/
theorem eq_encodeFrom_of_decodeFrom {previous : Position} {index : Nat} {data : List UInt32}
    {tokens : List Token} (accepted : decodeFrom previous index data = .ok tokens) :
    InOrderFrom previous tokens ∧
      ∃ rest, rest.length < wordsPerToken ∧ data = encodeFrom previous tokens ++ rest := by
  fun_induction decodeFrom previous index data generalizing tokens with
  | case1 | case2 => cases accepted
  | case3 previous index deltaLine deltaStart length typeId modifiers rest place taken read
      recursive ih =>
      cases accepted
      obtain ⟨behind, remainder, short, written⟩ := ih recursive
      obtain ⟨ordered, sameLine, sameStart⟩ := step_of_after? taken
      refine ⟨⟨ordered, behind⟩, remainder, short, ?_⟩
      rw [encodeFrom_cons, List.append_assoc, written]
      simp only [wordsAfter, position, ← sameLine, ← sameStart, List.cons_append, List.nil_append]
  | case4 data previous index incomplete =>
      cases accepted
      refine ⟨trivial, data, ?_, rfl⟩
      match data with
      | [] | [_] | [_, _] | [_, _, _] | [_, _, _, _] => simp [wordsPerToken]
      | _ :: _ :: _ :: _ :: _ :: _ => exact absurd rfl (incomplete _ _ _ _ _ _)

theorem eq_encode_of_decode {data : List UInt32} {tokens : List Token}
    (accepted : decode data = .ok tokens) : InOrder tokens ∧ data = encode tokens := by
  obtain ⟨whole, read⟩ := decode_eq_ok_iff.mp accepted
  obtain ⟨ordered, rest, short, written⟩ := eq_encodeFrom_of_decodeFrom read
  have nothing : rest = [] := by
    have total := congrArg List.length written
    rw [List.length_append, length_encodeFrom] at total
    rw [← List.length_eq_zero_iff]
    simp only [wordsPerToken] at whole short total
    omega
  rw [nothing, List.append_nil] at written
  exact ⟨inOrder_iff_inOrderFrom_origin.mpr ordered, written⟩

/-! ## Arrays that are accepted -/

theorem decode_eq_ok_iff_inOrder_and_encode_eq {data : List UInt32} {tokens : List Token} :
    decode data = .ok tokens ↔ InOrder tokens ∧ encode tokens = data := by
  constructor
  · intro accepted
    obtain ⟨ordered, written⟩ := eq_encode_of_decode accepted
    exact ⟨ordered, written.symm⟩
  · intro written
    obtain ⟨ordered, rfl⟩ := written
    exact decode_encode ordered

/-- The arrays that are accepted are the writings of the lists in order. Each is the writing of one
such list only, the list that is read from it, and writing that list gives the array again. -/
theorem accepted_iff_written (data : List UInt32) :
    ((∃ read, decode data = .ok read) ↔ ∃ tokens, InOrder tokens ∧ encode tokens = data) ∧
      (∀ tokens, InOrder tokens → encode tokens = data →
        decode data = .ok tokens ∧
          ∀ other, InOrder other → encode other = data → other = tokens) ∧
      ∀ read, decode data = .ok read → InOrder read ∧ encode read = data := by
  refine ⟨?_, ?_, ?_⟩
  · simp only [decode_eq_ok_iff_inOrder_and_encode_eq]
  · intro tokens ordered written
    have accepted := decode_eq_ok_iff_inOrder_and_encode_eq.mpr ⟨ordered, written⟩
    refine ⟨accepted, fun other otherOrdered otherWritten => ?_⟩
    have alsoAccepted :=
      decode_eq_ok_iff_inOrder_and_encode_eq.mpr ⟨otherOrdered, otherWritten⟩
    rw [accepted] at alsoAccepted
    exact (Except.ok.inj alsoAccepted).symm
  · intro read accepted
    exact decode_eq_ok_iff_inOrder_and_encode_eq.mp accepted

/-- An array whose first token is on the first line, with two tokens at one place, a column that
counts anew and a token at the greatest place. -/
theorem accepted_iff_written_repeated :
    let data : List UInt32 :=
      [0, 4, 2, 1, 0, 0, 0, 0, 2, 3, 2, 1, 5, 0, 0, 4294967293, 4294967295, 9, 3, 1]
    let tokens : List Token :=
      [⟨0, 4, 2, 1, 0⟩, ⟨0, 4, 0, 2, 3⟩, ⟨2, 1, 5, 0, 0⟩, ⟨4294967295, 4294967295, 9, 3, 1⟩]
    InOrder tokens ∧ encode tokens = data ∧ decode data = .ok tokens ∧
      ∀ other, InOrder other → encode other = data → other = tokens := by
  intro data tokens
  have ordered : InOrder tokens := by decide
  have written : encode tokens = data := by decide
  exact ⟨ordered, written, (accepted_iff_written data).2.1 tokens ordered written⟩

/-! ## Lists with a step back -/

/-- The token at `index` begins before the one in front of it. -/
def StepsBackAt (tokens : List Token) (index : Nat) : Prop :=
  0 < index ∧ ∃ earlier later, tokens[index - 1]? = some earlier ∧ tokens[index]? = some later ∧
    later.position < earlier.position

/-- The token at `index` is the first that begins before the one in front of it. -/
def FirstStepBack (tokens : List Token) (index : Nat) : Prop :=
  StepsBackAt tokens index ∧ ∀ earlier < index, ¬ StepsBackAt tokens earlier

/-- The same with a position in front of the first token. -/
def StepsBackFrom (previous : Position) (tokens : List Token) (index : Nat) : Prop :=
  ∃ earlier later, (previous :: tokens.map position)[index]? = some earlier ∧
    tokens[index]? = some later ∧ later.position < earlier

theorem stepsBackFrom_cons_zero {previous : Position} {token : Token} {tokens : List Token} :
    StepsBackFrom previous (token :: tokens) 0 ↔ token.position < previous := by
  simp [StepsBackFrom]

theorem stepsBackFrom_cons_succ {previous : Position} {token : Token} {tokens : List Token}
    {index : Nat} :
    StepsBackFrom previous (token :: tokens) (index + 1) ↔
      StepsBackFrom token.position tokens index := by
  simp only [StepsBackFrom, List.map_cons, List.getElem?_cons_succ]

theorem stepsBackAt_iff_stepsBackFrom_origin {tokens : List Token} {index : Nat} :
    StepsBackAt tokens index ↔ StepsBackFrom .origin tokens index := by
  cases index with
  | zero =>
      constructor
      · intro back
        exact absurd back.1 (Nat.lt_irrefl 0)
      · intro back
        obtain ⟨earlier, later, front, _, backwards⟩ := back
        cases front
        exact absurd (Position.origin_le later.position) (Position.not_le.mpr backwards)
  | succ index =>
      simp only [StepsBackAt, StepsBackFrom, Nat.zero_lt_succ, true_and, Nat.add_sub_cancel,
        List.getElem?_cons_succ, List.getElem?_map, Option.map_eq_some_iff]
      constructor
      · intro back
        obtain ⟨earlier, later, front, behind, backwards⟩ := back
        exact ⟨earlier.position, later, ⟨earlier, front, rfl⟩, behind, backwards⟩
      · intro back
        obtain ⟨_, later, ⟨earlier, front, rfl⟩, behind, backwards⟩ := back
        exact ⟨earlier, later, front, behind, backwards⟩

theorem inOrderFrom_iff_forall_not_stepsBackFrom {previous : Position} {tokens : List Token} :
    InOrderFrom previous tokens ↔ ∀ index, ¬ StepsBackFrom previous tokens index := by
  induction tokens generalizing previous with
  | nil => simp [InOrderFrom, StepsBackFrom]
  | cons token tokens ih =>
      have split : (∀ index, ¬ StepsBackFrom previous (token :: tokens) index) ↔
          ¬ StepsBackFrom previous (token :: tokens) 0 ∧
            ∀ index, ¬ StepsBackFrom previous (token :: tokens) (index + 1) :=
        Nat.and_forall_add_one.symm
      rw [split, InOrderFrom, ih, stepsBackFrom_cons_zero, ← Position.not_le, Decidable.not_not]
      simp only [stepsBackFrom_cons_succ]

theorem inOrder_iff_forall_not_stepsBackAt {tokens : List Token} :
    InOrder tokens ↔ ∀ index, ¬ StepsBackAt tokens index := by
  rw [inOrder_iff_inOrderFrom_origin, inOrderFrom_iff_forall_not_stepsBackFrom]
  simp only [stepsBackAt_iff_stepsBackFrom_origin]

theorem decodeFrom_encodeFrom_eq_error_iff {previous : Position} {tokens : List Token}
    {index : Nat} {fault : Fault} :
    decodeFrom previous index (encodeFrom previous tokens) = .error fault ↔
      ∃ back, StepsBackFrom previous tokens back ∧
        (∀ earlier < back, ¬ StepsBackFrom previous tokens earlier) ∧
        fault = .positionOverflow (index + back) := by
  induction tokens generalizing previous index with
  | nil =>
      constructor
      · intro impossible
        cases impossible
      · intro refused
        obtain ⟨back, ⟨_, _, _, missing, _⟩, _⟩ := refused
        cases missing
  | cons token tokens ih =>
      rw [encodeFrom_cons, decodeFrom_wordsAfter_append]
      by_cases ordered : previous ≤ token.position
      · rw [if_pos ordered]
        have begins : ¬ StepsBackFrom previous (token :: tokens) 0 := by
          rw [stepsBackFrom_cons_zero, ← Position.not_le]
          exact not_not_intro ordered
        rw [Fault.map_eq_error_iff, ih]
        constructor
        · intro refused
          obtain ⟨back, stepsBack, isFirst, named⟩ := refused
          refine ⟨back + 1, stepsBackFrom_cons_succ.mpr stepsBack, ?_, ?_⟩
          · intro earlier bound
            cases earlier with
            | zero => exact begins
            | succ earlier =>
                rw [stepsBackFrom_cons_succ]
                exact isFirst earlier (Nat.lt_of_succ_lt_succ bound)
          · rw [named, Nat.add_right_comm, Nat.add_assoc]
        · intro refused
          obtain ⟨back, stepsBack, isFirst, named⟩ := refused
          cases back with
          | zero => exact absurd stepsBack begins
          | succ back =>
              refine ⟨back, stepsBackFrom_cons_succ.mp stepsBack, ?_, ?_⟩
              · intro earlier bound stepsEarlier
                exact isFirst (earlier + 1) (Nat.succ_lt_succ bound)
                  (stepsBackFrom_cons_succ.mpr stepsEarlier)
              · rw [named, Nat.add_right_comm, Nat.add_assoc]
      · rw [if_neg ordered]
        have begins : StepsBackFrom previous (token :: tokens) 0 := by
          rw [stepsBackFrom_cons_zero, ← Position.not_le]
          exact ordered
        constructor
        · intro refused
          cases refused
          exact ⟨0, begins, fun earlier bound => absurd bound (Nat.not_lt_zero earlier), rfl⟩
        · intro expected
          obtain ⟨back, _, isFirst, rfl⟩ := expected
          cases back with
          | zero => rfl
          | succ back => exact absurd begins (isFirst 0 (Nat.zero_lt_succ back))

/-- Reading what was written gives back a list without a step back, and refuses any other list at
its first step back; it never gives another list. -/
theorem decode_encode_iff (tokens : List Token) :
    (∀ read, decode (encode tokens) = .ok read ↔
        (∀ index, ¬ StepsBackAt tokens index) ∧ read = tokens) ∧
      ∀ fault, decode (encode tokens) = .error fault ↔
        ∃ index, FirstStepBack tokens index ∧ fault = .positionOverflow index := by
  constructor
  · intro read
    rw [decode_encode_eq_ok_iff, inOrder_iff_forall_not_stepsBackAt]
  · intro fault
    rw [decode_encode_eq, encode, decodeFrom_encodeFrom_eq_error_iff]
    simp only [FirstStepBack, stepsBackAt_iff_stepsBackFrom_origin, Nat.zero_add, and_assoc]

example : decode (encode [⟨2, 0, 1, 0, 0⟩, ⟨1, 9, 1, 0, 0⟩, ⟨0, 0, 1, 0, 0⟩]) =
    .error (.positionOverflow 1) := by
  rfl

end SemanticHighlight.Token

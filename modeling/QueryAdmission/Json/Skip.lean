import QueryAdmission.Json.Container

/-! Passing over values that nobody asked for. The brackets still open are kept in a list, so
values may be nested without limit; strings are not decoded and numbers are not computed. -/

namespace QueryAdmission.Json

/-- An escape, after its backslash. -/
def skipEscape : Bytes → Except Fault Bytes
  | [] => .error (.ended .text)
  | b :: s =>
    if b == Byte.letteru then
      match readUnit s with
      | .error e => .error e
      | .ok (_, r) => .ok r
    else if (escapedByte? b).isSome then .ok s
    else .error .badEscape

theorem length_skipEscape_lt {s r : Bytes} (h : skipEscape s = .ok r) : r.length < s.length := by
  unfold skipEscape at h
  split at h
  · cases h
  · split at h
    · split at h
      · cases h
      · cases h; exact Nat.lt_succ_of_lt (length_readUnit_lt ‹_›)
    · split at h
      · cases h; exact Nat.lt_succ_self _
      · cases h

/-- A string, after its opening quotation mark. -/
def skipText (s : Bytes) : Except Fault Bytes :=
  match s with
  | [] => .error (.ended .text)
  | b :: t =>
    if b == Byte.quote then .ok t
    else if b == Byte.backslash then
      match h : skipEscape t with
      | .error e => .error e
      | .ok r =>
        have : r.length < t.length := length_skipEscape_lt h
        skipText r
    else if b < 0x20 then .error .controlCharacter
    else skipText t
termination_by s.length

theorem length_skipText_lt {s r : Bytes} (h : skipText s = .ok r) : r.length < s.length := by
  fun_induction skipText s with
  | case1 => cases h
  | case2 => cases h; exact Nat.lt_succ_self _
  | case3 => cases h
  | case4 _ _ _ _ _ _ hlt ih =>
    have := ih h
    simp only [List.length_cons]
    omega
  | case5 => cases h
  | case6 _ _ _ _ _ ih => exact Nat.lt_succ_of_lt (ih h)

/-- One digit and all that follow it. -/
def skipDigits : Bytes → Except Fault Bytes
  | [] => .error .badNumber
  | b :: s => if Byte.isDigit b then .ok (s.dropWhile Byte.isDigit) else .error .badNumber

theorem length_dropWhile_le (p : UInt8 → Bool) (s : Bytes) :
    (s.dropWhile p).length ≤ s.length := by
  induction s with
  | nil => simp
  | cons b s ih =>
    rw [List.dropWhile_cons]
    split
    · exact Nat.le_succ_of_le ih
    · exact Nat.le_refl _

theorem length_skipDigits_lt {s r : Bytes} (h : skipDigits s = .ok r) : r.length < s.length := by
  unfold skipDigits at h
  split at h
  · cases h
  · split at h
    · cases h; exact Nat.lt_succ_of_le (length_dropWhile_le _ _)
    · cases h

/-- An exponent part, if one follows. -/
def skipExponent (s : Bytes) : Except Fault Bytes :=
  match s with
  | [] => .ok []
  | b :: t =>
    if Byte.isExponentMark b then
      match t with
      | [] => .error .badNumber
      | c :: u =>
        if c == Byte.plus || c == Byte.minus then skipDigits u else skipDigits (c :: u)
    else .ok (b :: t)

theorem length_skipExponent_le {s r : Bytes} (h : skipExponent s = .ok r) :
    r.length ≤ s.length := by
  unfold skipExponent at h
  split at h
  · cases h; exact Nat.le_refl _
  · split at h
    · split at h
      · cases h
      · split at h <;> have := length_skipDigits_lt h <;> simp only [List.length_cons] at * <;> omega
    · cases h; exact Nat.le_refl _

/-- A fraction and an exponent part, as far as they follow. -/
def skipScale (s : Bytes) : Except Fault Bytes :=
  match s with
  | [] => .ok []
  | b :: t =>
    if b == Byte.point then
      match skipDigits t with
      | .error e => .error e
      | .ok r => skipExponent r
    else skipExponent (b :: t)

theorem length_skipScale_le {s r : Bytes} (h : skipScale s = .ok r) : r.length ≤ s.length := by
  unfold skipScale at h
  split at h
  · cases h; exact Nat.le_refl _
  · split at h
    · split at h
      · cases h
      · rename_i hd
        have := length_skipDigits_lt hd
        have := length_skipExponent_le h
        simp only [List.length_cons]
        omega
    · exact length_skipExponent_le h

/-- A numeral, after its sign. -/
def skipMagnitude : Bytes → Except Fault Bytes
  | [] => .error .badNumber
  | b :: s =>
    if b == Byte.zero then
      if s.head?.any Byte.isDigit then .error .badNumber else skipScale s
    else
      match skipDigits (b :: s) with
      | .error e => .error e
      | .ok r => skipScale r

theorem length_skipMagnitude_lt {s r : Bytes} (h : skipMagnitude s = .ok r) :
    r.length < s.length := by
  unfold skipMagnitude at h
  split at h
  · cases h
  · split at h
    · split at h
      · cases h
      · exact Nat.lt_succ_of_le (length_skipScale_le h)
    · split at h
      · cases h
      · exact Nat.lt_of_le_of_lt (length_skipScale_le h) (length_skipDigits_lt ‹_›)

/-- A value that is neither a list nor an object, from its first byte on. -/
def skipScalar (b : UInt8) (s : Bytes) : Except Fault Bytes :=
  if b == Byte.lettern then restOfNull s
  else if b == Byte.lettert then restOfTrue s
  else if b == Byte.letterf then restOfFalse s
  else if b == Byte.minus then skipMagnitude s
  else if Byte.isDigit b then skipMagnitude (b :: s)
  else if b == Byte.quote then skipText s
  else .error .noValue

theorem length_skipScalar_le {b : UInt8} {s r : Bytes} (h : skipScalar b s = .ok r) :
    r.length ≤ s.length := by
  unfold skipScalar at h
  split at h
  · exact length_word_le h
  split at h
  · exact length_word_le h
  split at h
  · exact length_word_le h
  split at h
  · exact Nat.le_of_lt (length_skipMagnitude_lt h)
  split at h
  · exact Nat.le_of_lt_succ (length_skipMagnitude_lt h)
  split at h
  · exact Nat.le_of_lt (length_skipText_lt h)
  · cases h

/-- The name of a member and the colon after it. -/
def skipName (s : Bytes) : Except Fault Bytes :=
  match skipSpace s with
  | [] => .error (.ended .object)
  | b :: r =>
    if b == Byte.quote then
      match skipText r with
      | .error e => .error e
      | .ok t => readColon t
    else .error .nameNotText

theorem length_skipName_lt {s r : Bytes} (h : skipName s = .ok r) : r.length < s.length := by
  unfold skipName at h
  split at h
  · cases h
  · rename_i hs
    have hs := length_lt_of_skipSpace hs
    split at h
    · split at h
      · cases h
      · rename_i ht
        have := length_skipText_lt ht
        have := length_readColon_lt h
        omega
    · cases h

/-- An opening bracket whose closing bracket is still to come. -/
inductive Bracket where
  | square
  | curly
  deriving DecidableEq, Repr

/-- The state of a value that is passed over: the open brackets, the innermost first, whether a
value comes next in it, and the text to come. -/
structure Skip where
  wanted : Bool
  brackets : List Bracket
  rest : Bytes

/-- A scalar, an empty list or object, or an opening bracket up to the first value in it. -/
def Skip.start (brackets : List Bracket) (s : Bytes) : Except Fault Skip :=
  match skipSpace s with
  | [] => .error (.ended .value)
  | b :: r =>
    if b == Byte.openSquare then
      match skipSpace r with
      | [] => .error (.ended .list)
      | c :: t =>
        if c == Byte.closeSquare then .ok ⟨false, brackets, t⟩
        else .ok ⟨true, .square :: brackets, c :: t⟩
    else if b == Byte.openCurly then
      match skipSpace r with
      | [] => .error (.ended .object)
      | c :: t =>
        if c == Byte.closeCurly then .ok ⟨false, brackets, t⟩
        else
          match skipName (c :: t) with
          | .error e => .error e
          | .ok u => .ok ⟨true, .curly :: brackets, u⟩
    else
      match skipScalar b r with
      | .error e => .error e
      | .ok t => .ok ⟨false, brackets, t⟩

/-- What follows a value in a list or an object: a comma and all up to the next value, or the
closing bracket. -/
def Skip.continue (bracket : Bracket) (brackets : List Bracket) (s : Bytes) :
    Except Fault Skip :=
  match bracket with
  | .square =>
    match skipSpace s with
    | [] => .error (.ended .list)
    | b :: r =>
      if b == Byte.comma then .ok ⟨true, .square :: brackets, r⟩
      else if b == Byte.closeSquare then .ok ⟨false, brackets, r⟩
      else .error .noListEnd
  | .curly =>
    match skipSpace s with
    | [] => .error (.ended .object)
    | b :: r =>
      if b == Byte.comma then
        match skipName r with
        | .error e => .error e
        | .ok t => .ok ⟨true, .curly :: brackets, t⟩
      else if b == Byte.closeCurly then .ok ⟨false, brackets, r⟩
      else .error .noObjectEnd

theorem Skip.start_lt {brackets : List Bracket} {s : Bytes} {m : Skip}
    (h : Skip.start brackets s = .ok m) : m.rest.length < s.length := by
  unfold Skip.start at h
  split at h
  · cases h
  · rename_i b r hs
    have hs := length_lt_of_skipSpace hs
    have hr := length_skipSpace_le r
    split at h
    · split at h
      · cases h
      · rename_i ht
        rw [ht] at hr
        split at h
        · cases h; exact Nat.lt_trans (Nat.lt_of_lt_of_le (Nat.lt_succ_self _) hr) hs
        · cases h; exact Nat.lt_of_le_of_lt hr hs
    · split at h
      · split at h
        · cases h
        · rename_i ht
          rw [ht] at hr
          split at h
          · cases h; exact Nat.lt_trans (Nat.lt_of_lt_of_le (Nat.lt_succ_self _) hr) hs
          · split at h
            · cases h
            · rename_i hn
              cases h
              exact Nat.lt_trans (Nat.lt_of_lt_of_le (length_skipName_lt hn) hr) hs
      · split at h
        · cases h
        · rename_i hv
          cases h
          exact Nat.lt_of_le_of_lt (length_skipScalar_le hv) hs

theorem Skip.continue_lt {bracket : Bracket} {brackets : List Bracket} {s : Bytes} {m : Skip}
    (h : Skip.continue bracket brackets s = .ok m) : m.rest.length < s.length := by
  unfold Skip.continue at h
  split at h
  · split at h
    · cases h
    · rename_i hs
      have hs := length_lt_of_skipSpace hs
      split at h
      · cases h; exact hs
      · split at h
        · cases h; exact hs
        · cases h
  · split at h
    · cases h
    · rename_i hs
      have hs := length_lt_of_skipSpace hs
      split at h
      · split at h
        · cases h
        · rename_i hn
          cases h
          exact Nat.lt_trans (length_skipName_lt hn) hs
      · split at h
        · cases h; exact hs
        · cases h

/-- Passes over the rest of a value. -/
def Skip.finish (m : Skip) : Except Fault Bytes :=
  match m with
  | ⟨true, brackets, s⟩ =>
    match h : Skip.start brackets s with
    | .error e => .error e
    | .ok next =>
      have : next.rest.length < s.length := Skip.start_lt h
      next.finish
  | ⟨false, [], s⟩ => .ok s
  | ⟨false, bracket :: brackets, s⟩ =>
    match h : Skip.continue bracket brackets s with
    | .error e => .error e
    | .ok next =>
      have : next.rest.length < s.length := Skip.continue_lt h
      next.finish
termination_by m.rest.length

theorem Skip.length_finish_le {m : Skip} {r : Bytes} (h : m.finish = .ok r) :
    r.length ≤ m.rest.length := by
  fun_induction Skip.finish m with
  | case1 => cases h
  | case2 _ _ _ _ hlt ih => exact Nat.le_of_lt (Nat.lt_of_le_of_lt (ih h) hlt)
  | case3 => cases h; exact Nat.le_refl _
  | case4 => cases h
  | case5 _ _ _ _ _ hlt ih => exact Nat.le_of_lt (Nat.lt_of_le_of_lt (ih h) hlt)

/-- The text after the value at the front. -/
def skipValue (s : Bytes) : Except Fault Bytes := Skip.finish ⟨true, [], s⟩

theorem length_skipValue_lt {s r : Bytes} (h : skipValue s = .ok r) : r.length < s.length := by
  unfold skipValue Skip.finish at h
  split at h
  · cases h
  · exact Nat.lt_of_le_of_lt (Skip.length_finish_le h) (Skip.start_lt ‹_›)

/-- Passes over a value. -/
def Reader.skip : Reader Unit where
  run s :=
    match skipValue s with
    | .error e => .error e
    | .ok r => .ok ((), r)
  shorter := by
    intro s a r h
    split at h
    · cases h
    · cases h; exact length_skipValue_lt ‹_›

/-- The text of a value, without the white space before it. -/
def Reader.rawText : Reader String where
  run s :=
    let s := skipSpace s
    match skipValue s with
    | .error e => .error e
    | .ok r =>
      match textOf? (s.take (s.length - r.length)) with
      | none => .error .notText
      | some t => .ok (t, r)
  shorter := by
    intro s a r h
    simp only at h
    split at h
    · cases h
    · rename_i hv
      have hlt := Nat.lt_of_lt_of_le (length_skipValue_lt hv) (length_skipSpace_le s)
      split at h
      · cases h
      · cases h; exact hlt

end QueryAdmission.Json

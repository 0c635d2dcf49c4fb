import QueryAdmission.Json.Reader

/-! Strings in JSON texts. -/

namespace QueryAdmission.Json

/-- Four hexadecimal digits. -/
def readUnit : Bytes → Except Fault (Nat × Bytes)
  | a :: b :: c :: d :: s =>
    match Byte.hexDigit? a, Byte.hexDigit? b, Byte.hexDigit? c, Byte.hexDigit? d with
    | some a, some b, some c, some d => .ok (((a * 16 + b) * 16 + c) * 16 + d, s)
    | _, _, _, _ => .error .badEscape
  | _ => .error (.ended .text)

theorem length_readUnit_add {s r : Bytes} {n : Nat} (h : readUnit s = .ok (n, r)) :
    r.length + 4 = s.length := by
  unfold readUnit at h
  split at h
  · split at h
    · cases h; rfl
    · cases h
  · cases h

theorem length_readUnit_lt {s r : Bytes} {n : Nat} (h : readUnit s = .ok (n, r)) :
    r.length < s.length := by
  have := length_readUnit_add h
  omega

/-- The byte that must come between the two halves of a surrogate pair. -/
def readPairMark (mark : UInt8) : Bytes → Except Fault Bytes
  | [] => .error (.ended .text)
  | b :: s => if b == mark then .ok s else .error .unpairedSurrogate

theorem length_readPairMark_lt {mark : UInt8} {s r : Bytes} (h : readPairMark mark s = .ok r) :
    r.length < s.length := by
  unfold readPairMark at h
  split at h
  · cases h
  · split at h
    · cases h; exact Nat.lt_succ_self _
    · cases h

/-- The second half of a surrogate pair, and the character that both halves encode. -/
def readPair (high : Nat) (s : Bytes) : Except Fault (Char × Bytes) :=
  match readPairMark Byte.backslash s with
  | .error e => .error e
  | .ok s =>
    match readPairMark Byte.letteru s with
    | .error e => .error e
    | .ok s =>
      match readUnit s with
      | .error e => .error e
      | .ok (low, s) =>
        if 0xDC00 ≤ low ∧ low ≤ 0xDFFF then
          .ok (Char.ofNat (0x10000 + (high - 0xD800) * 0x400 + (low - 0xDC00)), s)
        else .error .loneSurrogate

theorem length_readPair_lt {high : Nat} {s r : Bytes} {c : Char}
    (h : readPair high s = .ok (c, r)) : r.length < s.length := by
  unfold readPair at h
  split at h
  · cases h
  · rename_i h₁
    have h₁ := length_readPairMark_lt h₁
    split at h
    · cases h
    · rename_i h₂
      have h₂ := length_readPairMark_lt h₂
      split at h
      · cases h
      · rename_i h₃
        have h₃ := length_readUnit_lt h₃
        split at h
        · obtain ⟨_, rfl⟩ := Prod.mk.inj (Except.ok.inj h)
          omega
        · cases h

/-- A character given by its UTF-16 units, after `\u`. -/
def readCodePoint (s : Bytes) : Except Fault (Char × Bytes) :=
  match readUnit s with
  | .error e => .error e
  | .ok (unit, s) =>
    if 0xDC00 ≤ unit ∧ unit ≤ 0xDFFF then .error .loneSurrogate
    else if 0xD800 ≤ unit ∧ unit ≤ 0xDBFF then readPair unit s
    else .ok (Char.ofNat unit, s)

theorem length_readCodePoint_add_le {s r : Bytes} {c : Char} (h : readCodePoint s = .ok (c, r)) :
    r.length + 4 ≤ s.length := by
  unfold readCodePoint at h
  split at h
  · cases h
  · rename_i hu
    have hu := length_readUnit_add hu
    split at h
    · cases h
    · split at h
      · have := length_readPair_lt h; omega
      · cases h; omega

theorem length_readCodePoint_lt {s r : Bytes} {c : Char} (h : readCodePoint s = .ok (c, r)) :
    r.length < s.length := by
  have := length_readCodePoint_add_le h
  omega

/-- The byte that a letter after a backslash stands for. -/
def escapedByte? (b : UInt8) : Option UInt8 :=
  if b == Byte.quote || b == Byte.backslash || b == Byte.slash then some b
  else if b == Byte.letterb then some 0x08
  else if b == Byte.letterf then some 0x0C
  else if b == Byte.lettern then some 0x0A
  else if b == Byte.letterr then some 0x0D
  else if b == Byte.lettert then some 0x09
  else none

/-- What an escape stands for, after its backslash. -/
def readEscape : Bytes → Except Fault (Bytes × Bytes)
  | [] => .error (.ended .text)
  | b :: s =>
    if b == Byte.letteru then
      match readCodePoint s with
      | .error e => .error e
      | .ok (c, r) => .ok (String.utf8EncodeChar c, r)
    else
      match escapedByte? b with
      | some c => .ok ([c], s)
      | none => .error .badEscape

theorem length_readEscape_lt {s r : Bytes} {c : Bytes} (h : readEscape s = .ok (c, r)) :
    r.length < s.length := by
  unfold readEscape at h
  split at h
  · cases h
  · split at h
    · split at h
      · cases h
      · rename_i hc
        cases h
        exact Nat.lt_succ_of_lt (length_readCodePoint_lt hc)
    · split at h
      · cases h; exact Nat.lt_succ_self _
      · cases h

theorem length_readEscape_add_le {s r c : Bytes} (h : readEscape s = .ok (c, r)) :
    c.length + r.length ≤ s.length := by
  unfold readEscape at h
  split at h
  · cases h
  · split at h
    · split at h
      · cases h
      · rename_i k _ hc
        have := length_readCodePoint_add_le hc
        have := Char.utf8Size_le_four k
        cases h
        rw [String.length_utf8EncodeChar, List.length_cons]
        omega
    · split at h
      · cases h; simp only [List.length_cons, List.length_nil]; omega
      · cases h

/-- The bytes of a string, after its opening quotation mark. `taken` holds those read before,
the last one first. -/
def readTextBytes (taken : Bytes) (s : Bytes) : Except Fault (Bytes × Bytes) :=
  match s with
  | [] => .error (.ended .text)
  | b :: t =>
    if b == Byte.quote then .ok (taken.reverse, t)
    else if b == Byte.backslash then
      match h : readEscape t with
      | .error e => .error e
      | .ok (c, r) =>
        have : r.length < t.length := length_readEscape_lt h
        readTextBytes (c.reverse ++ taken) r
    else if b < 0x20 then .error .controlCharacter
    else readTextBytes (b :: taken) t
termination_by s.length

theorem length_readTextBytes_lt {taken s r : Bytes} {t : Bytes}
    (h : readTextBytes taken s = .ok (t, r)) : r.length < s.length := by
  fun_induction readTextBytes taken s with
  | case1 => cases h
  | case2 => cases h; exact Nat.lt_succ_self _
  | case3 => cases h
  | case4 _ _ _ _ _ _ _ _ hlt ih =>
    have := ih h
    simp only [List.length_cons]
    omega
  | case5 => cases h
  | case6 _ _ _ _ _ _ ih => exact Nat.lt_succ_of_lt (ih h)

theorem length_readTextBytes_add_lt {taken s r t : Bytes}
    (h : readTextBytes taken s = .ok (t, r)) : t.length + r.length < taken.length + s.length := by
  fun_induction readTextBytes taken s with
  | case1 => cases h
  | case2 => cases h; simp only [List.length_reverse, List.length_cons]; omega
  | case3 => cases h
  | case4 _ _ _ _ _ _ _ he _ ih =>
    have := ih h
    have := length_readEscape_add_le he
    simp only [List.length_append, List.length_reverse, List.length_cons] at *
    omega
  | case5 => cases h
  | case6 _ _ _ _ _ _ ih =>
    have := ih h
    simp only [List.length_cons] at *
    omega

/-- A string, after its opening quotation mark. -/
def readText (s : Bytes) : Except Fault (String × Bytes) :=
  match readTextBytes [] s with
  | .error e => .error e
  | .ok (bytes, r) =>
    match textOf? bytes with
    | none => .error .notText
    | some t => .ok (t, r)

/-- A string is shorter than the text that writes it. -/
theorem length_readText_add_lt {s r : Bytes} {t : String} (h : readText s = .ok (t, r)) :
    (bytesOf t).length + r.length < s.length := by
  unfold readText at h
  split at h
  · cases h
  · rename_i hb
    have := length_readTextBytes_add_lt hb
    split at h
    · cases h
    · rename_i ht
      cases h
      rw [bytesOf_of_textOf? ht]
      simpa using this

theorem length_readText_lt {s r : Bytes} {t : String} (h : readText s = .ok (t, r)) :
    r.length < s.length := by
  have := length_readText_add_lt h
  omega

end QueryAdmission.Json

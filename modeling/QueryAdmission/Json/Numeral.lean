import QueryAdmission.Json.Reader
import QueryAdmission.Json.Value

/-! Numbers in JSON texts.

A numeral without fraction and exponent whose number fits 64 bits is a whole number. All others are
doubles: the digits that fit 64 bits form a significand, which is scaled by a power of ten in
double arithmetic. -/

namespace QueryAdmission.Json

/-- Digits that have been read: their value, how many they are, how many more did not fit, and the
text after them. -/
structure Digits where
  significand : Nat
  kept : Nat
  dropped : Nat
  rest : Bytes

/-- Adds digits to a significand. From the first digit that would take it to `2 ^ 64` on, digits
are dropped. -/
def readDigits (significand kept dropped : Nat) : Bytes → Digits
  | [] => ⟨significand, kept, dropped, []⟩
  | b :: s =>
    if Byte.isDigit b then
      let next := significand * 10 + (b.toNat - Byte.zero.toNat)
      if dropped = 0 ∧ next < UInt64.size then readDigits next (kept + 1) 0 s
      else readDigits significand kept (dropped + 1) s
    else ⟨significand, kept, dropped, b :: s⟩

theorem length_readDigits_le (n k d : Nat) (s : Bytes) :
    (readDigits n k d s).rest.length ≤ s.length := by
  fun_induction readDigits n k d s with
  | case1 => exact Nat.le_refl _
  | case2 _ _ _ _ _ _ _ _ ih => exact Nat.le_succ_of_le ih
  | case3 _ _ _ _ _ _ _ _ ih => exact Nat.le_succ_of_le ih
  | case4 => exact Nat.le_refl _

/-- A power of ten as a double; `n` is at most 308. -/
def powerOfTen (n : Nat) : Float := Float.ofScientific 1 false n

/-- Divides by `10 ^ n`, by at most `10 ^ 308` at a time. -/
def scaleDown (x : Float) (n : Nat) : Float :=
  if n ≤ 308 then x / powerOfTen n
  else if x == 0 then x
  else scaleDown (x / powerOfTen 308) (n - 308)
termination_by n

/-- `significand * 10 ^ exponent` in double arithmetic. -/
def toDouble (significand : Nat) (exponent : Int) : Except Fault Float :=
  let x := (UInt64.ofNat significand).toFloat
  if exponent < 0 then .ok (scaleDown x exponent.natAbs)
  else if exponent ≤ 308 then
    let y := x * powerOfTen exponent.natAbs
    if y.isInf then .error .numberRange else .ok y
  else if x == 0 then .ok x
  else .error .numberRange

def signed (negative : Bool) (x : Float) : Number := .double (if negative then -x else x)

/-- The number of a significand and a power of ten. -/
def scaled (negative : Bool) (significand : Nat) (exponent : Int) (rest : Bytes) :
    Except Fault (Number × Bytes) :=
  match toDouble significand exponent with
  | .error e => .error e
  | .ok x => .ok (signed negative x, rest)

/-- An optional sign: whether it is a minus sign, and the text after it. -/
def readSign : Bytes → Bool × Bytes
  | [] => (false, [])
  | b :: s =>
    if b == Byte.plus then (false, s)
    else if b == Byte.minus then (true, s)
    else (false, b :: s)

theorem length_readSign_le (s : Bytes) : (readSign s).2.length ≤ s.length := by
  unfold readSign
  split
  · exact Nat.le_refl _
  · split
    · exact Nat.le_succ _
    · split
      · exact Nat.le_succ _
      · exact Nat.le_refl _

/-- Exponents from here on are not followed further. -/
def exponentBound : Nat := 2147483648

/-- The digits of an exponent. -/
def readExponentDigits (n : Nat) : Bytes → Nat × Bytes
  | [] => (n, [])
  | b :: s =>
    if Byte.isDigit b then
      readExponentDigits (if n < exponentBound then n * 10 + (b.toNat - Byte.zero.toNat) else n) s
    else (n, b :: s)

theorem length_readExponentDigits_le (n : Nat) (s : Bytes) :
    (readExponentDigits n s).2.length ≤ s.length := by
  fun_induction readExponentDigits n s with
  | case1 => exact Nat.le_refl _
  | case2 n b s h ih => exact Nat.le_succ_of_le ih
  | case3 => exact Nat.le_refl _

/-- The exponent part of a numeral, after its mark. An exponent beyond the bound makes the
number zero or too great, whatever the significand's own exponent. -/
def readExponent (negative : Bool) (significand : Nat) (exponent : Int) (s : Bytes) :
    Except Fault (Number × Bytes) :=
  match readSign s with
  | (_, []) => .error (.ended .value)
  | (down, b :: t) =>
    if Byte.isDigit b then
      match readExponentDigits 0 (b :: t) with
      | (n, rest) =>
        if n < exponentBound then
          scaled negative significand (if down then exponent - n else exponent + n) rest
        else if significand ≠ 0 ∧ ¬ down then .error .numberRange
        else .ok (signed negative 0, rest)
    else .error .badNumber

/-- What follows the digits of a significand: an exponent part, or nothing more. -/
def readScale (negative : Bool) (significand : Nat) (exponent : Int) (s : Bytes) :
    Except Fault (Number × Bytes) :=
  match s with
  | [] => scaled negative significand exponent []
  | b :: t =>
    if Byte.isExponentMark b then readExponent negative significand exponent t
    else scaled negative significand exponent (b :: t)

/-- The fraction of a numeral, after its point. -/
def readFraction (negative : Bool) (significand dropped : Nat) (s : Bytes) :
    Except Fault (Number × Bytes) :=
  let digits := readDigits significand 0 0 s
  if digits.kept + digits.dropped = 0 then
    match s with
    | [] => .error (.ended .value)
    | _ :: _ => .error .badNumber
  else readScale negative digits.significand ((dropped : Int) - digits.kept) digits.rest

/-- The number of a numeral that is all digits. Minus zero and numbers that do not fit are
doubles. -/
def wholeNumber (negative : Bool) (digits : Digits) : Except Fault (Number × Bytes) :=
  if digits.dropped ≠ 0 then
    scaled negative digits.significand digits.dropped digits.rest
  else if ¬ negative then .ok (.whole digits.significand, digits.rest)
  else if 0 < digits.significand ∧ digits.significand ≤ 9223372036854775808 then
    .ok (.whole (-digits.significand), digits.rest)
  else .ok (signed true (UInt64.ofNat digits.significand).toFloat, digits.rest)

/-- What follows the whole part of a numeral. -/
def readAfterWhole (negative : Bool) (digits : Digits) : Except Fault (Number × Bytes) :=
  match digits.rest with
  | [] => wholeNumber negative digits
  | b :: t =>
    if b == Byte.point then readFraction negative digits.significand digits.dropped t
    else if Byte.isExponentMark b then
      readExponent negative digits.significand digits.dropped t
    else wholeNumber negative digits

/-- A numeral after its sign. A zero is not followed by another digit. -/
def readMagnitude (negative : Bool) : Bytes → Except Fault (Number × Bytes)
  | [] => .error (.ended .value)
  | b :: s =>
    if ¬ Byte.isDigit b then .error .badNumber
    else if b == Byte.zero && (s.head?.any Byte.isDigit) then .error .badNumber
    else readAfterWhole negative (readDigits 0 0 0 (b :: s))

/-- A numeral from its first byte `b` on. -/
def readNumber (b : UInt8) (s : Bytes) : Except Fault (Number × Bytes) :=
  if b == Byte.minus then readMagnitude true s else readMagnitude false (b :: s)

/-! ## Numerals use up text -/

theorem rest_scaled {negative : Bool} {n : Nat} {e : Int} {s r : Bytes} {x : Number}
    (h : scaled negative n e s = .ok (x, r)) : r = s := by
  unfold scaled at h
  split at h
  · cases h
  · cases h; rfl

theorem length_readExponent_lt {negative : Bool} {n : Nat} {e : Int} {s r : Bytes} {x : Number}
    (h : readExponent negative n e s = .ok (x, r)) : r.length < s.length := by
  unfold readExponent at h
  split at h
  · cases h
  · rename_i down b t hs
    have hle := length_readSign_le s
    rw [hs] at hle
    split at h
    · rename_i hb
      split at h
      rename_i m rest hm
      have hlt : rest.length < (b :: t).length := by
        have := length_readExponentDigits_le (b.toNat - Byte.zero.toNat) t
        simp only [readExponentDigits, hb, if_true] at hm
        simp only [exponentBound, Nat.zero_lt_succ, if_true, Nat.zero_mul, Nat.zero_add] at hm
        rw [hm] at this
        exact Nat.lt_succ_of_le this
      have hr : r = rest := by
        split at h
        · exact rest_scaled h
        · split at h
          · cases h
          · cases h; rfl
      subst hr
      exact Nat.lt_of_lt_of_le hlt hle
    · cases h

theorem length_readScale_le {negative : Bool} {n : Nat} {e : Int} {s r : Bytes} {x : Number}
    (h : readScale negative n e s = .ok (x, r)) : r.length ≤ s.length := by
  unfold readScale at h
  split at h
  · exact Nat.le_of_eq (congrArg _ (rest_scaled h))
  · split at h
    · exact Nat.le_succ_of_le (Nat.le_of_lt (length_readExponent_lt h))
    · exact Nat.le_of_eq (congrArg _ (rest_scaled h))

theorem length_readFraction_le {negative : Bool} {n d : Nat} {s r : Bytes} {x : Number}
    (h : readFraction negative n d s = .ok (x, r)) : r.length ≤ s.length := by
  unfold readFraction at h
  simp only at h
  split at h
  · split at h <;> cases h
  · exact Nat.le_trans (length_readScale_le h) (length_readDigits_le ..)

theorem rest_wholeNumber {negative : Bool} {d : Digits} {r : Bytes} {x : Number}
    (h : wholeNumber negative d = .ok (x, r)) : r = d.rest := by
  unfold wholeNumber at h
  split at h
  · exact rest_scaled h
  · split at h
    · cases h; rfl
    · split at h <;> cases h <;> rfl

theorem length_readAfterWhole_le {negative : Bool} {d : Digits} {r : Bytes} {x : Number}
    (h : readAfterWhole negative d = .ok (x, r)) : r.length ≤ d.rest.length := by
  unfold readAfterWhole at h
  split at h
  · exact Nat.le_of_eq (congrArg _ (rest_wholeNumber h))
  · rename_i b t hd
    rw [hd]
    split at h
    · exact Nat.le_succ_of_le (length_readFraction_le h)
    · split at h
      · exact Nat.le_succ_of_le (Nat.le_of_lt (length_readExponent_lt h))
      · rw [← hd]; exact Nat.le_of_eq (congrArg _ (rest_wholeNumber h))

theorem length_readMagnitude_lt {negative : Bool} {s r : Bytes} {x : Number}
    (h : readMagnitude negative s = .ok (x, r)) : r.length < s.length := by
  unfold readMagnitude at h
  split at h
  · cases h
  · rename_i b t
    split at h
    · cases h
    · rename_i hb
      split at h
      · cases h
      · have hd : Byte.isDigit b = true := by simpa using hb
        refine Nat.lt_succ_of_le (Nat.le_trans (length_readAfterWhole_le h) ?_)
        rw [readDigits, if_pos hd]
        dsimp only
        split <;> exact length_readDigits_le ..

theorem length_readNumber_le {b : UInt8} {s r : Bytes} {x : Number}
    (h : readNumber b s = .ok (x, r)) : r.length ≤ s.length := by
  unfold readNumber at h
  split at h
  · exact Nat.le_of_lt (length_readMagnitude_lt h)
  · exact Nat.le_of_lt_succ (length_readMagnitude_lt h)

end QueryAdmission.Json

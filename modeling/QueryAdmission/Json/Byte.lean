/-! The bytes that JSON gives a meaning. -/

namespace QueryAdmission

/-- What is left of a text, as bytes. -/
abbrev Bytes := List UInt8

namespace Byte

abbrev quote : UInt8 := 0x22
abbrev plus : UInt8 := 0x2B
abbrev comma : UInt8 := 0x2C
abbrev minus : UInt8 := 0x2D
abbrev point : UInt8 := 0x2E
abbrev zero : UInt8 := 0x30
abbrev nine : UInt8 := 0x39
abbrev colon : UInt8 := 0x3A
abbrev openSquare : UInt8 := 0x5B
abbrev backslash : UInt8 := 0x5C
abbrev closeSquare : UInt8 := 0x5D
abbrev openCurly : UInt8 := 0x7B
abbrev closeCurly : UInt8 := 0x7D
abbrev letterE : UInt8 := 0x45
abbrev letterb : UInt8 := 0x62
abbrev lettere : UInt8 := 0x65
abbrev letterf : UInt8 := 0x66
abbrev lettern : UInt8 := 0x6E
abbrev letterr : UInt8 := 0x72
abbrev lettert : UInt8 := 0x74
abbrev letteru : UInt8 := 0x75
abbrev slash : UInt8 := 0x2F

/-- The white space of JSON: space, tab, line feed and carriage return. -/
def isSpace (b : UInt8) : Bool :=
  b == 0x20 || b == 0x09 || b == 0x0A || b == 0x0D

def isDigit (b : UInt8) : Bool := zero ≤ b && b ≤ nine

def isExponentMark (b : UInt8) : Bool := b == lettere || b == letterE

/-- The value of a hexadecimal digit. -/
def hexDigit? (b : UInt8) : Option Nat :=
  let n := b.toNat
  if 0x30 ≤ n ∧ n ≤ 0x39 then some (n - 0x30)
  else if 0x41 ≤ n ∧ n ≤ 0x46 then some (n - 0x41 + 10)
  else if 0x61 ≤ n ∧ n ≤ 0x66 then some (n - 0x61 + 10)
  else none

end Byte

/-- A text as bytes. -/
def bytesOf (s : String) : Bytes := s.toByteArray.data.toList

/-- The text that bytes encode, if they are well-formed. -/
def textOf? (bytes : Bytes) : Option String := String.fromUTF8? ⟨bytes.toArray⟩

theorem bytesOf_of_textOf? {bytes : Bytes} {t : String} (h : textOf? bytes = some t) :
    bytesOf t = bytes := by
  unfold textOf? String.fromUTF8? at h
  split at h
  · cases h; simp [bytesOf, String.fromUTF8]
  · cases h

/-- The text from its first byte that is not white space. -/
def skipSpace (s : Bytes) : Bytes := s.dropWhile Byte.isSpace

theorem length_skipSpace_le (s : Bytes) : (skipSpace s).length ≤ s.length := by
  induction s with
  | nil => simp [skipSpace]
  | cons b s ih =>
    unfold skipSpace at ih ⊢
    rw [List.dropWhile_cons]
    split
    · exact Nat.le_succ_of_le ih
    · exact Nat.le_refl _

theorem length_lt_of_skipSpace {s r : Bytes} {b : UInt8} (h : skipSpace s = b :: r) :
    r.length < s.length := by
  have := length_skipSpace_le s
  rw [h] at this
  exact this

end QueryAdmission

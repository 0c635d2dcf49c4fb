import QueryAdmission.Json.Numeral
import QueryAdmission.Json.Text

/-! Values of another type than the one that is wanted. The fault names the value; scalars are read
to their end for that, lists and objects are not. -/

namespace QueryAdmission.Json

/-- The fault of a value whose type is not the expected one, from its first byte on. -/
def mismatch (expected : Expected) (b : UInt8) (s : Bytes) : Fault :=
  if b == Byte.lettern then
    match restOfNull s with
    | .error e => e
    | .ok _ => .mismatch .null expected
  else if b == Byte.lettert then
    match restOfTrue s with
    | .error e => e
    | .ok _ => .mismatch (.bool true) expected
  else if b == Byte.letterf then
    match restOfFalse s with
    | .error e => e
    | .ok _ => .mismatch (.bool false) expected
  else if b == Byte.minus || Byte.isDigit b then
    match readNumber b s with
    | .error e => e
    | .ok (.whole n, _) => .mismatch (.whole n) expected
    | .ok (.double x, _) => .mismatch (.double x) expected
  else if b == Byte.quote then
    match readText s with
    | .error e => e
    | .ok (t, _) => .mismatch (.text t) expected
  else if b == Byte.openSquare then .mismatch .list expected
  else if b == Byte.openCurly then .mismatch .object expected
  else .noValue

/-- A string, where `expected` is wanted. -/
def Reader.textFor (expected : Expected) : Reader String :=
  .onFirstByte
    (fun b s => if b == Byte.quote then readText s else .error (mismatch expected b s)) <| by
    intro b s t r h
    split at h
    · exact Nat.le_of_lt (length_readText_lt h)
    · cases h

theorem length_textFor_add_lt {e : Expected} {s r : Bytes} {t : String}
    (h : (Reader.textFor e).run s = .ok (t, r)) : (bytesOf t).length + r.length < s.length := by
  simp only [Reader.textFor, Reader.onFirstByte] at h
  split at h
  · cases h
  · rename_i hs
    have := length_lt_of_skipSpace hs
    split at h
    · have := length_readText_add_lt h; omega
    · cases h

end QueryAdmission.Json

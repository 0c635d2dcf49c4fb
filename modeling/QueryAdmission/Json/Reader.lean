import QueryAdmission.Json.Byte
import QueryAdmission.Json.Fault

/-! Readers of values from the front of a text. -/

namespace QueryAdmission.Json

/-- Reads a value and returns what follows it. A reader that succeeds has used up at least one
byte, so a loop over readers ends with the text. -/
structure Reader (α : Type) where
  run : Bytes → Except Fault (α × Bytes)
  shorter : ∀ {s : Bytes} {a : α} {r : Bytes}, run s = .ok (a, r) → r.length < s.length

namespace Reader

variable {α β : Type}

/-- Changes the value read. -/
def map (f : α → β) (p : Reader α) : Reader β where
  run s :=
    match p.run s with
    | .error e => .error e
    | .ok (a, r) => .ok (f a, r)
  shorter := by
    intro s b r h
    split at h
    · cases h
    · cases h; exact p.shorter ‹_›

/-- Reads a value from the first byte that is not white space; `k` gets that byte and what
follows it. -/
def onFirstByte (k : UInt8 → Bytes → Except Fault (α × Bytes))
    (hk : ∀ {b s a r}, k b s = .ok (a, r) → r.length ≤ s.length) : Reader α where
  run s :=
    match skipSpace s with
    | [] => .error (.ended .value)
    | b :: r => k b r
  shorter := by
    intro s a r h
    split at h
    · cases h
    · rename_i hs
      exact Nat.lt_of_le_of_lt (hk h) (length_lt_of_skipSpace hs)

/-- Reads a text that holds one value and, around it, only white space. -/
def readAll (p : Reader α) (s : Bytes) : Except Fault α :=
  match p.run s with
  | .error e => .error e
  | .ok (a, r) => if (skipSpace r).isEmpty then .ok a else .error .trailing

theorem readAll_congr {p q : Reader α} {s : Bytes} (h : p.run s = q.run s) :
    p.readAll s = q.readAll s := by
  unfold readAll
  rw [h]

end Reader

/-- The rest of a word whose first letter has been read. -/
def word : Bytes → Bytes → Except Fault Bytes
  | [], s => .ok s
  | _ :: _, [] => .error (.ended .value)
  | c :: cs, b :: s => if b = c then word cs s else .error .noWord

theorem length_word_le {w s r : Bytes} (h : word w s = .ok r) : r.length ≤ s.length := by
  fun_induction word w s with
  | case1 s => cases h; exact Nat.le_refl _
  | case2 => cases h
  | case3 c cs s ih => exact Nat.le_succ_of_le (ih h)
  | case4 => cases h

/-- `null`, after its first letter. -/
def restOfNull : Bytes → Except Fault Bytes := word [0x75, 0x6C, 0x6C]

/-- `true`, after its first letter. -/
def restOfTrue : Bytes → Except Fault Bytes := word [0x72, 0x75, 0x65]

/-- `false`, after its first letter. -/
def restOfFalse : Bytes → Except Fault Bytes := word [0x61, 0x6C, 0x73, 0x65]

end QueryAdmission.Json

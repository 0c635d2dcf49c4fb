import QueryAdmission.Json.Read
import QueryAdmission.Json.Skip

/-! Readers of values of one type. -/

namespace QueryAdmission.Json

/-- A string. -/
def Reader.text : Reader String := .textFor .text

/-- Only `null`. -/
def Reader.unit : Reader Unit :=
  .onFirstByte
    (fun b s =>
      if b == Byte.lettern then
        match restOfNull s with
        | .error e => .error e
        | .ok r => .ok ((), r)
      else .error (mismatch .unit b s)) <| by
    intro b s u r h
    split at h
    · split at h
      · cases h
      · cases h; exact length_word_le ‹_›
    · cases h

/-- `true` or `false`. -/
def Reader.bool : Reader Bool :=
  .onFirstByte
    (fun b s =>
      if b == Byte.lettert then
        match restOfTrue s with
        | .error e => .error e
        | .ok r => .ok (true, r)
      else if b == Byte.letterf then
        match restOfFalse s with
        | .error e => .error e
        | .ok r => .ok (false, r)
      else .error (mismatch .bool b s)) <| by
    intro b s u r h
    split at h
    · split at h
      · cases h
      · cases h; exact length_word_le ‹_›
    · split at h
      · split at h
        · cases h
        · cases h; exact length_word_le ‹_›
      · cases h

/-- A whole number from `least` on and below `bound`. -/
def Reader.wholeIn (least bound : Int) (expected : Expected) : Reader Int :=
  .onFirstByte
    (fun b s =>
      if b == Byte.minus || Byte.isDigit b then
        match readNumber b s with
        | .error e => .error e
        | .ok (.double x, _) => .error (.mismatch (.double x) expected)
        | .ok (.whole n, r) =>
          if least ≤ n ∧ n < bound then .ok (n, r) else .error (.outOfRange n expected)
      else .error (mismatch expected b s)) <| by
    intro b s n r h
    split at h
    · split at h
      · cases h
      · cases h
      · rename_i hx
        split at h
        · cases h; exact length_readNumber_le hx
        · cases h
    · cases h

def Reader.word32 : Reader UInt32 := (wholeIn 0 UInt32.size .word32).map fun n => .ofNat n.toNat

def Reader.word64 : Reader UInt64 := (wholeIn 0 UInt64.size .word64).map fun n => .ofNat n.toNat

def Reader.signed64 : Reader Int64 :=
  (wholeIn (-9223372036854775808) 9223372036854775808 .signed64).map .ofInt

variable {α : Type}

/-- A value or `null`. -/
def Reader.optional (p : Reader α) : Reader (Option α) :=
  .onFirstByte
    (fun b s =>
      if b == Byte.lettern then
        match restOfNull s with
        | .error e => .error e
        | .ok r => .ok (none, r)
      else
        match p.run (b :: s) with
        | .error e => .error e
        | .ok (a, r) => .ok (some a, r)) <| by
    intro b s a r h
    split at h
    · split at h
      · cases h
      · cases h; exact length_word_le ‹_›
    · split at h
      · cases h
      · cases h; exact Nat.le_of_lt_succ (p.shorter ‹_›)

/-- A list of values of one type. -/
def Reader.listOf (item : Reader α) : Reader (List α) :=
  .onFirstByte
    (fun b s =>
      if b == Byte.openSquare then
        match readItems item true [] s with
        | .error e => .error e
        | .ok (l, r) => .ok (l.reverse, r)
      else .error (mismatch .list b s)) <| by
    intro b s l r h
    split at h
    · split at h
      · cases h
      · cases h; exact Nat.le_of_lt (length_readItems_lt ‹_›)
    · cases h

/-- An object whose values have one type; of members with one name the last stays. -/
def Reader.keyedOf (value : Reader α) : Reader (Keyed α) :=
  .onFirstByte
    (fun b s =>
      if b == Byte.openCurly then
        match readEntries value s with
        | .error e => .error e
        | .ok (l, r) => .ok (.ofList l.reverse, r)
      else .error (mismatch .object b s)) <| by
    intro b s l r h
    split at h
    · split at h
      · cases h
      · cases h; exact Nat.le_of_lt (length_readEntries_lt ‹_›)
    · cases h

/-- The value that a name stands for. -/
def named (known : List (String × α)) (name : String) : Except Fault α :=
  match known.lookup name with
  | none => .error (.unknownVariant name (known.map (·.1)))
  | some a => .ok a

/-- The rest of an object with one member, whose name stands for a value and whose own value is
`null`. An object without members stands for nothing. -/
def readNamedMember (known : List (String × α)) (s : Bytes) : Except Fault (α × Bytes) :=
  match skipSpace s with
  | [] => .error (.ended .object)
  | b :: r =>
    if b == Byte.quote then
      match readText r with
      | .error e => .error e
      | .ok (name, r) =>
        match named known name with
        | .error e => .error e
        | .ok a =>
          match readColon r with
          | .error e => .error e
          | .ok r =>
            match Reader.unit.run r with
            | .error e => .error e
            | .ok (_, r) =>
              match skipSpace r with
              | [] => .error (.ended .object)
              | c :: t => if c == Byte.closeCurly then .ok (a, t) else .error .noValue
    else .error (if b == Byte.closeCurly then .noValue else .nameNotText)

theorem length_readNamedMember_lt {known : List (String × α)} {s r : Bytes} {a : α}
    (h : readNamedMember known s = .ok (a, r)) : r.length < s.length := by
  unfold readNamedMember at h
  split at h
  · cases h
  · rename_i hs
    have hs := length_lt_of_skipSpace hs
    split at h
    · split at h
      · cases h
      · rename_i ht
        have ht := length_readText_lt ht
        split at h
        · cases h
        · split at h
          · cases h
          · rename_i hc
            have hc := length_readColon_lt hc
            split at h
            · cases h
            · rename_i hu
              have hu := Reader.unit.shorter hu
              split at h
              · cases h
              · rename_i hr
                have hr := length_lt_of_skipSpace hr
                split at h
                · cases h; omega
                · cases h
    · cases h

/-- One of several values by its name: a string, or an object that pairs the name with `null`. -/
def Reader.oneOf (known : List (String × α)) : Reader α :=
  .onFirstByte
    (fun b s =>
      if b == Byte.quote then
        match readText s with
        | .error e => .error e
        | .ok (name, r) =>
          match named known name with
          | .error e => .error e
          | .ok a => .ok (a, r)
      else if b == Byte.openCurly then readNamedMember known s
      else .error .noValue) <| by
    intro b s a r h
    split at h
    · split at h
      · cases h
      · rename_i ht
        split at h
        · cases h
        · cases h; exact Nat.le_of_lt (length_readText_lt ht)
    · split at h
      · exact Nat.le_of_lt (length_readNamedMember_lt h)
      · cases h

end QueryAdmission.Json

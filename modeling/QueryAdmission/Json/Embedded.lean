import QueryAdmission.Json.Container
import QueryAdmission.Json.Mismatch
import QueryAdmission.Json.Value

/-! Values spelled by a string.

An object whose first member has one certain name stands for the value that the string at that
member spells. It has no other members. -/

namespace QueryAdmission.Json

/-- The name that marks a string as the text of a value. -/
def embeddedName : String := "$serde_json::private::RawValue"

/-- What follows the name of the first member of an object, if that name is the mark. -/
def afterMark? (s : Bytes) : Option Bytes :=
  match nextMember true s with
  | .ok (.item t) =>
    match readText t with
    | .ok (name, r) => if name = embeddedName then some r else none
    | .error _ => none
  | _ => none

theorem length_afterMark?_lt {s r : Bytes} (h : afterMark? s = some r) : r.length < s.length := by
  unfold afterMark? at h
  split at h
  · rename_i hn
    have := length_nextMember_lt hn
    split at h
    · rename_i ht
      have := length_readText_lt ht
      split at h
      · cases h; omega
      · cases h
    · cases h
  · cases h

/-- The end of an object that has given its only member. -/
def readObjectEnd (s : Bytes) : Except Fault Bytes :=
  match skipSpace s with
  | [] => .error (.ended .object)
  | b :: r =>
    if b == Byte.closeCurly then .ok r
    else if b == Byte.comma then .error .trailingComma
    else .error .trailing

theorem length_readObjectEnd_lt {s r : Bytes} (h : readObjectEnd s = .ok r) :
    r.length < s.length := by
  unfold readObjectEnd at h
  split at h
  · cases h
  · rename_i hs
    split at h
    · cases h; exact length_lt_of_skipSpace hs
    · split at h <;> cases h

/-- The value of an object, after the mark. `spelled` tells what a text spells. -/
def readMarked (spelled : Bytes → Except Fault Json) (s : Bytes) : Except Fault (Json × Bytes) :=
  match readColon s with
  | .error e => .error e
  | .ok t =>
    match (Reader.textFor .embedded).run t with
    | .error e => .error e
    | .ok (spelling, u) =>
      match spelled (bytesOf spelling) with
      | .error e => .error e
      | .ok v =>
        match readObjectEnd u with
        | .error e => .error e
        | .ok r => .ok (v, r)

theorem length_readMarked_lt {spelled : Bytes → Except Fault Json} {s r : Bytes} {v : Json}
    (h : readMarked spelled s = .ok (v, r)) : r.length < s.length := by
  unfold readMarked at h
  split at h
  · cases h
  · rename_i hc
    have := length_readColon_lt hc
    split at h
    · cases h
    · rename_i ht
      have := (Reader.textFor .embedded).shorter ht
      split at h
      · cases h
      · split at h
        · cases h
        · rename_i he
          have := length_readObjectEnd_lt he
          cases h
          omega

theorem readMarked_congr {f g : Bytes → Except Fault Json} {s : Bytes}
    (h : ∀ t : Bytes, t.length < s.length → f t = g t) : readMarked f s = readMarked g s := by
  unfold readMarked
  split
  · rfl
  · rename_i t hc
    have := length_readColon_lt hc
    split
    · rfl
    · rename_i ht
      have := length_textFor_add_lt ht
      rw [h _ (by omega)]

end QueryAdmission.Json

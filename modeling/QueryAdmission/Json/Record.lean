import QueryAdmission.Json.Typed

/-! Records: values with named members, each of its own type. -/

namespace QueryAdmission.Json

variable {ρ : Type}

/-- A member of a record of type `ρ`, read as a change of the record. -/
structure Member (ρ : Type) where
  name : String
  required : Bool
  change : Reader (ρ → ρ)

/-- A record type as it is written: an object of its members in any order, members of other names
aside, or a list of its members in their order. -/
structure Record (ρ : Type) where
  title : String
  members : List (Member ρ)

namespace Record

/-- How the value of a member is read: into the record once, and not at all if the record has no
such member. The state is the record so far with the names of the members seen. -/
def member (t : Record ρ) (state : List String × ρ) (name : String) :
    Except Fault (Reader (List String × ρ)) :=
  match t.members.find? (·.name == name) with
  | none => .ok (Reader.skip.map fun _ => state)
  | some m =>
    if state.1.contains name then .error (.duplicate name)
    else .ok (m.change.map fun f => (name :: state.1, f state.2))

/-- The first required member that was not seen. -/
def absent? (t : Record ρ) (seen : List String) : Option String :=
  (t.members.find? fun m => m.required && !seen.contains m.name).map (·.name)

/-- The record of an object, after its opening bracket. -/
def readObject (t : Record ρ) (blank : ρ) (s : Bytes) : Except Fault (ρ × Bytes) :=
  match readMembers t.member true ([], blank) s with
  | .error e => .error e
  | .ok ((seen, a), r) =>
    match t.absent? seen with
    | some name => .error (.missing name)
    | none => .ok (a, r)

/-- The end of a list that has given all members. -/
def readListEnd (s : Bytes) : Except Fault Bytes :=
  match skipSpace s with
  | [] => .error (.ended .list)
  | b :: r =>
    if b == Byte.closeSquare then .ok r
    else if b == Byte.comma then
      match skipSpace r with
      | [] => .error .trailing
      | c :: _ => if c == Byte.closeSquare then .error .trailingComma else .error .trailing
    else .error .trailing

/-- The members of a list, after the first `present` of them. A list may stop before a member that
is not required. -/
def readInOrder (t : Record ρ) : List (Member ρ) → (present : Nat) → ρ → Bytes →
    Except Fault (ρ × Bytes)
  | [], _, a, s =>
    match readListEnd s with
    | .error e => .error e
    | .ok r => .ok (a, r)
  | m :: rest, present, a, s =>
    match nextItem (present == 0) s with
    | .error e => .error e
    | .ok (.close r) =>
      if (m :: rest).any (·.required) then
        .error (.wrongLength (present + ((m :: rest).takeWhile (!·.required)).length)
          t.title t.members.length)
      else .ok (a, r)
    | .ok (.item u) =>
      match m.change.run u with
      | .error e => .error e
      | .ok (f, r) => readInOrder t rest (present + 1) (f a) r

theorem length_readListEnd_lt {s r : Bytes} (h : readListEnd s = .ok r) :
    r.length < s.length := by
  unfold readListEnd at h
  split at h
  · cases h
  · rename_i hs
    split at h
    · cases h; exact length_lt_of_skipSpace hs
    · split at h
      · split at h
        · cases h
        · split at h <;> cases h
      · cases h

theorem length_readInOrder_lt {t : Record ρ} {ms : List (Member ρ)} {n : Nat} {a b : ρ}
    {s r : Bytes} (h : readInOrder t ms n a s = .ok (b, r)) : r.length < s.length := by
  induction ms generalizing n a s with
  | nil =>
    unfold readInOrder at h
    split at h
    · cases h
    · cases h; exact length_readListEnd_lt ‹_›
  | cons m rest ih =>
    unfold readInOrder at h
    split at h
    · cases h
    · split at h
      · cases h
      · cases h; exact length_nextItem_close_lt ‹_›
    · rename_i hn
      split at h
      · cases h
      · rename_i hm
        have := length_nextItem_le hn
        have := m.change.shorter hm
        have := ih h
        omega

theorem length_readObject_lt {t : Record ρ} {blank a : ρ} {s r : Bytes}
    (h : t.readObject blank s = .ok (a, r)) : r.length < s.length := by
  unfold readObject at h
  split at h
  · cases h
  · rename_i hm
    split at h
    · cases h
    · cases h; exact length_readMembers_lt hm

/-- Reads a record. Members that are not given keep their values in `blank`. -/
def reader (t : Record ρ) (blank : ρ) : Reader ρ :=
  .onFirstByte
    (fun b s =>
      if b == Byte.openSquare then t.readInOrder t.members 0 blank s
      else if b == Byte.openCurly then t.readObject blank s
      else .error (mismatch (.record t.title) b s)) <| by
    intro b s a r h
    split at h
    · exact Nat.le_of_lt (length_readInOrder_lt h)
    · split at h
      · exact Nat.le_of_lt (length_readObject_lt h)
      · cases h

end Record

/-- A member that may be left out. -/
def field (name : String) {α : Type} (p : Reader α) (set : α → ρ → ρ) : Member ρ :=
  ⟨name, false, p.map set⟩

/-- A member that must be there. -/
def requiredField (name : String) {α : Type} (p : Reader α) (set : α → ρ → ρ) : Member ρ :=
  ⟨name, true, p.map set⟩

end QueryAdmission.Json

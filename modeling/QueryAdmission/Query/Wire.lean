import QueryAdmission.Json.Typed
import QueryAdmission.Query.Basic

/-! Queries as they come over the wire.

The text is an object whose member `selections` lists the fields. A field is an object with the
members `name`, `alias`, `arguments` and `selections`, all but the name optional, in any order;
members of other names are passed over. Fields may be nested without limit: what is open is kept in
a list of frames. -/

namespace QueryAdmission

open Json (Reader Fault)

namespace Wire

/-- What a text must go on with. -/
inductive Wanted where
  | openDocument
  | nextField
  | openField
  | nextMember
  | memberName
  | colon
  | value
  | documentEnd
  deriving DecidableEq, Repr

def Wanted.message : Wanted → String
  | .openDocument => "`\x7b`"
  | .nextField => "`,` or `]`"
  | .openField => "a selection object"
  | .nextMember => "`,` or `\x7d`"
  | .memberName => "a member name"
  | .colon => "`:`"
  | .value => "a value"
  | .documentEnd => "end of document"

/-- Why a text is no query. -/
inductive Cause where
  | expected (wanted : Wanted)
  | nameless
  | value (fault : Fault)
  deriving Repr

/-- A cause with the text that starts where it was found. -/
structure Stop where
  cause : Cause
  rest : Bytes

/-- A cause with the number of bytes before it. -/
structure Error where
  cause : Cause
  offset : Nat
  deriving Repr

def Error.message (e : Error) : String :=
  match e.cause with
  | .expected wanted => "expected " ++ wanted.message ++ " at byte " ++ toString e.offset
  | .nameless => "selection at byte " ++ toString e.offset ++ " has no name"
  | .value fault => "invalid value at byte " ++ toString e.offset ++ ": " ++ fault.message

/-! ## Single pieces of the text -/

/-- The text after a byte, if that byte comes next. -/
def after? (b : UInt8) (s : Bytes) : Option Bytes :=
  match skipSpace s with
  | [] => none
  | c :: r => if c == b then some r else none

/-- The text after a byte that must come next. -/
def expect (b : UInt8) (wanted : Wanted) (s : Bytes) : Except Stop Bytes :=
  match after? b s with
  | none => .error ⟨.expected wanted, skipSpace s⟩
  | some r => .ok r

/-- Whether a value can end before a byte. -/
def separates (b : UInt8) : Bool :=
  Byte.isSpace b || b == Byte.quote || b == Byte.openSquare || b == Byte.closeSquare ||
    b == Byte.openCurly || b == Byte.closeCurly || b == Byte.comma || b == Byte.colon

/-- A value in its place. One that starts without a bracket or a quotation mark does not show
where it ends, so it must be followed by a byte that separates. -/
def readPiece {α : Type} (p : Reader α) (s : Bytes) : Except Stop (α × Bytes) :=
  match skipSpace s with
  | [] => .error ⟨.expected .value, []⟩
  | b :: t =>
    match p.run (b :: t) with
    | .error fault => .error ⟨.value fault, b :: t⟩
    | .ok (a, r) =>
      if b == Byte.openSquare || b == Byte.quote || b == Byte.openCurly || r.head?.all separates
      then .ok (a, r)
      else .error ⟨.value .trailing, b :: t⟩

/-- The name of a member and the colon after it. -/
def readName (s : Bytes) : Except Stop (String × Bytes) :=
  match skipSpace s with
  | [] => .error ⟨.expected .memberName, []⟩
  | b :: t =>
    if b == Byte.quote then
      match readPiece Reader.text (b :: t) with
      | .error e => .error e
      | .ok (name, r) =>
        match expect Byte.colon .colon r with
        | .error e => .error e
        | .ok r => .ok (name, r)
    else .error ⟨.expected .memberName, b :: t⟩

theorem length_after?_lt {b : UInt8} {s r : Bytes} (h : after? b s = some r) :
    r.length < s.length := by
  unfold after? at h
  split at h
  · cases h
  · rename_i hs
    split at h
    · cases h; exact length_lt_of_skipSpace hs
    · cases h

theorem length_expect_lt {b : UInt8} {wanted : Wanted} {s r : Bytes}
    (h : expect b wanted s = .ok r) : r.length < s.length := by
  unfold expect at h
  split at h
  · cases h
  · cases h; exact length_after?_lt ‹_›

theorem length_readPiece_lt {α : Type} {p : Reader α} {s r : Bytes} {a : α}
    (h : readPiece p s = .ok (a, r)) : r.length < s.length := by
  unfold readPiece at h
  split at h
  · cases h
  · rename_i b t hs
    have hle := length_skipSpace_le s
    rw [hs] at hle
    split at h
    · cases h
    · rename_i hp
      split at h
      · cases h; exact Nat.lt_of_lt_of_le (p.shorter hp) hle
      · cases h

theorem length_readName_lt {s r : Bytes} {name : String} (h : readName s = .ok (name, r)) :
    r.length < s.length := by
  unfold readName at h
  split at h
  · cases h
  · rename_i b t hs
    have hle := length_skipSpace_le s
    rw [hs] at hle
    split at h
    · split at h
      · cases h
      · rename_i hp
        have := length_readPiece_lt hp
        split at h
        · cases h
        · rename_i hc
          have := length_expect_lt hc
          cases h
          omega
    · cases h

/-! ## The members of a field -/

/-- Arguments: values that count the object they stand in as their first level. -/
def arguments : Reader (Option (Keyed Json)) :=
  .optional (.keyedOf (.value (Json.maxDepth - 1)))

/-- Applies a member of a field to the field at `place`, and tells whether the field has got its
name. An empty name names nothing. -/
def readMember (q : Query) (place : Nat) (isNamed : Bool) (name : String) (s : Bytes) :
    Except Stop (Query × Bool × Bytes) :=
  if name = "name" then
    match readPiece Reader.text s with
    | .error e => .error e
    | .ok (text, r) =>
      if text = "" then .ok (q, isNamed, r)
      else .ok (q.modify place fun f => { f with name := text }, true, r)
  else if name = "alias" then
    match readPiece (.optional .text) s with
    | .error e => .error e
    | .ok (label, r) => .ok (q.modify place fun f => { f with label := label }, isNamed, r)
  else if name = "arguments" then
    match readPiece arguments s with
    | .error e => .error e
    | .ok (given, r) =>
      .ok (q.modify place fun f =>
        { f with arguments := f.arguments.union (given.getD ∅) }, isNamed, r)
  else
    match readPiece Reader.skip s with
    | .error e => .error e
    | .ok (_, r) => .ok (q, isNamed, r)

theorem length_readMember_lt {q q' : Query} {place : Nat} {isNamed isNamed' : Bool}
    {name : String} {s r : Bytes}
    (h : readMember q place isNamed name s = .ok (q', isNamed', r)) : r.length < s.length := by
  unfold readMember at h
  split at h
  · split at h
    · cases h
    · rename_i hp
      have := length_readPiece_lt hp
      split at h <;> cases h <;> exact this
  split at h
  · split at h
    · cases h
    · cases h; exact length_readPiece_lt ‹_›
  split at h
  · split at h
    · cases h
    · cases h; exact length_readPiece_lt ‹_›
  · split at h
    · cases h
    · cases h; exact length_readPiece_lt ‹_›

/-! ## The frames -/

/-- Something open in the text. -/
inductive Frame where
  /-- The object around everything. -/
  | document
  /-- A list of fields, the children of `parent`. -/
  | list (parent : Nat)
  /-- The object of the field at `place`, whose text starts with `start`. -/
  | field (place : Nat) (start : Bytes) (isNamed : Bool)

/-- The place whose children a frame lists. -/
def Frame.place : Frame → Nat
  | .document => Query.root
  | .list parent => parent
  | .field place _ _ => place

/-- The state of reading: what is open, the innermost first, whether nothing has been read in the
innermost frame yet, the query so far and the text to come. -/
structure State where
  frames : List Frame
  fresh : Bool
  query : Query
  rest : Bytes

/-- The text after the comma that comes before all items but the first. -/
def readComma (fresh : Bool) (wanted : Wanted) (s : Bytes) : Except Stop Bytes :=
  if fresh then .ok s else expect Byte.comma wanted s

theorem length_readComma_le {fresh : Bool} {wanted : Wanted} {s r : Bytes}
    (h : readComma fresh wanted s = .ok r) : r.length ≤ s.length := by
  unfold readComma at h
  split at h
  · cases h; exact Nat.le_refl _
  · exact Nat.le_of_lt (length_expect_lt h)

/-- A round inside a list of fields: its end, or the beginning of its next field. -/
def stepList (parent : Nat) (frames : List Frame) (fresh : Bool) (q : Query) (s : Bytes) :
    Except Stop State :=
  match after? Byte.closeSquare s with
  | some r => .ok ⟨frames, false, q, r⟩
  | none =>
    match readComma fresh .nextField s with
    | .error e => .error e
    | .ok t =>
      match expect Byte.openCurly .openField t with
      | .error e => .error e
      | .ok r =>
        .ok ⟨.field q.fields.size (skipSpace t) false :: .list parent :: frames, true,
          q.add parent "" none, r⟩

/-- A member `selections`: a list of fields that is still to be read, or `null`. -/
def stepSelections (frame : Frame) (frames : List Frame) (q : Query) (s : Bytes) :
    Except Stop State :=
  match after? Byte.openSquare s with
  | some r => .ok ⟨.list frame.place :: frame :: frames, true, q, r⟩
  | none =>
    match readPiece Reader.unit s with
    | .error e => .error e
    | .ok (_, r) => .ok ⟨frame :: frames, false, q, r⟩

/-- A round inside the outermost object: its end or a member. -/
def stepDocument (frames : List Frame) (fresh : Bool) (q : Query) (s : Bytes) :
    Except Stop State :=
  match after? Byte.closeCurly s with
  | some r => .ok ⟨frames, false, q, r⟩
  | none =>
    match readComma fresh .nextMember s with
    | .error e => .error e
    | .ok t =>
      match readName t with
      | .error e => .error e
      | .ok (name, r) =>
        if name = "selections" then stepSelections .document frames q r
        else
          match readPiece Reader.skip r with
          | .error e => .error e
          | .ok (_, u) => .ok ⟨.document :: frames, false, q, u⟩

/-- A round inside a field: its end, which a field without a name does not reach, or a member. -/
def stepField (place : Nat) (start : Bytes) (isNamed : Bool) (frames : List Frame) (fresh : Bool)
    (q : Query) (s : Bytes) : Except Stop State :=
  match after? Byte.closeCurly s with
  | some r => if isNamed then .ok ⟨frames, false, q, r⟩ else .error ⟨.nameless, start⟩
  | none =>
    match readComma fresh .nextMember s with
    | .error e => .error e
    | .ok t =>
      match readName t with
      | .error e => .error e
      | .ok (name, r) =>
        if name = "selections" then stepSelections (.field place start isNamed) frames q r
        else
          match readMember q place isNamed name r with
          | .error e => .error e
          | .ok (q, isNamed, u) => .ok ⟨.field place start isNamed :: frames, false, q, u⟩

/-- A round inside a frame. -/
def step (frame : Frame) (frames : List Frame) (fresh : Bool) (q : Query) (s : Bytes) :
    Except Stop State :=
  match frame with
  | .document => stepDocument frames fresh q s
  | .list parent => stepList parent frames fresh q s
  | .field place start isNamed => stepField place start isNamed frames fresh q s

/-! ## Every round uses up text -/

theorem stepList_lt {parent : Nat} {frames : List Frame} {fresh : Bool} {q : Query} {s : Bytes}
    {m : State} (h : stepList parent frames fresh q s = .ok m) : m.rest.length < s.length := by
  unfold stepList at h
  split at h
  · cases h; exact length_after?_lt ‹_›
  · split at h
    · cases h
    · rename_i hc
      have := length_readComma_le hc
      split at h
      · cases h
      · rename_i ho
        have := length_expect_lt ho
        cases h
        dsimp only
        omega

theorem stepSelections_lt {frame : Frame} {frames : List Frame} {q : Query} {s : Bytes}
    {m : State} (h : stepSelections frame frames q s = .ok m) : m.rest.length < s.length := by
  unfold stepSelections at h
  split at h
  · cases h; exact length_after?_lt ‹_›
  · split at h
    · cases h
    · cases h; exact length_readPiece_lt ‹_›

theorem stepDocument_lt {frames : List Frame} {fresh : Bool} {q : Query} {s : Bytes} {m : State}
    (h : stepDocument frames fresh q s = .ok m) : m.rest.length < s.length := by
  unfold stepDocument at h
  split at h
  · cases h; exact length_after?_lt ‹_›
  · split at h
    · cases h
    · rename_i hc
      have := length_readComma_le hc
      split at h
      · cases h
      · rename_i hn
        have := length_readName_lt hn
        split at h
        · have := stepSelections_lt h
          omega
        · split at h
          · cases h
          · rename_i hp
            have := length_readPiece_lt hp
            cases h
            dsimp only
            omega

theorem stepField_lt {place : Nat} {start : Bytes} {isNamed : Bool} {frames : List Frame}
    {fresh : Bool} {q : Query} {s : Bytes} {m : State}
    (h : stepField place start isNamed frames fresh q s = .ok m) : m.rest.length < s.length := by
  unfold stepField at h
  split at h
  · rename_i he
    split at h
    · cases h; exact length_after?_lt he
    · cases h
  · split at h
    · cases h
    · rename_i hc
      have := length_readComma_le hc
      split at h
      · cases h
      · rename_i hn
        have := length_readName_lt hn
        split at h
        · have := stepSelections_lt h
          omega
        · split at h
          · cases h
          · rename_i hp
            have := length_readMember_lt hp
            cases h
            dsimp only
            omega

theorem step_lt {frame : Frame} {frames : List Frame} {fresh : Bool} {q : Query} {s : Bytes}
    {m : State} (h : step frame frames fresh q s = .ok m) : m.rest.length < s.length := by
  unfold step at h
  split at h
  · exact stepDocument_lt h
  · exact stepList_lt h
  · exact stepField_lt h

/-- Reads until nothing is open; returns the query and the text after it. -/
def State.finish (m : State) : Except Stop (Query × Bytes) :=
  match m with
  | ⟨[], _, q, s⟩ => .ok (q, s)
  | ⟨frame :: frames, fresh, q, s⟩ =>
    match h : step frame frames fresh q s with
    | .error e => .error e
    | .ok next =>
      have : next.rest.length < s.length := step_lt h
      next.finish
termination_by m.rest.length

/-- Reads a query and the white space after it, to the end of the text. -/
def readQuery (s : Bytes) : Except Stop Query :=
  match expect Byte.openCurly .openDocument s with
  | .error e => .error e
  | .ok r =>
    match State.finish ⟨[.document], true, .empty, r⟩ with
    | .error e => .error e
    | .ok (q, r) =>
      match skipSpace r with
      | [] => .ok q
      | b :: t => .error ⟨.expected .documentEnd, b :: t⟩

end Wire

/-- The query that a text denotes, or why and where it denotes none. -/
def Query.ofText (text : String) : Except Wire.Error Query :=
  let s := bytesOf text
  match Wire.readQuery s with
  | .ok q => .ok q
  | .error stop => .error ⟨stop.cause, s.length - stop.rest.length⟩

end QueryAdmission

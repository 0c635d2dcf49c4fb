import QueryAdmission.Json.Embedded

/-! JSON values of any type.

A value may be spelled by a string, in whose text values may again be spelled by strings.
`spelledValue_eq` says that this goes on to any depth. -/

namespace QueryAdmission.Json

/-- The members of an object, the last one first; each value is read by the same reader. -/
def readEntries {α : Type} (value : Reader α) (s : Bytes) :
    Except Fault (List (String × α) × Bytes) :=
  readMembers (fun taken name => .ok (value.map fun v => (name, v) :: taken)) true [] s

theorem length_readEntries_lt {α : Type} {value : Reader α} {l : List (String × α)} {s r : Bytes}
    (h : readEntries value s = .ok (l, r)) : r.length < s.length :=
  length_readMembers_lt h

theorem readEntries_congr {α : Type} {p q : Reader α} {s : Bytes}
    (h : ∀ t : Bytes, t.length ≤ s.length → p.run t = q.run t) :
    readEntries p s = readEntries q s :=
  readMembers_congr fun _ _ t ht => by simp only [Reader.map, h t ht]

/-- A value from its first byte on. `inner` reads the values in a list or an object; without it
none may be opened. `spelled` tells what a string spells that stands for a value. -/
def readValue (spelled : Bytes → Except Fault Json) (inner : Option (Reader Json)) (b : UInt8)
    (s : Bytes) :
    Except Fault (Json × Bytes) :=
  if b == Byte.lettern then
    match restOfNull s with
    | .error e => .error e
    | .ok r => .ok (.null, r)
  else if b == Byte.lettert then
    match restOfTrue s with
    | .error e => .error e
    | .ok r => .ok (.bool true, r)
  else if b == Byte.letterf then
    match restOfFalse s with
    | .error e => .error e
    | .ok r => .ok (.bool false, r)
  else if b == Byte.minus || Byte.isDigit b then
    match readNumber b s with
    | .error e => .error e
    | .ok (x, r) => .ok (.number x, r)
  else if b == Byte.quote then
    match readText s with
    | .error e => .error e
    | .ok (t, r) => .ok (.text t, r)
  else if b == Byte.openSquare then
    match inner with
    | none => .error .tooDeep
    | some item =>
      match readItems item true [] s with
      | .error e => .error e
      | .ok (l, r) => .ok (.list l.reverse, r)
  else if b == Byte.openCurly then
    match inner with
    | none => .error .tooDeep
    | some value =>
      match afterMark? s with
      | some t => readMarked spelled t
      | none =>
        match readEntries value s with
        | .error e => .error e
        | .ok (l, r) => .ok (.ofMembers l.reverse, r)
  else .error .noValue

theorem length_readValue_le {spelled : Bytes → Except Fault Json} {inner : Option (Reader Json)}
    {b : UInt8} {s r : Bytes} {v : Json} (h : readValue spelled inner b s = .ok (v, r)) :
    r.length ≤ s.length := by
  unfold readValue at h
  split at h
  · split at h
    · cases h
    · cases h; exact length_word_le ‹_›
  split at h
  · split at h
    · cases h
    · cases h; exact length_word_le ‹_›
  split at h
  · split at h
    · cases h
    · cases h; exact length_word_le ‹_›
  split at h
  · split at h
    · cases h
    · cases h; exact length_readNumber_le ‹_›
  split at h
  · split at h
    · cases h
    · cases h; exact Nat.le_of_lt (length_readText_lt ‹_›)
  split at h
  · split at h
    · cases h
    · split at h
      · cases h
      · cases h; exact Nat.le_of_lt (length_readItems_lt ‹_›)
  split at h
  · split at h
    · cases h
    · split at h
      · rename_i hm
        have := length_afterMark?_lt hm
        have := length_readMarked_lt h
        omega
      · split at h
        · cases h
        · cases h; exact Nat.le_of_lt (length_readEntries_lt ‹_›)
  · cases h

/-- Any value with at most `depth` lists and objects nested in one another, if `spelled` tells what
strings spell. -/
def Reader.valueBy (spelled : Bytes → Except Fault Json) : (depth : Nat) → Reader Json
  | 0 => .onFirstByte (readValue spelled none) length_readValue_le
  | depth + 1 => .onFirstByte (readValue spelled (some (valueBy spelled depth))) length_readValue_le

theorem readValue_congr {f g : Bytes → Except Fault Json} {p q : Reader Json} {b : UInt8}
    {s : Bytes} (h : ∀ t : Bytes, t.length < s.length → f t = g t)
    (hp : ∀ t : Bytes, t.length ≤ s.length → p.run t = q.run t) :
    readValue f (some p) b s = readValue g (some q) b s := by
  have hm : ∀ t, afterMark? s = some t → readMarked f t = readMarked g t := fun t ht =>
    readMarked_congr fun u hu => h u (Nat.lt_trans hu (length_afterMark?_lt ht))
  unfold readValue
  dsimp only
  rw [readItems_congr hp, readEntries_congr hp]
  cases ha : afterMark? s with
  | none => rfl
  | some t => simp only [hm t ha]

theorem valueBy_congr {f g : Bytes → Except Fault Json} {depth : Nat} {s : Bytes}
    (h : ∀ t : Bytes, t.length < s.length → f t = g t) :
    (Reader.valueBy f depth).run s = (Reader.valueBy g depth).run s := by
  induction depth generalizing s with
  | zero => rfl
  | succ depth ih =>
    simp only [Reader.valueBy, Reader.onFirstByte]
    split
    · rfl
    · rename_i hs
      have := length_lt_of_skipSpace hs
      exact readValue_congr (fun t ht => h t (by omega)) fun t ht => ih fun u hu => h u (by omega)

/-- Lists and objects that may be nested in one another. -/
def maxDepth : Nat := 127

/-- The value that a text spells. A string in it is shorter than the text, so the test of its
length is always met. -/
def spelledValue (s : Bytes) : Except Fault Json :=
  (Reader.valueBy (fun t => if _h : t.length < s.length then spelledValue t else .error .noValue)
    maxDepth).readAll s
termination_by s.length

/-- Strings that spell values are read wherever they stand. -/
theorem spelledValue_eq (s : Bytes) :
    spelledValue s = (Reader.valueBy spelledValue maxDepth).readAll s := by
  rw [spelledValue]
  exact Reader.readAll_congr (valueBy_congr fun _ ht => dif_pos ht)

/-- Any value with at most `depth` lists and objects nested in one another. In a text that a string
spells, the nesting is counted anew. -/
def Reader.value (depth : Nat) : Reader Json := .valueBy spelledValue depth

end QueryAdmission.Json

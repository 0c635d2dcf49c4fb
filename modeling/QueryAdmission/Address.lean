/-! Addresses to listen on: a host by its Internet address, and a number at that host. -/

namespace QueryAdmission

/-- An Internet address. -/
inductive Host where
  | v4 (bytes : List Nat)
  | v6 (groups : List Nat) (zone : Nat)
  deriving DecidableEq, Repr

structure Address where
  host : Host
  number : Nat
  deriving DecidableEq, Repr

namespace Address

/-- What is left of a text after a piece of it. -/
abbrev Piece (α : Type) := List Char → Option (α × List Char)

/-- The value of a digit in a base up to sixteen. -/
def digit? (base : Nat) (c : Char) : Option Nat :=
  let n := c.toNat
  let value :=
    if 48 ≤ n ∧ n ≤ 57 then some (n - 48)
    else if 65 ≤ n ∧ n ≤ 70 then some (n - 55)
    else if 97 ≤ n ∧ n ≤ 102 then some (n - 87)
    else none
  value.filter (· < base)

/-- A number below `bound` of at most `width` digits. -/
def readNumber (base : Nat) (width : Option Nat) (leadingZero : Bool) (bound : Nat) : Piece Nat :=
  fun cs =>
    let ds := (cs.takeWhile fun c => (digit? base c).isSome).filterMap (digit? base)
    let n := ds.foldl (fun n d => min (n * base + d) bound) 0
    if ds.isEmpty || width.any (· < ds.length) || bound ≤ n
        || (!leadingZero && ds.head? == some 0 && 1 < ds.length)
    then none else some (n, cs.drop ds.length)

def readMark (c : Char) : Piece Unit
  | d :: cs => if d = c then some ((), cs) else none
  | [] => none

/-- A piece after a mark that separates it from what comes before. The first piece has none. -/
def readAfter {α : Type} (c : Char) (index : Nat) (piece : Piece α) : Piece α := fun cs =>
  if index = 0 then piece cs else (readMark c cs).bind fun (_, rest) => piece rest

/-- Four decimal numbers below 256 between points. -/
def readFour : Piece (List Nat) := fun cs => do
  let byte := readNumber 10 (some 3) false UInt8.size
  let (a, cs) ← byte cs
  let (b, cs) ← readAfter '.' 1 byte cs
  let (c, cs) ← readAfter '.' 1 byte cs
  let (d, cs) ← readAfter '.' 1 byte cs
  return ([a, b, c, d], cs)

/-- At most `room` groups of hexadecimal digits between colons, from the one numbered `index` on.
Four decimal numbers may stand for the last two groups; whether they do is the second result. -/
def readGroups (index : Nat) : (room : Nat) → List Char → List Nat × Bool × List Char
  | 0, cs => ([], false, cs)
  | room + 1, cs =>
    match if room = 0 then none else readAfter ':' index readFour cs with
    | some ([a, b, c, d], rest) => ([a * 256 + b, c * 256 + d], true, rest)
    | _ =>
      match readAfter ':' index (readNumber 16 (some 4) true UInt16.size) cs with
      | none => ([], false, cs)
      | some (g, rest) =>
        let (gs, ended, rest) := readGroups (index + 1) room rest
        (g :: gs, ended, rest)

/-- Eight groups, or fewer with a double colon in place of those that are zero. -/
def readEight : Piece (List Nat) := fun cs =>
  let (front, ended, rest) := readGroups 0 8 cs
  if front.length = 8 then some (front, rest)
  else if ended then none
  else do
    let (_, rest) ← readMark ':' rest
    let (_, rest) ← readMark ':' rest
    let (back, _, rest) := readGroups 0 (7 - front.length) rest
    return (front ++ List.replicate (8 - front.length - back.length) 0 ++ back, rest)

/-- The number of a zone, if one is given. -/
def readZone : Piece Nat := fun cs =>
  match (readMark '%' cs).bind fun (_, rest) => readNumber 10 none true UInt32.size rest with
  | some found => some found
  | none => some (0, cs)

/-- The number at a host, after its colon. -/
def readPlace : Piece Nat := readAfter ':' 1 (readNumber 10 none true UInt16.size)

def readAddress4 : Piece Address := fun cs => do
  let (bytes, cs) ← readFour cs
  let (p, cs) ← readPlace cs
  return (⟨.v4 bytes, p⟩, cs)

def readAddress6 : Piece Address := fun cs => do
  let (_, cs) ← readMark '[' cs
  let (gs, cs) ← readEight cs
  let (zone, cs) ← readZone cs
  let (_, cs) ← readMark ']' cs
  let (p, cs) ← readPlace cs
  return (⟨.v6 gs zone, p⟩, cs)

/-- The address that a text gives from its first character to its last. -/
def ofText? (s : String) : Option Address :=
  match (readAddress4 s.toList).or (readAddress6 s.toList) with
  | some (a, []) => some a
  | _ => none

end Address

end QueryAdmission

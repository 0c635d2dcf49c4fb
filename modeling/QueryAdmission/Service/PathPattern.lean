/-! Patterns of paths.

In a pattern `:name` stands for the text up to the next slash and `*name` for all the text that
follows. Neither stands for nothing at the end of a path. Other characters stand for themselves,
so a pattern without names covers one path. A router takes a pattern if its names are where it can
tell them apart. -/

namespace QueryAdmission

namespace PathPattern

/-- What a pattern asks for next. -/
inductive Piece where
  | char (c : Char)
  /-- The text up to the next slash. -/
  | segment
  /-- All the text. -/
  | remainder
  deriving DecidableEq, Repr

/-- The pieces that a text stands for. A name ends at the next slash, and its letters have no
bearing on what is covered. -/
def piecesOf (inName : Bool) : List Char → List Piece
  | [] => []
  | c :: cs =>
    if inName && c != '/' then piecesOf true cs
    else if c == ':' then .segment :: piecesOf true cs
    else if c == '*' then .remainder :: piecesOf true cs
    else .char c :: piecesOf false cs

/-- The characters before the first name. -/
def leadOf : List Piece → List Char
  | .char c :: ps => c :: leadOf ps
  | _ => []

/-- Whether a text is as the pieces ask for it. -/
def fits : List Piece → List Char → Bool
  | [], cs => cs.isEmpty
  | .char _ :: _, [] => false
  | .char d :: ps, c :: cs => d == c && fits ps cs
  | .segment :: ps, cs => !cs.isEmpty && fits ps (cs.dropWhile (· != '/'))
  | .remainder :: _, cs => !cs.isEmpty

theorem fits_map_char (cs path : List Char) : fits (cs.map .char) path = true ↔ path = cs := by
  induction cs generalizing path with
  | nil => simp [fits]
  | cons d cs ih =>
    cases path with
    | nil => simp [fits]
    | cons c path => simp [fits, ih, @eq_comm _ d c]

theorem piecesOf_eq_map_char {cs : List Char} (h : ∀ c ∈ cs, c ≠ ':' ∧ c ≠ '*') :
    piecesOf false cs = cs.map .char := by
  induction cs with
  | nil => rfl
  | cons c cs ih =>
    obtain ⟨hc, hcs⟩ := List.forall_mem_cons.mp h
    simp [piecesOf, hc, ih hcs]

end PathPattern

/-- A pattern of paths, by its pieces. -/
structure PathPattern where
  pieces : List PathPattern.Piece
  deriving DecidableEq, Repr

namespace PathPattern

def ofText (s : String) : PathPattern := ⟨piecesOf false s.toList⟩

/-- The characters before the first name of a pattern. -/
def lead (p : PathPattern) : List Char := leadOf p.pieces

def covers (p : PathPattern) (path : String) : Bool := fits p.pieces path.toList

/-- Without names, a pattern covers the path that it spells and no other. -/
theorem covers_ofText_iff {s path : String} (h : ∀ c ∈ s.toList, c ≠ ':' ∧ c ≠ '*') :
    (ofText s).covers path = true ↔ path = s := by
  rw [covers, ofText, piecesOf_eq_map_char h, fits_map_char, String.toList_inj]

/-! ## Patterns that can be routed -/

/-- Whether a character begins a name. -/
def isMark (c : Char) : Bool := c == ':' || c == '*'

/-- The parts of a path between its slashes. -/
def segments : List Char → List (List Char)
  | [] => [[]]
  | c :: cs =>
    if c == '/' then [] :: segments cs
    else
      match segments cs with
      | [] => [[c]]
      | segment :: rest => (c :: segment) :: rest

/-- Whether a segment has one name at most, and that one letters. -/
def isNamedOnce (segment : List Char) : Bool :=
  match segment.dropWhile fun c => !isMark c with
  | [] => true
  | _ :: name => !name.isEmpty && !name.any isMark

/-- Whether a name for all the text that follows, if there is one, is the last of a path. It comes
after a slash, or where the paths of `others` part from this one. -/
def endsInRemainder (others : List String) (path : List Char) : Bool :=
  match path.dropWhile (· != '*') with
  | [] => true
  | _ :: name =>
    let lead := path.takeWhile (· != '*')
    !name.contains '/' &&
      (lead.getLast? == some '/' || others.any fun other => lead.isPrefixOf other.toList)

/-- The number of names for single segments that a path can have. -/
def maxNames : Nat := 25

/-- Whether a path can be routed beside others, which have no names. -/
def isRoutable (others : List String) (path : String) : Bool :=
  let cs := path.toList
  cs.head? == some '/' && (segments cs).all isNamedOnce && endsInRemainder others cs &&
    cs.count ':' ≤ maxNames

end PathPattern

end QueryAdmission

import QueryAdmission.Proofs.Query.Forest
import QueryAdmission.Query.Wire

/-! # Reading queries by recursive descent

Here a query is read the plain way: a list of fields field by field, a field member by member, and
what stands inside a member by recursion. The result is a forest. The reader with frames reads the
same queries and refuses the same texts for the same reasons at the same places. -/

namespace QueryAdmission.Wire

open Json (Reader)

/-- What was read from the front of a text, with the shorter text after it. -/
structure Piece (α : Type) (s : Bytes) where
  value : α
  rest : Bytes
  shorter : rest.length < s.length

namespace Piece

variable {α β : Type} {s t : Bytes}

def map (f : α → β) (p : Piece α s) : Piece β s := ⟨f p.value, p.rest, p.shorter⟩

/-- A piece of a text as a piece of a longer one. -/
def within (p : Piece α s) (h : s.length ≤ t.length) : Piece α t :=
  ⟨p.value, p.rest, Nat.lt_of_lt_of_le p.shorter h⟩

end Piece

section

variable {α β γ : Type} {s t : Bytes}

/-- Goes on after a piece. How a reader goes on is all that can be seen of it. -/
def andThen (x : Except Stop (Piece α s)) (k : α → Bytes → Except Stop β) : Except Stop β :=
  match x with
  | .error e => .error e
  | .ok p => k p.value p.rest

theorem andThen_congr {x : Except Stop (Piece α s)} {k l : α → Bytes → Except Stop β}
    (h : ∀ a r, r.length < s.length → k a r = l a r) : andThen x k = andThen x l := by
  cases x with
  | error e => rfl
  | ok p => exact h p.value p.rest p.shorter

@[simp] theorem andThen_error (e : Stop) (k : α → Bytes → Except Stop β) :
    andThen (.error e : Except Stop (Piece α s)) k = .error e := rfl

@[simp] theorem andThen_ok (p : Piece α s) (k : α → Bytes → Except Stop β) :
    andThen (.ok p) k = k p.value p.rest := rfl

@[simp] theorem andThen_map (x : Except Stop (Piece α s)) (f : α → β)
    (k : β → Bytes → Except Stop γ) :
    andThen (x.map (Piece.map f)) k = andThen x fun a r => k (f a) r := by
  cases x <;> rfl

@[simp] theorem andThen_within (x : Except Stop (Piece α s)) (h : s.length ≤ t.length)
    (k : α → Bytes → Except Stop β) : andThen (x.map (·.within h)) k = andThen x k := by
  cases x <;> rfl

end

/-! ## The reader -/

/-- A value in its place. -/
def pieceOf {α : Type} (p : Reader α) (s : Bytes) : Except Stop (Piece α s) :=
  match h : readPiece p s with
  | .error e => .error e
  | .ok (a, r) => .ok ⟨a, r, length_readPiece_lt h⟩

/-- The head of a field after a member other than `selections`. An empty name is passed over, and
of arguments with one name the later one stays. -/
def readAttribute (head : Head) (name : String) (s : Bytes) : Except Stop (Piece Head s) :=
  if name = "name" then
    (pieceOf Reader.text s).map
      (.map fun text => if text = "" then head else { head with name := text })
  else if name = "alias" then
    (pieceOf (.optional .text) s).map (.map fun label => { head with label })
  else if name = "arguments" then
    (pieceOf arguments s).map (.map fun given =>
      { head with arguments := head.arguments.insertAll (given.getD ∅).toList })
  else (pieceOf Reader.skip s).map (.map fun _ => head)

mutual

/-- The fields of a list, up to its closing bracket. -/
def readFields (fresh : Bool) (s : Bytes) : Except Stop (Piece Forest s) :=
  match he : after? Byte.closeSquare s with
  | some r => .ok ⟨.nil, r, length_after?_lt he⟩
  | none =>
    match hc : readComma fresh .nextField s with
    | .error e => .error e
    | .ok t =>
      match ho : expect Byte.openCurly .openField t with
      | .error e => .error e
      | .ok u =>
        have hu : u.length < s.length :=
          Nat.lt_of_lt_of_le (length_expect_lt ho) (length_readComma_le hc)
        match readMembers (skipSpace t) { name := "" } .nil true u with
        | .error e => .error e
        | .ok ⟨(head, below), v, hv⟩ =>
          match readFields false v with
          | .error e => .error e
          | .ok ⟨rest, w, hw⟩ => .ok ⟨.cons head below rest, w, by omega⟩
termination_by s.length

/-- The members of a field, up to its closing bracket: the field's head and the fields below it,
added to what the members before have given. Without a name it is an error at `start`. -/
def readMembers (start : Bytes) (head : Head) (below : Forest) (fresh : Bool) (s : Bytes) :
    Except Stop (Piece (Head × Forest) s) :=
  match he : after? Byte.closeCurly s with
  | some r =>
    if head.name = "" then .error ⟨.nameless, start⟩
    else .ok ⟨(head, below), r, length_after?_lt he⟩
  | none =>
    match hc : readComma fresh .nextMember s with
    | .error e => .error e
    | .ok t =>
      match hn : readName t with
      | .error e => .error e
      | .ok (name, u) =>
        have hu : u.length < s.length :=
          Nat.lt_of_lt_of_le (length_readName_lt hn) (length_readComma_le hc)
        if name = "selections" then
          match readSelections u with
          | .error e => .error e
          | .ok ⟨more, v, hv⟩ =>
            (readMembers start head (below ++ more) false v).map (.within · (by omega))
        else
          match readAttribute head name u with
          | .error e => .error e
          | .ok ⟨head, v, hv⟩ =>
            (readMembers start head below false v).map (.within · (by omega))
termination_by s.length

/-- The value of a member `selections`: a list of fields or `null`. -/
def readSelections (s : Bytes) : Except Stop (Piece Forest s) :=
  match he : after? Byte.openSquare s with
  | some r =>
    have hr : r.length < s.length := length_after?_lt he
    (readFields true r).map (.within · (Nat.le_of_lt hr))
  | none => (pieceOf Reader.unit s).map (.map fun _ => .nil)
termination_by s.length

end

/-- The members of the outermost object, up to its closing bracket: the fields of its members
`selections`, after those that the members before have given. -/
def readDocument (forest : Forest) (fresh : Bool) (s : Bytes) : Except Stop (Piece Forest s) :=
  match he : after? Byte.closeCurly s with
  | some r => .ok ⟨forest, r, length_after?_lt he⟩
  | none =>
    match hc : readComma fresh .nextMember s with
    | .error e => .error e
    | .ok t =>
      match hn : readName t with
      | .error e => .error e
      | .ok (name, u) =>
        have hu : u.length < s.length :=
          Nat.lt_of_lt_of_le (length_readName_lt hn) (length_readComma_le hc)
        if name = "selections" then
          match readSelections u with
          | .error e => .error e
          | .ok ⟨more, v, hv⟩ =>
            (readDocument (forest ++ more) false v).map (.within · (by omega))
        else
          match pieceOf Reader.skip u with
          | .error e => .error e
          | .ok ⟨_, v, hv⟩ => (readDocument forest false v).map (.within · (by omega))
termination_by s.length

/-! ## One round of each reader -/

section

variable {α β : Type}

theorem andThen_pieceOf (p : Reader α) (s : Bytes) (k : α → Bytes → Except Stop β) :
    andThen (pieceOf p s) k =
      match readPiece p s with
      | .error e => .error e
      | .ok (a, r) => k a r := by
  unfold pieceOf
  split <;> simp_all

theorem andThen_readAttribute (head : Head) (name : String) (s : Bytes)
    (k : Head → Bytes → Except Stop β) :
    andThen (readAttribute head name s) k =
      if name = "name" then
        andThen (pieceOf Reader.text s) fun text r =>
          k (if text = "" then head else { head with name := text }) r
      else if name = "alias" then
        andThen (pieceOf (.optional .text) s) fun label r => k { head with label } r
      else if name = "arguments" then
        andThen (pieceOf arguments s) fun given r =>
          k { head with arguments := head.arguments.insertAll (given.getD ∅).toList } r
      else andThen (pieceOf Reader.skip s) fun _ r => k head r := by
  unfold readAttribute
  split
  · rw [andThen_map]
  split
  · rw [andThen_map]
  split
  · rw [andThen_map]
  · rw [andThen_map]

theorem andThen_readFields (fresh : Bool) (s : Bytes) (k : Forest → Bytes → Except Stop β) :
    andThen (readFields fresh s) k =
      match after? Byte.closeSquare s with
      | some r => k .nil r
      | none =>
        match readComma fresh .nextField s with
        | .error e => .error e
        | .ok t =>
          match expect Byte.openCurly .openField t with
          | .error e => .error e
          | .ok u =>
            andThen (readMembers (skipSpace t) { name := "" } .nil true u) fun field v =>
              andThen (readFields false v) fun rest w => k (.cons field.1 field.2 rest) w := by
  rw [readFields]
  split
  · simp [*]
  split
  · simp [*]
  split
  · simp [*]
  simp only [*]
  cases readMembers _ _ _ _ _ with
  | error e => rfl
  | ok field =>
      dsimp only [andThen_ok]
      cases readFields false field.rest <;> rfl

theorem andThen_readMembers (start : Bytes) (head : Head) (below : Forest) (fresh : Bool)
    (s : Bytes) (k : Head × Forest → Bytes → Except Stop β) :
    andThen (readMembers start head below fresh s) k =
      match after? Byte.closeCurly s with
      | some r => if head.name = "" then .error ⟨.nameless, start⟩ else k (head, below) r
      | none =>
        match readComma fresh .nextMember s with
        | .error e => .error e
        | .ok t =>
          match readName t with
          | .error e => .error e
          | .ok (name, u) =>
            if name = "selections" then
              andThen (readSelections u) fun more v =>
                andThen (readMembers start head (below ++ more) false v) k
            else
              andThen (readAttribute head name u) fun head v =>
                andThen (readMembers start head below false v) k := by
  rw [readMembers]
  split
  · split <;> simp [*]
  split
  · simp [*]
  split
  · simp [*]
  simp only [*]
  split
  · cases readSelections _ with
    | error e => rfl
    | ok more => exact andThen_within _ _ k
  · cases readAttribute _ _ _ with
    | error e => rfl
    | ok head => exact andThen_within _ _ k

theorem andThen_readSelections (s : Bytes) (k : Forest → Bytes → Except Stop β) :
    andThen (readSelections s) k =
      match after? Byte.openSquare s with
      | some r => andThen (readFields true r) k
      | none => andThen (pieceOf Reader.unit s) fun _ r => k .nil r := by
  rw [readSelections]
  split
  · simp only [*]
    exact andThen_within _ _ k
  · simp only [*]
    exact andThen_map _ _ k

theorem andThen_readDocument (forest : Forest) (fresh : Bool) (s : Bytes)
    (k : Forest → Bytes → Except Stop β) :
    andThen (readDocument forest fresh s) k =
      match after? Byte.closeCurly s with
      | some r => k forest r
      | none =>
        match readComma fresh .nextMember s with
        | .error e => .error e
        | .ok t =>
          match readName t with
          | .error e => .error e
          | .ok (name, u) =>
            if name = "selections" then
              andThen (readSelections u) fun more v =>
                andThen (readDocument (forest ++ more) false v) k
            else
              andThen (pieceOf Reader.skip u) fun _ v =>
                andThen (readDocument forest false v) k := by
  rw [readDocument]
  split
  · simp [*]
  split
  · simp [*]
  split
  · simp [*]
  simp only [*]
  split
  · cases readSelections _ with
    | error e => rfl
    | ok more => exact andThen_within _ _ k
  · cases pieceOf _ _ with
    | error e => rfl
    | ok skipped => exact andThen_within _ _ k

end

/-- The forest that was read, if only white space follows. -/
def readEnd (forest : Forest) (s : Bytes) : Except Stop Forest :=
  match skipSpace s with
  | [] => .ok forest
  | b :: t => .error ⟨.expected .documentEnd, b :: t⟩

/-- Reads a forest and the white space after it, to the end of the text. -/
def readForest (s : Bytes) : Except Stop Forest :=
  match expect Byte.openCurly .openDocument s with
  | .error e => .error e
  | .ok r => andThen (readDocument .nil true r) readEnd

end Wire

/-- The forest that a text denotes, or why and where it denotes none. -/
def Forest.ofText (text : String) : Except Wire.Error Forest :=
  let s := bytesOf text
  match Wire.readForest s with
  | .ok forest => .ok forest
  | .error stop => .error ⟨stop.cause, s.length - stop.rest.length⟩

namespace Wire

open Json (Reader)

/-! ## The reader with frames -/

theorem finish_cons (frame : Frame) (frames : List Frame) (fresh : Bool) (q : Query) (s : Bytes) :
    State.finish ⟨frame :: frames, fresh, q, s⟩ =
      match step frame frames fresh q s with
      | .error e => .error e
      | .ok m => m.finish := by
  rw [State.finish]
  split <;> simp [*]

/-- A query that has a field at `place`, with the head and the children that it has got so far. -/
def withField (q : Query) (place : Nat) (head : Head) (below : Forest) : Query :=
  (q.addForest place below).modify place (·.withHead head)

theorem withField_addForest {q : Query} {place : Nat} (hp : place < q.fields.size) (head : Head)
    (below more : Forest) :
    (withField q place head below).addForest place more =
      withField q place head (below ++ more) := by
  have hp' := Nat.lt_of_lt_of_le hp (q.size_le_addForest place below)
  rw [withField, withField, Query.addForest_append, ← Query.modify_addForest _ hp']

/-- Children first and head last is the same field as head first and children last. -/
theorem withField_add (q : Query) (parent : Nat) (head : Head) (below : Forest) :
    withField (q.add parent "" none) q.fields.size head below =
      (q.addHead parent head).addForest q.fields.size below := by
  rw [withField, Query.addHead_eq, Query.modify_addForest]
  simp

theorem withField_add_blank (q : Query) (parent : Nat) :
    withField (q.add parent "" none) q.fields.size { name := "" } .nil = q.add parent "" none :=
  withField_add q parent { name := "" } .nil

/-- A member of a field does to the query what it does to the field's head. -/
theorem readMember_withField {β : Type} (q : Query) (place : Nat) (head : Head) (below : Forest)
    (name : String) (s : Bytes) (k : Query → Bool → Bytes → Except Stop β) :
    (match readMember (withField q place head below) place (head.name ≠ "") name s with
      | .error e => .error e
      | .ok (q', isNamed, r) => k q' isNamed r) =
    andThen (readAttribute head name s) fun head' r =>
      k (withField q place head' below) (head'.name ≠ "") r := by
  have hmodify : ∀ (f : Field → Field) (head' : Head),
      (∀ x : Field, f (x.withHead head) = x.withHead head') →
      (withField q place head below).modify place f = withField q place head' below := by
    intro f head' hf
    rw [withField, Query.modify_modify]
    simp only [hf]
    rfl
  unfold readMember
  rw [andThen_readAttribute]
  by_cases hname : name = "name"
  · rw [if_pos hname, if_pos hname, andThen_pieceOf]
    cases readPiece Reader.text s with
    | error e => rfl
    | ok read =>
        by_cases ht : read.1 = ""
        · simp [ht]
        · have := hmodify (fun f => { f with name := read.1 }) { head with name := read.1 }
            fun _ => rfl
          simp [ht, this]
  by_cases hlabel : name = "alias"
  · rw [if_neg hname, if_neg hname, if_pos hlabel, if_pos hlabel, andThen_pieceOf]
    cases readPiece (.optional .text) s with
    | error e => rfl
    | ok read =>
        dsimp only
        rw [hmodify _ { head with label := read.1 } fun _ => rfl]
  by_cases harguments : name = "arguments"
  · rw [if_neg hname, if_neg hname, if_neg hlabel, if_neg hlabel, if_pos harguments,
      if_pos harguments, andThen_pieceOf]
    cases readPiece arguments s with
    | error e => rfl
    | ok read =>
        dsimp only
        rw [hmodify _ { head with
          arguments := head.arguments.insertAll (read.1.getD ∅).toList }]
        intro x
        simp only [Field.withHead, Keyed.union_eq_insertAll]
  · rw [if_neg hname, if_neg hname, if_neg hlabel, if_neg hlabel, if_neg harguments,
      if_neg harguments, andThen_pieceOf]
    cases readPiece Reader.skip s <;> rfl

/-- On texts shorter than `n`, a frame of a list is finished as the list is read by descent. -/
def FinishesLists (n : Nat) : Prop :=
  ∀ (parent : Nat) (frames : List Frame) (fresh : Bool) (q : Query) (s : Bytes), s.length < n →
    State.finish ⟨.list parent :: frames, fresh, q, s⟩ =
      andThen (readFields fresh s) fun forest r =>
        State.finish ⟨frames, false, q.addForest parent forest, r⟩

/-- On texts shorter than `n`, a frame of a field is finished as its members are read by descent.
It knows that the field has a name exactly when the name is not empty. -/
def FinishesFields (n : Nat) : Prop :=
  ∀ (place : Nat) (start : Bytes) (head : Head) (below : Forest) (frames : List Frame)
    (fresh : Bool) (q : Query) (s : Bytes), place < q.fields.size → s.length < n →
    State.finish ⟨.field place start (head.name ≠ "") :: frames, fresh,
        withField q place head below, s⟩ =
      andThen (readMembers start head below fresh s) fun field r =>
        State.finish ⟨frames, false, withField q place field.1 field.2, r⟩

/-- A member `selections` adds the fields of its list under the innermost frame. -/
theorem finish_stepSelections {n : Nat} (hlists : FinishesLists n) (frame : Frame)
    (frames : List Frame) (q : Query) (s : Bytes) (hs : s.length ≤ n) :
    (match stepSelections frame frames q s with
      | .error e => .error e
      | .ok m => m.finish) =
    andThen (readSelections s) fun more r =>
      State.finish ⟨frame :: frames, false, q.addForest frame.place more, r⟩ := by
  unfold stepSelections
  rw [andThen_readSelections]
  cases ho : after? Byte.openSquare s with
  | some r =>
      have hr := length_after?_lt ho
      exact hlists frame.place (frame :: frames) true q r (by omega)
  | none =>
      rw [andThen_pieceOf]
      cases readPiece Reader.unit s <;> rfl

theorem finishesLists_succ {n : Nat} (hlists : FinishesLists n) (hfields : FinishesFields n) :
    FinishesLists (n + 1) := by
  intro parent frames fresh q s hs
  rw [finish_cons, andThen_readFields]
  unfold step stepList
  cases he : after? Byte.closeSquare s with
  | some r => rfl
  | none =>
      dsimp only
      cases hc : readComma fresh .nextField s with
      | error e => rfl
      | ok t =>
          have ht := length_readComma_le hc
          dsimp only
          cases ho : expect Byte.openCurly .openField t with
          | error e => rfl
          | ok u =>
              have hu := length_expect_lt ho
              have hplace : q.fields.size < (q.add parent "" none).fields.size := by simp
              have hfield := hfields q.fields.size (skipSpace t) { name := "" } .nil
                (.list parent :: frames) true (q.add parent "" none) u hplace (by omega)
              rw [withField_add_blank] at hfield
              refine hfield.trans (andThen_congr fun field v hv => ?_)
              rw [withField_add]
              exact hlists parent frames false _ v (by omega)

theorem finishesFields_succ {n : Nat} (hlists : FinishesLists n) (hfields : FinishesFields n) :
    FinishesFields (n + 1) := by
  intro place start head below frames fresh q s hp hs
  rw [finish_cons, andThen_readMembers]
  unfold step stepField
  cases he : after? Byte.closeCurly s with
  | some r => by_cases hn : head.name = "" <;> simp [hn]
  | none =>
      dsimp only
      cases hc : readComma fresh .nextMember s with
      | error e => rfl
      | ok t =>
          have ht := length_readComma_le hc
          dsimp only
          cases hn : readName t with
          | error e => rfl
          | ok read =>
              obtain ⟨name, u⟩ := read
              have hu := length_readName_lt hn
              dsimp only
              by_cases hsel : name = "selections"
              · rw [if_pos hsel, if_pos hsel, finish_stepSelections hlists _ _ _ _ (by omega)]
                refine andThen_congr fun more v hv => ?_
                rw [Frame.place, withField_addForest hp]
                exact hfields place start head (below ++ more) frames false q v hp (by omega)
              · rw [if_neg hsel, if_neg hsel]
                have hmember := readMember_withField q place head below name u
                  fun q' isNamed r =>
                    State.finish ⟨.field place start isNamed :: frames, false, q', r⟩
                refine Eq.trans ?_ (hmember.trans (andThen_congr fun head' v hv => ?_))
                · cases readMember _ _ _ _ _ <;> rfl
                · exact hfields place start head' below frames false q v hp (by omega)

theorem finishes (n : Nat) : FinishesLists n ∧ FinishesFields n := by
  induction n with
  | zero => exact ⟨fun _ _ _ _ _ hs => by omega, fun _ _ _ _ _ _ _ _ _ hs => by omega⟩
  | succ n ih => exact ⟨finishesLists_succ ih.1 ih.2, finishesFields_succ ih.1 ih.2⟩

/-- The frame of the outermost object is finished as its members are read by descent. -/
theorem finish_document (forest : Forest) (fresh : Bool) (s : Bytes) :
    State.finish ⟨[.document], fresh, .ofForest forest, s⟩ =
      andThen (readDocument forest fresh s) fun forest r => .ok (.ofForest forest, r) := by
  induction hn : s.length using Nat.strong_induction_on generalizing forest fresh s with
  | _ n ih =>
  subst hn
  rw [finish_cons, andThen_readDocument]
  unfold step stepDocument
  cases he : after? Byte.closeCurly s with
  | some r => simp [State.finish]
  | none =>
      dsimp only
      cases hc : readComma fresh .nextMember s with
      | error e => rfl
      | ok t =>
          have ht := length_readComma_le hc
          dsimp only
          cases hn : readName t with
          | error e => rfl
          | ok read =>
              obtain ⟨name, u⟩ := read
              have hu := length_readName_lt hn
              dsimp only
              by_cases hsel : name = "selections"
              · rw [if_pos hsel, if_pos hsel,
                  finish_stepSelections (finishes _).1 _ _ _ _ (Nat.le_refl _)]
                refine andThen_congr fun more v hv => ?_
                rw [Query.ofForest, Frame.place, ← Query.addForest_append]
                exact ih v.length (by omega) (forest ++ more) false v rfl
              · rw [if_neg hsel, if_neg hsel, andThen_pieceOf]
                cases hp : readPiece Reader.skip u with
                | error e => rfl
                | ok read =>
                    have hv := length_readPiece_lt hp
                    exact ih read.2.length (by omega) forest false read.2 rfl

/-- The reader with frames and the reader by descent give the same query, or stop for the same
cause at the same place. -/
theorem readQuery_eq (s : Bytes) : readQuery s = (readForest s).map .ofForest := by
  unfold readQuery readForest
  cases expect Byte.openCurly .openDocument s with
  | error e => rfl
  | ok r =>
      dsimp only
      have hdocument := finish_document .nil true r
      rw [Query.ofForest, Query.addForest] at hdocument
      rw [hdocument]
      cases readDocument .nil true r with
      | error e => rfl
      | ok p =>
          dsimp only [andThen_ok, readEnd]
          cases skipSpace p.rest <;> rfl

end Wire

/-- Reading a query is reading a forest by recursive descent and adding its fields in order. -/
theorem Query.ofText_eq_ofForest (text : String) :
    Query.ofText text = (Forest.ofText text).map Query.ofForest := by
  unfold Query.ofText Forest.ofText
  dsimp only
  rw [Wire.readQuery_eq]
  cases Wire.readForest (bytesOf text) <;> rfl

end QueryAdmission

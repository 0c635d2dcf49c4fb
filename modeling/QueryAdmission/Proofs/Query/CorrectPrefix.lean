import QueryAdmission.Proofs.Query.Cursor
import QueryAdmission.Proofs.Query.Rendering

/-! # What could have come next

Where something else is wanted, all that comes before can be the beginning of a query: what is open
can be closed, after a name for a field that has none yet. And nothing but the next byte was looked
at, so what begins like the text up to this byte is refused in the same way. -/

namespace QueryAdmission

open Json

namespace Wire

/-! ## Closing what is open -/

/-- The text that ends a frame. A field needs a name before its end. -/
def Frame.closing (fresh : Bool) : Frame → String
  | .list _ => "]"
  | .field _ _ false => (if fresh then "" else ",") ++ "\"name\":\"a\"\x7d"
  | _ => "\x7d"

/-- The bracket at the end of a frame. -/
def Frame.bracket : Frame → UInt8
  | .document => Byte.closeCurly
  | .list _ => Byte.closeSquare
  | .field _ _ _ => Byte.closeCurly

/-- The text that ends all frames, the innermost first. -/
def closing : List Frame → Bool → String
  | [], _ => ""
  | frame :: frames, fresh => frame.closing fresh ++ closing frames false

/-- A value that a member of any name can have, which begins with a byte that separates. -/
def filler (name : String) : String := if name = "name" then "\"a\"" else " null"

/-- A frame after a member whose value is the filler. -/
def Frame.after (name : String) : Frame → Frame
  | .field place start isNamed => .field place start (isNamed || name == "name")
  | frame => frame

section

variable {frame : Frame} {frames : List Frame} {fresh : Bool} {q : Query} {x z : Bytes}

theorem stepValue_text (frames : List Frame) (q : Query)
    (hobject : ∀ parent, frame ≠ .list parent)
    (hx : Blanks x (Byte.quote :: (bytesOf "a" ++ Byte.quote :: z))) (hz : Follows z) :
    ∃ q', stepValue frame frames q "name" x = .ok ⟨frame.after "name" :: frames, false, q', z⟩ := by
  have hvalue : Derives .value (Byte.quote :: (bytesOf "a" ++ Byte.quote :: z)) z :=
    .text (.plain (by decide) (by decide) (by decide) (.close z))
  have hskip := readPiece_skip hvalue hx hz
  have htext := readPiece_eq hx rfl (Reader.run_text (spellsText_self (t := "a") z rfl)) hz
  cases frame with
  | document => exact ⟨q, by simp [stepValue, stepSkip, hskip, Frame.after]⟩
  | list parent => exact absurd rfl (hobject parent)
  | field place start isNamed =>
      exact ⟨_, by simp [stepValue, readMember, htext, Frame.after]; rfl⟩

theorem stepValue_null (frames : List Frame) (q : Query)
    (hobject : ∀ parent, frame ≠ .list parent) {name : String}
    (hname : name ≠ "name") (hx : skipSpace x = 0x6E :: 0x75 :: 0x6C :: 0x6C :: z)
    (hz : Follows z) :
    ∃ q', stepValue frame frames q name x = .ok ⟨frame :: frames, false, q', z⟩ := by
  have hblanks : Blanks x (0x6E :: 0x75 :: 0x6C :: 0x6C :: z) := hx ▸ blanks_skipSpace x
  have hskip : readPiece Reader.skip x = .ok ((), z) := readPiece_skip (.null z) hblanks hz
  by_cases hlist : name = "selections"
  · have hopen : after? Byte.openSquare x = none := after?_eq_none hx (by decide)
    have hunit : readPiece Reader.unit x = .ok ((), z) := readPiece_eq hblanks rfl rfl hz
    exact ⟨q, by simp [stepValue, hlist, stepSelections, hopen, hunit]⟩
  cases frame with
  | document => exact ⟨q, by simp [stepValue, hlist, stepSkip, hskip]⟩
  | list parent => exact absurd rfl (hobject parent)
  | field place start isNamed =>
      have hlabel : readPiece (.optional .text) x = .ok (none, z) :=
        readPiece_eq hblanks rfl (Reader.run_optional_null _ z) hz
      have harguments : readPiece arguments x = .ok (none, z) :=
        readPiece_eq hblanks rfl (Reader.run_optional_null _ z) hz
      by_cases ha : name = "alias"
      · exact ⟨_, by simp [stepValue, readMember, ha, hlabel]; rfl⟩
      by_cases hg : name = "arguments"
      · exact ⟨_, by simp [stepValue, readMember, hg, harguments]; rfl⟩
      exact ⟨_, by simp [stepValue, hlist, readMember, hname, ha, hg, hskip]; rfl⟩

/-- A member whose value is the filler is read in every object. -/
theorem exists_stepValue (frames : List Frame) (q : Query)
    (hobject : ∀ parent, frame ≠ .list parent) {name : String}
    (hx : Blanks x (bytesOf (filler name) ++ z)) (hz : Follows z) :
    ∃ q', stepValue frame frames q name x = .ok ⟨frame.after name :: frames, false, q', z⟩ := by
  by_cases hname : name = "name"
  · subst hname
    exact stepValue_text frames q hobject hx hz
  · have hafter : frame.after name = frame := by
      cases frame <;> simp [Frame.after, hname]
    have hnull : skipSpace x = 0x6E :: 0x75 :: 0x6C :: 0x6C :: z := by
      rw [hx.skipSpace_eq, filler, if_neg hname]
      rfl
    rw [hafter]
    exact stepValue_null frames q hobject hname hnull hz

/-- A member that gives a name is read in every object. -/
theorem exists_stepMember (frames : List Frame) (q : Query)
    (hobject : ∀ parent, frame ≠ .list parent)
    (hx : skipSpace x = bytesOf "\"name\":\"a\"" ++ z) (hz : Follows z) :
    ∃ q', stepMember frame frames q x = .ok ⟨frame.after "name" :: frames, false, q', z⟩ := by
  have hname : readName x = .ok ("name", bytesOf "\"a\"" ++ z) :=
    readName_eq hx (spellsText_self (t := "name") _ rfl) (.nil _)
  obtain ⟨q', hvalue⟩ := stepValue_text frames q hobject (.nil _) hz
  exact ⟨q', by rw [stepMember, hname]; exact hvalue⟩

theorem exists_step_member (frames : List Frame) (q : Query)
    (hobject : ∀ parent, frame ≠ .list parent)
    (hx : Comma fresh x (bytesOf "\"name\":\"a\"" ++ z)) (hz : Follows z) :
    ∃ q', step frame frames fresh q x = .ok ⟨frame.after "name" :: frames, false, q', z⟩ := by
  obtain ⟨hclose, t, ht, hquote⟩ := readComma_eq Byte.closeCurly .nextMember hx rfl (by decide)
    (by decide)
  obtain ⟨q', hmember⟩ := exists_stepMember frames q hobject hquote hz
  refine ⟨q', ?_⟩
  rw [step_object hobject, stepObject, hclose]
  simp only [ht, hmember]

/-- The bracket of a frame ends it, unless it is a field that has no name. -/
theorem step_bracket (hnamed : ∀ place start, frame ≠ .field place start false)
    (hx : Blanks x (frame.bracket :: z)) :
    step frame frames fresh q x = .ok ⟨frames, false, q, z⟩ := by
  have hclose : after? frame.bracket x = some z := after?_eq_some hx (by cases frame <;> rfl)
  cases frame with
  | document =>
      rw [Frame.bracket] at hclose
      simp only [step, stepDocument, hclose]
  | list parent =>
      rw [Frame.bracket] at hclose
      simp only [step, stepList, hclose]
  | field place start isNamed =>
      cases isNamed with
      | false => exact absurd rfl (hnamed place start)
      | true =>
          rw [Frame.bracket] at hclose
          simp only [step, stepField, hclose, if_true]

theorem bytesOf_closing_append (hnamed : ∀ place start, frame ≠ .field place start false) :
    bytesOf (frame.closing fresh) ++ z = frame.bracket :: z := by
  cases frame with
  | document => rfl
  | list parent => rfl
  | field place start isNamed =>
      cases isNamed with
      | false => exact absurd rfl (hnamed place start)
      | true => rfl

theorem outcome_of_step {m : State} (h : step frame frames fresh q x = .ok m) :
    State.outcome ⟨frame :: frames, fresh, q, x⟩ = m.outcome := by
  rw [outcome_cons, h]

/-- What is open can be closed wherever something can follow. -/
theorem exists_outcome_closing (hx : Blanks x (bytesOf (closing frames fresh))) :
    ∃ q', State.outcome ⟨frames, fresh, q, x⟩ = .ok q' := by
  induction frames generalizing fresh q x with
  | nil =>
      have hend : skipSpace x = [] := hx.skipSpace_eq
      exact ⟨q, by simp only [State.outcome, State.finish, hend]⟩
  | cons frame frames ih =>
      rw [closing, bytesOf_append] at hx
      by_cases hnamed : ∃ place start, frame = .field place start false
      · obtain ⟨place, start, rfl⟩ := hnamed
        have hcomma : Comma fresh x
            (bytesOf "\"name\":\"a\"" ++ (Byte.closeCurly :: bytesOf (closing frames false))) := by
          cases fresh with
          | true => exact .fresh hx
          | false => exact .later hx (.nil _)
        have hfollows : Follows (Byte.closeCurly :: bytesOf (closing frames false)) := by
          rintro b ⟨⟩
          decide
        have hobject : ∀ parent, Frame.field place start false ≠ .list parent := by
          rintro parent ⟨⟩
        obtain ⟨q', hmember⟩ := exists_step_member frames q hobject hcomma hfollows
        have hnamed : ∀ place' start', (Frame.field place start false).after "name" ≠
            .field place' start' false := by simp [Frame.after]
        rw [outcome_of_step hmember]
        obtain ⟨q'', hclosed⟩ := ih (.nil _)
        exact ⟨q'', (outcome_of_step (step_bracket hnamed (.nil _))).trans hclosed⟩
      · have hnamed : ∀ place start, frame ≠ .field place start false :=
          fun place start heq => hnamed ⟨place, start, heq⟩
        rw [bytesOf_closing_append hnamed] at hx
        rw [outcome_of_step (step_bracket hnamed hx)]
        exact ih (.nil _)

theorem follows_closing (frames : List Frame) : Follows (bytesOf (closing frames false)) := by
  cases frames with
  | nil => rintro b ⟨⟩
  | cons frame frames =>
      rw [closing, bytesOf_append]
      cases frame with
      | document => rintro b ⟨⟩; decide
      | list parent => rintro b ⟨⟩; decide
      | field place start isNamed => cases isNamed <;> (rintro b ⟨⟩; decide)

theorem separates_closing (frames : List Frame) (fresh : Bool) :
    ∀ b ∈ (bytesOf (closing frames fresh)).head?, separates b := by
  cases fresh with
  | false => exact fun b hb => separates_of_canFollow (follows_closing frames b hb)
  | true =>
      cases frames with
      | nil => rintro b ⟨⟩
      | cons frame frames =>
          rw [closing, bytesOf_append]
          cases frame with
          | document => rintro b ⟨⟩; decide
          | list parent => rintro b ⟨⟩; decide
          | field place start isNamed => cases isNamed <;> (rintro b ⟨⟩; decide)

end

/-! ## Outcomes of like states -/

/-- What two states come to that differ in where fields began. -/
inductive SameEnd : Except Stop Query → Except Stop Query → Prop where
  | refl (o : Except Stop Query) : SameEnd o o
  | nameless (s r : Bytes) : SameEnd (.error ⟨.nameless, s⟩) (.error ⟨.nameless, r⟩)

theorem SameEnd.of_eq {o o' : Except Stop Query} (h : o = o') : SameEnd o o' := h ▸ .refl o

theorem SameEnd.eq_ok {q : Query} {o : Except Stop Query} (h : SameEnd (.ok q) o) : o = .ok q := by
  cases h
  rfl

theorem SameEnd.eq_expected {wanted : Wanted} {r : Bytes} {o : Except Stop Query}
    (h : SameEnd (.error ⟨.expected wanted, r⟩) o) : o = .error ⟨.expected wanted, r⟩ := by
  cases h
  rfl

theorem sameEnd_outcome {m n : State} (h : m.Like n) (hrest : n.rest = m.rest) :
    SameEnd m.outcome n.outcome := by
  induction hlength : m.rest.length using Nat.strong_induction_on generalizing m n with
  | _ length ih =>
  obtain ⟨frames, fresh, q, r⟩ := m
  obtain ⟨frames', fresh', q', r'⟩ := n
  obtain ⟨hframes, hfresh, hq⟩ := h
  dsimp only at hframes hfresh hq hrest
  subst hfresh hq hrest
  cases frames with
  | nil =>
      rw [List.map_nil, eq_comm, List.map_eq_nil_iff] at hframes
      subst hframes
      exact .refl _
  | cons frame frames =>
      cases frames' with
      | nil => cases hframes
      | cons frame' frames' =>
          obtain ⟨hframe, hframes⟩ := List.cons.inj hframes
          have hsame := @same_step frame frame' frames frames' fresh q hframe hframes r'
          rw [outcome_cons, outcome_cons]
          generalize hstep : step frame frames fresh q r' = next at hsame
          generalize step frame' frames' fresh q r' = next' at hsame
          cases hsame with
          | @ok m n hlike hrest =>
              have hlt := step_lt hstep
              exact ih m.rest.length (hlength ▸ hlt) hlike hrest rfl
          | error e => exact .refl _
          | nameless s r => exact .nameless s r

/-! ## What is lacking -/

/-- `Lacks f wanted s r` says that reading `s` by `f` lacks something at `r`: another text could
stand there and a query would be read, but what begins like `r` is refused where it begins. -/
def Lacks (f : Bytes → Except Stop Query) (wanted : Wanted) (s r : Bytes) : Prop :=
  ∃ c : String, (∀ b ∈ (bytesOf c).head?, separates b) ∧
    Stable (fun x t => (t = bytesOf c → ∃ q, f x = .ok q) ∧
      ∀ b ∈ r.head?, b ∈ t.head? → f x = .error ⟨.expected wanted, t⟩) s r

section

variable {f g : Bytes → Except Stop Query} {wanted : Wanted} {s r t x : Bytes} {b : UInt8}
  {e : Stop}

theorem Lacks.after (hs : Stable (fun x y => SameEnd (g y) (f x)) s t)
    (h : Lacks g wanted t r) : Lacks f wanted s r := by
  obtain ⟨c, hsep, hstable⟩ := h
  refine ⟨c, hsep, (hs.trans hstable).mono ?_⟩
  rintro x z ⟨y, hsame, hread, hrefuse⟩
  refine ⟨fun hz => ?_, fun b hb hb' => ?_⟩
  · obtain ⟨q, hq⟩ := hread hz
    exact ⟨q, (hq ▸ hsame).eq_ok⟩
  · exact (hrefuse b hb hb' ▸ hsame).eq_expected

/-- Something is lacking where the first byte that is no white space stands. -/
theorem lacks_skipSpace (c : String) (hsep : ∀ b ∈ (bytesOf c).head?, separates b)
    (hread : ∀ x, Blanks x (bytesOf c) → ∃ q, f x = .ok q)
    (hrefuse : ∀ b t, skipSpace s = b :: t → ∀ x t', skipSpace x = b :: t' →
      f x = .error ⟨.expected wanted, b :: t'⟩) : Lacks f wanted s (skipSpace s) := by
  obtain ⟨u, hu, hascii, hblanks⟩ := exists_skipSpace_eq s
  refine ⟨c, hsep, u, hu, hascii, fun t _ => ⟨?_, fun b hb hb' => ?_⟩⟩
  · rintro rfl
    exact hread _ (hblanks _)
  · obtain ⟨r, hr⟩ := List.head?_eq_some_iff.mp hb
    obtain ⟨t, rfl⟩ := List.head?_eq_some_iff.mp hb'
    exact hrefuse b r hr _ t ((hblanks _).skipSpace_cons (isSpace_of_skipSpace hr))

/-- Where a byte does not come next, it does not come next in what begins in the same way. -/
theorem after?_eq_none_of_skipSpace {c : UInt8} (h : after? c s = none) (hs : skipSpace s = b :: t)
    (hx : skipSpace x = b :: r) : after? c x = none := by
  refine after?_eq_none hx fun hb => ?_
  simp [after?, hs, hb] at h

theorem expect_eq_error {c : UInt8} (h : expect c wanted s = .error e) (hs : skipSpace s = b :: t)
    (hx : skipSpace x = b :: r) : expect c wanted x = .error ⟨.expected wanted, b :: r⟩ := by
  have hnone : after? c s = none := by
    unfold expect at h
    split at h
    · assumption
    · cases h
  rw [expect, after?_eq_none_of_skipSpace hnone hs hx, hx]

end

/-! ## What is lacking in a round -/

/-- What is left of a member after its name. -/
def stepNamed (frame : Frame) (frames : List Frame) (q : Query) (name : String) (s : Bytes) :
    Except Stop State :=
  match expect Byte.colon .colon s with
  | .error e => .error e
  | .ok r => stepValue frame frames q name r

section

variable {frame : Frame} {frames : List Frame} {fresh : Bool} {q : Query} {wanted : Wanted}
  {s t r x : Bytes} {name : String}

theorem stepMember_eq (ht : skipSpace s = Byte.quote :: t)
    (hpiece : readPiece Reader.text (Byte.quote :: t) = .ok (name, r)) :
    stepMember frame frames q s = stepNamed frame frames q name r := by
  have hquote : (Byte.quote == Byte.quote) = true := rfl
  simp only [stepMember, stepNamed, readName, ht, if_pos hquote, hpiece]
  cases expect Byte.colon .colon r <;> rfl

theorem outcome_object (hobject : ∀ parent, frame ≠ .list parent) (x : Bytes) :
    State.outcome ⟨frame :: frames, fresh, q, x⟩ =
      (stepObject frame frames fresh q x).bind State.outcome := by
  rw [outcome_cons, step_object hobject]
  cases stepObject frame frames fresh q x <;> rfl

/-- A member that begins with a quotation mark is read where the comma before it has been. -/
theorem outcome_member (hobject : ∀ parent, frame ≠ .list parent)
    (hcomma : readComma fresh .nextMember x = .ok s) (hs : skipSpace s = Byte.quote :: t) :
    State.outcome ⟨frame :: frames, fresh, q, x⟩ =
      (stepMember frame frames q s).bind State.outcome := by
  have hclose : after? Byte.closeCurly x = none :=
    after?_of_readComma hcomma hs (by decide) (by decide)
  rw [outcome_object hobject, stepObject, hclose]
  simp only [hcomma]

/-- Where what is open can be closed, it is enough that something else is refused there. -/
theorem lacks_closing (hrefuse : ∀ b t, skipSpace s = b :: t → ∀ x t', skipSpace x = b :: t' →
      State.outcome ⟨frames, fresh, q, x⟩ = .error ⟨.expected wanted, b :: t'⟩) :
    Lacks (fun x => State.outcome ⟨frames, fresh, q, x⟩) wanted s (skipSpace s) :=
  lacks_skipSpace (closing frames fresh) (separates_closing frames fresh)
    (fun _ hx => exists_outcome_closing hx) hrefuse

theorem stepValue_expected (h : stepValue frame frames q name s = .error ⟨.expected wanted, r⟩) :
    wanted = .value ∧ r = [] ∧ skipSpace s = [] := by
  obtain ⟨α, p, -, hpiece, -⟩ := exists_asks_of_stepValue h
  rcases eq_of_readPiece hpiece with ⟨hend, heq⟩ | ⟨fault, b, t, -, heq⟩
  · cases heq
    exact ⟨rfl, rfl, hend⟩
  · cases heq

theorem exists_outcome_filler (hobject : ∀ parent, frame ≠ .list parent)
    (hx : Blanks x (bytesOf (filler name ++ closing (frame.after name :: frames) false))) :
    ∃ q', (stepValue frame frames q name x).bind State.outcome = .ok q' := by
  rw [bytesOf_append] at hx
  obtain ⟨q', hvalue⟩ := exists_stepValue frames q hobject hx (follows_closing _)
  rw [hvalue]
  exact exists_outcome_closing (.nil _)

/-- Where the text ends before a value, it is the value that is lacking. -/
theorem lacks_value (hobject : ∀ parent, frame ≠ .list parent)
    (h : stepValue frame frames q name s = .error ⟨.expected wanted, r⟩) :
    Lacks (fun x => (stepValue frame frames q name x).bind State.outcome) wanted s r := by
  obtain ⟨rfl, rfl, hend⟩ := stepValue_expected h
  rw [← hend]
  refine lacks_skipSpace (filler name ++ closing (frame.after name :: frames) false) ?_
    (fun x hx => exists_outcome_filler hobject hx) ?_
  · rw [bytesOf_append, filler]
    split <;> (rintro b ⟨⟩; decide)
  · intro b t hb
    rw [hend] at hb
    cases hb

theorem lacks_named (hobject : ∀ parent, frame ≠ .list parent)
    (h : stepNamed frame frames q name s = .error ⟨.expected wanted, r⟩) :
    Lacks (fun x => (stepNamed frame frames q name x).bind State.outcome) wanted s r := by
  unfold stepNamed at h
  split at h
  · rename_i hcolon
    cases h
    cases eq_of_expect hcolon
    refine lacks_skipSpace (":" ++ (filler name ++ closing (frame.after name :: frames) false))
      ?_ (fun x hx => ?_) (fun b t hb x t' hx => ?_)
    · rw [bytesOf_append]
      rintro b ⟨⟩
      decide
    · rw [bytesOf_append] at hx
      have hopen : expect Byte.colon .colon x = .ok
          (bytesOf (filler name ++ closing (frame.after name :: frames) false)) :=
        expect_eq_ok_iff.mpr (after?_eq_some hx rfl)
      simp only [stepNamed, hopen]
      exact exists_outcome_filler hobject (.nil _)
    · simp only [stepNamed, expect_eq_error hcolon hb hx]
      rfl
  · rename_i hcolon
    refine (lacks_value hobject h).after ?_
    refine (stable_expect (by decide) hcolon).mono fun x y hx => .of_eq ?_
    simp only [stepNamed, hx]

/-- What is lacking in a member: its name, or something after the name. -/
theorem stepMember_expected
    (h : stepMember frame frames q s = .error ⟨.expected wanted, r⟩) :
    (wanted = .memberName ∧ r = skipSpace s ∧ ∀ t, skipSpace s ≠ Byte.quote :: t) ∨
      ∃ t name v, skipSpace s = Byte.quote :: t ∧
        readPiece Reader.text (Byte.quote :: t) = .ok (name, v) ∧
        stepNamed frame frames q name v = .error ⟨.expected wanted, r⟩ := by
  by_cases hquote : ∃ t, skipSpace s = Byte.quote :: t
  · obtain ⟨t, ht⟩ := hquote
    right
    cases hpiece : readPiece Reader.text (Byte.quote :: t) with
    | error e =>
        have hb : (Byte.quote == Byte.quote) = true := rfl
        simp only [stepMember, readName, ht, if_pos hb, hpiece] at h
        cases h
        rcases eq_of_readPiece hpiece with ⟨hend, -⟩ | ⟨fault, b, t, -, heq⟩
        · rw [skipSpace_cons t rfl] at hend
          cases hend
        · cases heq
    | ok read =>
        obtain ⟨name, v⟩ := read
        rw [stepMember_eq ht hpiece] at h
        exact ⟨t, name, v, ht, hpiece, h⟩
  · left
    have hname : readName s = .error ⟨.expected .memberName, skipSpace s⟩ := by
      unfold readName
      split
      · rename_i hs
        rw [hs]
      · rename_i b t hs
        have hb : ¬(b == Byte.quote) = true := fun hb =>
          hquote ⟨t, by rw [hs, beq_iff_eq.mp hb]⟩
        rw [if_neg hb, hs]
    simp only [stepMember, hname] at h
    cases h
    exact ⟨rfl, rfl, fun t ht => hquote ⟨t, ht⟩⟩

theorem stepMember_eq_error {b : UInt8} (hquote : ∀ t, skipSpace s ≠ Byte.quote :: t)
    (hs : skipSpace s = b :: t) (hx : skipSpace x = b :: r) :
    stepMember frame frames q x = .error ⟨.expected .memberName, b :: r⟩ := by
  have hb : ¬(b == Byte.quote) = true := fun hb => hquote t (by rw [hs, beq_iff_eq.mp hb])
  simp only [stepMember, readName, hx, if_neg hb]

/-- After a comma a name is lacking where no quotation mark stands. -/
theorem lacks_memberName (frames : List Frame) (q : Query)
    (hobject : ∀ parent, frame ≠ .list parent) (hquote : ∀ t, skipSpace s ≠ Byte.quote :: t) :
    Lacks (fun x => (stepMember frame frames q x).bind State.outcome) .memberName s
      (skipSpace s) := by
  refine lacks_skipSpace ("\"name\":\"a\"" ++ closing (frame.after "name" :: frames) false) ?_
    (fun x hx => ?_) (fun b t hb x t' hx => ?_)
  · rw [bytesOf_append]
    rintro b ⟨⟩
    decide
  · rw [bytesOf_append] at hx
    obtain ⟨q', hmember⟩ := exists_stepMember frames q hobject (hx.skipSpace_cons rfl)
      (follows_closing _)
    rw [hmember]
    exact exists_outcome_closing (.nil _)
  · rw [stepMember_eq_error hquote hb hx]
    rfl

/-- What is lacking in a member is lacking in the text with the comma before it. -/
theorem lacks_member (hobject : ∀ parent, frame ≠ .list parent)
    (hclose : after? Byte.closeCurly s = none) (hcomma : readComma fresh .nextMember s = .ok t)
    (h : stepMember frame frames q t = .error ⟨.expected wanted, r⟩) :
    Lacks (fun x => State.outcome ⟨frame :: frames, fresh, q, x⟩) wanted s r := by
  rcases stepMember_expected h with ⟨rfl, rfl, hquote⟩ | ⟨u, name, v, hu, hpiece, hnamed⟩
  · cases fresh with
    | true =>
        -- No comma comes before the first member, in whose place the object can end.
        cases hcomma
        refine lacks_closing fun b u hb x t' hx => ?_
        have hnone := after?_eq_none_of_skipSpace hclose hb hx
        rw [outcome_object hobject, stepObject, hnone]
        simp only [readComma, if_true, stepMember_eq_error hquote hb hx]
        rfl
    | false =>
        refine (lacks_memberName frames q hobject hquote).after
          ((stable_readComma hcomma).mono fun x y hx => .of_eq ?_)
        have hnone : after? Byte.closeCurly x = none :=
          after?_eq_none (skipSpace_of_after? (expect_eq_ok_iff.mp hx)) (by decide)
        rw [outcome_object hobject, stepObject, hnone]
        simp only [hx]
  · have hname := (stableBefore_first hu).trans (stable_readPiece isStable_text hpiece)
      (length_readPiece_lt hpiece)
    refine (lacks_named hobject hnamed).after (((stable_readComma hcomma).trans hname).mono ?_)
    rintro x y ⟨z, hz, w, ⟨hw, hhead⟩, hy⟩
    obtain ⟨w, rfl⟩ := List.head?_eq_some_iff.mp hhead
    exact .of_eq (by rw [outcome_member hobject hz hw, stepMember_eq hw hy])

theorem lacks_object (hobject : ∀ parent, frame ≠ .list parent)
    (h : stepObject frame frames fresh q s = .error ⟨.expected wanted, r⟩) :
    Lacks (fun x => State.outcome ⟨frame :: frames, fresh, q, x⟩) wanted s r := by
  unfold stepObject at h
  split at h
  · unfold closeObject at h
    split at h <;> cases h
  rename_i hclose
  split at h
  · rename_i hcomma
    cases h
    cases fresh with
    | true => cases hcomma
    | false =>
        cases eq_of_readComma hcomma
        refine lacks_closing fun b t hb x t' hx => ?_
        have hnone := after?_eq_none_of_skipSpace hclose hb hx
        rw [outcome_object hobject, stepObject, hnone]
        simp only [readComma, expect_eq_error hcomma hb hx]
        rfl
  · rename_i hcomma
    exact lacks_member hobject hclose hcomma h

theorem lacks_openField {parent : Nat}
    (h : openField parent frames q s = .error ⟨.expected wanted, r⟩) :
    Lacks (fun x => (openField parent frames q x).bind State.outcome) wanted s r := by
  unfold openField at h
  split at h
  · rename_i hopen
    cases h
    cases eq_of_expect hopen
    refine lacks_skipSpace ("\x7b" ++ closing (.field 0 [] false :: .list parent :: frames) true)
      ?_ (fun x hx => ?_) (fun b t hb x t' hx => ?_)
    · rw [bytesOf_append]
      rintro b ⟨⟩
      decide
    · rw [bytesOf_append] at hx
      have hopened : expect Byte.openCurly .openField x =
          .ok (bytesOf (closing (.field 0 [] false :: .list parent :: frames) true)) :=
        expect_eq_ok_iff.mpr (after?_eq_some hx rfl)
      simp only [openField, hopened]
      exact exists_outcome_closing (.nil _)
    · simp only [openField, expect_eq_error hopen hb hx]
      rfl
  · cases h

theorem lacks_list {parent : Nat}
    (h : step (.list parent) frames fresh q s = .error ⟨.expected wanted, r⟩) :
    Lacks (fun x => State.outcome ⟨.list parent :: frames, fresh, q, x⟩) wanted s r := by
  rw [step_list] at h
  split at h
  · cases h
  rename_i hclose
  cases fresh with
  | true =>
      -- No comma comes before the first field, in whose place the list can end.
      change openField parent frames q s = _ at h
      unfold openField at h
      split at h
      · rename_i hopen
        cases h
        cases eq_of_expect hopen
        refine lacks_closing fun b t hb x t' hx => ?_
        have hnone := after?_eq_none_of_skipSpace hclose hb hx
        rw [outcome_cons, step_list, hnone]
        simp only [readComma, if_true, openField, expect_eq_error hopen hb hx]
      · cases h
  | false =>
      split at h
      · rename_i hcomma
        cases h
        cases eq_of_readComma hcomma
        refine lacks_closing fun b t hb x t' hx => ?_
        have hnone := after?_eq_none_of_skipSpace hclose hb hx
        rw [outcome_cons, step_list, hnone]
        simp only [readComma, expect_eq_error hcomma hb hx]
        rfl
      · rename_i hcomma
        refine (lacks_openField h).after ((stable_readComma hcomma).mono fun x y hx => .of_eq ?_)
        have hnone : after? Byte.closeSquare x = none :=
          after?_eq_none (skipSpace_of_after? (expect_eq_ok_iff.mp hx)) (by decide)
        rw [outcome_cons, step_list, hnone]
        simp only [hx]
        cases openField parent frames q y <;> rfl

/-- What a round wants is lacking in its text. -/
theorem lacks_step (h : step frame frames fresh q s = .error ⟨.expected wanted, r⟩) :
    Lacks (fun x => State.outcome ⟨frame :: frames, fresh, q, x⟩) wanted s r := by
  obtain ⟨parent, rfl⟩ | hobject := frame.list_or_object
  · exact lacks_list h
  · rw [step_object hobject] at h
    exact lacks_object hobject h

end

/-! ## What is lacking in a text -/

section

variable {s r : Bytes} {wanted : Wanted}

theorem lacks_openDocument {e : Stop} (h : expect Byte.openCurly .openDocument s = .error e) :
    Lacks readQuery .openDocument s (skipSpace s) := by
  refine lacks_skipSpace ("\x7b" ++ closing [.document] true) ?_ (fun x hx => ?_)
    (fun b t hb x t' hx => ?_)
  · rw [bytesOf_append]
    rintro b ⟨⟩
    decide
  · rw [bytesOf_append] at hx
    have hopened : expect Byte.openCurly .openDocument x =
        .ok (bytesOf (closing [.document] true)) := expect_eq_ok_iff.mpr (after?_eq_some hx rfl)
    obtain ⟨q, hq⟩ := @exists_outcome_closing [.document] true .empty _ (.nil _)
    exact ⟨q, (Reaches.start hopened).readQuery_eq.trans hq⟩
  · exact (Ends.unopened (expect_eq_error h hb hx)).readQuery_eq

/-- After the rounds that led to it, a state goes on in the same way whatever comes next. -/
theorem Reaches.stable_outcome {n : Nat} {m : State} (h : Reaches s n m) :
    Stable (fun x y => SameEnd (State.outcome ⟨m.frames, m.fresh, m.query, y⟩) (readQuery x))
      s m.rest := by
  refine h.stable.mono ?_
  rintro x y ⟨k, hk, hlike, hrest⟩
  rw [hk.readQuery_eq]
  exact sameEnd_outcome ⟨hlike.frames, hlike.fresh, hlike.query⟩ hrest

theorem lacks_of_ends (h : Ends s (.error ⟨.expected wanted, r⟩)) : Lacks readQuery wanted s r := by
  cases h with
  | unopened hopen =>
      cases eq_of_expect hopen
      exact lacks_openDocument hopen
  | stopped hreach hstep => exact (lacks_step hstep).after hreach.stable_outcome
  | excess hreach hrest =>
      refine Lacks.after hreach.stable_outcome ?_
      rw [← hrest]
      refine lacks_closing fun b t hb x t' hx => ?_
      simp only [State.outcome, State.finish, hx]

end

end Wire

/-- Where something else is wanted, the text before that place can be gone on with so that a query
is read. If the text goes on there, whatever goes on with the same byte is refused for the same
reason at the same place. -/
theorem Query.ofText_of_expected {text : String} {wanted : Wire.Wanted} {offset : Nat}
    (h : ofText text = .error ⟨.expected wanted, offset⟩) :
    offset ≤ (bytesOf text).length ∧
      (∃ other q, (bytesOf other).take offset = (bytesOf text).take offset ∧
        ofText other = .ok q) ∧
      (offset < (bytesOf text).length → ∀ other,
        (bytesOf other).take (offset + 1) = (bytesOf text).take (offset + 1) →
        ofText other = .error ⟨.expected wanted, offset⟩) := by
  obtain ⟨⟨cause, r⟩, hread, heq⟩ := ofText_eq_error_iff.mp h
  obtain ⟨rfl, hoffset⟩ := Wire.Error.mk.inj heq
  obtain ⟨c, hsep, u, hu, hascii, hall⟩ :=
    Wire.lacks_of_ends (hread ▸ Wire.ends_readQuery (bytesOf text))
  obtain rfl : offset = u.length := by
    rw [hoffset, hu, List.length_append, Nat.add_sub_cancel]
  refine ⟨?_, ?_, fun hlt other hother => ?_⟩
  · rw [hu, List.length_append]
    exact Nat.le_add_right _ _
  · obtain ⟨a, -, -, ha, -⟩ := exists_append_of_endsAscii hu hascii
    obtain ⟨q, hq⟩ := (hall (bytesOf c) (.inr hsep)).1 rfl
    have hother : bytesOf (a ++ c) = u ++ bytesOf c := by rw [bytesOf_append, ha]
    refine ⟨a ++ c, q, ?_, ofText_eq_ok_iff.mpr (hother ▸ hq)⟩
    rw [hother, hu, List.take_left, List.take_left]
  · cases r with
    | nil => simp [hu] at hlt
    | cons b t =>
        obtain ⟨v, hv⟩ : ∃ v, bytesOf other = u ++ b :: v := by
          refine ⟨(bytesOf other).drop (u.length + 1), ?_⟩
          have htake : (bytesOf text).take (u.length + 1) = u ++ [b] := by
            rw [hu, List.take_length_add_append, List.take_succ_cons, List.take_zero]
          calc bytesOf other
              = (bytesOf other).take (u.length + 1) ++ (bytesOf other).drop (u.length + 1) :=
                (List.take_append_drop _ _).symm
            _ = (u ++ [b]) ++ (bytesOf other).drop (u.length + 1) := by rw [hother, htake]
            _ = u ++ b :: (bytesOf other).drop (u.length + 1) := by
                rw [List.append_assoc, List.singleton_append]
        have hrefuse := (hall (b :: v) (.inl rfl)).2 b rfl rfl
        refine ofText_eq_error_iff.mpr ⟨⟨.expected wanted, b :: v⟩, hv ▸ hrefuse, ?_⟩
        rw [hv, List.length_append, Nat.add_sub_cancel]

/-- A member or the end of a field is wanted where a character of two bytes stands. The field has
no name yet. -/
theorem Query.ofText_of_expected_unnamed :
    let text := "\x7b\"selections\":[\x7bé"
    let error : Wire.Error := ⟨.expected .memberName, 16⟩
    ofText text = .error error ∧ 16 ≤ (bytesOf text).length ∧
      (∃ other q, (bytesOf other).take 16 = (bytesOf text).take 16 ∧ ofText other = .ok q) ∧
      (16 < (bytesOf text).length → ∀ other,
        (bytesOf other).take 17 = (bytesOf text).take 17 → ofText other = .error error) := by
  intro text error
  have hname : Wire.readName (bytesOf "\"selections\":[\x7bé") =
      .ok ("selections", bytesOf "[\x7bé") :=
    Wire.readName_eq rfl (spellsText_self (t := "selections") _ rfl) (.nil _)
  have hlist : Wire.step .document [] true .empty (bytesOf "\"selections\":[\x7bé") =
      .ok ⟨[.list 0, .document], true, .empty, bytesOf "\x7bé"⟩ := by
    have hclose : Wire.after? Byte.closeCurly (bytesOf "\"selections\":[\x7bé") = none := rfl
    simp only [Wire.step, Wire.stepDocument, hclose, Wire.readComma, if_true, hname]
    rfl
  have hfield : Wire.Reaches (bytesOf text) 2
      ⟨[.field 1 (bytesOf "\x7bé") false, .list 0, .document], true, Query.empty.add 0 "" none,
        bytesOf "é"⟩ :=
    ((Wire.Reaches.start rfl).round hlist).round rfl
  have hread : Wire.readQuery (bytesOf text) = .error ⟨.expected .memberName, bytesOf "é"⟩ :=
    (Wire.Ends.stopped hfield rfl).readQuery_eq
  have h : ofText text = .error error := ofText_eq_error_iff.mpr ⟨_, hread, rfl⟩
  exact ⟨h, ofText_of_expected h⟩

end QueryAdmission

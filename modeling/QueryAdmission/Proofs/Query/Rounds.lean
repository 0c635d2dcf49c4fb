import QueryAdmission.Proofs.Json.SkipLocality
import QueryAdmission.Proofs.Query.Descent

/-! # The course of reading

A query is read in rounds, each of which goes by the frame that is open. What a round does depends
on the text that it uses up and on the first byte after it, and where a field has begun matters
only to the report that it has no name. -/

namespace QueryAdmission

open Json

namespace Wire

/-! ## Pieces of the text -/

/-- The readers of names and of the values of members. -/
inductive ReadsPiece : {α : Type} → Reader α → Prop where
  | text : ReadsPiece Reader.text
  | label : ReadsPiece (.optional .text)
  | arguments : ReadsPiece arguments
  | unit : ReadsPiece Reader.unit
  | skip : ReadsPiece Reader.skip

theorem ReadsPiece.isStable {α : Type} {p : Reader α} (h : ReadsPiece p) : p.IsStable := by
  cases h with
  | text => exact isStable_text
  | label => exact isStable_optional isStable_text
  | arguments => exact isStable_optional (isStable_keyedOf (isStable_value _))
  | unit => exact isStable_unit
  | skip => exact isStable_skip

section

variable {s r : Bytes} {b : UInt8} {wanted : Wanted}

theorem after?_eq_none {c : UInt8} (h : skipSpace s = c :: r) (hc : c ≠ b) : after? b s = none := by
  simp [after?, h, hc]

theorem skipSpace_of_after? (h : after? b s = some r) : skipSpace s = b :: r := by
  unfold after? at h
  split at h
  · cases h
  rename_i hs
  split at h
  · rename_i hc
    cases h
    rw [hs, beq_iff_eq.mp hc]
  · cases h

theorem stable_after? (hb : b < 0x80) (h : after? b s = some r) :
    Stable (fun x t => after? b x = some t) s r :=
  stable_skipSpace (skipSpace_of_after? h) hb fun x t hx => by simp [after?, hx]

theorem expect_eq_ok_iff : expect b wanted s = .ok r ↔ after? b s = some r := by
  rw [expect]
  cases after? b s <;> simp

theorem stable_expect (hb : b < 0x80) (h : expect b wanted s = .ok r) :
    Stable (fun x t => expect b wanted x = .ok t) s r :=
  (stable_after? hb (expect_eq_ok_iff.mp h)).mono fun _ _ hx => expect_eq_ok_iff.mpr hx

theorem stable_readComma {fresh : Bool} (h : readComma fresh wanted s = .ok r) :
    Stable (fun x t => readComma fresh wanted x = .ok t) s r := by
  cases fresh with
  | true =>
      cases h
      exact stable_self fun t => rfl
  | false => exact stable_expect (by decide) h

/-- Where an item comes next, no closing bracket does. -/
theorem after?_of_readComma {fresh : Bool} {close c : UInt8} (h : readComma fresh wanted s = .ok r)
    {t : Bytes} (ht : skipSpace r = c :: t) (hc : c ≠ close) (hcomma : Byte.comma ≠ close) :
    after? close s = none := by
  cases fresh with
  | true =>
      cases h
      exact after?_eq_none ht hc
  | false => exact after?_eq_none (skipSpace_of_after? (expect_eq_ok_iff.mp h)) hcomma

theorem skipSpace_of_readName {name : String} (h : readName s = .ok (name, r)) :
    ∃ t, skipSpace s = Byte.quote :: t := by
  unfold readName at h
  split at h
  · cases h
  rename_i b t hs
  split at h
  · rename_i hb
    exact ⟨t, by rw [hs, beq_iff_eq.mp hb]⟩
  · cases h

/-- What is `null` begins with no bracket. -/
theorem after?_of_readPiece_unit (h : readPiece Reader.unit s = .ok ((), r))
    (hb : b ≠ Byte.lettern) : after? b s = none := by
  unfold readPiece at h
  split at h
  · cases h
  rename_i c t hs
  refine after?_eq_none hs ?_
  rintro rfl
  have hspace := isSpace_of_skipSpace hs
  simp [Reader.unit, Reader.onFirstByte, skipSpace_cons t hspace, hb] at h

theorem stable_readPiece {α : Type} {p : Reader α} (hp : p.IsStable) {a : α}
    (h : readPiece p s = .ok (a, r)) : Stable (fun x t => readPiece p x = .ok (a, t)) s r := by
  unfold readPiece at h
  split at h
  · cases h
  rename_i b q hs
  split at h
  · cases h
  rename_i hrun
  split at h
  · rename_i hend
    cases h
    refine ((stableBefore_first hs).trans (hp.stable hrun).rest (p.shorter hrun)).mono ?_
    rintro x t ⟨y, ⟨hx, hhead⟩, hy, hrest⟩
    obtain ⟨y, rfl⟩ := List.head?_eq_some_iff.mp hhead
    have hend' : (b == Byte.openSquare || b == Byte.quote || b == Byte.openCurly ||
        t.head?.all separates) = true := by
      rw [Bool.or_eq_true] at hend ⊢
      exact hend.imp_right hrest.head?_all
    simp only [readPiece, hx, hy, if_pos hend']
  · cases h

theorem stable_readName {name : String} (h : readName s = .ok (name, r)) :
    Stable (fun x t => readName x = .ok (name, t)) s r := by
  unfold readName at h
  split at h
  · cases h
  rename_i b q hs
  split at h
  · rename_i hb
    split at h
    · cases h
    rename_i hpiece
    split at h
    · cases h
    rename_i hcolon
    cases h
    refine ((stableBefore_first hs).trans ((stable_readPiece isStable_text hpiece).trans
      (stable_expect (by decide) hcolon)) ?_).mono ?_
    · exact Nat.lt_trans (length_expect_lt hcolon) (length_readPiece_lt hpiece)
    rintro x t ⟨y, ⟨hx, hhead⟩, z, hy, hz⟩
    obtain ⟨y, rfl⟩ := List.head?_eq_some_iff.mp hhead
    simp only [readName, hx, if_pos hb, hy, hz]
  · cases h

theorem stable_readMember {q q' : Query} {place : Nat} {isNamed isNamed' : Bool} {name : String}
    (h : readMember q place isNamed name s = .ok (q', isNamed', r)) :
    Stable (fun x t => readMember q place isNamed name x = .ok (q', isNamed', t)) s r := by
  unfold readMember at h ⊢
  split at h
  · rename_i hname
    simp only [if_pos hname]
    split at h
    · cases h
    rename_i hpiece
    split at h
    · rename_i hempty
      cases h
      exact (stable_readPiece isStable_text hpiece).mono fun x t hx => by
        simp only [hx, if_pos hempty]
    · rename_i hempty
      cases h
      exact (stable_readPiece isStable_text hpiece).mono fun x t hx => by
        simp only [hx, if_neg hempty]
  rename_i hname
  simp only [if_neg hname]
  split at h
  · rename_i halias
    simp only [if_pos halias]
    split at h
    · cases h
    rename_i hpiece
    cases h
    exact (stable_readPiece ReadsPiece.label.isStable hpiece).mono fun x t hx => by simp only [hx]
  rename_i halias
  simp only [if_neg halias]
  split at h
  · rename_i harguments
    simp only [if_pos harguments]
    split at h
    · cases h
    rename_i hpiece
    cases h
    exact (stable_readPiece ReadsPiece.arguments.isStable hpiece).mono fun x t hx => by
      simp only [hx]
  rename_i harguments
  simp only [if_neg harguments]
  split at h
  · cases h
  rename_i hpiece
  cases h
  exact (stable_readPiece isStable_skip hpiece).mono fun x t hx => by simp only [hx]

end

/-! ## Rounds in parts -/

/-- The beginning of a field in a list, after the comma. -/
def openField (parent : Nat) (frames : List Frame) (q : Query) (s : Bytes) : Except Stop State :=
  match expect Byte.openCurly .openField s with
  | .error e => .error e
  | .ok r =>
    .ok ⟨.field q.fields.size (skipSpace s) false :: .list parent :: frames, true,
      q.add parent "" none, r⟩

/-- The end of an object. -/
def closeObject (frame : Frame) (frames : List Frame) (q : Query) (s : Bytes) :
    Except Stop State :=
  match frame with
  | .field _ start false => .error ⟨.nameless, start⟩
  | _ => .ok ⟨frames, false, q, s⟩

/-- A value that nobody asked for. -/
def stepSkip (frame : Frame) (frames : List Frame) (q : Query) (s : Bytes) : Except Stop State :=
  match readPiece Reader.skip s with
  | .error e => .error e
  | .ok (_, r) => .ok ⟨frame :: frames, false, q, r⟩

/-- The value of a member. -/
def stepValue (frame : Frame) (frames : List Frame) (q : Query) (name : String) (s : Bytes) :
    Except Stop State :=
  if name = "selections" then stepSelections frame frames q s
  else
    match frame with
    | .field place start isNamed =>
      match readMember q place isNamed name s with
      | .error e => .error e
      | .ok (q, isNamed, r) => .ok ⟨.field place start isNamed :: frames, false, q, r⟩
    | _ => stepSkip frame frames q s

/-- A member, after the comma. -/
def stepMember (frame : Frame) (frames : List Frame) (q : Query) (s : Bytes) :
    Except Stop State :=
  match readName s with
  | .error e => .error e
  | .ok (name, r) => stepValue frame frames q name r

/-- A round inside an object. -/
def stepObject (frame : Frame) (frames : List Frame) (fresh : Bool) (q : Query) (s : Bytes) :
    Except Stop State :=
  match after? Byte.closeCurly s with
  | some r => closeObject frame frames q r
  | none =>
    match readComma fresh .nextMember s with
    | .error e => .error e
    | .ok t => stepMember frame frames q t

section

variable {frames : List Frame} {fresh : Bool} {q : Query} {s r : Bytes}

/-- A frame is a list, or it is read as an object. -/
theorem Frame.list_or_object (frame : Frame) :
    (∃ parent, frame = .list parent) ∨ ∀ parent, frame ≠ .list parent := by
  cases frame with
  | list parent => exact .inl ⟨parent, rfl⟩
  | document => exact .inr nofun
  | field place start isNamed => exact .inr nofun

theorem step_list (parent : Nat) (frames : List Frame) (fresh : Bool) (q : Query) (s : Bytes) :
    step (.list parent) frames fresh q s =
      match after? Byte.closeSquare s with
      | some r => .ok ⟨frames, false, q, r⟩
      | none =>
        match readComma fresh .nextField s with
        | .error e => .error e
        | .ok t => openField parent frames q t := rfl

theorem step_object {frame : Frame} (h : ∀ parent, frame ≠ .list parent) (frames : List Frame)
    (fresh : Bool) (q : Query) (s : Bytes) :
    step frame frames fresh q s = stepObject frame frames fresh q s := by
  cases frame with
  | document => rfl
  | list parent => exact absurd rfl (h parent)
  | field place start isNamed => cases isNamed <;> rfl

end

/-! ## Frames and where they began -/

/-- A frame without the text of its field. -/
def Frame.bare : Frame → Frame
  | .document => .document
  | .list parent => .list parent
  | .field place _ isNamed => .field place [] isNamed

/-- States that differ in where their fields began and in the text to come. -/
structure State.Like (m n : State) : Prop where
  frames : m.frames.map Frame.bare = n.frames.map Frame.bare
  fresh : m.fresh = n.fresh
  query : m.query = n.query

/-- Outcomes of a round that differ in where fields began. -/
inductive SameOutcome : Except Stop State → Except Stop State → Prop where
  | ok {m n : State} : m.Like n → n.rest = m.rest → SameOutcome (.ok m) (.ok n)
  | error (e : Stop) : SameOutcome (.error e) (.error e)
  | nameless (s r : Bytes) : SameOutcome (.error ⟨.nameless, s⟩) (.error ⟨.nameless, r⟩)

section

variable {frame frame' : Frame} {frames frames' : List Frame} {fresh : Bool} {q : Query}

theorem Frame.place_eq (h : frame.bare = frame'.bare) : frame.place = frame'.place := by
  cases frame <;> cases frame' <;> simp_all [bare, place]

theorem same_stepSelections (hframe : frame.bare = frame'.bare)
    (hframes : frames.map Frame.bare = frames'.map Frame.bare) (s : Bytes) :
    SameOutcome (stepSelections frame frames q s) (stepSelections frame' frames' q s) := by
  unfold stepSelections
  cases after? Byte.openSquare s with
  | some r =>
      refine .ok ⟨?_, rfl, rfl⟩ rfl
      simp only [List.map_cons, Frame.place_eq hframe, hframe, hframes]
  | none =>
      dsimp only
      cases readPiece Reader.unit s with
      | error e => exact .error e
      | ok read =>
          refine .ok ⟨?_, rfl, rfl⟩ rfl
          simp only [List.map_cons, hframe, hframes]

theorem same_openField (parent : Nat) (hframes : frames.map Frame.bare = frames'.map Frame.bare)
    (s : Bytes) : SameOutcome (openField parent frames q s) (openField parent frames' q s) := by
  unfold openField
  cases expect Byte.openCurly .openField s with
  | error e => exact .error e
  | ok r =>
      refine .ok ⟨?_, rfl, rfl⟩ rfl
      simp only [List.map_cons, hframes]

theorem same_closeObject (hframe : frame.bare = frame'.bare)
    (hframes : frames.map Frame.bare = frames'.map Frame.bare) (s : Bytes) :
    SameOutcome (closeObject frame frames q s) (closeObject frame' frames' q s) := by
  have hclose : SameOutcome (.ok ⟨frames, false, q, s⟩) (.ok ⟨frames', false, q, s⟩) :=
    .ok ⟨hframes, rfl, rfl⟩ rfl
  cases frame <;> cases frame' <;> cases hframe
  · exact hclose
  · exact hclose
  · rename_i start isNamed start'
    cases isNamed with
    | false => exact .nameless start start'
    | true => exact hclose

theorem same_stepSkip (hframe : frame.bare = frame'.bare)
    (hframes : frames.map Frame.bare = frames'.map Frame.bare) (s : Bytes) :
    SameOutcome (stepSkip frame frames q s) (stepSkip frame' frames' q s) := by
  unfold stepSkip
  cases readPiece Reader.skip s with
  | error e => exact .error e
  | ok read => exact .ok ⟨by simp only [List.map_cons, hframe, hframes], rfl, rfl⟩ rfl

theorem same_stepValue (hframe : frame.bare = frame'.bare)
    (hframes : frames.map Frame.bare = frames'.map Frame.bare) (name : String) (s : Bytes) :
    SameOutcome (stepValue frame frames q name s) (stepValue frame' frames' q name s) := by
  unfold stepValue
  split
  · exact same_stepSelections hframe hframes s
  cases frame <;> cases frame' <;> cases hframe
  · exact same_stepSkip rfl hframes s
  · exact same_stepSkip rfl hframes s
  · rename_i place start isNamed start'
    dsimp only
    cases readMember q place isNamed name s with
    | error e => exact .error e
    | ok read => exact .ok ⟨by simp only [List.map_cons, hframes, Frame.bare], rfl, rfl⟩ rfl

theorem same_stepObject (hframe : frame.bare = frame'.bare)
    (hframes : frames.map Frame.bare = frames'.map Frame.bare) (s : Bytes) :
    SameOutcome (stepObject frame frames fresh q s) (stepObject frame' frames' fresh q s) := by
  unfold stepObject
  cases after? Byte.closeCurly s with
  | some r => exact same_closeObject hframe hframes r
  | none =>
      dsimp only
      cases readComma fresh .nextMember s with
      | error e => exact .error e
      | ok t =>
          dsimp only [stepMember]
          cases readName t with
          | error e => exact .error e
          | ok read => exact same_stepValue hframe hframes read.1 read.2

/-- A round does the same wherever the open fields began. -/
theorem same_step (hframe : frame.bare = frame'.bare)
    (hframes : frames.map Frame.bare = frames'.map Frame.bare) (s : Bytes) :
    SameOutcome (step frame frames fresh q s) (step frame' frames' fresh q s) := by
  obtain ⟨parent, rfl⟩ | hobject := frame.list_or_object
  · cases frame' <;> cases hframe
    rw [step_list, step_list]
    cases after? Byte.closeSquare s with
    | some r => exact .ok ⟨hframes, rfl, rfl⟩ rfl
    | none =>
        dsimp only
        cases readComma fresh .nextField s with
        | error e => exact .error e
        | ok t => exact same_openField parent hframes t
  · have hobject' : ∀ parent, frame' ≠ .list parent := by
      rintro parent rfl
      cases frame <;> cases hframe
      exact hobject parent rfl
    rw [step_object hobject, step_object hobject']
    exact same_stepObject hframe hframes s

/-! ## Rounds on other rests -/

/-- A round that does the same on every text that begins with what it has used up. -/
def Advances (f : Bytes → Except Stop State) (s : Bytes) (m : State) : Prop :=
  Stable (fun x t => ∃ n, f x = .ok n ∧ m.Like n ∧ n.rest = t) s m.rest

theorem State.Like.trans {m n k : State} (h : m.Like n) (h' : n.Like k) : m.Like k :=
  ⟨h.frames.trans h'.frames, h.fresh.trans h'.fresh, h.query.trans h'.query⟩

variable {s : Bytes} {m : State}

theorem advances_openField {parent : Nat} (h : openField parent frames q s = .ok m) :
    Advances (openField parent frames q) s m := by
  unfold openField at h
  split at h
  · cases h
  rename_i hopen
  cases h
  refine (stable_expect (by decide) hopen).mono fun x t hx => ?_
  refine ⟨⟨.field q.fields.size (skipSpace x) false :: .list parent :: frames, true,
    q.add parent "" none, t⟩, ?_, ⟨rfl, rfl, rfl⟩, rfl⟩
  simp only [openField, hx]

theorem advances_stepSelections (h : stepSelections frame frames q s = .ok m) :
    Advances (stepSelections frame frames q) s m := by
  unfold stepSelections at h
  split at h
  · rename_i hopen
    cases h
    refine (stable_after? (by decide) hopen).mono fun x t hx => ?_
    refine ⟨⟨.list frame.place :: frame :: frames, true, q, t⟩, ?_, ⟨rfl, rfl, rfl⟩, rfl⟩
    simp only [stepSelections, hx]
  split at h
  · cases h
  rename_i hunit
  cases h
  refine (stable_readPiece isStable_unit hunit).mono fun x t hx => ?_
  refine ⟨⟨frame :: frames, false, q, t⟩, ?_, ⟨rfl, rfl, rfl⟩, rfl⟩
  have hnone : after? Byte.openSquare x = none := after?_of_readPiece_unit hx (by decide)
  simp only [stepSelections, hnone, hx]

theorem advances_stepSkip (h : stepSkip frame frames q s = .ok m) :
    Advances (stepSkip frame frames q) s m := by
  unfold stepSkip at h
  split at h
  · cases h
  rename_i hpiece
  cases h
  refine (stable_readPiece isStable_skip hpiece).mono fun x t hx => ?_
  exact ⟨⟨frame :: frames, false, q, t⟩, by simp only [stepSkip, hx], ⟨rfl, rfl, rfl⟩, rfl⟩

theorem advances_stepValue {name : String} (h : stepValue frame frames q name s = .ok m) :
    Advances (stepValue frame frames q name) s m := by
  unfold stepValue at h ⊢
  split at h
  · rename_i hname
    simp only [if_pos hname]
    exact advances_stepSelections h
  rename_i hname
  simp only [if_neg hname]
  cases frame with
  | document => exact advances_stepSkip h
  | list parent => exact advances_stepSkip h
  | field place start isNamed =>
      dsimp only at h ⊢
      split at h
      · cases h
      rename_i q' isNamed' r hmember
      cases h
      refine (stable_readMember hmember).mono fun x t hx => ?_
      exact ⟨⟨.field place start isNamed' :: frames, false, q', t⟩, by simp only [hx],
        ⟨rfl, rfl, rfl⟩, rfl⟩

theorem advances_stepMember (h : stepMember frame frames q s = .ok m) :
    Advances (stepMember frame frames q) s m := by
  unfold stepMember at h
  split at h
  · cases h
  rename_i hname
  refine ((stable_readName hname).trans (advances_stepValue h)).mono ?_
  rintro x t ⟨y, hx, n, hn, hlike, hrest⟩
  exact ⟨n, by simp only [stepMember, hx, hn], hlike, hrest⟩

theorem advances_stepObject (h : stepObject frame frames fresh q s = .ok m) :
    Advances (stepObject frame frames fresh q) s m := by
  unfold stepObject at h
  split at h
  · rename_i r hclose
    have hrest : m = ⟨frames, false, q, r⟩ ∧
        ∀ t, closeObject frame frames q t = .ok ⟨frames, false, q, t⟩ := by
      unfold closeObject at h ⊢
      split at h
      · cases h
      · cases h
        exact ⟨rfl, fun t => by simp [*]⟩
    obtain ⟨rfl, hall⟩ := hrest
    refine (stable_after? (by decide) hclose).mono fun x t hx => ?_
    refine ⟨⟨frames, false, q, t⟩, ?_, ⟨rfl, rfl, rfl⟩, rfl⟩
    simp only [stepObject, hx, hall]
  split at h
  · cases h
  rename_i hcomma
  refine ((stable_readComma hcomma).trans (advances_stepMember h)).mono ?_
  rintro x t ⟨y, hx, n, hn, hlike, hrest⟩
  refine ⟨n, ?_, hlike, hrest⟩
  have hnone : after? Byte.closeCurly x = none := by
    unfold stepMember at hn
    split at hn
    · cases hn
    rename_i hname
    obtain ⟨z, hz⟩ := skipSpace_of_readName hname
    exact after?_of_readComma hx hz (by decide) (by decide)
  simp only [stepObject, hnone, hx, hn]

theorem advances_step (h : step frame frames fresh q s = .ok m) :
    Advances (step frame frames fresh q) s m := by
  obtain ⟨parent, rfl⟩ | hobject := frame.list_or_object
  · rw [step_list] at h
    split at h
    · rename_i hclose
      cases h
      refine (stable_after? (by decide) hclose).mono fun x t hx => ?_
      refine ⟨⟨frames, false, q, t⟩, ?_, ⟨rfl, rfl, rfl⟩, rfl⟩
      simp only [step_list, hx]
    split at h
    · cases h
    rename_i hcomma
    refine ((stable_readComma hcomma).trans (advances_openField h)).mono ?_
    rintro x t ⟨y, hx, n, hn, hlike, hrest⟩
    refine ⟨n, ?_, hlike, hrest⟩
    have hnone : after? Byte.closeSquare x = none := by
      unfold openField at hn
      split at hn
      · cases hn
      rename_i hopen
      exact after?_of_readComma hx (skipSpace_of_after? (expect_eq_ok_iff.mp hopen)) (by decide)
        (by decide)
    simp only [step_list, hnone, hx, hn]
  · simp only [step_object hobject] at h
    refine (advances_stepObject h).mono fun x t ⟨n, hn, hlike, hrest⟩ => ?_
    exact ⟨n, (step_object hobject frames fresh q x).trans hn, hlike, hrest⟩

end

/-! ## Runs -/

/-- `Reaches s n m` says that reading `s` is at the state `m` after `n` rounds. -/
inductive Reaches (s : Bytes) : Nat → State → Prop where
  | start {r : Bytes} : expect Byte.openCurly .openDocument s = .ok r →
      Reaches s 0 ⟨[.document], true, .empty, r⟩
  | round {n : Nat} {frame : Frame} {frames : List Frame} {fresh : Bool} {q : Query} {r : Bytes}
      {m : State} : Reaches s n ⟨frame :: frames, fresh, q, r⟩ →
      step frame frames fresh q r = .ok m → Reaches s (n + 1) m

/-- How reading ends. -/
inductive Ends (s : Bytes) : Except Stop Query → Prop where
  | unopened {e : Stop} : expect Byte.openCurly .openDocument s = .error e → Ends s (.error e)
  | stopped {n : Nat} {frame : Frame} {frames : List Frame} {fresh : Bool} {q : Query} {r : Bytes}
      {e : Stop} : Reaches s n ⟨frame :: frames, fresh, q, r⟩ →
      step frame frames fresh q r = .error e → Ends s (.error e)
  | excess {n : Nat} {fresh : Bool} {q : Query} {r t : Bytes} {b : UInt8} :
      Reaches s n ⟨[], fresh, q, r⟩ → skipSpace r = b :: t →
      Ends s (.error ⟨.expected .documentEnd, b :: t⟩)
  | done {n : Nat} {fresh : Bool} {q : Query} {r : Bytes} : Reaches s n ⟨[], fresh, q, r⟩ →
      skipSpace r = [] → Ends s (.ok q)

/-- What a state comes to. -/
def State.outcome (m : State) : Except Stop Query :=
  match m.finish with
  | .error e => .error e
  | .ok (q, r) =>
    match skipSpace r with
    | [] => .ok q
    | b :: t => .error ⟨.expected .documentEnd, b :: t⟩

section

variable {s : Bytes} {n : Nat} {m : State}

theorem outcome_cons (frame : Frame) (frames : List Frame) (fresh : Bool) (q : Query)
    (s : Bytes) :
    State.outcome ⟨frame :: frames, fresh, q, s⟩ =
      match step frame frames fresh q s with
      | .error e => .error e
      | .ok m => m.outcome := by
  rw [State.outcome, finish_cons]
  cases step frame frames fresh q s <;> rfl

/-- Every state on the way comes to what is read in the end. -/
theorem Reaches.readQuery_eq (h : Reaches s n m) : readQuery s = m.outcome := by
  induction h with
  | start hopen =>
      rw [readQuery, hopen]
      rfl
  | round _ hstep ih => rw [ih, outcome_cons, hstep]

theorem Ends.readQuery_eq {o : Except Stop Query} (h : Ends s o) : readQuery s = o := by
  cases h with
  | unopened hopen => rw [readQuery, hopen]
  | stopped hreach hstep => rw [hreach.readQuery_eq, outcome_cons, hstep]
  | excess hreach hrest => rw [hreach.readQuery_eq, State.outcome, State.finish]; simp only [hrest]
  | done hreach hrest => rw [hreach.readQuery_eq, State.outcome, State.finish]; simp only [hrest]

theorem Reaches.ends (h : Reaches s n m) : ∃ o, Ends s o := by
  induction hlength : m.rest.length using Nat.strong_induction_on generalizing n m with
  | _ length ih =>
  obtain ⟨frames, fresh, q, r⟩ := m
  cases frames with
  | nil =>
      cases hrest : skipSpace r with
      | nil => exact ⟨_, .done h hrest⟩
      | cons b t => exact ⟨_, .excess h hrest⟩
  | cons frame frames =>
      cases hstep : step frame frames fresh q r with
      | error e => exact ⟨_, .stopped h hstep⟩
      | ok next =>
          have hlt := step_lt hstep
          exact ih next.rest.length (by rw [← hlength]; exact hlt) (h.round hstep) rfl

/-- Reading ends, after rounds that end. -/
theorem ends_readQuery (s : Bytes) : Ends s (readQuery s) := by
  obtain ⟨o, ho⟩ : ∃ o, Ends s o := by
    cases hopen : expect Byte.openCurly .openDocument s with
    | error e => exact ⟨_, .unopened hopen⟩
    | ok r => exact (Reaches.start hopen).ends
  rwa [ho.readQuery_eq]

/-- Every round uses up text. -/
theorem Reaches.add_length_lt (h : Reaches s n m) : n + m.rest.length < s.length := by
  induction h with
  | start hopen =>
      rw [Nat.zero_add]
      exact length_expect_lt hopen
  | round _ hstep ih =>
      have hlt := step_lt hstep
      dsimp only at ih
      omega

/-- What is reached on one text is reached on others that begin with what has been used up. -/
theorem Reaches.stable (h : Reaches s n m) :
    Stable (fun x t => ∃ k, Reaches x n k ∧ m.Like k ∧ k.rest = t) s m.rest := by
  induction h with
  | start hopen =>
      refine (stable_expect (by decide) hopen).mono fun x t hx => ?_
      exact ⟨_, .start hx, ⟨rfl, rfl, rfl⟩, rfl⟩
  | @round n frame frames fresh q r m hreach hstep ih =>
      refine (ih.trans (advances_step hstep)).mono ?_
      rintro x t ⟨y, ⟨k, hk, hlike, hrest⟩, m', hm', hlike', hrest'⟩
      obtain ⟨frames', fresh', q', r'⟩ := k
      obtain ⟨hframes, hfresh, hq⟩ := hlike
      dsimp only at hframes hfresh hq hrest
      subst hfresh hq hrest
      cases frames' with
      | nil => cases hframes
      | cons frame' frames' =>
          obtain ⟨hframe, hframes⟩ := List.cons.inj hframes
          have hsame := @same_step frame frame' frames frames' fresh q hframe hframes r'
          rw [hm'] at hsame
          generalize hnext : step frame' frames' fresh q r' = next at hsame
          cases hsame with
          | ok hsame hsame' =>
              exact ⟨_, hk.round hnext, hlike'.trans hsame, hsame'.trans hrest'⟩

end

end Wire

theorem Query.ofText_eq_ok_iff {text : String} {q : Query} :
    ofText text = .ok q ↔ Wire.readQuery (bytesOf text) = .ok q := by
  simp only [ofText]
  cases Wire.readQuery (bytesOf text) <;> simp

/-- An error tells the cause and the number of bytes before the place where it was found. -/
theorem Query.ofText_eq_error_iff {text : String} {e : Wire.Error} :
    ofText text = .error e ↔ ∃ stop, Wire.readQuery (bytesOf text) = .error stop ∧
      e = ⟨stop.cause, (bytesOf text).length - stop.rest.length⟩ := by
  simp only [ofText]
  cases Wire.readQuery (bytesOf text) <;> simp [eq_comm]

end QueryAdmission

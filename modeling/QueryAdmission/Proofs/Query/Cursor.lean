import QueryAdmission.Proofs.Json.Boundary
import QueryAdmission.Proofs.Query.Rounds

/-! # Where the reader is

The reader goes through a text by passing over white space, a mark or a piece that it reads. Each
of these ends between two characters, so the reader is never anywhere else, and what it reports is
found at such a place. -/

namespace QueryAdmission

open Json

namespace Wire

/-- The bytes between the pieces of a query. -/
def marks : List UInt8 :=
  [Byte.openCurly, Byte.closeCurly, Byte.openSquare, Byte.closeSquare, Byte.comma, Byte.colon]

/-- A move of the reader: past white space, past a mark or past a piece. -/
inductive Moves : Bytes → Bytes → Prop where
  | space (s : Bytes) : Moves s (skipSpace s)
  | mark {b : UInt8} {s r : Bytes} : b ∈ marks → after? b s = some r → Moves s r
  | piece {α : Type} {p : Reader α} {a : α} {s r : Bytes} : ReadsPiece p →
      readPiece p s = .ok (a, r) → Moves s r

/-- Any number of moves. -/
abbrev Goes : Bytes → Bytes → Prop := Relation.ReflTransGen Moves

/-- `Asks frame name p` says that in a frame the value of a member of that name is read by `p`. -/
inductive Asks : Frame → String → {α : Type} → Reader α → Prop where
  | selections (frame : Frame) : Asks frame "selections" Reader.unit
  | name (place : Nat) (start : Bytes) (isNamed : Bool) :
      Asks (.field place start isNamed) "name" Reader.text
  | label (place : Nat) (start : Bytes) (isNamed : Bool) :
      Asks (.field place start isNamed) "alias" (.optional .text)
  | arguments (place : Nat) (start : Bytes) (isNamed : Bool) :
      Asks (.field place start isNamed) "arguments" arguments
  | other (frame : Frame) {name : String} : name ∉ ["name", "alias", "arguments", "selections"] →
      Asks frame name Reader.skip
  | outside {frame : Frame} {name : String} :
      (∀ place start isNamed, frame ≠ .field place start isNamed) → name ≠ "selections" →
      Asks frame name Reader.skip

/-- `RoundReads frame fresh s p r` says that a round in a frame, which begins at `s`, comes to
read a piece at `r` by `p`: the name of a member or its value. -/
inductive RoundReads (frame : Frame) (fresh : Bool) (s : Bytes) :
    {α : Type} → Reader α → Bytes → Prop where
  | name {t r : Bytes} : (∀ parent, frame ≠ .list parent) → after? Byte.closeCurly s = none →
      readComma fresh .nextMember s = .ok t → skipSpace t = Byte.quote :: r →
      RoundReads frame fresh s Reader.text (Byte.quote :: r)
  | value {α : Type} {p : Reader α} {name : String} {t r : Bytes} :
      (∀ parent, frame ≠ .list parent) → after? Byte.closeCurly s = none →
      readComma fresh .nextMember s = .ok t → readName t = .ok (name, r) → Asks frame name p →
      (name = "selections" → after? Byte.openSquare r = none) → RoundReads frame fresh s p r

/-- What a round can report: that something else was wanted at a place it goes to, that a piece
which it comes to read could not be read, or that the field which it ends has no name. -/
inductive Reports (frame : Frame) (fresh : Bool) (s : Bytes) : Stop → Prop where
  | wanted {r : Bytes} (wanted : Wanted) : Goes s r →
      Reports frame fresh s ⟨.expected wanted, skipSpace r⟩
  | value {α : Type} {p : Reader α} {b : UInt8} {r t : Bytes} {fault : Fault} :
      RoundReads frame fresh s p r → skipSpace r = b :: t →
      readPiece p r = .error ⟨.value fault, b :: t⟩ →
      Reports frame fresh s ⟨.value fault, b :: t⟩
  | nameless {place : Nat} {start r : Bytes} : frame = .field place start false →
      after? Byte.closeCurly s = some r → Reports frame fresh s ⟨.nameless, start⟩

/-- What a round does to the frames: it closes the innermost one, leaves it as it is, opens the
list of its children, reads a member of its field or opens a field in its list. -/
inductive Changes (frame : Frame) (frames : List Frame) (s : Bytes) (m : State) : Prop where
  | closed : m.frames = frames → Changes frame frames s m
  | kept : m.frames = frame :: frames → Changes frame frames s m
  | listed (parent : Nat) : m.frames = .list parent :: frame :: frames → Changes frame frames s m
  | read {place : Nat} {start : Bytes} {isNamed isNamed' : Bool} :
      frame = .field place start isNamed → m.frames = .field place start isNamed' :: frames →
      Changes frame frames s m
  | opened (place : Nat) {q : Query} {r : Bytes} : Goes s (Byte.openCurly :: r) →
      m = ⟨.field place (Byte.openCurly :: r) false :: frame :: frames, true, q, r⟩ →
      Changes frame frames s m

section

variable {s r t : Bytes} {b : UInt8} {wanted : Wanted} {e : Stop}

theorem marks_lt (h : b ∈ marks) : b < 0x80 := by
  simp only [marks, List.mem_cons, List.not_mem_nil, or_false] at h
  rcases h with rfl | rfl | rfl | rfl | rfl | rfl <;> decide

/-- A move uses up whole characters. -/
theorem Moves.exists_append (h : Moves s r) : ∃ u, s = u ++ r ∧ EndsAscii u := by
  cases h with
  | space s =>
      obtain ⟨u, hu, hascii, -⟩ := exists_skipSpace_eq s
      exact ⟨u, hu, hascii⟩
  | mark hb hafter =>
      obtain ⟨u, hu, hascii, -⟩ := stable_after? (marks_lt hb) hafter
      exact ⟨u, hu, hascii⟩
  | piece hp hread =>
      obtain ⟨u, hu, hascii, -⟩ := stable_readPiece hp.isStable hread
      exact ⟨u, hu, hascii⟩

theorem exists_append_of_goes (h : Goes s r) : ∃ u, s = u ++ r ∧ EndsAscii u := by
  induction h with
  | refl => exact ⟨[], rfl, .nil⟩
  | tail _ hmove ih =>
      obtain ⟨u, rfl, hu⟩ := ih
      obtain ⟨v, rfl, hv⟩ := hmove.exists_append
      exact ⟨u ++ v, (List.append_assoc u v _).symm, hu.append hv⟩

/-! ## Moves of a round -/

theorem goes_skipSpace (s : Bytes) : Goes s (skipSpace s) := .single (.space s)

theorem goes_after? (hb : b ∈ marks) (h : after? b s = some r) : Goes s r := .single (.mark hb h)

theorem goes_expect (hb : b ∈ marks) (h : expect b wanted s = .ok r) : Goes s r :=
  goes_after? hb (expect_eq_ok_iff.mp h)

theorem goes_readPiece {α : Type} {p : Reader α} {a : α} (hp : ReadsPiece p)
    (h : readPiece p s = .ok (a, r)) : Goes s r := .single (.piece hp h)

theorem goes_readComma {fresh : Bool} (h : readComma fresh wanted s = .ok r) : Goes s r := by
  cases fresh with
  | true =>
      cases h
      exact .refl
  | false => exact goes_expect (by decide) h

theorem goes_readName {name : String} (h : readName s = .ok (name, r)) : Goes s r := by
  unfold readName at h
  split at h
  · cases h
  rename_i hs
  split at h
  · split at h
    · cases h
    rename_i hpiece
    split at h
    · cases h
    rename_i hcolon
    cases h
    exact (hs ▸ goes_skipSpace s).trans
      ((goes_readPiece .text hpiece).trans (goes_expect (by decide) hcolon))
  · cases h

theorem goes_readMember {q q' : Query} {place : Nat} {isNamed isNamed' : Bool} {name : String}
    (h : readMember q place isNamed name s = .ok (q', isNamed', r)) : Goes s r := by
  unfold readMember at h
  split at h
  · split at h
    · cases h
    · rename_i hpiece
      split at h <;> cases h <;> exact goes_readPiece .text hpiece
  split at h
  · split at h <;> cases h
    exact goes_readPiece .label ‹_›
  split at h
  · split at h <;> cases h
    exact goes_readPiece .arguments ‹_›
  · split at h <;> cases h
    exact goes_readPiece .skip ‹_›

variable {frame : Frame} {frames : List Frame} {fresh : Bool} {q : Query} {m : State}

theorem goes_openField {parent : Nat} (h : openField parent frames q s = .ok m) :
    Goes s m.rest := by
  unfold openField at h
  split at h
  · cases h
  rename_i hopen
  cases h
  exact goes_expect (by decide) hopen

theorem goes_stepSelections (h : stepSelections frame frames q s = .ok m) : Goes s m.rest := by
  unfold stepSelections at h
  split at h
  · rename_i hopen
    cases h
    exact goes_after? (by decide) hopen
  · split at h <;> cases h
    exact goes_readPiece .unit ‹_›

theorem goes_stepSkip (h : stepSkip frame frames q s = .ok m) : Goes s m.rest := by
  unfold stepSkip at h
  split at h <;> cases h
  exact goes_readPiece .skip ‹_›

theorem goes_stepValue {name : String} (h : stepValue frame frames q name s = .ok m) :
    Goes s m.rest := by
  unfold stepValue at h
  split at h
  · exact goes_stepSelections h
  cases frame with
  | document => exact goes_stepSkip h
  | list parent => exact goes_stepSkip h
  | field place start isNamed =>
      dsimp only at h
      split at h <;> cases h
      exact goes_readMember ‹_›

theorem goes_stepObject (h : stepObject frame frames fresh q s = .ok m) : Goes s m.rest := by
  unfold stepObject at h
  split at h
  · rename_i hclose
    unfold closeObject at h
    split at h <;> cases h
    exact goes_after? (by decide) hclose
  split at h
  · cases h
  rename_i hcomma
  unfold stepMember at h
  split at h
  · cases h
  rename_i hname
  exact ((goes_readComma hcomma).trans (goes_readName hname)).trans (goes_stepValue h)

/-- A round takes the reader on by moves. -/
theorem goes_step (h : step frame frames fresh q s = .ok m) : Goes s m.rest := by
  obtain ⟨parent, rfl⟩ | hobject := frame.list_or_object
  · rw [step_list] at h
    split at h
    · rename_i hclose
      cases h
      exact goes_after? (by decide) hclose
    split at h
    · cases h
    rename_i hcomma
    exact (goes_readComma hcomma).trans (goes_openField h)
  · rw [step_object hobject] at h
    exact goes_stepObject h

theorem Reaches.goes {n : Nat} (h : Reaches s n m) : Goes s m.rest := by
  induction h with
  | start hopen => exact goes_expect (by decide) hopen
  | round _ hstep ih => exact ih.trans (goes_step hstep)

theorem RoundReads.goes {α : Type} {p : Reader α} (h : RoundReads frame fresh s p r) :
    Goes s r := by
  cases h with
  | name _ _ hcomma hquote => exact (goes_readComma hcomma).trans (hquote ▸ goes_skipSpace _)
  | value _ _ hcomma hname _ _ => exact (goes_readComma hcomma).trans (goes_readName hname)

theorem Asks.readsPiece {name : String} {α : Type} {p : Reader α} (h : Asks frame name p) :
    ReadsPiece p := by
  cases h with
  | selections => exact .unit
  | name => exact .text
  | label => exact .label
  | arguments => exact .arguments
  | other => exact .skip
  | outside => exact .skip

theorem RoundReads.readsPiece {α : Type} {p : Reader α} (h : RoundReads frame fresh s p r) :
    ReadsPiece p := by
  cases h with
  | name => exact .text
  | value _ _ _ _ hasks _ => exact hasks.readsPiece

/-! ## Reports of a round -/

theorem eq_of_expect (h : expect b wanted s = .error e) : e = ⟨.expected wanted, skipSpace s⟩ := by
  unfold expect at h
  split at h <;> cases h
  rfl

theorem eq_of_readComma (h : readComma fresh wanted s = .error e) :
    e = ⟨.expected wanted, skipSpace s⟩ := by
  cases fresh with
  | true => cases h
  | false => exact eq_of_expect h

theorem eq_of_readPiece {α : Type} {p : Reader α} (h : readPiece p s = .error e) :
    skipSpace s = [] ∧ e = ⟨.expected .value, []⟩ ∨
      ∃ fault b t, skipSpace s = b :: t ∧ e = ⟨.value fault, b :: t⟩ := by
  unfold readPiece at h
  split at h
  · rename_i hs
    cases h
    exact .inl ⟨hs, rfl⟩
  rename_i b t hs
  split at h
  · cases h
    exact .inr ⟨_, b, t, hs, rfl⟩
  split at h <;> cases h
  exact .inr ⟨_, b, t, hs, rfl⟩

/-- What is reported of a piece is reported of the round that comes to read it. -/
theorem RoundReads.reports {α : Type} {p : Reader α} (hreads : RoundReads frame fresh s p r)
    (h : readPiece p r = .error e) : Reports frame fresh s e := by
  rcases eq_of_readPiece h with ⟨hend, rfl⟩ | ⟨fault, b, t, hb, rfl⟩
  · exact hend ▸ .wanted .value hreads.goes
  · exact .value hreads hb h

theorem eq_of_readName (h : readName s = .error e) :
    (∃ wanted r, Goes s r ∧ e = ⟨.expected wanted, skipSpace r⟩) ∨
      ∃ t, skipSpace s = Byte.quote :: t ∧ readPiece Reader.text (Byte.quote :: t) = .error e := by
  unfold readName at h
  split at h
  · rename_i hs
    cases h
    exact .inl ⟨.memberName, s, .refl, by rw [hs]⟩
  rename_i b t hs
  split at h
  · rename_i hb
    obtain rfl := beq_iff_eq.mp hb
    split at h
    · rename_i hpiece
      cases h
      exact .inr ⟨t, hs, hpiece⟩
    rename_i r hpiece
    split at h
    · rename_i hcolon
      cases h
      exact .inl ⟨.colon, r, (hs ▸ goes_skipSpace s).trans (goes_readPiece .text hpiece),
        eq_of_expect hcolon⟩
    · cases h
  · cases h
    exact .inl ⟨.memberName, s, .refl, by rw [hs]⟩

theorem exists_asks_of_readMember {place : Nat} {start : Bytes} {isNamed : Bool} {name : String}
    (hname : name ≠ "selections") (h : readMember q place isNamed name s = .error e) :
    ∃ (α : Type) (p : Reader α), Asks (.field place start isNamed) name p ∧
      readPiece p s = .error e := by
  unfold readMember at h
  split at h
  · rename_i heq
    obtain rfl := heq
    split at h
    · rename_i hpiece
      cases h
      exact ⟨_, _, .name place start isNamed, hpiece⟩
    · split at h <;> cases h
  rename_i hn
  split at h
  · rename_i heq
    obtain rfl := heq
    split at h <;> cases h
    exact ⟨_, _, .label place start isNamed, ‹_›⟩
  rename_i hl
  split at h
  · rename_i heq
    obtain rfl := heq
    split at h <;> cases h
    exact ⟨_, _, .arguments place start isNamed, ‹_›⟩
  rename_i ha
  split at h <;> cases h
  exact ⟨_, _, .other _ (by simp [hn, hl, ha, hname]), ‹_›⟩

theorem eq_of_stepSkip (h : stepSkip frame frames q s = .error e) :
    readPiece Reader.skip s = .error e := by
  unfold stepSkip at h
  split at h <;> cases h
  assumption

/-- What is reported of a value is what its reader reports. -/
theorem exists_asks_of_stepValue {name : String}
    (h : stepValue frame frames q name s = .error e) :
    ∃ (α : Type) (p : Reader α), Asks frame name p ∧ readPiece p s = .error e ∧
      (name = "selections" → after? Byte.openSquare s = none) := by
  unfold stepValue at h
  split at h
  · rename_i heq
    obtain rfl := heq
    unfold stepSelections at h
    split at h
    · cases h
    rename_i hopen
    split at h <;> cases h
    exact ⟨_, _, .selections frame, ‹_›, fun _ => hopen⟩
  rename_i hname
  cases frame with
  | document => exact ⟨_, _, .outside nofun hname, eq_of_stepSkip h, fun heq => absurd heq hname⟩
  | list parent =>
      exact ⟨_, _, .outside nofun hname, eq_of_stepSkip h, fun heq => absurd heq hname⟩
  | field place start isNamed =>
      dsimp only at h
      split at h <;> cases h
      obtain ⟨α, p, hasks, hpiece⟩ := exists_asks_of_readMember hname ‹_›
      exact ⟨α, p, hasks, hpiece, fun heq => absurd heq hname⟩

theorem reports_stepObject (hobject : ∀ parent, frame ≠ .list parent)
    (h : stepObject frame frames fresh q s = .error e) : Reports frame fresh s e := by
  unfold stepObject at h
  split at h
  · rename_i hclose
    unfold closeObject at h
    split at h <;> cases h
    exact .nameless rfl hclose
  rename_i hclose
  split at h
  · rename_i hcomma
    cases h
    obtain rfl := eq_of_readComma hcomma
    exact .wanted .nextMember .refl
  rename_i hcomma
  unfold stepMember at h
  split at h
  · rename_i hname
    cases h
    rcases eq_of_readName hname with ⟨wanted, r, hr, rfl⟩ | ⟨t, ht, hpiece⟩
    · exact .wanted wanted ((goes_readComma hcomma).trans hr)
    · exact (RoundReads.name hobject hclose hcomma ht).reports hpiece
  rename_i hname
  obtain ⟨α, p, hasks, hpiece, hopen⟩ := exists_asks_of_stepValue h
  exact (RoundReads.value hobject hclose hcomma hname hasks hopen).reports hpiece

/-- A round reports what it finds where it comes to. -/
theorem reports_step (h : step frame frames fresh q s = .error e) : Reports frame fresh s e := by
  obtain ⟨parent, rfl⟩ | hobject := frame.list_or_object
  · rw [step_list] at h
    split at h
    · cases h
    split at h
    · rename_i hcomma
      cases h
      obtain rfl := eq_of_readComma hcomma
      exact .wanted .nextField .refl
    rename_i hcomma
    unfold openField at h
    split at h <;> cases h
    rename_i hopen
    obtain rfl := eq_of_expect hopen
    exact .wanted .openField (goes_readComma hcomma)
  · rw [step_object hobject] at h
    exact reports_stepObject hobject h

/-! ## Where fields begin -/

theorem changes_stepValue {name : String} (h : stepValue frame frames q name s = .ok m) (x : Bytes) :
    Changes frame frames x m := by
  have hskip : stepSkip frame frames q s = .ok m → Changes frame frames x m := by
    intro h
    unfold stepSkip at h
    split at h <;> cases h
    exact .kept rfl
  unfold stepValue at h
  split at h
  · unfold stepSelections at h
    split at h
    · cases h
      exact .listed frame.place rfl
    · split at h <;> cases h
      exact .kept rfl
  cases frame with
  | document => exact hskip h
  | list parent => exact hskip h
  | field place start isNamed =>
      dsimp only at h
      split at h <;> cases h
      exact .read rfl rfl

theorem changes_step (h : step frame frames fresh q s = .ok m) : Changes frame frames s m := by
  obtain ⟨parent, rfl⟩ | hobject := frame.list_or_object
  · rw [step_list] at h
    split at h
    · cases h
      exact .closed rfl
    split at h
    · cases h
    rename_i t hcomma
    unfold openField at h
    split at h
    · cases h
    rename_i hopen
    cases h
    have hstart := skipSpace_of_after? (expect_eq_ok_iff.mp hopen)
    rw [hstart]
    exact .opened q.fields.size (hstart ▸ (goes_readComma hcomma).trans (goes_skipSpace t)) rfl
  · rw [step_object hobject] at h
    unfold stepObject at h
    split at h
    · unfold closeObject at h
      split at h <;> cases h
      exact .closed rfl
    split at h
    · cases h
    unfold stepMember at h
    split at h
    · cases h
    exact changes_stepValue h s

/-- A field that is open was opened at its brace by a round before. -/
theorem Reaches.opened {n place : Nat} {start : Bytes} {isNamed : Bool} (h : Reaches s n m)
    (hopen : .field place start isNamed :: frames <:+ m.frames) :
    ∃ k q r, Reaches s k ⟨.field place start false :: frames, true, q, r⟩ ∧
      start = Byte.openCurly :: r ∧ Goes s start := by
  induction h generalizing isNamed with
  | start => simp [List.suffix_cons_iff] at hopen
  | round hreach hstep ih =>
      rename_i n frame others fresh q r m
      cases changes_step hstep with
      | closed hframes =>
          rw [hframes] at hopen
          exact ih (hopen.trans (List.suffix_cons frame others))
      | kept hframes =>
          rw [hframes] at hopen
          exact ih hopen
      | listed parent hframes =>
          rw [hframes, List.suffix_cons_iff] at hopen
          rcases hopen with heq | hopen
          · cases heq
          · exact ih hopen
      | read hframe hframes =>
          rw [hframes, List.suffix_cons_iff] at hopen
          subst hframe
          rcases hopen with heq | hopen
          · cases heq
            exact ih (List.suffix_refl _)
          · exact ih (hopen.trans (List.suffix_cons _ others))
      | opened place' hgoes hm =>
          subst hm
          rcases List.suffix_cons_iff.mp hopen with heq | hopen
          · cases heq
            exact ⟨_, _, _, hreach.round hstep, rfl, hreach.goes.trans hgoes⟩
          · exact ih hopen

end

/-! ## Places in the text -/

/-- `PointsAt text e` says that the offset of an error is a place in the text, and what there is at
this place: the end or a byte that is not white space, the first byte of a value which its reader
refuses, or the brace at which a field was opened that ends without a name. -/
inductive PointsAt (text : String) : Error → Prop where
  | expected {offset : Nat} {s : Bytes} (wanted : Wanted) : IsPlace text offset s →
      (∀ b ∈ s.head?, Byte.isSpace b = false) → PointsAt text ⟨.expected wanted, offset⟩
  | value {n offset : Nat} {frame : Frame} {frames : List Frame} {fresh : Bool} {q : Query}
      {α : Type} {p : Reader α} {b : UInt8} {s r t : Bytes} {fault : Fault} :
      Reaches (bytesOf text) n ⟨frame :: frames, fresh, q, s⟩ → RoundReads frame fresh s p r →
      skipSpace r = b :: t → Byte.isSpace b = false →
      readPiece p r = .error ⟨.value fault, b :: t⟩ → IsPlace text offset (b :: t) →
      PointsAt text ⟨.value fault, offset⟩
  | nameless {k n place offset : Nat} {frames : List Frame} {fresh : Bool} {q q' : Query}
      {s r t : Bytes} :
      Reaches (bytesOf text) k
        ⟨.field place (Byte.openCurly :: r) false :: frames, true, q, r⟩ →
      Reaches (bytesOf text) n
        ⟨.field place (Byte.openCurly :: r) false :: frames, fresh, q', s⟩ →
      after? Byte.closeCurly s = some t → IsPlace text offset (Byte.openCurly :: r) →
      PointsAt text ⟨.nameless, offset⟩

/-- Reading a text ends after rounds that each use up some of it or are the last, the reader is
always at a place in the text, before each piece and after it too, and an error points at one. -/
structure KeepsPlaces (text : String) : Prop where
  ends : Ends (bytesOf text) (readQuery (bytesOf text))
  progress : ∀ {n : Nat} {frame : Frame} {frames : List Frame} {fresh : Bool} {q : Query}
    {s : Bytes}, Reaches (bytesOf text) n ⟨frame :: frames, fresh, q, s⟩ →
    (∃ m, step frame frames fresh q s = .ok m ∧ m.rest.length < s.length) ∨
      ∃ e, step frame frames fresh q s = .error e ∧ readQuery (bytesOf text) = .error e
  reached : ∀ {n : Nat} {m : State}, Reaches (bytesOf text) n m →
    n + m.rest.length < (bytesOf text).length ∧ ∃ offset, IsPlace text offset m.rest
  read : ∀ {n : Nat} {frame : Frame} {frames : List Frame} {fresh : Bool} {q : Query} {α : Type}
    {p : Reader α} {s r : Bytes}, Reaches (bytesOf text) n ⟨frame :: frames, fresh, q, s⟩ →
    RoundReads frame fresh s p r → (∃ offset, IsPlace text offset (skipSpace r)) ∧
      ∀ a t, readPiece p r = .ok (a, t) → ∃ offset, IsPlace text offset t
  reported : ∀ {e : Error}, Query.ofText text = .error e → PointsAt text e

section

variable {text : String} {s : Bytes}

theorem isPlace_of_goes (h : Goes (bytesOf text) s) :
    IsPlace text ((bytesOf text).length - s.length) s := by
  obtain ⟨u, hu, hascii⟩ := exists_append_of_goes h
  exact isPlace_of_endsAscii hu hascii

theorem not_isSpace_head?_skipSpace (s : Bytes) :
    ∀ b ∈ (skipSpace s).head?, Byte.isSpace b = false := by
  intro b hb
  obtain ⟨r, hr⟩ := List.head?_eq_some_iff.mp hb
  exact isSpace_of_skipSpace hr

/-- An error tells the place that was found with its cause. -/
theorem pointsAt_of_ends {e : Stop} (h : Ends (bytesOf text) (.error e)) :
    PointsAt text ⟨e.cause, (bytesOf text).length - e.rest.length⟩ := by
  cases h with
  | unopened hopen =>
      obtain rfl := eq_of_expect hopen
      exact .expected .openDocument (isPlace_of_goes (goes_skipSpace _))
        (not_isSpace_head?_skipSpace _)
  | stopped hreach hstep =>
      cases reports_step hstep with
      | wanted wanted hgoes =>
          exact .expected wanted (isPlace_of_goes (hreach.goes.trans (hgoes.tail (.space _))))
            (not_isSpace_head?_skipSpace _)
      | value hreads hb hpiece =>
          have hplace := hreach.goes.trans (hreads.goes.trans (hb ▸ goes_skipSpace _))
          exact .value hreach hreads hb (isSpace_of_skipSpace hb) hpiece (isPlace_of_goes hplace)
      | nameless hframe hclose =>
          subst hframe
          obtain ⟨k, q, r, hk, rfl, hstart⟩ := hreach.opened (List.suffix_refl _)
          exact .nameless hk hreach hclose (isPlace_of_goes hstart)
  | excess hreach hrest =>
      have hplace := hreach.goes.trans (hrest ▸ goes_skipSpace _)
      exact .expected .documentEnd (isPlace_of_goes hplace)
        fun b hb => isSpace_of_skipSpace (Option.mem_some.mp hb ▸ hrest)

end

end Wire

/-- Every text is read to its end or to an error, from one place between two of its characters to
another. -/
theorem Query.ofText_keepsPlaces (text : String) : Wire.KeepsPlaces text where
  ends := Wire.ends_readQuery (bytesOf text)
  progress := by
    intro n frame frames fresh q s hreach
    cases hstep : Wire.step frame frames fresh q s with
    | ok m => exact .inl ⟨m, rfl, Wire.step_lt hstep⟩
    | error e => exact .inr ⟨e, rfl, (Wire.Ends.stopped hreach hstep).readQuery_eq⟩
  reached hreach := ⟨hreach.add_length_lt, _, Wire.isPlace_of_goes hreach.goes⟩
  read := by
    intro n frame frames fresh q α p s r hreach hreads
    have hgoes := hreach.goes.trans hreads.goes
    refine ⟨⟨_, Wire.isPlace_of_goes (hgoes.tail (.space r))⟩, fun a t hpiece => ?_⟩
    exact ⟨_, Wire.isPlace_of_goes (hgoes.tail (.piece hreads.readsPiece hpiece))⟩
  reported := by
    intro e he
    obtain ⟨stop, hread, rfl⟩ := ofText_eq_error_iff.mp he
    exact Wire.pointsAt_of_ends (hread ▸ Wire.ends_readQuery (bytesOf text))

end QueryAdmission

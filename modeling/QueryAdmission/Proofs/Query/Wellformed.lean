import QueryAdmission.Proofs.Json.Acceptance
import QueryAdmission.Proofs.Query.Rounds

/-! # Queries are values

What is open in a query is open in the object that the text has to be, whatever else the rounds
make of it. So a text from which a query is read is a value of the grammar, with white space around
it. -/

namespace QueryAdmission

open Json

namespace Wire

theorem ReadsPiece.isSound {α : Type} {p : Reader α} (h : ReadsPiece p) : p.IsSound := by
  cases h with
  | text => exact Reader.isSound_text
  | label => exact Reader.isSound_optional Reader.isSound_text
  | arguments => exact Reader.isSound_optional (Reader.isSound_keyedOf (Reader.isSound_value _))
  | unit => exact Reader.isSound_unit
  | skip => exact Reader.isSound_skip

/-! ## Pieces of the text -/

section

variable {s t r : Bytes} {wanted : Wanted}

theorem blanks_of_after? {b : UInt8} (h : after? b s = some r) : Blanks s (b :: r) :=
  blanks_of_skipSpace (skipSpace_of_after? h)

theorem blanks_of_expect {b : UInt8} (h : expect b wanted s = .ok r) : Blanks s (b :: r) :=
  blanks_of_after? (expect_eq_ok_iff.mp h)

theorem comma_of_readComma {fresh : Bool} (h : readComma fresh wanted s = .ok r) :
    Comma fresh s r := by
  cases fresh with
  | true =>
      cases h
      exact .fresh (.nil s)
  | false => exact .later (blanks_of_expect h) (.nil r)

theorem derives_of_readPiece {α : Type} {p : Reader α} (hp : ReadsPiece p) {a : α}
    (h : readPiece p s = .ok (a, r)) : Derives .value (skipSpace s) r := by
  unfold readPiece at h
  split at h
  · cases h
  rename_i b t hs
  split at h
  · cases h
  rename_i hrun
  split at h
  · cases h
    have hvalue := hp.isSound.derives hrun
    rwa [skipSpace_cons t (isSpace_of_skipSpace hs), ← hs] at hvalue
  · cases h

theorem isText_of_readPiece {name : String}
    (h : readPiece Reader.text (Byte.quote :: s) = .ok (name, r)) : IsText s r := by
  have hs : skipSpace (Byte.quote :: s) = Byte.quote :: s := skipSpace_cons s (by decide)
  simp only [readPiece, hs, Reader.text, Reader.textFor, Reader.onFirstByte] at h
  simp only [beq_self_eq_true, if_true] at h
  split at h
  · cases h
  · rename_i htext
    split at h
    · cases h
      exact isText_of_readText htext
    · cases h

theorem exists_of_readName {name : String} (h : readName s = .ok (name, r)) :
    ∃ t u, Blanks s (Byte.quote :: t) ∧ IsText t u ∧ Blanks u (Byte.colon :: r) := by
  unfold readName at h
  split at h
  · cases h
  rename_i hs
  split at h
  · rename_i hb
    rw [beq_iff_eq.mp hb] at hs h
    split at h
    · cases h
    rename_i hpiece
    split at h
    · cases h
    rename_i hcolon
    cases h
    exact ⟨_, _, blanks_of_skipSpace hs, isText_of_readPiece hpiece, blanks_of_expect hcolon⟩
  · cases h

theorem derives_of_readMember {q q' : Query} {place : Nat} {isNamed isNamed' : Bool}
    {name : String} (h : readMember q place isNamed name s = .ok (q', isNamed', r)) :
    Derives .value (skipSpace s) r := by
  unfold readMember at h
  split at h
  · split at h
    · cases h
    rename_i hpiece
    split at h <;> cases h <;> exact derives_of_readPiece .text hpiece
  split at h
  · split at h
    · cases h
    rename_i hpiece
    cases h
    exact derives_of_readPiece .label hpiece
  split at h
  · split at h
    · cases h
    rename_i hpiece
    cases h
    exact derives_of_readPiece .arguments hpiece
  · split at h
    · cases h
    rename_i hpiece
    cases h
    exact derives_of_readPiece .skip hpiece

end

/-! ## What has to follow -/

/-- What is left of the text of a frame. -/
def Frame.phrase (fresh : Bool) : Frame → Phrase
  | .document => .members fresh
  | .list _ => .items fresh
  | .field _ _ _ => .members fresh

/-- What has to follow in a state. -/
def State.phrases (m : State) : List Phrase :=
  match m.frames with
  | [] => []
  | frame :: frames => frame.phrase m.fresh :: frames.map (Frame.phrase false)

section

variable {frame : Frame} {frames : List Frame} {fresh : Bool} {q : Query} {s t r : Bytes}
  {m : State}

theorem Frame.phrase_object (h : ∀ parent, frame ≠ .list parent) (fresh : Bool) :
    frame.phrase fresh = .members fresh := by
  cases frame with
  | list parent => exact absurd rfl (h parent)
  | _ => rfl

theorem phrases_cons (frame : Frame) (frames : List Frame) (fresh : Bool) (q : Query) (s : Bytes) :
    State.phrases ⟨frame :: frames, fresh, q, s⟩ =
      frame.phrase fresh :: frames.map (Frame.phrase false) := rfl

/-- After a value, what has to follow is the same for all frames that are open. -/
theorem phrases_later (frames : List Frame) (q : Query) (s : Bytes) :
    State.phrases ⟨frames, false, q, s⟩ = frames.map (Frame.phrase false) := by
  cases frames <;> rfl

theorem derivesAll_openField {parent : Nat} (h : openField parent frames q s = .ok m)
    (hm : DerivesAll m.phrases m.rest r) :
    DerivesAll (.value :: .items false :: frames.map (Frame.phrase false)) s r := by
  unfold openField at h
  split at h
  · cases h
  rename_i hopen
  cases h
  obtain ⟨u, hmembers, hrest⟩ := hm.tail (by simp [Frame.phrase])
  exact .cons (blanks_of_expect hopen) (.object hmembers) hrest

theorem derivesAll_stepSelections (hobject : ∀ parent, frame ≠ .list parent)
    (h : stepSelections frame frames q s = .ok m) (hm : DerivesAll m.phrases m.rest r) :
    DerivesAll (.value :: .members false :: frames.map (Frame.phrase false)) s r := by
  unfold stepSelections at h
  split at h
  · rename_i hopen
    cases h
    obtain ⟨u, hitems, hrest⟩ := hm.tail (by simp [Frame.phrase])
    rw [List.map_cons, Frame.phrase_object hobject] at hrest
    exact .cons (blanks_of_after? hopen) (.list hitems) hrest
  split at h
  · cases h
  rename_i hunit
  cases h
  rw [phrases_later, List.map_cons, Frame.phrase_object hobject] at hm
  exact .cons (blanks_skipSpace s) (derives_of_readPiece .unit hunit) hm

theorem derivesAll_stepSkip (hobject : ∀ parent, frame ≠ .list parent)
    (h : stepSkip frame frames q s = .ok m) (hm : DerivesAll m.phrases m.rest r) :
    DerivesAll (.value :: .members false :: frames.map (Frame.phrase false)) s r := by
  unfold stepSkip at h
  split at h
  · cases h
  rename_i hskip
  cases h
  rw [phrases_later, List.map_cons, Frame.phrase_object hobject] at hm
  exact .cons (blanks_skipSpace s) (derives_of_readPiece .skip hskip) hm

theorem derivesAll_stepValue (hobject : ∀ parent, frame ≠ .list parent) {name : String}
    (h : stepValue frame frames q name s = .ok m) (hm : DerivesAll m.phrases m.rest r) :
    DerivesAll (.value :: .members false :: frames.map (Frame.phrase false)) s r := by
  unfold stepValue at h
  split at h
  · exact derivesAll_stepSelections hobject h hm
  cases frame with
  | document => exact derivesAll_stepSkip hobject h hm
  | list parent => exact absurd rfl (hobject parent)
  | field place start isNamed =>
      dsimp only at h
      split at h
      · cases h
      rename_i hmember
      cases h
      rw [phrases_later] at hm
      exact .cons (blanks_skipSpace s) (derives_of_readMember hmember) hm

theorem derivesAll_stepObject (hobject : ∀ parent, frame ≠ .list parent)
    (h : stepObject frame frames fresh q s = .ok m) (hm : DerivesAll m.phrases m.rest r) :
    DerivesAll (.members fresh :: frames.map (Frame.phrase false)) s r := by
  unfold stepObject at h
  split at h
  · rename_i t hclose
    unfold closeObject at h
    split at h
    · cases h
    · cases h
      rw [phrases_later] at hm
      exact .cons (.nil s) (.endObject fresh (blanks_of_after? hclose)) hm
  split at h
  · cases h
  rename_i hcomma
  unfold stepMember at h
  split at h
  · cases h
  rename_i hname
  obtain ⟨u, v, hquote, htext, hcolon⟩ := exists_of_readName hname
  obtain ⟨w, hmembers, hrest⟩ := DerivesAll.member ((comma_of_readComma hcomma).blanks hquote)
    htext hcolon (derivesAll_stepValue hobject h hm)
  exact .cons (.nil s) hmembers hrest

/-- A round uses up a part of what has to follow. -/
theorem derivesAll_step (h : step frame frames fresh q s = .ok m)
    (hm : DerivesAll m.phrases m.rest r) :
    DerivesAll (State.phrases ⟨frame :: frames, fresh, q, s⟩) s r := by
  obtain ⟨parent, rfl⟩ | hobject := frame.list_or_object
  · rw [step_list] at h
    split at h
    · rename_i hclose
      cases h
      rw [phrases_later] at hm
      exact .cons (.nil s) (.endList fresh (blanks_of_after? hclose)) hm
    split at h
    · cases h
    rename_i hcomma
    obtain ⟨u, hitems, hrest⟩ :=
      DerivesAll.item (comma_of_readComma hcomma) (derivesAll_openField h hm)
    exact .cons (.nil s) hitems hrest
  · rw [step_object hobject] at h
    rw [phrases_cons, Frame.phrase_object hobject]
    exact derivesAll_stepObject hobject h hm

/-- From any state that is reached, what has to follow completes a value. -/
theorem Reaches.derives {n : Nat} (h : Reaches s n m) (hm : DerivesAll m.phrases m.rest r) :
    Derives .value (skipSpace s) r := by
  induction h with
  | start hopen =>
      obtain ⟨u, hmembers, hrest⟩ := hm.tail (by simp [Frame.phrase])
      cases hrest
      rw [skipSpace_of_after? (expect_eq_ok_iff.mp hopen)]
      exact .object hmembers
  | round _ hstep ih => exact ih (derivesAll_step hstep hm)

end

/-! ## White space around a query -/

section

variable {s : Bytes} {q : Query}

theorem skipSpace_skipSpace (s : Bytes) : skipSpace (skipSpace s) = skipSpace s :=
  (blanks_skipSpace s).skipSpace_eq.symm

theorem readQuery_skipSpace (s : Bytes) : readQuery (skipSpace s) = readQuery s := by
  simp only [readQuery, expect, after?, skipSpace_skipSpace]

/-- A query is read from a value, and from the same value with white space around it. -/
theorem exists_core_of_readQuery (h : readQuery s = .ok q) :
    ∃ u v r, s = u ++ v ++ r ∧ EndsAscii u ∧ EndsAscii v ∧ skipSpace s = v ++ r ∧
      skipSpace r = [] ∧ Derives .value v [] ∧ readQuery v = .ok q := by
  have hends := h ▸ ends_readQuery s
  cases hends with
  | @done n fresh _ r hreach hend =>
      obtain ⟨w, rfl, hascii, hall⟩ := hreach.stable
      obtain ⟨⟨frames, fresh', q', r'⟩, hk, ⟨hframes, -, hq⟩, hrest⟩ := hall [] (.inr nofun)
      obtain rfl : frames = [] := List.map_eq_nil_iff.mp hframes.symm
      dsimp only at hq hrest
      subst hq hrest
      rw [List.append_nil] at hk
      have hvalue : Derives .value (skipSpace w) [] := hk.derives (.nil _)
      have hread : readQuery w = .ok q := (Ends.done hk rfl).readQuery_eq
      obtain ⟨u, hu, hspace, -⟩ := exists_skipSpace_eq w
      have hstart : skipSpace (w ++ r) = skipSpace w ++ r := by
        obtain ⟨b, v, hv, hb, -⟩ := hvalue.head
        have hblanks := (blanks_skipSpace w).append r
        rw [hv] at hblanks ⊢
        exact hblanks.skipSpace_cons hb
      have hcore : EndsAscii (skipSpace w) := by
        intro b hb
        refine hascii b ?_
        rw [hu, List.getLast?_append, Option.mem_def.mp hb]
        rfl
      exact ⟨u, skipSpace w, r, by rw [← hu], hspace, hcore, hstart, hend, hvalue,
        (readQuery_skipSpace w).trans hread⟩

end

end Wire

end QueryAdmission

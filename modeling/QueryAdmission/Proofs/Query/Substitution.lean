import QueryAdmission.Proofs.Query.CorrectPrefix
import QueryAdmission.Proofs.Query.Likeness
import QueryAdmission.Proofs.Query.Wellformed

/-! # Other arguments

The arguments of a field are put where they belong and not looked at again. So reading goes on in
the same way whatever they are, and where some are read, others can stand in their place. -/

namespace QueryAdmission

open Json

/-- Heads agree that have the same names. -/
def Agreement.names : Agreement := fun h k => h.name = k.name ∧ h.label = k.label

theorem Agreement.names_refl (h : Head) : Agreement.names h h := ⟨rfl, rfl⟩

namespace Query

/-! ## Changes of alike queries -/

section

variable {agree : Agreement} {q r : Query}

theorem Alike.modify (h : q.Alike agree r) (place : Nat) {f g : Field → Field}
    (hfg : ∀ x y, agree x.head y.head ∧ x.children = y.children →
      agree (f x).head (g y).head ∧ (f x).children = (g y).children) :
    (q.modify place f).Alike agree (r.modify place g) := by
  refine ⟨by rw [size_modify, size_modify, h.size_eq], fun {p x y} hx hy => ?_⟩
  rw [field?, getElem?_modify] at hx hy
  split at hx
  · rename_i hplace
    rw [if_pos hplace] at hy
    obtain ⟨x', hx', rfl⟩ := Option.map_eq_some_iff.mp hx
    obtain ⟨y', hy', rfl⟩ := Option.map_eq_some_iff.mp hy
    exact hfg x' y' (h.field hx' hy')
  · rename_i hplace
    rw [if_neg hplace] at hy
    exact h.field hx hy

theorem Alike.push (h : q.Alike agree r) {x y : Field}
    (hxy : agree x.head y.head ∧ x.children = y.children) :
    (Query.mk (q.fields.push x)).Alike agree ⟨r.fields.push y⟩ := by
  refine ⟨by simp [h.size_eq], fun {p f g} hf hg => ?_⟩
  rw [field?, Array.getElem?_push] at hf hg
  rw [← h.size_eq] at hg
  split at hf
  · rename_i hnew
    rw [if_pos hnew] at hg
    cases hf
    cases hg
    exact hxy
  · rename_i hnew
    rw [if_neg hnew] at hg
    exact h.field hf hg

theorem Alike.add (h : q.Alike agree r) (parent : Nat) {name : String} {label : Option String}
    (hhead : agree ⟨name, label, ∅⟩ ⟨name, label, ∅⟩) :
    (q.add parent name label).Alike agree (r.add parent name label) := by
  rw [add_eq, add_eq, ← h.size_eq]
  have hpush : (Query.mk (q.fields.push { name, label })).Alike agree
      ⟨r.fields.push { name, label }⟩ := h.push ⟨hhead, rfl⟩
  refine hpush.modify parent fun x y ⟨hagree, hchildren⟩ => ⟨hagree, ?_⟩
  rw [Field.addChild, Field.addChild, hchildren]

theorem Alike.mono {agree' : Agreement} (h : q.Alike agree r)
    (hmono : ∀ h k, agree h k → agree' h k) : q.Alike agree' r :=
  ⟨h.size_eq, fun hf hg => (h.field hf hg).imp_left (hmono _ _)⟩

theorem Alike.refl (hrefl : ∀ h, agree h h) (q : Query) : q.Alike agree q := by
  refine ⟨rfl, fun {place f g} hf hg => ?_⟩
  obtain rfl := Option.some.inj (hf.symm.trans hg)
  exact ⟨hrefl _, rfl⟩

end

end Query

namespace Wire

/-! ## Reading goes on -/

/-- States with the same text to come, in which at most the arguments of the fields differ. -/
structure State.SameNames (m n : State) : Prop where
  frames : m.frames = n.frames
  fresh : m.fresh = n.fresh
  query : m.query.Alike .names n.query
  rest : m.rest = n.rest

section

variable {frame : Frame} {frames : List Frame} {fresh : Bool} {q r : Query} {s : Bytes}
  {m : State}

theorem sameNames_of_alike (h : q.Alike .names r) :
    State.SameNames ⟨frames, fresh, q, s⟩ ⟨frames, fresh, r, s⟩ := ⟨rfl, rfl, h, rfl⟩

theorem sameNames_readMember (h : q.Alike .names r) {place : Nat} {isNamed isNamed' : Bool}
    {name : String} {q' : Query} {t : Bytes}
    (hread : readMember q place isNamed name s = .ok (q', isNamed', t)) :
    ∃ r', readMember r place isNamed name s = .ok (r', isNamed', t) ∧ q'.Alike .names r' := by
  unfold readMember at hread ⊢
  split at hread
  · rename_i hname
    rw [if_pos hname]
    split at hread
    · cases hread
    split at hread
    · rename_i hempty
      cases hread
      exact ⟨r, if_pos hempty, h⟩
    · rename_i hempty
      cases hread
      exact ⟨_, if_neg hempty, h.modify place fun x y hxy => ⟨⟨rfl, hxy.1.2⟩, hxy.2⟩⟩
  rename_i hname
  rw [if_neg hname]
  split at hread
  · rename_i hlabel
    rw [if_pos hlabel]
    split at hread
    · cases hread
    cases hread
    exact ⟨_, rfl, h.modify place fun x y hxy => ⟨⟨hxy.1.1, rfl⟩, hxy.2⟩⟩
  rename_i hlabel
  rw [if_neg hlabel]
  split at hread
  · rename_i harguments
    rw [if_pos harguments]
    split at hread
    · cases hread
    cases hread
    exact ⟨_, rfl, h.modify place fun x y hxy => ⟨hxy.1, hxy.2⟩⟩
  rename_i harguments
  rw [if_neg harguments]
  split at hread
  · cases hread
  cases hread
  exact ⟨r, rfl, h⟩

theorem sameNames_stepSelections (h : q.Alike .names r)
    (hstep : stepSelections frame frames q s = .ok m) :
    ∃ n, stepSelections frame frames r s = .ok n ∧ m.SameNames n := by
  unfold stepSelections at hstep ⊢
  split at hstep
  · cases hstep
    exact ⟨_, rfl, sameNames_of_alike h⟩
  split at hstep
  · cases hstep
  cases hstep
  exact ⟨_, rfl, sameNames_of_alike h⟩

theorem sameNames_openField (h : q.Alike .names r) {parent : Nat}
    (hstep : openField parent frames q s = .ok m) :
    ∃ n, openField parent frames r s = .ok n ∧ m.SameNames n := by
  unfold openField at hstep ⊢
  split at hstep
  · cases hstep
  cases hstep
  refine ⟨_, rfl, ?_, rfl, h.add parent (Agreement.names_refl _), rfl⟩
  rw [h.size_eq]

theorem sameNames_stepSkip (h : q.Alike .names r) (hstep : stepSkip frame frames q s = .ok m) :
    ∃ n, stepSkip frame frames r s = .ok n ∧ m.SameNames n := by
  unfold stepSkip at hstep ⊢
  split at hstep
  · cases hstep
  cases hstep
  exact ⟨_, rfl, sameNames_of_alike h⟩

theorem sameNames_stepValue (h : q.Alike .names r) {name : String}
    (hstep : stepValue frame frames q name s = .ok m) :
    ∃ n, stepValue frame frames r name s = .ok n ∧ m.SameNames n := by
  unfold stepValue at hstep ⊢
  split at hstep
  · rename_i hname
    rw [if_pos hname]
    exact sameNames_stepSelections h hstep
  rename_i hname
  rw [if_neg hname]
  cases frame with
  | document => exact sameNames_stepSkip h hstep
  | list parent => exact sameNames_stepSkip h hstep
  | field place start isNamed =>
      dsimp only at hstep ⊢
      split at hstep
      · cases hstep
      rename_i hmember
      cases hstep
      obtain ⟨r', hmember', hsame⟩ := sameNames_readMember h hmember
      rw [hmember']
      exact ⟨_, rfl, sameNames_of_alike hsame⟩

theorem sameNames_stepObject (h : q.Alike .names r)
    (hstep : stepObject frame frames fresh q s = .ok m) :
    ∃ n, stepObject frame frames fresh r s = .ok n ∧ m.SameNames n := by
  unfold stepObject at hstep ⊢
  split at hstep
  · unfold closeObject at hstep ⊢
    split at hstep
    · cases hstep
    · cases hstep
      exact ⟨_, rfl, sameNames_of_alike h⟩
  split at hstep
  · cases hstep
  unfold stepMember at hstep ⊢
  split at hstep
  · cases hstep
  exact sameNames_stepValue h hstep

/-- A round does not look at arguments. -/
theorem sameNames_step (h : q.Alike .names r) (hstep : step frame frames fresh q s = .ok m) :
    ∃ n, step frame frames fresh r s = .ok n ∧ m.SameNames n := by
  obtain ⟨parent, rfl⟩ | hobject := frame.list_or_object
  · rw [step_list] at hstep ⊢
    split at hstep
    · cases hstep
      exact ⟨_, rfl, sameNames_of_alike h⟩
    split at hstep
    · cases hstep
    exact sameNames_openField h hstep
  · rw [step_object hobject] at hstep ⊢
    exact sameNames_stepObject h hstep

/-- Whatever the arguments are, what is read in the end differs in them at most. -/
theorem State.SameNames.outcome {n : State} (h : m.SameNames n) (hm : m.outcome = .ok q) :
    ∃ r, n.outcome = .ok r ∧ q.Alike .names r := by
  induction hlength : m.rest.length using Nat.strong_induction_on generalizing m n with
  | _ length ih =>
  obtain ⟨frames, fresh, p, s⟩ := m
  obtain ⟨frames', fresh', p', s'⟩ := n
  obtain ⟨hframes, hfresh, hquery, hrest⟩ := h
  dsimp only at hframes hfresh hquery hrest
  subst hframes hfresh hrest
  cases frames with
  | nil =>
      simp only [State.outcome, State.finish] at hm ⊢
      split at hm
      · cases hm
        exact ⟨p', rfl, hquery⟩
      · cases hm
  | cons frame frames =>
      rw [outcome_cons] at hm ⊢
      split at hm
      · cases hm
      rename_i next hstep
      obtain ⟨next', hstep', hsame⟩ := sameNames_step hquery hstep
      rw [hstep']
      exact ih next.rest.length (hlength ▸ step_lt hstep) hsame hm rfl

end

/-! ## Where arguments are read -/

/-- A member goes on with a name, after which comes `r`. -/
inductive Introduces (fresh : Bool) (name : String) (s r : Bytes) : Prop where
  | mk {t u : Bytes} : readComma fresh .nextMember s = .ok t → skipSpace t = Byte.quote :: u →
      readPiece Reader.text (Byte.quote :: u) = .ok (name, r) → Introduces fresh name s r

/-- `TakesArguments s v` says that the reader of `s` takes the arguments of a field from `v`. -/
inductive TakesArguments (s v : Bytes) : Prop where
  | mk {n place : Nat} {start : Bytes} {isNamed fresh : Bool} {frames : List Frame} {q : Query}
      {r t : Bytes} : Reaches s n ⟨.field place start isNamed :: frames, fresh, q, r⟩ →
      readComma fresh .nextMember r = .ok t → readName t = .ok ("arguments", v) →
      TakesArguments s v

section

variable {frame : Frame} {frames : List Frame} {fresh : Bool} {q : Query} {name : String}
  {s r t v : Bytes} {m : State}

theorem Introduces.stable (h : Introduces fresh name s r) : Stable (Introduces fresh name) s r := by
  obtain ⟨hcomma, hquote, hpiece⟩ := h
  have hlt := length_readPiece_lt hpiece
  refine ((stable_readComma hcomma).trans ((stableBefore_first hquote).trans
    (stable_readPiece isStable_text hpiece) hlt)).mono ?_
  rintro x y ⟨z, hx, w, ⟨hz, hhead⟩, hw⟩
  obtain ⟨u, rfl⟩ := List.head?_eq_some_iff.mp hhead
  exact ⟨hx, hz, hw⟩

theorem Introduces.outcome_eq (h : Introduces fresh name s r)
    (hobject : ∀ parent, frame ≠ .list parent) :
    State.outcome ⟨frame :: frames, fresh, q, s⟩ =
      (stepNamed frame frames q name r).bind State.outcome := by
  obtain ⟨hcomma, hquote, hpiece⟩ := h
  rw [outcome_member hobject hcomma hquote, stepMember_eq hquote hpiece]

theorem exists_introduces (hcomma : readComma fresh .nextMember s = .ok t)
    (hname : readName t = .ok (name, v)) :
    ∃ r, Introduces fresh name s r ∧ after? Byte.colon r = some v := by
  unfold readName at hname
  split at hname
  · cases hname
  rename_i hs
  split at hname
  · rename_i hb
    rw [beq_iff_eq.mp hb] at hs hname
    split at hname
    · cases hname
    rename_i hpiece
    split at hname
    · cases hname
    rename_i hcolon
    cases hname
    exact ⟨_, ⟨hcomma, hs, hpiece⟩, expect_eq_ok_iff.mp hcolon⟩
  · cases hname

/-- The first member of the first field can be its arguments. -/
theorem takesArguments_first (v : Bytes) :
    TakesArguments (bytesOf "\x7b\"selections\":[\x7b\"arguments\":" ++ v) v := by
  have hname : readName (bytesOf "\"selections\":[\x7b\"arguments\":" ++ v) =
      .ok ("selections", bytesOf "[\x7b\"arguments\":" ++ v) :=
    readName_eq rfl (spellsText_self (t := "selections") _ rfl) (.nil _)
  have hlist : step .document [] true .empty (bytesOf "\"selections\":[\x7b\"arguments\":" ++ v) =
      .ok ⟨[.list 0, .document], true, .empty, bytesOf "\x7b\"arguments\":" ++ v⟩ := by
    have hclose : after? Byte.closeCurly (bytesOf "\"selections\":[\x7b\"arguments\":" ++ v) =
        none := rfl
    simp only [step, stepDocument, hclose, readComma, if_true, hname]
    rfl
  exact .mk (((Reaches.start rfl).round hlist).round rfl) rfl
    (readName_eq rfl (spellsText_self (t := "arguments") _ rfl) (.nil _))

/-- After the colon anything can stand in the place of what stands there. -/
theorem exists_append_of_after? {b : UInt8} (hb : b < 0x80) (h : after? b s = some v) :
    ∃ u, s = u ++ v ∧ EndsAscii u ∧ ∀ t, after? b (u ++ t) = some t ∧ (u ++ t).head? = s.head? := by
  have hs := skipSpace_of_after? h
  obtain ⟨u, hu, hascii, hblanks⟩ := exists_skipSpace_eq s
  refine ⟨u ++ [b], ?_, hascii.append (endsAscii_of_forall (by simpa using hb)), fun t => ?_⟩
  · rw [List.append_assoc, List.singleton_append, ← hs]
    exact hu
  · have hstart := (hblanks (b :: t)).skipSpace_cons (isSpace_of_skipSpace hs)
    rw [List.append_assoc, List.singleton_append]
    refine ⟨by simp [after?, hstart], ?_⟩
    rw [hu, hs]
    cases u <;> rfl

/-- Where arguments are taken, reading goes on with whatever stands there. -/
theorem TakesArguments.exists_append (h : TakesArguments s v) :
    ∃ w place start isNamed frames q, s = w ++ v ∧
      ∀ t, SameEnd ((stepValue (.field place start isNamed) frames q "arguments" t).bind
        State.outcome) (readQuery (w ++ t)) := by
  obtain @⟨n, place, start, isNamed, fresh, frames, q, r, t, hreach, hcomma, hname⟩ := h
  obtain ⟨z, hintro, hcolon⟩ := exists_introduces hcomma hname
  obtain ⟨w, rfl, -, hall⟩ := hreach.stable_outcome.trans hintro.stable
  obtain ⟨u, hu, -, hafter⟩ := exists_append_of_after? (by decide) hcolon
  refine ⟨w ++ u, place, start, isNamed, frames, q, by rw [hu, List.append_assoc], fun t => ?_⟩
  obtain ⟨hcolon', hhead⟩ := hafter t
  obtain ⟨y, hend, hy⟩ := hall (u ++ t) (.inl hhead)
  have hexpect : expect Byte.colon .colon (u ++ t) = .ok t := expect_eq_ok_iff.mpr hcolon'
  have hobject : ∀ parent, Frame.field place start isNamed ≠ .list parent := nofun
  rw [hy.outcome_eq hobject, stepNamed, hexpect] at hend
  rwa [List.append_assoc]

theorem SameEnd.eq_of_ok {o : Except Stop Query} (h : SameEnd o (.ok q)) : o = .ok q := by
  cases h
  rfl

/-! ## What follows a member -/

variable {q' : Query}

theorem follows_of_outcome (hobject : ∀ parent, frame ≠ .list parent)
    (h : State.outcome ⟨frame :: frames, false, q, s⟩ = .ok q') : Follows s := by
  rw [outcome_object hobject] at h
  unfold stepObject at h
  split at h
  · rename_i hclose
    exact (blanks_of_after? hclose).follows (by decide)
  split at h
  · cases h
  · rename_i hcomma
    exact (comma_of_readComma hcomma).follows

/-- White space between members is passed over. -/
theorem outcome_blanks (hobject : ∀ parent, frame ≠ .list parent) (h : Blanks s t) :
    State.outcome ⟨frame :: frames, false, q, s⟩ =
      State.outcome ⟨frame :: frames, false, q, t⟩ := by
  rw [outcome_object hobject, outcome_object hobject]
  simp only [stepObject, readComma, expect, after?, h.skipSpace_eq, Bool.false_eq_true, if_false]

/-- Arguments that are readable by themselves are read wherever a value can end after them. -/
theorem exists_readPiece_arguments {given : Option (Keyed Json)}
    (h : arguments.readAll s = .ok given) (hr : Follows r) :
    ∃ e, Blanks e r ∧ readPiece arguments (s ++ r) = .ok (given, e) := by
  unfold Reader.readAll at h
  split at h
  · cases h
  rename_i a e hrun
  split at h
  · rename_i hend
    cases h
    have hend : Blanks e [] := List.isEmpty_iff.mp hend ▸ blanks_skipSpace e
    have hblanks : Blanks (e ++ r) r := hend.append r
    have hfollows := hblanks.follows_of_follows hr
    obtain ⟨w, rfl, -, hall⟩ := ReadsPiece.arguments.isStable.stable hrun
    have hread := hall (e ++ r) (.inr fun b hb => separates_of_canFollow (hfollows b hb))
    refine ⟨e ++ r, hblanks, ?_⟩
    rw [List.append_assoc]
    rcases hs : skipSpace (w ++ (e ++ r)) with _ | ⟨b, t⟩
    · simp [arguments, Reader.optional, Reader.onFirstByte, hs] at hread
    · have hskip := blanks_of_skipSpace hs
      rw [arguments, Reader.run_optional_blanks _ hskip, ← arguments] at hread
      exact readPiece_eq hskip (isSpace_of_skipSpace hs) hread hfollows
  · cases h

/-- The value of `arguments`, read where it stands. -/
theorem stepValue_arguments {place : Nat} {start : Bytes} {isNamed : Bool} {r : Bytes}
    {given : Option (Keyed Json)} (frames : List Frame) (q : Query)
    (h : readPiece arguments s = .ok (given, r)) :
    stepValue (.field place start isNamed) frames q "arguments" s =
      .ok ⟨.field place start isNamed :: frames, false,
        q.modify place fun f => { f with arguments := f.arguments.union (given.getD ∅) }, r⟩ := by
  simp [stepValue, readMember, h]

/-- Other arguments where some were taken: what is read differs in arguments at most. -/
theorem exists_readQuery_of_arguments {w z : Bytes} {given given' : Option (Keyed Json)}
    (htakes : TakesArguments (w ++ (s ++ r)) (s ++ r))
    (hvalue : readPiece arguments (s ++ r) = .ok (given, r))
    (hvalue' : arguments.readAll z = .ok given') (hq : readQuery (w ++ (s ++ r)) = .ok q) :
    ∃ q', readQuery (w ++ (z ++ r)) = .ok q' ∧ q.Alike .names q' := by
  obtain ⟨u, place, start, isNamed, frames, p, hsplit, hall⟩ := htakes.exists_append
  obtain rfl := List.append_cancel_right hsplit
  have hobject : ∀ parent, Frame.field place start isNamed ≠ .list parent := nofun
  -- The query that was read goes on from a state after the arguments.
  have hend := hall (s ++ r)
  rw [stepValue_arguments frames p hvalue, hq] at hend
  have houtcome := hend.eq_of_ok
  obtain ⟨e, hblanks, hread⟩ :=
    exists_readPiece_arguments hvalue' (follows_of_outcome hobject houtcome)
  have hend' := hall (z ++ r)
  rw [stepValue_arguments frames p hread, Except.bind, outcome_blanks hobject hblanks] at hend'
  -- So does the other, and all that the two states differ in is those arguments.
  have hsame : p.Alike .names p := .refl Agreement.names_refl p
  have hmodified := hsame.modify place
    (f := fun f => { f with arguments := f.arguments.union (given.getD ∅) })
    (g := fun f => { f with arguments := f.arguments.union (given'.getD ∅) }) fun _ _ h => h
  obtain ⟨q', hq', halike⟩ := (sameNames_of_alike hmodified).outcome houtcome
  rw [hq'] at hend'
  exact ⟨q', hend'.eq_ok, halike⟩

end

end Wire

/-- One text has other readable arguments where the reader of the other text takes the arguments of
a field. -/
inductive Wire.ReplacesArguments : String → String → Prop where
  | mk {before value after value' : String} {given given' : Option (Keyed Json)} :
      TakesArguments (bytesOf (before ++ value ++ after)) (bytesOf (value ++ after)) →
      readPiece arguments (bytesOf (value ++ after)) = .ok (given, bytesOf after) →
      arguments.readAll (bytesOf value') = .ok given' →
      ReplacesArguments (before ++ value ++ after) (before ++ value' ++ after)

/-- Where arguments are replaced, a query is read still, which differs in arguments at most. -/
theorem Query.exists_ofText_of_replacesArguments {text other : String} {q : Query}
    (h : Wire.ReplacesArguments text other) (htext : ofText text = .ok q) :
    ∃ r, ofText other = .ok r ∧ q.Alike .names r := by
  obtain @⟨before, value, after, value', given, given', htakes, hvalue, hvalue'⟩ := h
  have hread := ofText_eq_ok_iff.mp htext
  simp only [bytesOf_append, List.append_assoc] at hread htakes hvalue
  obtain ⟨r, hr, halike⟩ := Wire.exists_readQuery_of_arguments htakes hvalue hvalue' hread
  refine ⟨r, ofText_eq_ok_iff.mpr ?_, halike⟩
  rwa [bytesOf_append, bytesOf_append, List.append_assoc]

end QueryAdmission

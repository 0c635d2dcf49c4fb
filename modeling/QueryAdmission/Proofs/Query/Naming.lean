import QueryAdmission.Proofs.Query.Rounds

/-! # Names of fields that were read

A field is added without a name when its text begins, and gets its name from a later member. Until
then the frame of the field knows that the name is missing, and such a frame is not closed. So no
field of a query that was read to its end is without a name. -/

namespace QueryAdmission

/-- Fields that are there already keep their names when one is put behind them. -/
theorem Query.exists_field?_of_add {q : Query} {parent place : Nat} {name : String}
    {label : Option String} {f : Field} (hold : place ≠ q.fields.size)
    (h : (q.add parent name label).field? place = some f) :
    ∃ g, q.field? place = some g ∧ g.name = f.name := by
  rw [add_eq, field?, getElem?_modify, Array.getElem?_push, if_neg hold] at h
  split at h
  · obtain ⟨g, hg, rfl⟩ := Option.map_eq_some_iff.mp h
    exact ⟨g, hg, rfl⟩
  · exact ⟨f, h, rfl⟩

namespace Wire

/-- Whatever field has no name is open and still waits for it. -/
def State.AwaitsNames (m : State) : Prop :=
  ∀ place f, place ≠ Query.root → m.query.field? place = some f → f.name = "" →
    ∃ start, Frame.field place start false ∈ m.frames

section

variable {frame : Frame} {frames : List Frame} {fresh : Bool} {q : Query} {s : Bytes} {m : State}

/-- A member that leaves a field without a name has found it so, and tells as much. -/
theorem readMember_nameless {place : Nat} {isNamed isNamed' : Bool} {name : String} {q' : Query}
    {r : Bytes} (h : readMember q place isNamed name s = .ok (q', isNamed', r)) :
    ∃ f : Field → Field, q' = q.modify place f ∧
      ∀ x, (f x).name = "" → x.name = "" ∧ isNamed' = isNamed := by
  have hkeep : ∃ f : Field → Field, q = q.modify place f ∧
      ∀ x, (f x).name = "" → x.name = "" ∧ isNamed = isNamed :=
    ⟨fun x => x, (q.modify_self place).symm, fun _ hx => ⟨hx, rfl⟩⟩
  unfold readMember at h
  split at h
  · split at h
    · cases h
    · split at h
      · cases h
        exact hkeep
      · rename_i htext
        cases h
        exact ⟨_, rfl, fun _ hx => absurd hx htext⟩
  split at h
  · split at h
    · cases h
    · cases h
      exact ⟨_, rfl, fun _ hx => ⟨hx, rfl⟩⟩
  split at h
  · split at h
    · cases h
    · cases h
      exact ⟨_, rfl, fun _ hx => ⟨hx, rfl⟩⟩
  · split at h
    · cases h
    · cases h
      exact hkeep

/-- More that is open does no harm as long as the query stays as it is. -/
theorem State.AwaitsNames.mono {n : State} (hm : m.AwaitsNames) (hq : n.query = m.query)
    (hframes : ∀ place start, Frame.field place start false ∈ m.frames →
      Frame.field place start false ∈ n.frames) : n.AwaitsNames := by
  intro place f hne hf hname
  obtain ⟨start, hin⟩ := hm place f hne (hq ▸ hf) hname
  exact ⟨start, hframes place start hin⟩

theorem awaitsNames_stepSelections {t : Bytes}
    (hm : State.AwaitsNames ⟨frame :: frames, fresh, q, s⟩)
    (h : stepSelections frame frames q t = .ok m) : m.AwaitsNames := by
  unfold stepSelections at h
  split at h
  · cases h
    exact hm.mono rfl fun _ _ hin => List.mem_cons_of_mem _ hin
  · split at h
    · cases h
    · cases h
      exact hm.mono rfl fun _ _ hin => hin

theorem awaitsNames_stepDocument (hm : State.AwaitsNames ⟨.document :: frames, fresh, q, s⟩)
    (h : stepDocument frames fresh q s = .ok m) : m.AwaitsNames := by
  unfold stepDocument at h
  split at h
  · cases h
    exact hm.mono rfl fun _ _ hin => (List.mem_cons.mp hin).resolve_left nofun
  · split at h
    · cases h
    · split at h
      · cases h
      · split at h
        · exact awaitsNames_stepSelections hm h
        · split at h
          · cases h
          · cases h
            exact hm.mono rfl fun _ _ hin => hin

/-- The only field that gets to a query without a name is the one that is opened. -/
theorem awaitsNames_stepList {parent : Nat}
    (hm : State.AwaitsNames ⟨.list parent :: frames, fresh, q, s⟩)
    (h : stepList parent frames fresh q s = .ok m) : m.AwaitsNames := by
  unfold stepList at h
  split at h
  · cases h
    exact hm.mono rfl fun _ _ hin => (List.mem_cons.mp hin).resolve_left nofun
  · split at h
    · cases h
    · split at h
      · cases h
      · cases h
        intro place f hne hf hname
        by_cases hnew : place = q.fields.size
        · subst hnew
          exact ⟨_, List.mem_cons_self⟩
        · obtain ⟨g, hg, hsame⟩ := Query.exists_field?_of_add hnew hf
          obtain ⟨start, hin⟩ := hm place g hne hg (hsame.trans hname)
          exact ⟨start, List.mem_cons_of_mem _ hin⟩

theorem awaitsNames_stepField {place : Nat} {start : Bytes} {isNamed : Bool}
    (hm : State.AwaitsNames ⟨.field place start isNamed :: frames, fresh, q, s⟩)
    (h : stepField place start isNamed frames fresh q s = .ok m) : m.AwaitsNames := by
  unfold stepField at h
  split at h
  · split at h
    · rename_i hnamed
      cases h
      refine hm.mono rfl fun _ _ hin => (List.mem_cons.mp hin).resolve_left ?_
      intro heq
      cases heq
      cases hnamed
    · cases h
  · split at h
    · cases h
    · split at h
      · cases h
      · split at h
        · exact awaitsNames_stepSelections hm h
        · split at h
          · cases h
          · rename_i hmember
            obtain ⟨f, rfl, hf⟩ := readMember_nameless hmember
            cases h
            intro other x hne hx hname
            rw [Query.field?, Query.getElem?_modify] at hx
            split at hx
            · obtain ⟨y, hy, rfl⟩ := Option.map_eq_some_iff.mp hx
              obtain ⟨hblank, rfl⟩ := hf y hname
              exact hm other y hne hy hblank
            · -- A frame of another field is not the one at hand.
              rename_i hother
              obtain ⟨start', hin⟩ := hm other x hne hx hname
              refine ⟨start', List.mem_cons_of_mem _ ((List.mem_cons.mp hin).resolve_left ?_)⟩
              intro heq
              cases heq
              exact hother rfl

theorem awaitsNames_step (hm : State.AwaitsNames ⟨frame :: frames, fresh, q, s⟩)
    (h : step frame frames fresh q s = .ok m) : m.AwaitsNames := by
  cases frame with
  | document => exact awaitsNames_stepDocument hm h
  | list parent => exact awaitsNames_stepList hm h
  | field place start isNamed => exact awaitsNames_stepField hm h

theorem Reaches.awaitsNames {n : Nat} (h : Reaches s n m) : m.AwaitsNames := by
  induction h with
  | start _ =>
      intro place f hne hf
      have hsize : place < 1 := (Array.getElem?_eq_some_iff.mp hf).1
      exact absurd (Nat.lt_one_iff.mp hsize) hne
  | round _ hstep ih => exact awaitsNames_step ih hstep

end

end Wire

/-- What was read has no field without a name. -/
theorem Query.name_ne_of_ofText {text : String} {q : Query} (h : ofText text = .ok q) {place : Nat}
    {f : Field} (hne : place ≠ root) (hf : q.field? place = some f) : f.name ≠ "" := by
  intro hname
  have hends := Wire.ends_readQuery (bytesOf text)
  rw [ofText_eq_ok_iff.mp h] at hends
  cases hends with
  | done hreach _ =>
      -- Nothing is open any more, so nothing waits for its name.
      obtain ⟨start, hin⟩ := hreach.awaitsNames place f hne hf hname
      cases hin

end QueryAdmission

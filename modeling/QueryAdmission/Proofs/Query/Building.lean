import QueryAdmission.Proofs.Query.Arena
import QueryAdmission.Query.Wire

/-! # How queries come about

A query is built by its users, one edit after the other, or read from a text, in rounds. Users name
the root or places that they were given, and the reader names the places of what is open, so new
fields are always put below fields that are there. -/

namespace QueryAdmission

/-! ## Edits -/

/-- What a user can do to a query. -/
inductive Edit where
  | add (parent : Nat) (name : String) (label : Option String)
  | setArgument (place : Nat) (name : String) (value : Json)

namespace Edit

/-- The place that the user names. -/
def target : Edit → Nat
  | .add parent _ _ => parent
  | .setArgument place _ _ => place

/-- The place that the user is given. -/
def given? (q : Query) : Edit → Option Nat
  | .add .. => some q.fields.size
  | .setArgument .. => none

def isAdd : Edit → Bool
  | .add .. => true
  | .setArgument .. => false

end Edit

namespace Query

def afterEdit (q : Query) : Edit → Query
  | .add parent name label => q.add parent name label
  | .setArgument place name value => q.setArgument place name value

/-- The query after edits. -/
def edit (q : Query) (edits : List Edit) : Query := edits.foldl afterEdit q

/-- Each edit names a place that is known, or that an earlier one of the edits has given. -/
def Permits (q : Query) (known : List Nat) : List Edit → Prop
  | [] => True
  | e :: edits =>
    e.target ∈ known ∧ (q.afterEdit e).Permits (known ++ (e.given? q).toList) edits

instance decidablePermits (q : Query) (known : List Nat) :
    (edits : List Edit) → Decidable (q.Permits known edits)
  | [] => .isTrue trivial
  | e :: edits =>
    have := decidablePermits (q.afterEdit e) (known ++ (e.given? q).toList) edits
    inferInstanceAs (Decidable (_ ∧ _))

section

variable {q : Query} {known : List Nat} {edits : List Edit}

theorem size_afterEdit (q : Query) (e : Edit) :
    (q.afterEdit e).fields.size = q.fields.size + if e.isAdd then 1 else 0 := by
  cases e with
  | add parent name label => exact size_add q parent name label
  | setArgument place name value => exact size_modify q place _

theorem size_edit (q : Query) (edits : List Edit) :
    (q.edit edits).fields.size = q.fields.size + edits.countP Edit.isAdd := by
  induction edits generalizing q with
  | nil => rfl
  | cons e edits ih =>
      rw [edit, List.foldl_cons, ← edit, ih, size_afterEdit, List.countP_cons]
      omega

theorem IsTree.afterEdit (h : q.IsTree) {e : Edit} (he : e.target < q.fields.size) :
    (q.afterEdit e).IsTree := by
  cases e with
  | add parent name label => exact h.add he name label
  | setArgument place name value => exact h.modify place fun _ => rfl

/-- A place that a user knows is there and stays there. -/
theorem lt_size_of_known (hknown : ∀ place ∈ known, place < q.fields.size) {e : Edit} :
    ∀ place ∈ known ++ (e.given? q).toList, place < (q.afterEdit e).fields.size := by
  intro place hin
  rw [size_afterEdit]
  rcases List.mem_append.mp hin with hold | hnew
  · exact Nat.lt_add_right _ (hknown place hold)
  · cases e with
    | add parent name label =>
        rw [List.mem_singleton.mp hnew]
        exact Nat.lt_succ_self _
    | setArgument place name value => cases hnew

theorem IsTree.edit (h : q.IsTree) (hknown : ∀ place ∈ known, place < q.fields.size)
    (hedits : q.Permits known edits) : (q.edit edits).IsTree := by
  induction edits generalizing q known with
  | nil => exact h
  | cons e edits ih =>
      obtain ⟨htarget, hrest⟩ := hedits
      exact ih (h.afterEdit (hknown _ htarget)) (lt_size_of_known hknown) hrest

end

end Query

/-! ## Rounds of the reader -/

namespace Wire

/-- All that a round inside a frame can do: the end of the frame, the beginning of a list or of a
field, or a member that changes at most what the field at hand says of itself. -/
inductive Round (frame : Frame) (frames : List Frame) (q : Query) : State → Prop where
  | close (s : Bytes) : Round frame frames q ⟨frames, false, q, s⟩
  | openList (s : Bytes) :
      Round frame frames q ⟨.list frame.place :: frame :: frames, true, q, s⟩
  | openField (start s : Bytes) :
      Round frame frames q ⟨.field q.fields.size start false :: frame :: frames, true,
        q.add frame.place "" none, s⟩
  | member {next : Frame} {f : Field → Field} (s : Bytes) : next.place = frame.place →
      (∀ x, (f x).children = x.children) →
      Round frame frames q ⟨next :: frames, false, q.modify frame.place f, s⟩

section

variable {frame : Frame} {frames : List Frame} {fresh : Bool} {q : Query} {s : Bytes} {m : State}

theorem Round.keep (s : Bytes) : Round frame frames q ⟨frame :: frames, false, q, s⟩ := by
  have hround := @Round.member frame frames q frame (fun f => f) s rfl fun _ => rfl
  rwa [Query.modify_self] at hround

theorem round_of_stepList {parent : Nat} (h : stepList parent frames fresh q s = .ok m) :
    Round (.list parent) frames q m := by
  unfold stepList at h
  split at h
  · cases h
    exact .close _
  · split at h
    · cases h
    · split at h
      · cases h
      · cases h
        exact .openField _ _

theorem round_of_stepSelections (h : stepSelections frame frames q s = .ok m) :
    Round frame frames q m := by
  unfold stepSelections at h
  split at h
  · cases h
    exact .openList _
  · split at h
    · cases h
    · cases h
      exact .keep _

theorem round_of_stepDocument (h : stepDocument frames fresh q s = .ok m) :
    Round .document frames q m := by
  unfold stepDocument at h
  split at h
  · cases h
    exact .close _
  · split at h
    · cases h
    · split at h
      · cases h
      · split at h
        · exact round_of_stepSelections h
        · split at h
          · cases h
          · cases h
            exact .keep _

/-- No member but `selections` says anything of the field's children. -/
theorem readMember_eq_modify {place : Nat} {isNamed isNamed' : Bool} {name : String} {q' : Query}
    {r : Bytes} (h : readMember q place isNamed name s = .ok (q', isNamed', r)) :
    ∃ f : Field → Field, (∀ x, (f x).children = x.children) ∧ q' = q.modify place f := by
  unfold readMember at h
  split at h
  · split at h
    · cases h
    · split at h
      · cases h
        exact ⟨fun x => x, fun _ => rfl, (q.modify_self place).symm⟩
      · cases h
        exact ⟨_, fun _ => by rfl, rfl⟩
  split at h
  · split at h
    · cases h
    · cases h
      exact ⟨_, fun _ => by rfl, rfl⟩
  split at h
  · split at h
    · cases h
    · cases h
      exact ⟨_, fun _ => by rfl, rfl⟩
  · split at h
    · cases h
    · cases h
      exact ⟨fun x => x, fun _ => rfl, (q.modify_self place).symm⟩

theorem round_of_stepField {place : Nat} {start : Bytes} {isNamed : Bool}
    (h : stepField place start isNamed frames fresh q s = .ok m) :
    Round (.field place start isNamed) frames q m := by
  unfold stepField at h
  split at h
  · split at h
    · cases h
      exact .close _
    · cases h
  · split at h
    · cases h
    · split at h
      · cases h
      · split at h
        · exact round_of_stepSelections h
        · split at h
          · cases h
          · rename_i hmember
            obtain ⟨f, hf, rfl⟩ := readMember_eq_modify hmember
            cases h
            exact .member _ rfl hf

theorem round_of_step (h : step frame frames fresh q s = .ok m) : Round frame frames q m := by
  cases frame with
  | document => exact round_of_stepDocument h
  | list parent => exact round_of_stepList h
  | field place start isNamed => exact round_of_stepField h

end

/-- The query is a tree, and what is open has a place in it. -/
structure State.IsSound (m : State) : Prop where
  isTree : m.query.IsTree
  lt_size : ∀ frame ∈ m.frames, frame.place < m.query.fields.size

/-- Whether the last round has opened a field. -/
def State.hasOpened (m : State) : Bool :=
  match m.frames with
  | .field .. :: _ => m.fresh
  | _ => false

/-- The number of fields that are opened until nothing is open or the text is refused. -/
def State.openings (m : State) : Nat :=
  match m with
  | ⟨[], _, _, _⟩ => 0
  | ⟨frame :: frames, fresh, q, s⟩ =>
    match h : step frame frames fresh q s with
    | .error _ => 0
    | .ok next =>
      have : next.rest.length < s.length := step_lt h
      next.openings + if next.hasOpened then 1 else 0
termination_by m.rest.length

section

variable {frame : Frame} {frames : List Frame} {fresh : Bool} {q : Query} {s r : Bytes} {m : State}

theorem Round.isSound (h : Round frame frames q m)
    (hm : State.IsSound ⟨frame :: frames, fresh, q, s⟩) : m.IsSound := by
  obtain ⟨htree, hframes⟩ := hm
  obtain ⟨hframe, hrest⟩ := List.forall_mem_cons.mp hframes
  dsimp only at htree hframe hrest
  cases h with
  | close s => exact ⟨htree, hrest⟩
  | openList s =>
      exact ⟨htree, List.forall_mem_cons.mpr ⟨hframe, List.forall_mem_cons.mpr ⟨hframe, hrest⟩⟩⟩
  | openField start s =>
      refine ⟨htree.add hframe "" none, ?_⟩
      dsimp only
      rw [Query.size_add]
      refine List.forall_mem_cons.mpr ⟨Nat.lt_succ_self _, fun open' hin => ?_⟩
      exact Nat.lt_succ_of_lt (hframes open' hin)
  | member s hplace hf =>
      refine ⟨htree.modify _ hf, ?_⟩
      dsimp only
      rw [Query.size_modify]
      exact List.forall_mem_cons.mpr ⟨hplace ▸ hframe, hrest⟩

/-- A round that opens a field adds one to the query, and no other round does. -/
theorem Round.size_eq (h : Round frame frames q m) :
    m.query.fields.size = q.fields.size + if m.hasOpened then 1 else 0 := by
  cases h with
  | close s => cases frames with
    | nil => rfl
    | cons frame frames => cases frame <;> rfl
  | openList s => rfl
  | openField start s => exact Query.size_add q frame.place "" none
  | @member next f s hplace hf =>
      have hopened : State.hasOpened ⟨next :: frames, false, q.modify frame.place f, s⟩ = false := by
        cases next <;> rfl
      rw [hopened]
      exact Query.size_modify q frame.place f

theorem State.openings_cons {next : State} (h : step frame frames fresh q s = .ok next) :
    State.openings ⟨frame :: frames, fresh, q, s⟩ =
      next.openings + if next.hasOpened then 1 else 0 := by
  rw [State.openings]
  split <;> simp_all

/-- What is read until nothing is open is a tree, with one more field for each that was opened. -/
theorem State.IsSound.finish {q' : Query} (hm : m.IsSound) (h : m.finish = .ok (q', r)) :
    q'.IsTree ∧ q'.fields.size = m.query.fields.size + m.openings := by
  fun_induction State.finish m with
  | case1 fresh q s =>
      cases h
      rw [State.openings]
      exact ⟨hm.isTree, rfl⟩
  | case2 frame frames fresh q s stop hstep => cases h
  | case3 frame frames fresh q s next hstep _ ih =>
      have hround := round_of_step hstep
      obtain ⟨htree, hsize⟩ := ih (hround.isSound hm) h
      refine ⟨htree, ?_⟩
      rw [hsize, hround.size_eq, State.openings_cons hstep]
      dsimp only
      omega

end

/-- The number of fields that are opened when a text is read. -/
def openings (text : String) : Nat :=
  match expect Byte.openCurly .openDocument (bytesOf text) with
  | .error _ => 0
  | .ok r => State.openings ⟨[.document], true, .empty, r⟩

end Wire

namespace Query

theorem isSound_empty (s : Bytes) : Wire.State.IsSound ⟨[.document], true, empty, s⟩ :=
  ⟨.empty, fun frame hin => by rw [List.mem_singleton.mp hin]; exact IsTree.empty.root_lt⟩

theorem isTree_ofText {text : String} {q : Query} (h : ofText text = .ok q) :
    q.IsTree ∧ q.fields.size = 1 + Wire.openings text := by
  have hread : Wire.readQuery (bytesOf text) = .ok q := by
    unfold ofText at h
    dsimp only at h
    split at h
    · cases h
      assumption
    · cases h
  rw [Wire.readQuery] at hread
  rw [Wire.openings]
  cases hopen : Wire.expect Byte.openCurly .openDocument (bytesOf text) with
  | error stop =>
      rw [hopen] at hread
      cases hread
  | ok s =>
      rw [hopen] at hread
      dsimp only at hread ⊢
      split at hread
      · cases hread
      · rename_i hfinish
        split at hread
        · cases hread
          exact (isSound_empty s).finish hfinish
        · cases hread

/-! ## Where queries come from -/

/-- `q.Arises n` says that `q` has come about by `n` additions: by edits of the empty query, or by
reading a text that opens so many fields. -/
inductive Arises : Query → Nat → Prop where
  | edits {edits : List Edit} : empty.Permits [root] edits →
      Arises (empty.edit edits) (edits.countP Edit.isAdd)
  | text {text : String} {q : Query} : ofText text = .ok q → Arises q (Wire.openings text)

/-- However a query has come about, its places make a tree. No way leads back to where it started,
one way and no other leads from the root to each place, and no way leads out of the query. There
are as many fields as were added. -/
theorem isTree_of_arises {q : Query} {n : Nat} (h : q.Arises n) :
    q.IsTree ∧
      (∀ place, ¬ Relation.TransGen q.HasChild place place) ∧
      (∀ place, place < q.fields.size → ∃! above, q.IsWay above place) ∧
      (∀ above place, q.IsWay above place → (q.field? place).isSome = true) ∧
      q.fieldCount = n := by
  have hroot : ∀ place ∈ [root], place < empty.fields.size := by simp [root, empty]
  obtain ⟨htree, hsize⟩ : q.IsTree ∧ q.fields.size = 1 + n := by
    cases h with
    | edits hedits => exact ⟨IsTree.empty.edit hroot hedits, size_edit empty _⟩
    | text htext => exact isTree_ofText htext
  refine ⟨htree, fun place hway => ?_, fun place hlt => htree.existsUnique_isWay hlt,
    fun above place hway => ?_, ?_⟩
  · exact Nat.lt_irrefl place (htree.lt_of_transGen hway)
  · rw [field?, Array.getElem?_eq_getElem (htree.lt_size_of_isWay hway)]
    rfl
  · rw [fieldCount, hsize]
    omega

/-- A field that is added below the first one after the second one, and a text that names a field
after those below it. -/
theorem isTree_of_arises_crossing :
    let edits : List Edit := [.add root "a" none, .add root "b" (some "x"), .add 1 "c" none,
      .setArgument 2 "k" (.nat 2), .add 3 "d" none]
    let text := "\x7b\"selections\":[\x7b\"selections\":[\x7b\"name\":\"b\"\x7d],\"name\":\"a\"\x7d,"
      ++ "\x7b\"name\":\"c\"\x7d]\x7d"
    (empty.Permits [root] edits ∧ (empty.edit edits).IsTree ∧
      (empty.edit edits).fieldCount = 4) ∧
    ∃ q, ofText text = .ok q ∧ q.Arises 3 ∧ q.IsTree ∧ q.fieldCount = 3 := by
  intro edits text
  have hedits : empty.Permits [root] edits := by
    simp [edits, Permits, afterEdit, Edit.target, Edit.given?, root, empty, add, modify]
  obtain ⟨hbuilt, -, -, -, hcount⟩ := isTree_of_arises (.edits hedits)
  have hread : (ofText text).toOption.isSome = true := by decide +kernel
  have hopenings : Wire.openings text = 3 := by decide +kernel
  cases hq : ofText text with
  | error e =>
      rw [hq] at hread
      cases hread
  | ok q =>
      have harises : q.Arises 3 := hopenings ▸ .text hq
      obtain ⟨htree, -, -, -, hfields⟩ := isTree_of_arises harises
      exact ⟨⟨hedits, hbuilt, hcount⟩, q, rfl, harises, htree, hfields⟩

end Query

end QueryAdmission

import QueryAdmission.Proofs.Aspect
import QueryAdmission.Proofs.Query.Reachable
import QueryAdmission.Proofs.Query.Substitution

/-! # What a gate is blind to

A gate sees no arguments, and of the name under which an answer is wanted it sees only whether it is
another one than the field's own. Queries that differ in nothing else are the same to it, whether
they were built, edited or read. -/

namespace QueryAdmission

/-! ## What agrees -/

/-- Heads agree that a gate does not tell apart. -/
def Agreement.blind : Agreement := fun h k => h.name = k.name ∧ h.isRenamed = k.isRenamed

theorem Agreement.blind_of_names {h k : Head} (hnames : names h k) : blind h k := by
  obtain ⟨hname, hlabel⟩ := hnames
  exact ⟨hname, by rw [Head.isRenamed, Head.isRenamed, hname, hlabel]⟩

theorem Forest.Alike.aspects {a b : Forest} (h : a.Alike .blind b) (depth : Nat) :
    (a.visits depth).map Aspect.ofHead = (b.visits depth).map Aspect.ofHead := by
  rw [← List.forall₂_eq_eq_eq, List.forall₂_map_left_iff, List.forall₂_map_right_iff]
  refine (h.visits depth).imp fun v w hvw => ?_
  obtain ⟨hdepth, hname, hrenamed⟩ := hvw
  rw [Aspect.ofHead, Aspect.ofHead, hdepth, hname, hrenamed]

namespace Query

variable {q r : Query}

/-- Queries that differ in arguments at most are the same to a gate. -/
theorem Alike.aspects_eq (h : q.Alike .names r) (hq : q.IsTree) (hr : r.IsTree) :
    q.aspects = r.aspects := by
  have hblind : q.Alike .blind r := h.mono fun _ _ => Agreement.blind_of_names
  obtain ⟨a, ha⟩ := hq.exists_represents
  obtain ⟨b, hb⟩ := hr.exists_represents
  have hroots : q.rootFields = r.rootFields := by
    have hf := field?_eq_some hq.root_lt
    have hg := field?_eq_some hr.root_lt
    rw [rootFields, rootFields, children_of_field?_eq_some hf, children_of_field?_eq_some hg]
    exact (h.field hf hg).2
  have halike : a.Alike .blind b := hblind.shows ha (hroots ▸ hb)
  rw [hq.aspects_eq ha, hr.aspects_eq hb, halike.aspects]

theorem Alike.setArgument (h : q.Alike .names r) (place : Nat) (name : String) (value : Json) :
    q.Alike .names (r.setArgument place name value) := by
  have hmodified := h.modify place (f := fun f => f)
    (g := fun f => { f with arguments := f.arguments.insert name value }) fun _ _ hxy => hxy
  rwa [modify_self] at hmodified

theorem Alike.edit {edits : List Edit} (h : q.Alike .names r)
    (hedits : ∀ e ∈ edits, e.isAdd = false) : q.Alike .names (r.edit edits) := by
  induction edits generalizing r with
  | nil => exact h
  | cons e edits ih =>
      obtain ⟨he, hrest⟩ := List.forall_mem_cons.mp hedits
      cases e with
      | add parent name label => cases he
      | setArgument place name value => exact ih (h.setArgument place name value) hrest

end Query

/-! ## What a gate answers -/

namespace Gate

theorem same_of_aspects {s : Settings} {g : Gate} (hg : ofSettings s = .ok g) {q r : Query}
    (hq : q.IsTree) (hr : r.IsTree) (h : q.aspects = r.aspects) :
    g.analyse q = g.analyse r ∧ g.check q = g.check r := by
  have hsame : g.analyse q = g.analyse r := by rw [analyse_eq hg hq, analyse_eq hg hr, h]
  exact ⟨hsame, congrArg g.judge hsame⟩

/-- A gate of valid settings answers the same to queries of one form in which the fields have the
same names, and which ask for answers under other names at the same fields. So neither setting
arguments nor replacing them in a text that can be read changes its answer. -/
theorem check_eq_of_blind {s : Settings} (hvalid : s.validate = .ok ()) :
    ∃ g, ofSettings s = .ok g ∧
      (∀ q r a b, q.Reachable → r.Reachable → q.Represents a → r.Represents b → a.Alike .blind b →
        g.analyse q = g.analyse r ∧ g.check q = g.check r) ∧
      (∀ q edits, q.Reachable → q.Permits q.places edits → (∀ e ∈ edits, e.isAdd = false) →
        g.analyse q = g.analyse (q.edit edits) ∧ g.check q = g.check (q.edit edits)) ∧
      ∀ text other q, Query.ofText text = .ok q → Wire.ReplacesArguments text other →
        ∃ r, Query.ofText other = .ok r ∧ g.analyse q = g.analyse r ∧ g.check q = g.check r := by
  obtain ⟨g, hg⟩ := exists_ofSettings (Settings.validate_eq_ok.mp hvalid)
  refine ⟨g, hg, ?_, ?_, ?_⟩
  · intro q r a b hq hr ha hb halike
    refine same_of_aspects hg hq.isTree hr.isTree ?_
    rw [hq.isTree.aspects_eq ha, hr.isTree.aspects_eq hb, halike.aspects]
  · intro q edits hq hedits harguments
    have hedited := hq.edit Query.lt_size_of_mem_places hedits
    have halike := (Query.Alike.refl Agreement.names_refl q).edit harguments
    exact same_of_aspects hg hq.isTree hedited.isTree
      (halike.aspects_eq hq.isTree hedited.isTree)
  · intro text other q htext hreplaces
    obtain ⟨r, hr, halike⟩ := Query.exists_ofText_of_replacesArguments hreplaces htext
    have hq := (Query.Reachable.text htext).isTree
    have htree := (Query.Reachable.text hr).isTree
    exact ⟨r, hr, same_of_aspects hg hq htree (halike.aspects_eq hq htree)⟩

/-- Two fields, one of them wanted under another name, where one would be allowed: built with and
without an argument, then edited. One field read without arguments and with them. -/
theorem check_eq_of_blind_each_way :
    let s : Settings := { limits := { fields := 1 }, costs := { weights := ∅ } }
    let q := Query.empty.edit [.add Query.root "a" (some "x"), .add 1 "b" none,
      .setArgument 1 "k" (.nat 2)]
    let r := Query.empty.edit [.add Query.root "a" (some "y"), .add 1 "b" (some "b")]
    let edits : List Edit := [.setArgument 2 "k" .null, .setArgument Query.root "k" .null]
    let before := "\x7b\"selections\":[\x7b\"arguments\":"
    let after := ",\"name\":\"a\"\x7d]\x7d"
    s.validate = .ok () ∧ ∃ g, ofSettings s = .ok g ∧ g.check q = .rejected [⟨.fields, 2, 1⟩] ∧
      g.check r = .rejected [⟨.fields, 2, 1⟩] ∧ g.analyse q = g.analyse (q.edit edits) ∧
      ∃ x y, Query.ofText (before ++ "null" ++ after) = .ok x ∧
        Query.ofText (before ++ "\x7b\"k\":true\x7d" ++ after) = .ok y ∧
        g.check x = .admitted ∧ g.check y = .admitted := by
  intro s q r edits before after
  have hvalid : s.validate = .ok () := by rfl
  have hq : q.Reachable := Query.Arises.reachable (.edits (by decide))
  have hr : r.Reachable := Query.Arises.reachable (.edits (by decide))
  have ha : q.Represents _ :=
    .cons (f := ⟨"a", some "x", (∅ : Keyed Json).insert "k" (.nat 2), #[2]⟩) rfl
      (.cons (f := ⟨"b", none, ∅, #[]⟩) rfl .nil .nil) .nil
  have hb : r.Represents _ := .cons (f := ⟨"a", some "y", ∅, #[2]⟩) rfl
    (.cons (f := ⟨"b", some "b", ∅, #[]⟩) rfl .nil .nil) .nil
  have hchecked : ((ofSettings s).toOption.map fun g => g.check q) =
      some (.rejected [⟨.fields, 2, 1⟩]) := by decide +kernel
  have hreads : ((Query.ofText (before ++ "null" ++ after)).toOption.map fun x =>
      (ofSettings s).toOption.map fun g => g.check x) = some (some .admitted) := by decide +kernel
  have hgiven : (Wire.arguments.readAll (bytesOf "\x7b\"k\":true\x7d")).toOption.isSome = true := by
    decide +kernel
  have htakes : Wire.TakesArguments (bytesOf (before ++ "null" ++ after))
      (bytesOf ("null" ++ after)) := Wire.takesArguments_first (bytesOf ("null" ++ after))
  have hvalue : Wire.readPiece Wire.arguments (bytesOf ("null" ++ after)) =
      .ok (none, bytesOf after) := by rfl
  obtain ⟨g, hg, hbuilt, hedited, hread⟩ := check_eq_of_blind hvalid
  cases hx : Query.ofText (before ++ "null" ++ after) with
  | error e =>
      rw [hx] at hreads
      cases hreads
  | ok x =>
  cases hvalue' : Wire.arguments.readAll (bytesOf "\x7b\"k\":true\x7d") with
  | error e =>
      rw [hvalue'] at hgiven
      cases hgiven
  | ok given =>
      rw [hx, hg] at hreads
      rw [hg] at hchecked
      have hadmitted : g.check x = .admitted := Option.some.inj (Option.some.inj hreads)
      have hrejected : g.check q = .rejected [⟨.fields, 2, 1⟩] := Option.some.inj hchecked
      obtain ⟨y, hy, -, hsame⟩ := hread _ _ x hx (.mk htakes hvalue hvalue')
      have hother := (hbuilt q r _ _ hq hr ha hb (.cons ⟨rfl, by decide⟩
        (.cons ⟨rfl, by decide⟩ .nil .nil) .nil)).2
      have hset := (hedited q edits hq (by decide) (by decide)).1
      exact ⟨hvalid, g, hg, hrejected, hother.symm.trans hrejected, hset, x, y, rfl, hy, hadmitted,
        hsame.symm.trans hadmitted⟩

end Gate

end QueryAdmission

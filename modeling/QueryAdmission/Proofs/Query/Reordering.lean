import QueryAdmission.Proofs.Aspect
import QueryAdmission.Proofs.Budget
import QueryAdmission.Proofs.Query.Reachable

/-! # The order of fields

Fields below the same parent can be in any order, and the places of fields tell only when they were
added. A walk through a query with another order meets the same fields as deep as before, and that
is all that a gate goes by. -/

namespace QueryAdmission

namespace Forest

/-- Forests that are the same up to the order of fields side by side, at any depth. -/
inductive Reorders : Forest → Forest → Prop where
  | nil : Reorders .nil .nil
  | cons {head : Head} {below below' rest rest' : Forest} : Reorders below below' →
      Reorders rest rest' → Reorders (.cons head below rest) (.cons head below' rest')
  | swap {head head' : Head} {below below' rest : Forest} :
      Reorders (.cons head below (.cons head' below' rest))
        (.cons head' below' (.cons head below rest))
  | trans {a b c : Forest} : Reorders a b → Reorders b c → Reorders a c

theorem Reorders.perm_visits {a b : Forest} (h : a.Reorders b) (depth : Nat) :
    (a.visits depth).Perm (b.visits depth) := by
  induction h generalizing depth with
  | nil => exact .refl _
  | cons _ _ ihb ihr => exact ((ihb _).cons _).append (ihr _)
  | @swap head head' below below' rest =>
      simp only [visits, ← List.append_assoc]
      exact List.perm_append_comm.append_right _
  | trans _ _ ih ih' => exact (ih _).trans (ih' _)

end Forest

namespace Query

variable {q r : Query} {a b : Forest}

theorem IsTree.perm_aspects (hq : q.IsTree) (hr : r.IsTree) (ha : q.Represents a)
    (hb : r.Represents b) (h : a.Reorders b) : q.aspects.Perm r.aspects := by
  rw [hq.aspects_eq ha, hr.aspects_eq hb]
  exact (h.perm_visits 0).map _

end Query

namespace Gate

/-- Queries that represent forests which are the same up to the order of fields side by side have
the same analysis at every gate of valid settings, and the same is reported of them in the same
order, in whatever order their fields were added. -/
theorem check_eq_of_reorders {s : Settings} (hvalid : s.validate = .ok ()) {q r : Query}
    (hq : q.Reachable) (hr : r.Reachable) (hsmall : q.fieldCount < UInt32.size)
    {a b : Forest} (ha : q.Represents a) (hb : r.Represents b) (h : a.Reorders b) :
    ∃ g, ofSettings s = .ok g ∧ g.analyse q = g.analyse r ∧ g.check q = g.check r ∧
      (g.analyse q).shape.fields < UInt32.size := by
  obtain ⟨g, hg⟩ := exists_ofSettings (Settings.validate_eq_ok.mp hvalid)
  have hsame : g.analyse q = g.analyse r := by
    rw [analyse_eq hg hq.isTree, analyse_eq hg hr.isTree]
    exact Settings.measure_eq_of_perm (hq.isTree.perm_aspects hr.isTree ha hb h)
  have hfields := hq.isTree.fields_ofQuery g.sensitiveFields
  exact ⟨g, hg, hsame, congrArg g.judge hsame, hfields.trans_lt hsmall⟩

/-- Two fields, the first one with two others below it, added from top to bottom, and the same in
the opposite order at both depths, added one after the other. -/
theorem check_eq_of_reorders_crossing :
    let s : Settings := { limits := { fields := 3 }, costs := { weights := ∅ } }
    let q := Query.empty.edit [.add Query.root "a" none, .add Query.root "b" none,
      .add 1 "c" (some "x"), .add 1 "password" none]
    let r := Query.empty.edit [.add Query.root "b" none, .add Query.root "a" none,
      .add 2 "password" none, .add 2 "c" (some "x")]
    s.validate = .ok () ∧ q.Reachable ∧ r.Reachable ∧ q ≠ r ∧
      ∃ g, ofSettings s = .ok g ∧ g.analyse q = g.analyse r ∧
        g.check q = .rejected [⟨.fields, 4, 3⟩] ∧ g.check r = .rejected [⟨.fields, 4, 3⟩] := by
  intro s q r
  have hvalid : s.validate = .ok () := by rfl
  have hq : q.Reachable := Query.Arises.reachable (.edits (by decide))
  have hr : r.Reachable := Query.Arises.reachable (.edits (by decide))
  have hne : q ≠ r := by
    intro heq
    have hnames := congrArg (fun q : Query => q.fields.toList.map Field.name) heq
    exact absurd hnames (by decide +kernel)
  have hcq : q.Shows [3, 4] _ := .cons (f := ⟨"c", some "x", ∅, #[]⟩) rfl .nil
    (.cons (f := ⟨"password", none, ∅, #[]⟩) rfl .nil .nil)
  have hpr : r.Shows [3, 4] _ := .cons (f := ⟨"password", none, ∅, #[]⟩) rfl .nil
    (.cons (f := ⟨"c", some "x", ∅, #[]⟩) rfl .nil .nil)
  have ha : q.Represents _ := .cons (f := ⟨"a", none, ∅, #[3, 4]⟩) rfl hcq
    (.cons (f := ⟨"b", none, ∅, #[]⟩) rfl .nil .nil)
  have hb : r.Represents _ := .cons (f := ⟨"b", none, ∅, #[]⟩) rfl .nil
    (.cons (f := ⟨"a", none, ∅, #[3, 4]⟩) rfl hpr .nil)
  obtain ⟨g, hg, hsame, hcheck, -⟩ := check_eq_of_reorders hvalid hq hr (by decide) ha hb
    (.trans .swap (.cons .nil (.cons .swap .nil)))
  have hrejected : g.check q = .rejected [⟨.fields, 4, 3⟩] := by
    have hchecked : ((ofSettings s).toOption.map fun g => g.check q) =
        some (.rejected [⟨.fields, 4, 3⟩]) := by decide +kernel
    rw [hg] at hchecked
    exact Option.some.inj hchecked
  exact ⟨hvalid, hq, hr, hne, g, hg, hsame, hrejected, hcheck.symm.trans hrejected⟩

end Gate

end QueryAdmission

import QueryAdmission.Proofs.Aspect
import QueryAdmission.Proofs.Budget
import QueryAdmission.Proofs.Query.Reachable

/-! # Queries that grow

An edit takes nothing away. The fields that were there stay at their places and keep their names,
and what was below a field stays below it. So a gate sees all that it saw, and possibly more. -/

namespace QueryAdmission

namespace Query

/-- All fields of the first query are in the second one, at the same places, with the same names and
below the same fields. -/
structure Within (q r : Query) : Prop where
  field : ∀ {place f}, q.field? place = some f →
    ∃ g, r.field? place = some g ∧ f.name = g.name ∧ f.label = g.label
  child : ∀ {place child}, q.HasChild place child → r.HasChild place child

namespace Within

variable {q r : Query}

theorem refl (q : Query) : q.Within q where
  field hf := ⟨_, hf, rfl, rfl⟩
  child hchild := hchild

theorem trans {m : Query} (h : q.Within m) (h' : m.Within r) : q.Within r where
  field hf := by
    obtain ⟨g, hg, hname, hlabel⟩ := h.field hf
    obtain ⟨k, hk, hname', hlabel'⟩ := h'.field hg
    exact ⟨k, hk, hname.trans hname', hlabel.trans hlabel'⟩
  child hchild := h'.child (h.child hchild)

/-! ## Edits -/

theorem modify (q : Query) (place : Nat) {f : Field → Field}
    (h : ∀ x, x.name = (f x).name ∧ x.label = (f x).label ∧ (f x).children = x.children) :
    q.Within (q.modify place f) where
  field {p x} hx := by
    rw [field?] at hx
    rw [field?, getElem?_modify, hx]
    split
    · exact ⟨f x, rfl, (h x).1, (h x).2.1⟩
    · exact ⟨x, rfl, rfl, rfl⟩
  child hchild := by
    rw [HasChild, children_modify fun x => (h x).2.2]
    exact hchild

theorem add (q : Query) {parent : Nat} (hp : parent < q.fields.size) (name : String)
    (label : Option String) : q.Within (q.add parent name label) where
  field {p x} hx := by
    obtain ⟨hlt, -⟩ := Array.getElem?_eq_some_iff.mp hx
    rw [field?] at hx
    rw [field?, add_eq, modify_push q hp, Array.getElem?_push, size_modify,
      if_neg (Nat.ne_of_lt hlt), getElem?_modify, hx]
    split
    · exact ⟨x.addChild q.fields.size, rfl, rfl, rfl⟩
    · exact ⟨x, rfl, rfl, rfl⟩
  child hchild := (IsTree.mem_children_add hp).mpr (.inl hchild)

theorem afterEdit {e : Edit} (he : e.target < q.fields.size) : q.Within (q.afterEdit e) := by
  cases e with
  | add parent name label => exact add q he name label
  | setArgument place name value => exact modify q place fun _ => ⟨rfl, rfl, rfl⟩

theorem edit {known : List Nat} {edits : List Edit}
    (hknown : ∀ place ∈ known, place < q.fields.size) (hedits : q.Permits known edits) :
    q.Within (q.edit edits) := by
  induction edits generalizing q known with
  | nil => exact refl q
  | cons e edits ih =>
      obtain ⟨htarget, hrest⟩ := hedits
      exact (afterEdit (hknown _ htarget)).trans (ih (lt_size_of_known hknown) hrest)

/-! ## What is seen -/

theorem isWay (h : q.Within r) {above : List Nat} {place : Nat} (hway : q.IsWay above place) :
    r.IsWay above place := by
  induction hway with
  | root => exact .root
  | down _ hchild ih => exact ih.down (h.child hchild)

/-- What is visited in the first query is visited in the second one, and looks the same. -/
theorem exists_visit (h : q.Within r) {v : Visit} (hv : q.IsVisit v) :
    ∃ w, r.IsVisit w ∧ w.place = v.place ∧ Aspect.ofVisit w = .ofVisit v := by
  obtain ⟨hne, hfield, above, hway, hdepth⟩ := hv
  obtain ⟨g, hg, hname, hlabel⟩ := h.field hfield
  have hrenamed : g.isRenamed = v.field.isRenamed := by
    rw [Field.isRenamed, Field.isRenamed, hname, hlabel]
  refine ⟨⟨v.place, v.depth, g⟩, ⟨hne, hg, above, h.isWay hway, hdepth⟩, rfl, ?_⟩
  exact Aspect.mk.injEq .. ▸ ⟨rfl, hname.symm, hrenamed⟩

/-- Visits are told apart by their places, so that what is seen often is seen as often again. -/
theorem subperm_aspects (h : q.Within r) (hq : q.IsTree) (hr : r.IsTree) :
    q.aspects.Subperm r.aspects := by
  let placed (v : Visit) : Nat × Aspect := (v.place, .ofVisit v)
  have hnodup : (q.preorder.map placed).Nodup := by
    apply List.Nodup.of_map Prod.fst
    rw [List.map_map, hq.preorder_eq]
    exact hq.nodup_below 0 root
  have hsubset : q.preorder.map placed ⊆ r.preorder.map placed := by
    intro entry hin
    obtain ⟨v, hv, rfl⟩ := List.mem_map.mp hin
    rw [hq.preorder_eq, hq.mem_below_root] at hv
    obtain ⟨w, hw, hplace, haspect⟩ := h.exists_visit hv
    rw [← hr.mem_below_root, ← hr.preorder_eq] at hw
    exact List.mem_map.mpr ⟨w, hw, Prod.ext hplace haspect⟩
  have hall := subperm_map Prod.snd (hnodup.subperm hsubset)
  rwa [List.map_map, List.map_map] at hall

end Within

end Query

/-! ## What is reported -/

namespace Gate

variable {s : Settings} {g : Gate} {q r : Query}

theorem analyse_atMost (hg : ofSettings s = .ok g) (hq : q.IsTree) (hr : r.IsTree)
    (h : q.Within r) : (g.analyse q).AtMost (g.analyse r) := by
  rw [analyse_eq hg hq, analyse_eq hg hr]
  exact Settings.measure_mono (h.subperm_aspects hq hr)

theorem exists_breach_of_atMost (hg : ofSettings s = .ok g)
    (h : (g.analyse q).AtMost (g.analyse r)) {x : Breach} (hx : x ∈ (g.check q).breaches) :
    ∃ y ∈ (g.check r).breaches, x.AtMost y := by
  rw [check, judge_eq hg, Verdict.breaches_ofBreaches] at hx ⊢
  exact LimitSettings.exists_breach_of_atMost h hx

theorem admitted_of_atMost (hg : ofSettings s = .ok g) (h : (g.analyse q).AtMost (g.analyse r))
    (hr : g.check r = .admitted) : g.check q = .admitted := by
  have hnone : (g.check q).breaches = [] := by
    rw [List.eq_nil_iff_forall_not_mem]
    intro x hx
    obtain ⟨y, hy, -⟩ := exists_breach_of_atMost hg h hx
    rw [hr] at hy
    cases hy
  rw [check, judge_eq hg, Verdict.breaches_ofBreaches] at hnone
  rw [check, judge_eq hg, Verdict.ofBreaches_eq_admitted]
  exact hnone

/-- No edits make a query smaller or cheaper. Whatever a gate of valid settings reports of the query
it reports after them too, with the same threshold and with no less observed, so that a query which
was rejected stays rejected. -/
theorem check_edit_of_reachable {s : Settings} (hvalid : s.validate = .ok ()) {q : Query}
    (hq : q.Reachable) {edits : List Edit} (hedits : q.Permits q.places edits)
    (hsmall : (q.edit edits).fieldCount < UInt32.size) :
    ∃ g, ofSettings s = .ok g ∧
      let a := g.analyse q
      let b := g.analyse (q.edit edits)
      (a.shape.depth ≤ b.shape.depth ∧ a.shape.fields ≤ b.shape.fields ∧
        a.shape.rootFields ≤ b.shape.rootFields ∧ a.shape.aliases ≤ b.shape.aliases ∧
        a.shape.sensitiveFields ≤ b.shape.sensitiveFields ∧ a.cost ≤ b.cost) ∧
      b.shape.fields < UInt32.size ∧ b.shape.depth ≤ b.shape.fields ∧
      (∀ x ∈ (g.check q).breaches, ∃ y ∈ (g.check (q.edit edits)).breaches,
        x.limit = y.limit ∧ x.threshold = y.threshold ∧ x.observed ≤ y.observed) ∧
      (g.check q ≠ .admitted → g.check (q.edit edits) ≠ .admitted) := by
  have htree := hq.isTree
  have hgrown := htree.edit Query.lt_size_of_mem_places hedits
  obtain ⟨g, hg⟩ := exists_ofSettings (Settings.validate_eq_ok.mp hvalid)
  have hmost := analyse_atMost hg htree hgrown (.edit Query.lt_size_of_mem_places hedits)
  have hfields := hgrown.fields_ofQuery g.sensitiveFields
  refine ⟨g, hg, ⟨hmost.depth, hmost.fields, hmost.rootFields, hmost.aliases,
    hmost.sensitiveFields, hmost.cost⟩, hfields.trans_lt hsmall,
    hgrown.depth_le_fields g.sensitiveFields, fun x hx => exists_breach_of_atMost hg hmost hx,
    fun hrejected hadmitted => hrejected (admitted_of_atMost hg hmost hadmitted)⟩

/-- Two fields that were read where one would be allowed, before and after two more were added, one
of them below the first field. -/
theorem check_edit_of_reachable_read :
    let s : Settings := { limits := { fields := 1 }, costs := { weights := ∅ } }
    let text := "\x7b\"selections\":" ++
      "[\x7b\"name\":\"a\"\x7d,\x7b\"name\":\"b\",\"alias\":\"x\"\x7d]\x7d"
    let edits : List Edit := [.add 1 "c" none, .setArgument 2 "k" (.nat 2), .add 3 "d" (some "y")]
    s.validate = .ok () ∧ ∃ q, Query.ofText text = .ok q ∧ q.Permits q.places edits ∧
      (q.edit edits).fieldCount = 4 ∧ ∃ g, ofSettings s = .ok g ∧
        (g.analyse q).cost ≤ (g.analyse (q.edit edits)).cost ∧
        ⟨.fields, 2, 1⟩ ∈ (g.check q).breaches ∧
        (∃ y ∈ (g.check (q.edit edits)).breaches, y.limit = .fields ∧ 2 ≤ y.observed) ∧
        g.check (q.edit edits) ≠ .admitted := by
  intro s text edits
  have hvalid : s.validate = .ok () := by rfl
  have hread : ((Query.ofText text).toOption.map fun q =>
      (decide (q.Permits q.places edits), (q.edit edits).fieldCount,
        (ofSettings s).toOption.map fun g => (g.check q).breaches)) =
      some (true, 4, some [⟨.fields, 2, 1⟩]) := by decide +kernel
  cases hq : Query.ofText text with
  | error e =>
      rw [hq] at hread
      cases hread
  | ok q =>
      rw [hq] at hread
      obtain ⟨hpermitted, hcounted⟩ := Prod.mk.inj (Option.some.inj hread)
      obtain ⟨hcount, hbreaches⟩ := Prod.mk.inj hcounted
      have hedits : q.Permits q.places edits := of_decide_eq_true hpermitted
      have hsmall : (q.edit edits).fieldCount < UInt32.size := by
        rw [hcount]
        decide
      obtain ⟨g, hg, hmost, -, -, hreported, hrejected⟩ :=
        check_edit_of_reachable hvalid (.text hq) hedits hsmall
      have hfound : ⟨.fields, 2, 1⟩ ∈ (g.check q).breaches := by
        rw [hg] at hbreaches
        have hall : (g.check q).breaches = [⟨.fields, 2, 1⟩] := Option.some.inj hbreaches
        rw [hall]
        exact List.mem_singleton.mpr rfl
      obtain ⟨y, hy, hlimit, -, hobserved⟩ := hreported _ hfound
      have hstays : g.check (q.edit edits) ≠ .admitted := by
        apply hrejected
        intro hadmitted
        rw [hadmitted] at hfound
        cases hfound
      exact ⟨hvalid, q, rfl, hedits, hcount, g, hg, hmost.2.2.2.2.2, hfound,
        ⟨y, hy, hlimit.symm, hobserved⟩, hstays⟩

end Gate

end QueryAdmission

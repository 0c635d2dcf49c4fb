import QueryAdmission.Gate
import QueryAdmission.Proofs.Pricing
import QueryAdmission.Settings.Load

/-! # What a gate reports

A gate compares six measurements with their thresholds, and reports those that are greater, whatever
else it reports. A query with nothing to report is run once, any other is not run. -/

namespace QueryAdmission

/-! ## Breaches -/

namespace LimitSettings

/-- What is compared, in reporting order: whether the limit is enforced, and the breach that there
is if more was observed than the threshold. -/
def comparisons (s : LimitSettings) (a : Analysis) : List (Bool × Breach) :=
  [(s.enforceDepth, ⟨.depth, a.shape.depth, s.depth.toNat⟩),
    (s.enforceWidth, ⟨.fields, a.shape.fields, s.fields.toNat⟩),
    (s.enforceWidth, ⟨.rootFields, a.shape.rootFields, s.rootFields.toNat⟩),
    (s.enforceWidth, ⟨.aliases, a.shape.aliases, s.aliases.toNat⟩),
    (s.enforceSensitiveFields,
      ⟨.sensitiveFields, a.shape.sensitiveFields, s.sensitiveFields.toNat⟩),
    (s.enforceCost, ⟨.cost, a.cost, s.cost.toNat⟩)]

/-- The breaches of the limits that are enforced. -/
def breached (s : LimitSettings) (a : Analysis) : List Breach :=
  ((s.comparisons a).filter fun (enforced, b) =>
    enforced && decide (b.threshold < b.observed)).map (·.2)

variable {s : LimitSettings} {a : Analysis}

theorem mem_breached {b : Breach} :
    b ∈ s.breached a ↔ (true, b) ∈ s.comparisons a ∧ b.threshold < b.observed := by
  simp [breached]

/-- Every limit of queries is breached at most once, in a fixed order, and that of clients never. -/
theorem limits_breached_sublist (s : LimitSettings) (a : Analysis) :
    ((s.breached a).map Breach.limit).Sublist
      [.depth, .fields, .rootFields, .aliases, .sensitiveFields, .cost] := by
  rw [breached, List.map_map]
  exact List.filter_sublist.map _

theorem limit_ne_rate_of_mem_breached {b : Breach} (h : b ∈ s.breached a) : b.limit ≠ .rate := by
  intro hrate
  have hin := (limits_breached_sublist s a).subset (List.mem_map_of_mem h)
  rw [hrate] at hin
  simp at hin

theorem filter_comparisons_eq_flatMap (l : List (Bool × Breach)) :
    (l.filter fun (enforced, b) => enforced && decide (b.threshold < b.observed)).map (·.2) =
      l.flatMap fun (enforced, b) =>
        if enforced then (Breach.over? b.limit b.observed b.threshold).toList else [] := by
  induction l with
  | nil => rfl
  | cons c l ih =>
      obtain ⟨enforced, b⟩ := c
      rw [List.flatMap_cons, ← ih]
      cases enforced with
      | false => rfl
      | true => by_cases hb : b.threshold < b.observed <;> simp [Breach.over?, hb]

theorem flatMap_breaches_ite (enforced : Bool) (rule : Rule) (a : Analysis) :
    ((if enforced then [rule] else []).flatMap fun r => r.breaches a) =
      if enforced then rule.breaches a else [] := by
  cases enforced with
  | false => rfl
  | true => exact List.flatMap_singleton _ _

/-- The rules that are enforced find the breaches that there are. -/
theorem flatMap_rules (s : LimitSettings) (a : Analysis) :
    (s.rules.flatMap fun r => r.breaches a) = s.breached a := by
  rw [breached, filter_comparisons_eq_flatMap]
  simp only [rules, List.flatMap_append, flatMap_breaches_ite, comparisons, List.flatMap_cons,
    List.flatMap_nil, List.append_nil, List.append_assoc]
  cases s.enforceWidth with
  | false => rfl
  | true => simp only [depthRule, widthRule, sensitiveRule, costRule, if_true, List.append_assoc]

end LimitSettings

namespace Verdict

theorem breaches_ofBreaches (bs : List Breach) : (ofBreaches bs).breaches = bs := by
  cases bs <;> rfl

theorem ofBreaches_eq_admitted {bs : List Breach} : ofBreaches bs = .admitted ↔ bs = [] := by
  cases bs <;> simp [ofBreaches]

theorem ofBreaches_eq_rejected {bs found : List Breach} :
    ofBreaches bs = .rejected found ↔ found = bs ∧ bs ≠ [] := by
  cases bs <;> simp [ofBreaches, eq_comm]

end Verdict

/-! ## Gates of settings -/

theorem Settings.validate_eq_ok {s : Settings} : s.validate = .ok () ↔ s.issues = [] := by
  rw [validate, ← List.isEmpty_iff]
  split <;> simp_all

/-- Settings without issues have prices. -/
theorem Pricing.exists_ofSettings {s : Settings} (h : s.issues = []) :
    ∃ pricing, Pricing.ofSettings s.costs = .ok pricing := by
  simp only [Settings.issues, List.append_eq_nil_iff] at h
  obtain ⟨⟨⟨-, hdefault⟩, hweights⟩, -⟩ := h
  have hne : s.costs.defaultWeight ≠ 0 := fun hzero => by simp [hzero] at hdefault
  exact Pricing.exists_ofSettings_iff.mpr ⟨hne, hweights⟩

namespace Gate

theorem exists_ofSettings {s : Settings} (h : s.issues = []) : ∃ g, ofSettings s = .ok g := by
  obtain ⟨pricing, hpricing⟩ := Pricing.exists_ofSettings h
  rw [ofSettings, h, hpricing]
  exact ⟨_, rfl⟩

theorem ofSettings_eq {s : Settings} {g : Gate} (h : ofSettings s = .ok g) :
    s.issues = [] ∧ ∃ pricing, Pricing.ofSettings s.costs = .ok pricing ∧
      g = ⟨s.sensitiveFields, pricing, s.limits.rules⟩ := by
  unfold ofSettings at h
  split at h
  · rename_i hempty
    refine ⟨List.isEmpty_iff.mp hempty, ?_⟩
    split at h
    · cases h
    · rename_i pricing hpricing
      cases h
      exact ⟨pricing, hpricing, rfl⟩
  · cases h

/-- A gate reports the breaches of the limits in its settings. -/
theorem judge_eq {s : Settings} {g : Gate} (h : ofSettings s = .ok g) (a : Analysis) :
    g.judge a = .ofBreaches (s.limits.breached a) := by
  obtain ⟨-, pricing, -, rfl⟩ := ofSettings_eq h
  exact congrArg Verdict.ofBreaches (s.limits.flatMap_rules a)

/-- What is admitted keeps every limit that is enforced. -/
theorem observed_le_of_admitted {s : Settings} {g : Gate} (h : ofSettings s = .ok g) {a : Analysis}
    (hadmitted : g.judge a = .admitted) {b : Breach} (hb : (true, b) ∈ s.limits.comparisons a) :
    b.observed ≤ b.threshold := by
  rw [judge_eq h, Verdict.ofBreaches_eq_admitted] at hadmitted
  by_contra hover
  have hbreached := LimitSettings.mem_breached.mpr ⟨hb, Nat.lt_of_not_le hover⟩
  rw [hadmitted] at hbreached
  cases hbreached

/-- Runs a query and takes it down. -/
def noting {α : Type} (f : Query → α) (q : Query) : StateM (List Query) α := do
  modify (· ++ [q])
  return f q

/-- The outcome of a query at the gate, and what has been run by then. -/
def runNoting {α : Type} (g : Gate) (q : Query) (f : Query → α) :
    Except (List Breach) α × List Query :=
  (g.runM q (noting f)).run []

theorem runNoting_eq {α : Type} (g : Gate) (q : Query) (f : Query → α) :
    g.runNoting q f =
      match g.check q with
      | .admitted => (.ok (f q), [q])
      | .rejected breaches => (.error breaches, []) := by
  rw [runNoting, runM]
  cases g.check q with
  | admitted => rfl
  | rejected breaches => rfl

theorem run_eq_runNoting {α : Type} (g : Gate) (q : Query) (f : Query → α) :
    g.run q f = (g.runNoting q f).1 := by
  rw [runNoting_eq, run, runM]
  cases g.check q with
  | admitted => rfl
  | rejected breaches => rfl

/-- Valid settings have a gate. It reports each limit at most once and in order, those and only
those that are enforced and whose measurement is greater than their threshold, and admits what it
has nothing to report of. A query is judged by its measurements; if it is admitted it is run once
and its outcome returned, else it is not run and what was reported is returned. -/
theorem judge_of_validate {s : Settings} (h : s.validate = .ok ()) :
    ∃ g, ofSettings s = .ok g ∧
      (∀ a, let reported := (g.judge a).breaches
        (reported.map Breach.limit).Sublist
          [.depth, .fields, .rootFields, .aliases, .sensitiveFields, .cost] ∧
        (∀ b, b ∈ reported ↔ (true, b) ∈ s.limits.comparisons a ∧ b.threshold < b.observed) ∧
        (g.judge a = .admitted ↔ reported = []) ∧
        ∀ found, g.judge a = .rejected found ↔ found = reported ∧ reported ≠ []) ∧
      ∀ q, g.check q = g.judge (g.analyse q) ∧
        ∀ {α : Type} (f : Query → α),
          (g.check q = .admitted ↔ g.runNoting q f = (.ok (f q), [q])) ∧
          (∀ found, g.check q = .rejected found ↔ g.runNoting q f = (.error found, [])) ∧
          g.run q f = (g.runNoting q f).1 := by
  obtain ⟨g, hg⟩ := exists_ofSettings (Settings.validate_eq_ok.mp h)
  refine ⟨g, hg, fun a => ?_, fun q => ⟨rfl, fun f => ?_⟩⟩
  · dsimp only
    rw [judge_eq hg, Verdict.breaches_ofBreaches]
    exact ⟨s.limits.limits_breached_sublist a, fun b => LimitSettings.mem_breached,
      Verdict.ofBreaches_eq_admitted, fun found => Verdict.ofBreaches_eq_rejected⟩
  · rw [run_eq_runNoting, runNoting_eq]
    cases g.check q with
    | admitted => simp
    | rejected breaches => simp

/-- A deep and wide query where width does not matter, and one that may run. -/
theorem judge_of_validate_wide :
    let s : Settings := { limits := { enforceWidth := false }, costs := { weights := ∅ } }
    let a : Analysis := ⟨⟨6, 1000, 1000, 1000, 2⟩, 50⟩
    s.validate = .ok () ∧ ∃ g, ofSettings s = .ok g ∧
      ⟨.depth, 6, 5⟩ ∈ (g.judge a).breaches ∧ ⟨.fields, 1000, 50⟩ ∉ (g.judge a).breaches ∧
      g.judge a ≠ .admitted ∧ g.runNoting .empty Query.fieldCount = (.ok 0, [.empty]) := by
  intro s a
  have hvalid : s.validate = .ok () := rfl
  obtain ⟨g, hg, hjudge, hcheck⟩ := judge_of_validate hvalid
  obtain ⟨-, hreported, hadmitted, -⟩ := hjudge a
  have hdepth : ⟨.depth, 6, 5⟩ ∈ (g.judge a).breaches :=
    (hreported _).mpr ⟨by decide, by decide⟩
  have hfields : ⟨.fields, 1000, 50⟩ ∉ (g.judge a).breaches :=
    fun hin => absurd ((hreported _).mp hin).1 (by decide)
  have hempty : g.check .empty = .admitted := by
    cases hg
    rfl
  exact ⟨hvalid, g, hg, hdepth, hfields, fun h => List.ne_nil_of_mem hdepth (hadmitted.mp h),
    ((hcheck .empty).2 Query.fieldCount).1.mp hempty⟩

end Gate

end QueryAdmission

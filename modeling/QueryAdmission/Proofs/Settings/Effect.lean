import Mathlib.Data.List.TakeWhile
import QueryAdmission.Proofs.Settings.Override
import QueryAdmission.Proofs.Text.Numeral

/-! # What is left of settings after variables

A variable gives the value of one setting. Those before the first bad one are applied, and nothing
else is. What they give does not depend on the settings, so applying them twice is applying them
once. -/

namespace QueryAdmission

namespace Variable

/-- The setting that a variable can give: a text or a number. -/
def setting (v : Variable) (s : Settings) : String ⊕ Nat :=
  match v with
  | .bindAddress => .inl s.bindAddress
  | .rateLimit => .inr s.rate.limit.toNat
  | .windowSecs => .inr s.rate.windowSecs.toNat
  | .depth => .inr s.limits.depth.toNat
  | .cost => .inr s.limits.cost.toNat

/-- `v.Gives value x` says that the variable, set to the text `value`, gives `x`. -/
inductive Gives : Variable → String → String ⊕ Nat → Prop where
  | text (value : String) : Gives .bindAddress value (.inl value)
  | number {v : Variable} {bound n : Nat} {value : String} : v.bound? = some bound →
      Text.Denotes value n → n < bound → Gives v value (.inr n)

/-- The variables that are applied before one of them. -/
def earlier (v : Variable) : List Variable := all.takeWhile (· ≠ v)

theorem Gives.unique {v : Variable} {value : String} {x y : String ⊕ Nat} (hx : v.Gives value x)
    (hy : v.Gives value y) : x = y := by
  cases hx with
  | text value => cases hy with
    | text => rfl
    | number hbound _ _ => cases hbound
  | number hbound hn _ => cases hy with
    | text => cases hbound
    | number _ hm _ => rw [hn.unique hm]

theorem nodup_all : all.Nodup := by decide

theorem mem_all (v : Variable) : v ∈ all := by
  cases v <;> decide

theorem earlier_eq {v : Variable} {front back : List Variable} (h : all = front ++ v :: back) :
    v.earlier = front := by
  have hnot : ∀ w ∈ front, decide (w ≠ v) = true := by
    intro w hin
    rw [decide_eq_true_eq]
    rintro rfl
    have hnodup := h ▸ nodup_all
    exact (List.nodup_append.mp hnodup).2.2 w hin w List.mem_cons_self rfl
  rw [earlier, h, List.takeWhile_append_of_pos hnot, List.takeWhile_cons_of_neg (by simp),
    List.append_nil]

end Variable

namespace Settings

/-- The settings that no variable gives are the same. -/
def SameElse (s t : Settings) : Prop :=
  t = { s with
    bindAddress := t.bindAddress
    rate := { s.rate with limit := t.rate.limit, windowSecs := t.rate.windowSecs }
    limits := { s.limits with depth := t.limits.depth, cost := t.limits.cost } }

variable {s t u : Settings}

theorem SameElse.refl (s : Settings) : s.SameElse s := rfl

theorem SameElse.trans (h : s.SameElse t) (h' : t.SameElse u) : s.SameElse u := by
  rw [SameElse] at h h' ⊢
  rw [h', h]

theorem SameElse.eq (h : s.SameElse t) (hsettings : ∀ v, Variable.setting v t = v.setting s) :
    t = s := by
  have haddress := Sum.inl.inj (hsettings .bindAddress)
  have hlimit := UInt32.toNat_inj.mp (Sum.inr.inj (hsettings .rateLimit))
  have hwindow := UInt64.toNat_inj.mp (Sum.inr.inj (hsettings .windowSecs))
  have hdepth := UInt64.toNat_inj.mp (Sum.inr.inj (hsettings .depth))
  have hcost := UInt64.toNat_inj.mp (Sum.inr.inj (hsettings .cost))
  rw [SameElse, haddress, hlimit, hwindow, hdepth, hcost] at h
  exact h

end Settings

/-! ## One variable -/

namespace Variable

variable {lookup : String → Option String} {v : Variable} {value : String} {s t : Settings}

/-- A variable sets the setting that it gives, and no other. -/
theorem set?_spec (h : v.set? value s = some t) :
    v.Gives value (v.setting t) ∧ (∀ w ≠ v, w.setting t = w.setting s) ∧ s.SameElse t := by
  cases v with
  | bindAddress =>
      cases h
      exact ⟨.text value, fun w hw => by cases w <;> first | rfl | exact absurd rfl hw, rfl⟩
  | rateLimit =>
      obtain ⟨n, hn, rfl⟩ := Option.map_eq_some_iff.mp h
      obtain ⟨hdenotes, hlt⟩ := Text.numeralBelow?_eq_some_iff.mp hn
      refine ⟨?_, fun w hw => by cases w <;> first | rfl | exact absurd rfl hw, rfl⟩
      rw [setting, UInt32.toNat_ofNat_of_lt' hlt]
      exact .number rfl hdenotes hlt
  | windowSecs | depth | cost =>
      obtain ⟨n, hn, rfl⟩ := Option.map_eq_some_iff.mp h
      obtain ⟨hdenotes, hlt⟩ := Text.numeralBelow?_eq_some_iff.mp hn
      refine ⟨?_, fun w hw => by cases w <;> first | rfl | exact absurd rfl hw, rfl⟩
      rw [setting, UInt64.toNat_ofNat_of_lt' hlt]
      exact .number rfl hdenotes hlt

theorem set?_eq_none_iff : v.set? value s = none ↔ ¬ ∃ x, v.Gives value x := by
  constructor
  · intro hnone
    obtain ⟨bound, hbound, hvalue⟩ := set?_eq_none.mp hnone
    rintro ⟨x, hx⟩
    cases hx with
    | text => cases hbound
    | number hbound' hdenotes hlt =>
        cases hbound.symm.trans hbound'
        cases hvalue.symm.trans (Text.numeralBelow?_eq_some_iff.mpr ⟨hdenotes, hlt⟩)
  · intro hnot
    rw [Option.eq_none_iff_forall_ne_some]
    intro t ht
    exact hnot ⟨_, (set?_spec ht).1⟩

/-- A bad variable is set to a text that gives nothing. -/
theorem isBad_iff : IsBad lookup v value ↔
    lookup v.name = some value ∧ ¬ ∃ x, v.Gives value x :=
  and_congr_right' ((set?_eq_none (s := {})).symm.trans set?_eq_none_iff)

theorem not_isBad_iff : ¬ IsBad lookup v value ↔
    (lookup v.name = some value → ∃ x, v.Gives value x) := by
  rw [isBad_iff, not_and_not_right]

theorem put_of_none (h : lookup v.name = none) : put lookup s v = s := by
  rw [put, h]
  rfl

theorem put_spec (h : lookup v.name = some value) (hgood : ¬ IsBad lookup v value) :
    v.Gives value (v.setting (put lookup s v)) ∧
      (∀ w ≠ v, w.setting (put lookup s v) = w.setting s) ∧ s.SameElse (put lookup s v) := by
  rw [put, h, Option.bind_some]
  cases hset : v.set? value s with
  | none => exact absurd ⟨h, set?_eq_none.mp hset⟩ hgood
  | some t => exact set?_spec hset

end Variable

/-! ## Several variables -/

open Variable (IsBad put)

namespace Settings

variable {lookup : String → Option String} {vs : List Variable} {s t u : Settings}

/-- The settings after variables: what those that are set give, and what was there. -/
structure Takes (lookup : String → Option String) (vs : List Variable) (s t : Settings) :
    Prop where
  given : ∀ v ∈ vs, ∀ value, lookup v.name = some value → v.Gives value (v.setting t)
  kept : ∀ v, (v ∈ vs → lookup v.name = none) → v.setting t = v.setting s
  same : s.SameElse t

theorem takes_foldl_put (hgood : ∀ v ∈ vs, ∀ value, ¬ IsBad lookup v value) (s : Settings) :
    Takes lookup vs s (vs.foldl (put lookup) s) := by
  induction vs generalizing s with
  | nil => exact ⟨by simp, fun _ _ => rfl, .refl s⟩
  | cons v vs ih =>
      obtain ⟨hv, hvs⟩ := List.forall_mem_cons.mp hgood
      have hrest := ih hvs (put lookup s v)
      rw [List.foldl_cons]
      cases hlookup : lookup v.name with
      | none =>
          rw [Variable.put_of_none hlookup] at hrest ⊢
          refine ⟨fun w hw value hvalue => ?_, fun w hw => ?_, hrest.same⟩
          · rcases List.mem_cons.mp hw with rfl | hw
            · cases hlookup.symm.trans hvalue
            · exact hrest.given w hw value hvalue
          · exact hrest.kept w fun hin => hw (List.mem_cons_of_mem v hin)
      | some value =>
          obtain ⟨hgives, hother, hsame⟩ := Variable.put_spec (s := s) hlookup (hv value)
          refine ⟨fun w hw value' hvalue => ?_, fun w hw => ?_, hsame.trans hrest.same⟩
          · -- A variable counts where it is applied last.
            by_cases hin : w ∈ vs
            · exact hrest.given w hin value' hvalue
            · obtain rfl : w = v := (List.mem_cons.mp hw).resolve_right hin
              cases hlookup.symm.trans hvalue
              rw [hrest.kept w fun hw => absurd hw hin]
              exact hgives
          · have hne : w ≠ v := by
              rintro rfl
              cases hlookup.symm.trans (hw List.mem_cons_self)
            rw [hrest.kept w fun hin => hw (List.mem_cons_of_mem v hin), hother w hne]

/-- What variables give is given once. -/
theorem Takes.eq (h : Takes lookup vs s t) (h' : Takes lookup vs t u) : u = t := by
  apply h'.same.eq
  intro v
  by_cases hin : v ∈ vs
  · cases hlookup : lookup v.name with
    | none => exact h'.kept v fun _ => hlookup
    | some value => exact (h'.given v hin value hlookup).unique (h.given v hin value hlookup)
  · exact h'.kept v fun hv => absurd hv hin

/-- A bad variable is reported if and only if it is the first one. -/
theorem override_eq_some_iff {bad : BadVariable} :
    (s.override lookup).2 = some bad ↔ FirstBad lookup Variable.all bad := by
  constructor
  · intro hbad
    by_cases hany : ∃ v ∈ Variable.all, ∃ value, IsBad lookup v value
    · obtain ⟨first, hfirst⟩ := exists_firstBad hany
      obtain ⟨t, ht⟩ := applyAll_of_firstBad (s := s) hfirst
      rw [override, ht] at hbad
      rwa [← Option.some.inj hbad]
    · have hgood : ∀ v ∈ Variable.all, ∀ value, ¬ IsBad lookup v value := fun v hv value h =>
        hany ⟨v, hv, value, h⟩
      rw [override, applyAll_of_forall_not_isBad hgood] at hbad
      cases hbad
  · intro hfirst
    obtain ⟨t, ht⟩ := applyAll_of_firstBad (s := s) hfirst
    rw [override, ht]

theorem override_eq_none_iff :
    (s.override lookup).2 = none ↔ ∀ v value, ¬ IsBad lookup v value := by
  rw [Option.eq_none_iff_forall_ne_some]
  constructor
  · intro hnone v value hbad
    obtain ⟨first, hfirst⟩ := exists_firstBad ⟨v, v.mem_all, value, hbad⟩
    exact hnone first (override_eq_some_iff.mpr hfirst)
  · intro hgood bad hbad
    obtain ⟨-, -, -, hbad, -⟩ := override_eq_some_iff.mp hbad
    exact hgood _ _ hbad

theorem firstBad_iff {bad : BadVariable} : FirstBad lookup Variable.all bad ↔
    IsBad lookup bad.setting bad.value ∧
      ∀ v ∈ bad.setting.earlier, ∀ value, ¬ IsBad lookup v value := by
  constructor
  · rintro ⟨front, back, hsplit, hbad, hgood⟩
    exact ⟨hbad, Variable.earlier_eq hsplit ▸ hgood⟩
  · rintro ⟨hbad, hgood⟩
    obtain ⟨front, back, hsplit⟩ := List.append_of_mem bad.setting.mem_all
    exact ⟨front, back, hsplit, hbad, Variable.earlier_eq hsplit ▸ hgood⟩

/-- Whatever the settings are, the same variables are applied: those that come before any bad one
that is reported. -/
theorem exists_takes (lookup : String → Option String) :
    ∃ vs, (∀ s : Settings, Takes lookup vs s (s.override lookup).1) ∧
      ∀ v, v ∈ vs ↔ ∀ bad, FirstBad lookup Variable.all bad → v ∈ bad.setting.earlier := by
  by_cases hany : ∃ v ∈ Variable.all, ∃ value, IsBad lookup v value
  · obtain ⟨bad, hfirst⟩ := exists_firstBad hany
    obtain ⟨front, back, hsplit, hbad, hgood⟩ := id hfirst
    have hearlier := Variable.earlier_eq hsplit
    refine ⟨front, fun s => ?_, fun v => ?_⟩
    · have happlied : (s.override lookup).1 = front.foldl (put lookup) s := by
        rw [override, hsplit, applyAll_append hgood, applyAll, hbad.1]
        dsimp only
        rw [Variable.set?_eq_none.mpr hbad.2]
      rw [happlied]
      exact takes_foldl_put hgood s
    · constructor
      · intro hv other hother
        rwa [← hfirst.unique hother, hearlier]
      · exact fun hv => hearlier ▸ hv bad hfirst
  · have hgood : ∀ v ∈ Variable.all, ∀ value, ¬ IsBad lookup v value := fun v hv value h =>
      hany ⟨v, hv, value, h⟩
    refine ⟨Variable.all, fun s => ?_, fun v => ?_⟩
    · rw [override, applyAll_of_forall_not_isBad hgood]
      exact takes_foldl_put hgood s
    · refine iff_of_true v.mem_all fun bad hfirst => ?_
      exact absurd (firstBad_iff.mp hfirst).1 (hgood _ bad.setting.mem_all _)

end Settings

/-- Variables are applied in one order, and those that are set have to give something: a text, or a
number in a range of its own. If one does not, the first such is reported with its text as it is,
and those before it are applied. Settings change where a variable was applied, to what it gives, and
nowhere else; applying the same variables to them again changes nothing and ends the same way. -/
theorem Settings.override_takesEarlier (s : Settings) (lookup : String → Option String) :
    let after := (s.override lookup).1
    let bad? := (s.override lookup).2
    Variable.all.map Variable.name =
      ["BIND_ADDR", "RATE_LIMIT", "RATE_WINDOW_SECS", "MAX_DEPTH", "MAX_COMPLEXITY"] ∧
    (bad? = none ↔ ∀ (v : Variable) value, lookup v.name = some value → ∃ x, v.Gives value x) ∧
    (∀ bad, bad? = some bad ↔
      lookup bad.setting.name = some bad.value ∧ (¬ ∃ x, bad.setting.Gives bad.value x) ∧
      ∀ v ∈ bad.setting.earlier, ∀ value, lookup v.name = some value → ∃ x, v.Gives value x) ∧
    (∀ v, (∀ bad, bad? = some bad → v ∈ bad.setting.earlier) →
      (lookup v.name = none → v.setting after = v.setting s) ∧
      ∀ value, lookup v.name = some value → v.Gives value (v.setting after)) ∧
    (∀ v bad, bad? = some bad → v ∉ bad.setting.earlier → v.setting after = v.setting s) ∧
    s.SameElse after ∧
    after.override lookup = (after, bad?) := by
  obtain ⟨vs, htakes, hmem⟩ := exists_takes lookup
  have hagain := (htakes s).eq (htakes (s.override lookup).1)
  have hsame : ((s.override lookup).1.override lookup).2 = (s.override lookup).2 :=
    Option.ext fun bad => override_eq_some_iff.trans override_eq_some_iff.symm
  refine ⟨rfl, ?_, fun bad => ?_, fun v hv => ?_, fun v bad hbad hv => ?_, (htakes s).same,
    Prod.ext hagain hsame⟩
  · simp only [override_eq_none_iff, Variable.not_isBad_iff]
  · rw [override_eq_some_iff, firstBad_iff, Variable.isBad_iff, and_assoc]
    simp only [Variable.not_isBad_iff]
  · have hin := (hmem v).mpr fun bad hfirst => hv bad (override_eq_some_iff.mpr hfirst)
    exact ⟨fun hnone => (htakes s).kept v fun _ => hnone, (htakes s).given v hin⟩
  · refine (htakes s).kept v fun hin => absurd ?_ hv
    exact (hmem v).mp hin bad (override_eq_some_iff.mp hbad)

example :
    let lookup (name : String) : Option String :=
      if name = "RATE_LIMIT" then some "\t+007 " else if name = "MAX_DEPTH" then some "-1"
      else if name = "MAX_COMPLEXITY" then some "9" else none
    Settings.override { costs := { weights := ∅ } } lookup =
      ({ rate := { limit := 7 }, costs := { weights := ∅ } }, some ⟨.depth, "-1"⟩) := by
  decide +kernel

end QueryAdmission

import Mathlib.Data.List.Basic
import QueryAdmission.Settings.Override

/-! # What variables do to settings

Each variable that is set gives one setting, or is bad. Variables are applied in order and change
nothing but the settings that they give; a bad one ends this, and those before it stay applied. -/

namespace QueryAdmission

namespace Variable

/-- The bound of the numbers that a variable can give. One of the variables gives a text. -/
def bound? : Variable → Option Nat
  | .bindAddress => none
  | .rateLimit => some UInt32.size
  | .windowSecs => some UInt64.size
  | .depth => some UInt64.size
  | .cost => some UInt64.size

/-- The variable is set to a text that is none of the numbers that it can give. -/
def IsBad (lookup : String → Option String) (v : Variable) (value : String) : Prop :=
  lookup v.name = some value ∧ ∃ bound, v.bound? = some bound ∧ Text.numeralBelow? bound value = none

/-- The settings with the one that a variable gives, if it gives any. -/
def put (lookup : String → Option String) (s : Settings) (v : Variable) : Settings :=
  ((lookup v.name).bind fun value => v.set? value s).getD s

variable {lookup : String → Option String} {s : Settings} {v : Variable} {value : String}

theorem set?_eq_none :
    v.set? value s = none ↔
      ∃ bound, v.bound? = some bound ∧ Text.numeralBelow? bound value = none := by
  cases v <;> simp [set?, bound?]

end Variable

open Variable (IsBad put)

/-- A variable is bad, and all that come before it in the list are not. -/
def FirstBad (lookup : String → Option String) (vs : List Variable) (bad : BadVariable) : Prop :=
  ∃ front back, vs = front ++ bad.setting :: back ∧ IsBad lookup bad.setting bad.value ∧
    ∀ v ∈ front, ∀ value, ¬ IsBad lookup v value

namespace Settings

variable {lookup : String → Option String} {s : Settings} {vs front back : List Variable}

theorem applyAll_append (hgood : ∀ v ∈ front, ∀ value, ¬ IsBad lookup v value) :
    s.applyAll lookup (front ++ back) = (front.foldl (put lookup) s).applyAll lookup back := by
  induction front generalizing s with
  | nil => rfl
  | cons v front ih =>
      obtain ⟨hv, hfront⟩ := List.forall_mem_cons.mp hgood
      rw [List.cons_append, applyAll, List.foldl_cons, put]
      cases hlookup : lookup v.name with
      | none => exact ih hfront
      | some value =>
          dsimp only [Option.bind_some]
          cases hset : v.set? value s with
          | none => exact absurd ⟨hlookup, Variable.set?_eq_none.mp hset⟩ (hv value)
          | some s' => exact ih hfront

theorem applyAll_of_forall_not_isBad (hgood : ∀ v ∈ vs, ∀ value, ¬ IsBad lookup v value) :
    s.applyAll lookup vs = (vs.foldl (put lookup) s, none) := by
  have happend : s.applyAll lookup (vs ++ []) = (vs.foldl (put lookup) s).applyAll lookup [] :=
    applyAll_append hgood
  rwa [List.append_nil] at happend

theorem applyAll_of_firstBad {bad : BadVariable} (h : FirstBad lookup vs bad) :
    ∃ s', s.applyAll lookup vs = (s', some bad) := by
  obtain ⟨front, back, rfl, ⟨hlookup, hbad⟩, hgood⟩ := h
  rw [applyAll_append hgood, applyAll, hlookup]
  dsimp only
  rw [Variable.set?_eq_none.mpr hbad]
  exact ⟨_, rfl⟩

theorem exists_firstBad (h : ∃ v ∈ vs, ∃ value, IsBad lookup v value) :
    ∃ bad, FirstBad lookup vs bad := by
  induction vs with
  | nil => simp at h
  | cons v vs ih =>
      by_cases hv : ∃ value, IsBad lookup v value
      · obtain ⟨value, hvalue⟩ := hv
        exact ⟨⟨v, value⟩, [], vs, rfl, hvalue, by simp⟩
      · obtain ⟨w, hw, hvalue⟩ := h
        have hrest : w ∈ vs := (List.mem_cons.mp hw).resolve_left fun heq => hv (heq ▸ hvalue)
        obtain ⟨bad, front, back, rfl, hbad, hgood⟩ := ih ⟨w, hrest, hvalue⟩
        refine ⟨bad, v :: front, back, rfl, hbad, List.forall_mem_cons.mpr ⟨?_, hgood⟩⟩
        exact not_exists.mp hv

/-- The number below a bound that a variable gives. -/
def given? (lookup : String → Option String) (name : String) (bound : Nat) : Option Nat :=
  (lookup name).bind (Text.numeralBelow? bound)

/-- The settings with what all variables give. A setting that none of them gives stays as it is. -/
def overridden (s : Settings) (lookup : String → Option String) : Settings :=
  { s with
    bindAddress := (lookup "BIND_ADDR").getD s.bindAddress
    rate := { s.rate with
      limit := (given? lookup "RATE_LIMIT" UInt32.size).elim s.rate.limit .ofNat
      windowSecs := (given? lookup "RATE_WINDOW_SECS" UInt64.size).elim s.rate.windowSecs .ofNat }
    limits := { s.limits with
      depth := (given? lookup "MAX_DEPTH" UInt64.size).elim s.limits.depth .ofNat
      cost := (given? lookup "MAX_COMPLEXITY" UInt64.size).elim s.limits.cost .ofNat } }

end Settings

/-- There is at most one first bad variable. It is where applying the variables ends, whatever
settings they are applied to. -/
theorem FirstBad.unique {lookup : String → Option String} {vs : List Variable}
    {bad bad' : BadVariable} (h : FirstBad lookup vs bad) (h' : FirstBad lookup vs bad') :
    bad = bad' := by
  obtain ⟨s, hs⟩ := Settings.applyAll_of_firstBad (s := {}) h
  obtain ⟨s', hs'⟩ := Settings.applyAll_of_firstBad (s := {}) h'
  exact Option.some.inj (Prod.ext_iff.mp (hs.symm.trans hs')).2

end QueryAdmission

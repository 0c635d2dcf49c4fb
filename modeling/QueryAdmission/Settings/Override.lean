import QueryAdmission.Settings.Basic
import QueryAdmission.Text.Numeral

/-! Single settings taken from variables. -/

namespace QueryAdmission

/-- The variables, in the order in which they are applied. -/
inductive Variable where
  | bindAddress
  | rateLimit
  | windowSecs
  | depth
  | cost
  deriving DecidableEq, Repr

namespace Variable

def all : List Variable := [.bindAddress, .rateLimit, .windowSecs, .depth, .cost]

def name : Variable → String
  | .bindAddress => "BIND_ADDR"
  | .rateLimit => "RATE_LIMIT"
  | .windowSecs => "RATE_WINDOW_SECS"
  | .depth => "MAX_DEPTH"
  | .cost => "MAX_COMPLEXITY"

/-- The settings with the one that a variable names set to the variable's value. -/
def set? (v : Variable) (value : String) (s : Settings) : Option Settings :=
  match v with
  | .bindAddress => some { s with bindAddress := value }
  | .rateLimit => (Text.numeralBelow? UInt32.size value).map fun n =>
      { s with rate := { s.rate with limit := .ofNat n } }
  | .windowSecs => (Text.numeralBelow? UInt64.size value).map fun n =>
      { s with rate := { s.rate with windowSecs := .ofNat n } }
  | .depth => (Text.numeralBelow? UInt64.size value).map fun n =>
      { s with limits := { s.limits with depth := .ofNat n } }
  | .cost => (Text.numeralBelow? UInt64.size value).map fun n =>
      { s with limits := { s.limits with cost := .ofNat n } }

end Variable

/-- A variable whose value is no setting. -/
structure BadVariable where
  setting : Variable
  value : String
  deriving DecidableEq, Repr

/-- Applies variables in order up to the first bad one. -/
def Settings.applyAll (lookup : String → Option String) :
    List Variable → Settings → Settings × Option BadVariable
  | [], s => (s, none)
  | v :: rest, s =>
    match lookup v.name with
    | none => s.applyAll lookup rest
    | some value =>
      match v.set? value s with
      | none => (s, some ⟨v, value⟩)
      | some s => s.applyAll lookup rest

/-- Settings after the variables that are set. Those before a bad one stay applied. -/
def Settings.override (s : Settings) (lookup : String → Option String) :
    Settings × Option BadVariable :=
  s.applyAll lookup Variable.all

end QueryAdmission

import QueryAdmission.Settings.Basic
import QueryAdmission.Text.Blank

/-! What can be wrong with settings that are readable. -/

namespace QueryAdmission

/-- The settings that must not be zero, in the order in which they are reported. -/
inductive Threshold where
  | depth
  | fields
  | rootFields
  | aliases
  | sensitiveFields
  | cost
  | rateLimit
  | window
  | sweep
  deriving DecidableEq, Repr

namespace Threshold

def all : List Threshold :=
  [.depth, .fields, .rootFields, .aliases, .sensitiveFields, .cost, .rateLimit, .window, .sweep]

def name : Threshold → String
  | .depth => "max_depth"
  | .fields => "max_total_fields"
  | .rootFields => "max_root_fields"
  | .aliases => "max_aliases"
  | .sensitiveFields => "max_sensitive_fields"
  | .cost => "max_complexity"
  | .rateLimit => "rate_limit.limit"
  | .window => "rate_limit.window_secs"
  | .sweep => "rate_limit.cleanup_interval_secs"

def value (s : Settings) : Threshold → Nat
  | .depth => s.limits.depth.toNat
  | .fields => s.limits.fields.toNat
  | .rootFields => s.limits.rootFields.toNat
  | .aliases => s.limits.aliases.toNat
  | .sensitiveFields => s.limits.sensitiveFields.toNat
  | .cost => s.limits.cost.toNat
  | .rateLimit => s.rate.limit.toNat
  | .window => s.rate.windowSecs.toNat
  | .sweep => s.rate.sweepSecs.toNat

end Threshold

inductive Issue where
  | zeroThreshold (threshold : Threshold)
  | zeroDefaultWeight
  | badWeight (field : String) (weight : Int64)
  | blankSensitiveField
  deriving DecidableEq, Repr

def Issue.message : Issue → String
  | .zeroThreshold t => "threshold `" ++ t.name ++ "` must be greater than zero"
  | .zeroDefaultWeight => "default field weight must be greater than zero"
  | .badWeight field weight =>
    "complexity weight for field `" ++ field ++ "` must be greater than zero, got "
      ++ toString weight.toInt
  | .blankSensitiveField => "sensitive field names must not be empty"

/-- The weights that are not positive, in ascending order of the names. -/
def CostSettings.badWeights (s : CostSettings) : List Issue :=
  s.weights.toList.filterMap fun (name, w) =>
    if 0 < w.toInt then none else some (.badWeight name w)

/-- All that is wrong with settings. -/
def Settings.issues (s : Settings) : List Issue :=
  (Threshold.all.filter fun t => t.value s == 0).map .zeroThreshold
    ++ (if s.costs.defaultWeight = 0 then [.zeroDefaultWeight] else [])
    ++ s.costs.badWeights
    ++ (if s.sensitiveFields.any Text.isBlankText then [.blankSensitiveField] else [])

end QueryAdmission

import QueryAdmission.Json.Record
import QueryAdmission.Settings.Basic

/-! Settings as JSON. A member or a section that is not given has a value of its own. -/

namespace QueryAdmission

open Json (Reader Member Record field)

namespace RateSettings

def record : Record RateSettings where
  title := "RateLimitConfig"
  members := [
    field "limit" .word32 fun n s => { s with limit := n },
    field "window_secs" .word64 fun n s => { s with windowSecs := n },
    field "cleanup_interval_secs" .word64 fun n s => { s with sweepSecs := n }]

/-- The values of members that are not given. -/
def absent : RateSettings where
  limit := Default.rateLimit
  windowSecs := Default.windowSecs
  sweepSecs := Default.sweepSecs

def reader : Reader RateSettings := record.reader absent

def toJson (s : RateSettings) : Json :=
  .ofMembers [("limit", .nat s.limit.toNat), ("window_secs", .nat s.windowSecs.toNat),
    ("cleanup_interval_secs", .nat s.sweepSecs.toNat)]

end RateSettings

namespace LimitSettings

def record : Record LimitSettings where
  title := "LimitConfig"
  members := [
    field "max_depth" .word64 fun n s => { s with depth := n },
    field "max_total_fields" .word64 fun n s => { s with fields := n },
    field "max_root_fields" .word64 fun n s => { s with rootFields := n },
    field "max_aliases" .word64 fun n s => { s with aliases := n },
    field "max_sensitive_fields" .word64 fun n s => { s with sensitiveFields := n },
    field "max_complexity" .word64 fun n s => { s with cost := n },
    field "enforce_depth" .bool fun b s => { s with enforceDepth := b },
    field "enforce_width" .bool fun b s => { s with enforceWidth := b },
    field "enforce_sensitive_fields" .bool fun b s => { s with enforceSensitiveFields := b },
    field "enforce_complexity" .bool fun b s => { s with enforceCost := b }]

/-- The values of members that are not given. -/
def absent : LimitSettings where
  depth := Default.depth
  fields := Default.fields
  rootFields := Default.rootFields
  aliases := Default.aliases
  sensitiveFields := Default.sensitiveFieldLimit
  cost := Default.cost
  enforceDepth := Default.enabled
  enforceWidth := Default.enabled
  enforceSensitiveFields := Default.enabled
  enforceCost := Default.enabled

def reader : Reader LimitSettings := record.reader absent

def toJson (s : LimitSettings) : Json :=
  .ofMembers [("max_depth", .nat s.depth.toNat), ("max_total_fields", .nat s.fields.toNat),
    ("max_root_fields", .nat s.rootFields.toNat), ("max_aliases", .nat s.aliases.toNat),
    ("max_sensitive_fields", .nat s.sensitiveFields.toNat),
    ("max_complexity", .nat s.cost.toNat), ("enforce_depth", .bool s.enforceDepth),
    ("enforce_width", .bool s.enforceWidth),
    ("enforce_sensitive_fields", .bool s.enforceSensitiveFields),
    ("enforce_complexity", .bool s.enforceCost)]

end LimitSettings

namespace CostSettings

def record : Record CostSettings where
  title := "ComplexityConfig"
  members := [
    field "default_field_weight" .word64 fun n s => { s with defaultWeight := n },
    field "weights" (.keyedOf .signed64) fun w s => { s with weights := w }]

/-- The values of members that are not given. -/
def absent : CostSettings where
  defaultWeight := Default.weight
  weights := Default.weights

def reader : Reader CostSettings := record.reader absent

def toJson (s : CostSettings) : Json :=
  .ofMembers [("default_field_weight", .nat s.defaultWeight.toNat),
    ("weights", .object (s.weights.toList.map fun (name, w) => (name, .number (.whole w.toInt))))]

end CostSettings

namespace CounterSettings

def record : Record CounterSettings where
  title := "MetricsConfig"
  members := [
    field "enabled" .bool fun b s => { s with enabled := b },
    field "path" .text fun p s => { s with path := p }]

/-- The values of members that are not given. -/
def absent : CounterSettings where
  enabled := Default.enabled
  path := Default.counterPath

def reader : Reader CounterSettings := record.reader absent

def toJson (s : CounterSettings) : Json :=
  .ofMembers [("enabled", .bool s.enabled), ("path", .text s.path)]

end CounterSettings

namespace Settings

def record : Record Settings where
  title := "Config"
  members := [
    field "bind_addr" .text fun a s => { s with bindAddress := a },
    field "rate_limit" RateSettings.reader fun r s => { s with rate := r },
    field "limits" LimitSettings.reader fun l s => { s with limits := l },
    field "complexity" CostSettings.reader fun c s => { s with costs := c },
    field "sensitive_fields" (.listOf .text) fun l s => { s with sensitiveFields := l },
    field "metrics" CounterSettings.reader fun c s => { s with counters := c }]

/-- The values of members and sections that are not given. -/
def absent : Settings where
  bindAddress := Default.bindAddress
  rate := {}
  limits := {}
  costs := {}
  sensitiveFields := Default.sensitiveFields
  counters := {}

def reader : Reader Settings := record.reader absent

def toJson (s : Settings) : Json :=
  .ofMembers [("bind_addr", .text s.bindAddress), ("rate_limit", s.rate.toJson),
    ("limits", s.limits.toJson), ("complexity", s.costs.toJson),
    ("sensitive_fields", .list (s.sensitiveFields.map .text)), ("metrics", s.counters.toJson)]

/-- The settings that a text gives. -/
def ofText (s : Bytes) : Except Json.Fault Settings := reader.readAll s

end Settings

end QueryAdmission

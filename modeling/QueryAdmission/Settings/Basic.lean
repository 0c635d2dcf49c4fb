import QueryAdmission.Keyed

/-! Settings of the service. -/

namespace QueryAdmission

/-! ## Values by default -/

namespace Default

def bindAddress : String := "0.0.0.0:8080"
def rateLimit : UInt32 := 10
def windowSecs : UInt64 := 60
def sweepSecs : UInt64 := 60
def depth : UInt64 := 5
def fields : UInt64 := 50
def rootFields : UInt64 := 10
def aliases : UInt64 := 5
def sensitiveFieldLimit : UInt64 := 2
def cost : UInt64 := 50
def weight : UInt64 := 1
def weights : Keyed Int64 := .ofList [("friends", 5), ("users", 2), ("systemUpdate", 20)]
def sensitiveFields : List String := ["password"]
def enabled : Bool := true
def counterPath : String := "/metrics"

end Default

/-! ## Sections -/

/-- How many requests a client may make. -/
structure RateSettings where
  /-- Requests admitted in one window. -/
  limit : UInt32 := Default.rateLimit
  windowSecs : UInt64 := Default.windowSecs
  /-- The time between two removals of elapsed windows. -/
  sweepSecs : UInt64 := Default.sweepSecs
  deriving DecidableEq, Repr

/-- The greatest values that are still admitted, and which of them are enforced. -/
structure LimitSettings where
  depth : UInt64 := Default.depth
  fields : UInt64 := Default.fields
  rootFields : UInt64 := Default.rootFields
  aliases : UInt64 := Default.aliases
  sensitiveFields : UInt64 := Default.sensitiveFieldLimit
  cost : UInt64 := Default.cost
  enforceDepth : Bool := Default.enabled
  /-- Governs fields, root fields and aliases. -/
  enforceWidth : Bool := Default.enabled
  enforceSensitiveFields : Bool := Default.enabled
  enforceCost : Bool := Default.enabled
  deriving DecidableEq, Repr

/-- What fields cost. Weights are signed so that a bad one can be named. -/
structure CostSettings where
  /-- The cost of a field without a weight of its own. -/
  defaultWeight : UInt64 := Default.weight
  weights : Keyed Int64 := Default.weights
  deriving DecidableEq

/-- Where the counters can be read. -/
structure CounterSettings where
  enabled : Bool := Default.enabled
  path : String := Default.counterPath
  deriving DecidableEq, Repr

structure Settings where
  bindAddress : String := Default.bindAddress
  rate : RateSettings := {}
  limits : LimitSettings := {}
  costs : CostSettings := {}
  /-- Names of fields whose values are sensitive. -/
  sensitiveFields : List String := Default.sensitiveFields
  counters : CounterSettings := {}
  deriving DecidableEq

/-- Nanoseconds in a second. -/
def nanosPerSecond : Nat := 1000000000

/-- The length of a window in nanoseconds. -/
def RateSettings.window (s : RateSettings) : Nat := s.windowSecs.toNat * nanosPerSecond

end QueryAdmission

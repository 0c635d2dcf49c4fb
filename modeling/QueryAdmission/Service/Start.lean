import QueryAdmission.Address
import QueryAdmission.Service.Basic
import QueryAdmission.Settings.Load

/-! The start of the service. -/

namespace QueryAdmission

/-- Why the service is refused. -/
inductive Refusal where
  | settings (error : SettingsError)
  | address

/-- A refusal as it is reported, with what it goes back to. -/
def Refusal.report : Refusal → String
  | .settings error =>
    "Error: " ++ error.message ++ "\n" ++
      match error.cause? with
      | none => ""
      | some cause => "\nCaused by:\n    " ++ cause ++ "\n"
  | .address => "Error: invalid socket address syntax\n"

/-- Why the program ends before it listens. -/
inductive Stop where
  /-- It refuses the service, and says why. -/
  | refused (refusal : Refusal)
  /-- The router does not take the path of the counters, and the program breaks off. What is said
  then is up to the router. -/
  | broken

def Stop.report : Stop → String
  | .refused refusal => refusal.report
  | .broken => ""

/-- The event that is logged once the settings are known to be good. -/
def Settings.startEvent (s : Settings) : Json :=
  .ofMembers [("level", .text "INFO"), ("target", .text "graphql_abuse_guard"),
    ("fields", .ofMembers [("message", .text "Starting GraphQL abuse guard"),
      ("bind_addr", .text s.bindAddress), ("rate_limit", .nat s.rate.limit.toNat),
      ("window_secs", .nat s.rate.windowSecs.toNat), ("max_depth", .nat s.limits.depth.toNat),
      ("max_complexity", .nat s.limits.cost.toNat),
      ("weighted_fields", .nat s.costs.weights.size),
      ("sensitive_fields", .nat s.sensitiveFields.length)])]

/-- How a start goes: the events logged, and the service with the address to listen on. -/
structure Start where
  events : List Json
  result : Except Stop (Service × Address)

/-- What the program's caller is told: zero only of a service that has started. -/
def Start.exitCode (s : Start) : UInt32 :=
  match s.result with
  | .error (.refused _) => 1
  | .error .broken => 101
  | .ok _ => 0

namespace Service

/-- What is left of a start once there is a service: its paths are given to a router, and then its
address is read. -/
def listen (s : Service) : Except Stop (Service × Address) :=
  if takesCounters s.settings.counters then
    match Address.ofText? s.settings.bindAddress with
    | none => .error (.refused .address)
    | some address => .ok (s, address)
  else .error .broken

/-- Starts the service from a file of settings, if one is named, and from variables. -/
def start (file : Option FileContents) (lookup : String → Option String) : Start :=
  match Settings.load file lookup with
  | .error e => ⟨[], .error (.refused (.settings e))⟩
  | .ok s =>
    let events := [s.startEvent]
    match Service.ofSettings s with
    | .error issues => ⟨events, .error (.refused (.settings (.invalid issues)))⟩
    | .ok service => ⟨events, service.listen⟩

end Service

end QueryAdmission

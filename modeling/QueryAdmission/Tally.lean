import QueryAdmission.Breach

/-! Counters of what the service has decided, and their text form. -/

namespace QueryAdmission

/-- How a request to check a query can end. -/
inductive Outcome where
  | admitted
  | rejected
  | invalid
  | rateLimited
  deriving DecidableEq, Repr

def Outcome.label : Outcome → String
  | .admitted => "admitted"
  | .rejected => "rejected"
  | .invalid => "invalid"
  | .rateLimited => "rate_limited"

/-- Adds one to the counter of a label. -/
def Keyed.bump (counts : Keyed Nat) (label : String) : Keyed Nat :=
  counts.insert label ((counts.get? label).getD 0 + 1)

structure Tally where
  /-- Requests by outcome. An outcome is listed once it has been seen. -/
  requests : Keyed Nat := ∅
  /-- Breaches by limit. All limits are listed from the start. -/
  breaches : Keyed Nat := .ofList (Limit.all.map fun l => (l.code, 0))
  /-- Requests beyond a client's quota. -/
  refused : Nat := 0
  /-- Clients with a window. -/
  tracked : Nat := 0

namespace Tally

/-- Counts a request by its outcome and by the limits that it breached. -/
def count (t : Tally) (outcome : Outcome) (breached : List Limit) : Tally :=
  { t with
    requests := t.requests.bump outcome.label
    breaches := breached.foldl (fun counts l => counts.bump l.code) t.breaches
    refused := if outcome = .rateLimited then t.refused + 1 else t.refused }

def setTracked (t : Tally) (n : Nat) : Tally := { t with tracked := n }

/-! ## Text form -/

/-- Samples are doubles, written without exponents. -/
def sampleLayout : Layout where
  least := -400
  greatest := 400
  pointZero := false

/-- A named group of samples. -/
structure Family where
  name : String
  help : String
  kind : String
  /-- Each sample with its label, if it has one: a name and a value. -/
  samples : List (Option (String × String) × Float)

def Family.sampleLine (f : Family) (sample : Option (String × String) × Float) : String :=
  let labels := match sample.1 with
    | none => ""
    | some (name, value) => "\x7b" ++ name ++ "=\"" ++ value ++ "\"\x7d"
  f.name ++ labels ++ " " ++ sampleLayout.double sample.2

def Family.lines (f : Family) : List String :=
  ["# HELP " ++ f.name ++ " " ++ f.help, "# TYPE " ++ f.name ++ " " ++ f.kind]
    ++ f.samples.map f.sampleLine

/-- A counter as a sample. -/
def counterSample (n : Nat) : Float := (UInt64.ofNat n).toFloat

/-- A level as a sample; levels are signed. -/
def gaugeSample (n : Nat) : Float := (Int64.ofNat n).toFloat

/-- The samples of a counter with labels, in ascending order of the labels. -/
def labelled (name : String) (counts : Keyed Nat) : List (Option (String × String) × Float) :=
  counts.toList.map fun (label, n) => (some (name, label), counterSample n)

/-- All families in ascending order of their names. A family without samples is left out. -/
def families (t : Tally) : List Family :=
  [ ⟨"guard_rate_limited_total", "Requests refused by the client rate limiter", "counter",
      [(none, counterSample t.refused)]⟩,
    ⟨"guard_requests_total", "Checked requests by outcome", "counter",
      labelled "outcome" t.requests⟩,
    ⟨"guard_tracked_clients", "Client windows currently held by the rate limiter", "gauge",
      [(none, gaugeSample t.tracked)]⟩,
    ⟨"guard_violations_total", "Reported violations by kind", "counter",
      labelled "kind" t.breaches⟩ ].filter fun f => !f.samples.isEmpty

def lines (t : Tally) : List String := t.families.flatMap Family.lines

/-- The text form, each line with its end. -/
def toText (t : Tally) : String := t.lines.foldl (fun out line => out ++ line ++ "\n") ""

end Tally

end QueryAdmission

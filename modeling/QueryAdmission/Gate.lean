import QueryAdmission.Breach
import QueryAdmission.Pricing
import QueryAdmission.Shape

/-! The gate that a query passes before it is run. -/

namespace QueryAdmission

/-- A check of one aspect of a query, with all breaches that it finds. -/
structure Rule where
  name : String
  breaches : Analysis → List Breach

namespace LimitSettings

def depthRule (s : LimitSettings) : Rule where
  name := "depth"
  breaches a := (Breach.over? .depth a.shape.depth s.depth.toNat).toList

def widthRule (s : LimitSettings) : Rule where
  name := "width"
  breaches a :=
    (Breach.over? .fields a.shape.fields s.fields.toNat).toList
      ++ (Breach.over? .rootFields a.shape.rootFields s.rootFields.toNat).toList
      ++ (Breach.over? .aliases a.shape.aliases s.aliases.toNat).toList

def sensitiveRule (s : LimitSettings) : Rule where
  name := "sensitive_fields"
  breaches a :=
    (Breach.over? .sensitiveFields a.shape.sensitiveFields s.sensitiveFields.toNat).toList

def costRule (s : LimitSettings) : Rule where
  name := "complexity"
  breaches a := (Breach.over? .cost a.cost s.cost.toNat).toList

/-- The rules that are enforced, in reporting order. -/
def rules (s : LimitSettings) : List Rule :=
  (if s.enforceDepth then [s.depthRule] else [])
    ++ (if s.enforceWidth then [s.widthRule] else [])
    ++ (if s.enforceSensitiveFields then [s.sensitiveRule] else [])
    ++ (if s.enforceCost then [s.costRule] else [])

end LimitSettings

/-- Whether a query may run, and if not, every limit that it breaches. -/
inductive Verdict where
  | admitted
  | rejected (breaches : List Breach)
  deriving DecidableEq, Repr

namespace Verdict

def ofBreaches : List Breach → Verdict
  | [] => .admitted
  | b :: rest => .rejected (b :: rest)

def breaches : Verdict → List Breach
  | .admitted => []
  | .rejected bs => bs

def isAdmitted : Verdict → Bool
  | .admitted => true
  | .rejected _ => false

end Verdict

structure Gate where
  sensitiveFields : List String
  pricing : Pricing
  rules : List Rule

namespace Gate

/-- The gate that settings describe, or all that is wrong with them. -/
def ofSettings (s : Settings) : Except (List Issue) Gate :=
  if s.issues.isEmpty then
    match Pricing.ofSettings s.costs with
    | .error issues => .error issues
    | .ok pricing => .ok ⟨s.sensitiveFields, pricing, s.limits.rules⟩
  else .error s.issues

/-- Measures a query without judging it. -/
def analyse (g : Gate) (q : Query) : Analysis :=
  ⟨.ofQuery g.sensitiveFields q, g.pricing.cost q⟩

/-- Judges measurements by every rule. -/
def judge (g : Gate) (a : Analysis) : Verdict :=
  .ofBreaches (g.rules.flatMap fun r => r.breaches a)

/-- Measures and judges a query. -/
def check (g : Gate) (q : Query) : Verdict := g.judge (g.analyse q)

/-- Runs a query only if it is admitted. To run it may have effects. -/
def runM {m : Type → Type} [Monad m] {α : Type} (g : Gate) (q : Query) (execute : Query → m α) :
    m (Except (List Breach) α) :=
  match g.check q with
  | .admitted => do return .ok (← execute q)
  | .rejected breaches => return .error breaches

/-- Runs a query only if it is admitted, without effects. -/
def run {α : Type} (g : Gate) (q : Query) (execute : Query → α) : Except (List Breach) α :=
  Id.run (g.runM q fun q => pure (execute q))

end Gate

end QueryAdmission

import Mathlib.Data.List.TakeWhile
import QueryAdmission.Proofs.Service.Verdict
import QueryAdmission.Proofs.Settings.Load
import QueryAdmission.Service.Start

/-! # What a start comes to

A start ends before its event if and only if the settings are refused on their way in. The event
tells of the settings that have come through, with what the variables gave; then a gate can be built
for them, and all that they can still be refused for is an address that is no address. Before the
address is looked at, the paths are given to a router. One that does not take the path of the
counters breaks the start off, which is no refusal. Whether anyone may listen at the address is not
looked at here. -/

namespace QueryAdmission

/-! ## Paths of the counters -/

namespace PathPattern

end PathPattern

namespace Service

-- Names have letters, stand alone between slashes, and those for all that follows come last.
example : (["/m", "/check", "/:x", "/a:x/*y"].map fun path => takesCounters ⟨true, path⟩) =
      List.replicate 4 true ∧
    (["", "m", "/health", "/:", "/:x:y", "/*x/y", "/a*x"].map fun path =>
      takesCounters ⟨true, path⟩) = List.replicate 7 false := by
  decide +kernel

/-! ## Starts -/

section

variable (service : Service)

end

variable {file : Option FileContents} {lookup : String → Option String}

-- Only what the variables leave is checked: a zero of the file may be replaced by one of them, and
-- a zero of theirs is refused.
example :
    let contents := bytesOf
      "\x7b\"limits\": \x7b\"max_depth\": 0\x7d, \"complexity\": \x7b\"weights\": \x7b\x7d\x7d\x7d"
    let startWith (vars : List (String × String)) := start (some (.bytes contents)) (vars.lookup ·)
    (startWith []).exitCode = 1 ∧ (startWith [("MAX_DEPTH", "5")]).exitCode = 0 ∧
      (startWith [("MAX_DEPTH", "5"), ("RATE_LIMIT", "0")]).exitCode = 1 := by
  decide +kernel

-- Settings do not know which paths can be served.
example :
    let contents := bytesOf
      "\x7b\"metrics\": \x7b\"path\": \"m\"\x7d, \"complexity\": \x7b\"weights\": \x7b\x7d\x7d\x7d"
    let t := start (some (.bytes contents)) fun _ => none
    t.events.length = 1 ∧ t.exitCode = 101 := by
  decide +kernel

end Service

end QueryAdmission

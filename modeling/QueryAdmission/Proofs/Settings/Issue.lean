import QueryAdmission.Proofs.Gate

/-! # What is wrong with settings

Settings have an issue for each thing that is wrong with them, and all issues are reported, in an
order of their own. Whoever builds something from settings reports the same ones. -/

namespace QueryAdmission

/-! ## The order of issues -/

namespace Issue

end Issue

namespace Settings

variable {s : Settings} {issue : Issue}

end Settings

example :
    let weights : Keyed Int64 := (Keyed.empty.insert "refund" (-3)).insert "free" 0
    let s : Settings :=
      { rate := { windowSecs := 0 }, limits := { aliases := 0 }
        costs := { defaultWeight := 0, weights := weights.insert "users" 2 }
        sensitiveFields := ["", "password", " "] }
    s.issues = [.zeroThreshold .aliases, .zeroThreshold .window, .zeroDefaultWeight,
      .badWeight "free" 0, .badWeight "refund" (-3), .blankSensitiveField] := by
  decide +kernel

end QueryAdmission

import QueryAdmission.Proofs.Json.Derivation
import QueryAdmission.Proofs.Json.Printing
import QueryAdmission.Settings.Load

/-! # Settings that are given in part

What a text does not give of settings has its default value, be it a member or a whole section. So
settings read back from what is written of them, and no default is written twice in different
ways. -/

namespace QueryAdmission

open Json (Leads PrintsKept Reader SpellsKept field_keeps prints_bool prints_text prints_whole
  spellsText_self)
open Json.Reader (takes_bool takes_keyedOf takes_listOf takes_signed64 takes_text takes_word32
  takes_word64)

/-! ## Sections -/

namespace RateSettings

/-- The settings with some of their members, and with the others at their defaults. -/
def keep (s : RateSettings) (kept : String → Bool) : RateSettings where
  limit := if kept "limit" then s.limit else ({} : RateSettings).limit
  windowSecs := if kept "window_secs" then s.windowSecs else ({} : RateSettings).windowSecs
  sweepSecs := if kept "cleanup_interval_secs" then s.sweepSecs else ({} : RateSettings).sweepSecs

variable (s : RateSettings) (kept : List String → Bool)

theorem takes_reader :
    reader.Takes (SpellsKept 1 kept s.toJson) (s.keep fun name => kept [name]) := by
  suffices h : record.Keeps (fun name => SpellsKept 0 fun path => kept (name :: path)) s.keep _ from
    h.takes_ofMembers
  refine ⟨?_, by simp, ?_⟩
  · refine .cons (field_keeps ((takes_word32 _).kept nofun nofun) ?_) <|
      .cons (field_keeps ((takes_word64 _).kept nofun nofun) ?_) <|
      .cons (field_keeps ((takes_word64 _).kept nofun nofun) ?_) .nil <;>
    intro kept <;> simp [keep]
  · intro kept kept' h
    simp only [List.forall_mem_cons] at h
    simp [keep, h]

theorem printsKept_toJson : PrintsKept 1 s.toJson := by
  refine Json.printsKept_ofMembers (by simp) ?_
  simp only [List.forall_mem_cons]
  exact ⟨(prints_whole _).flat.kept (.inl rfl), (prints_whole _).flat.kept (.inl rfl),
    (prints_whole _).flat.kept (.inl rfl), nofun⟩

end RateSettings

namespace LimitSettings

/-- The settings with some of their members, and with the others at their defaults. -/
def keep (s : LimitSettings) (kept : String → Bool) : LimitSettings where
  depth := if kept "max_depth" then s.depth else ({} : LimitSettings).depth
  fields := if kept "max_total_fields" then s.fields else ({} : LimitSettings).fields
  rootFields := if kept "max_root_fields" then s.rootFields else ({} : LimitSettings).rootFields
  aliases := if kept "max_aliases" then s.aliases else ({} : LimitSettings).aliases
  sensitiveFields :=
    if kept "max_sensitive_fields" then s.sensitiveFields else ({} : LimitSettings).sensitiveFields
  cost := if kept "max_complexity" then s.cost else ({} : LimitSettings).cost
  enforceDepth := if kept "enforce_depth" then s.enforceDepth else ({} : LimitSettings).enforceDepth
  enforceWidth := if kept "enforce_width" then s.enforceWidth else ({} : LimitSettings).enforceWidth
  enforceSensitiveFields :=
    if kept "enforce_sensitive_fields" then s.enforceSensitiveFields
    else ({} : LimitSettings).enforceSensitiveFields
  enforceCost :=
    if kept "enforce_complexity" then s.enforceCost else ({} : LimitSettings).enforceCost

variable (s : LimitSettings) (kept : List String → Bool)

theorem takes_reader :
    reader.Takes (SpellsKept 1 kept s.toJson) (s.keep fun name => kept [name]) := by
  suffices h : record.Keeps (fun name => SpellsKept 0 fun path => kept (name :: path)) s.keep _ from
    h.takes_ofMembers
  refine ⟨?_, by simp, ?_⟩
  · refine .cons (field_keeps ((takes_word64 _).kept nofun nofun) ?_) <|
      .cons (field_keeps ((takes_word64 _).kept nofun nofun) ?_) <|
      .cons (field_keeps ((takes_word64 _).kept nofun nofun) ?_) <|
      .cons (field_keeps ((takes_word64 _).kept nofun nofun) ?_) <|
      .cons (field_keeps ((takes_word64 _).kept nofun nofun) ?_) <|
      .cons (field_keeps ((takes_word64 _).kept nofun nofun) ?_) <|
      .cons (field_keeps ((takes_bool _).kept nofun nofun) ?_) <|
      .cons (field_keeps ((takes_bool _).kept nofun nofun) ?_) <|
      .cons (field_keeps ((takes_bool _).kept nofun nofun) ?_) <|
      .cons (field_keeps ((takes_bool _).kept nofun nofun) ?_) .nil <;>
    intro kept <;> simp [keep]
  · intro kept kept' h
    simp only [List.forall_mem_cons] at h
    simp [keep, h]

theorem printsKept_toJson : PrintsKept 1 s.toJson := by
  refine Json.printsKept_ofMembers (by simp) ?_
  simp only [List.forall_mem_cons]
  have hnat (n : Nat) : PrintsKept 0 (.nat n) := (prints_whole n).flat.kept (.inl rfl)
  have hbool (b : Bool) : PrintsKept 0 (.bool b) := (prints_bool b).flat.kept (.inl rfl)
  exact ⟨hnat _, hnat _, hnat _, hnat _, hnat _, hnat _, hbool _, hbool _, hbool _, hbool _, nofun⟩

end LimitSettings

namespace CostSettings

/-- The settings with some of their members, and with the others at their defaults. -/
def keep (s : CostSettings) (kept : String → Bool) : CostSettings where
  defaultWeight :=
    if kept "default_field_weight" then s.defaultWeight else ({} : CostSettings).defaultWeight
  weights := if kept "weights" then s.weights else ({} : CostSettings).weights

variable (s : CostSettings) (kept : List String → Bool)

theorem takes_reader :
    reader.Takes (SpellsKept 1 kept s.toJson) (s.keep fun name => kept [name]) := by
  suffices h : record.Keeps (fun name => SpellsKept 0 fun path => kept (name :: path)) s.keep _ from
    h.takes_ofMembers
  refine ⟨?_, by simp, ?_⟩
  · have hweights := takes_keyedOf takes_signed64 s.weights
    refine .cons (field_keeps ((takes_word64 _).kept nofun nofun) ?_) <|
      .cons (field_keeps hweights ?_) .nil <;>
    intro kept <;> simp [keep]
  · intro kept kept' h
    simp only [List.forall_mem_cons] at h
    simp [keep, h]

theorem printsKept_toJson : PrintsKept 1 s.toJson := by
  refine Json.printsKept_ofMembers (by simp) ?_
  simp only [List.forall_mem_cons]
  refine ⟨(prints_whole _).flat.kept (.inl rfl), (Json.prints_table ?_).kept (.inl rfl), nofun⟩
  rw [List.forall_mem_map]
  exact fun e _ => prints_whole e.2.toInt

end CostSettings

namespace CounterSettings

/-- The settings with some of their members, and with the others at their defaults. -/
def keep (s : CounterSettings) (kept : String → Bool) : CounterSettings where
  enabled := if kept "enabled" then s.enabled else ({} : CounterSettings).enabled
  path := if kept "path" then s.path else ({} : CounterSettings).path

variable (s : CounterSettings) (kept : List String → Bool)

theorem takes_reader :
    reader.Takes (SpellsKept 1 kept s.toJson) (s.keep fun name => kept [name]) := by
  suffices h : record.Keeps (fun name => SpellsKept 0 fun path => kept (name :: path)) s.keep _ from
    h.takes_ofMembers
  refine ⟨?_, by simp, ?_⟩
  · refine .cons (field_keeps ((takes_bool _).kept nofun nofun) ?_) <|
      .cons (field_keeps ((takes_text _).kept nofun nofun) ?_) .nil <;>
    intro kept <;> simp [keep]
  · intro kept kept' h
    simp only [List.forall_mem_cons] at h
    simp [keep, h]

theorem printsKept_toJson : PrintsKept 1 s.toJson := by
  refine Json.printsKept_ofMembers (by simp) ?_
  simp only [List.forall_mem_cons]
  exact ⟨(prints_bool _).flat.kept (.inl rfl), (prints_text _).flat.kept (.inl rfl), nofun⟩

end CounterSettings

/-! ## All settings -/

namespace Settings

/-- The settings with some of their sections and other members, each as it is, and with the others
at their defaults. -/
def keepWhole (s : Settings) (kept : String → Bool) : Settings where
  bindAddress := if kept "bind_addr" then s.bindAddress else ({} : Settings).bindAddress
  rate := if kept "rate_limit" then s.rate else ({} : Settings).rate
  limits := if kept "limits" then s.limits else ({} : Settings).limits
  costs := if kept "complexity" then s.costs else ({} : Settings).costs
  sensitiveFields :=
    if kept "sensitive_fields" then s.sensitiveFields else ({} : Settings).sensitiveFields
  counters := if kept "metrics" then s.counters else ({} : Settings).counters

/-- The settings with those members and members of sections whose paths are kept, and with the
others at their defaults. -/
def keep (s : Settings) (kept : List String → Bool) : Settings :=
  let sections : Settings := { s with
    rate := s.rate.keep fun name => kept ["rate_limit", name]
    limits := s.limits.keep fun name => kept ["limits", name]
    costs := s.costs.keep fun name => kept ["complexity", name]
    counters := s.counters.keep fun name => kept ["metrics", name] }
  sections.keepWhole fun name => kept [name]

variable (s : Settings) (kept : List String → Bool)

theorem takes_reader : reader.Takes (SpellsKept 2 kept s.toJson) (s.keep kept) := by
  suffices h : record.Keeps (fun name => SpellsKept 1 fun path => kept (name :: path))
    (Settings.keepWhole _) _ from h.takes_ofMembers
  refine ⟨?_, by simp, ?_⟩
  · have hnames := takes_listOf takes_text s.sensitiveFields
    refine .cons (field_keeps ((takes_text _).kept nofun nofun) ?_) <|
      .cons (field_keeps (s.rate.takes_reader _) ?_) <|
      .cons (field_keeps (s.limits.takes_reader _) ?_) <|
      .cons (field_keeps (s.costs.takes_reader _) ?_) <|
      .cons (field_keeps hnames ?_) <|
      .cons (field_keeps (s.counters.takes_reader _) ?_) .nil <;>
    intro kept <;> simp [keepWhole]
  · intro kept kept' h
    simp only [List.forall_mem_cons] at h
    simp [keepWhole, h]

theorem printsKept_toJson : PrintsKept 2 s.toJson := by
  refine Json.printsKept_ofMembers (by simp) ?_
  simp only [List.forall_mem_cons]
  refine ⟨(prints_text _).flat.kept (.inr nofun), s.rate.printsKept_toJson,
    s.limits.printsKept_toJson, s.costs.printsKept_toJson, (Json.prints_list ?_).kept (.inr nofun),
    s.counters.printsKept_toJson, nofun⟩
  rw [List.forall_mem_map]
  exact fun name _ => prints_text name

/-- A text that gives of settings what is kept, in any order, and anything else under names that
settings do not have there. -/
def GivenIn (s : Settings) (kept : List String → Bool) (text : Bytes) : Prop :=
  ∃ u r, Json.Blanks text u ∧ SpellsKept 2 kept s.toJson u r ∧ Json.Blanks r []

variable {s : Settings} {kept : List String → Bool}

theorem GivenIn.ofText_eq {text : Bytes} (h : s.GivenIn kept text) :
    ofText text = .ok (s.keep kept) := by
  obtain ⟨u, r, hstart, hspells, hend⟩ := h
  have hrun := s.takes_reader kept hstart hspells (hend.follows_of_follows nofun)
  have hrest : skipSpace r = [] := hend.skipSpace_eq
  simp [ofText, Reader.readAll, hrun, hrest]

theorem givenIn_print (s : Settings) (kept : List String → Bool) :
    s.GivenIn kept (bytesOf (s.toJson.prune 2 kept).print) := by
  obtain ⟨text, hput, hspells⟩ := s.printsKept_toJson kept
  rw [Json.print, hput, String.empty_append]
  refine ⟨bytesOf text, [], .nil _, ?_, .nil _⟩
  simpa using hspells []

theorem keep_all (s : Settings) : (s.keep fun _ => true) = s := rfl

/-- Whatever is kept of settings, a text that gives it is read as the settings with everything else
at its default. Such a text is what is printed of the settings without the rest, and all of them
read back from what is printed. What is read for a member or a section that is not given is the
same as the default. -/
theorem ofText_keep (s : Settings) :
    (∀ kept text, s.GivenIn kept text → ofText text = .ok (s.keep kept)) ∧
    (∀ kept (text : String), s.GivenIn kept (bytesOf text) →
      ofFile (.bytes (bytesOf text)) = .ok (s.keep kept)) ∧
    (∀ kept, s.GivenIn kept (bytesOf (s.toJson.prune 2 kept).print)) ∧
    ofText (bytesOf s.toJson.print) = .ok s ∧
    RateSettings.absent = {} ∧ LimitSettings.absent = {} ∧ CostSettings.absent = {} ∧
    CounterSettings.absent = {} ∧ Settings.absent = {} := by
  refine ⟨fun kept text h => h.ofText_eq, fun kept text h => ?_, s.givenIn_print, ?_, rfl, rfl, rfl,
    rfl, rfl⟩
  · simp only [ofFile, Json.textOf?_bytesOf, h.ofText_eq]
  · have hall := (s.givenIn_print fun _ => true).ofText_eq
    rwa [Json.prune_all, keep_all] at hall

/-- Members in another order, one of a section left out and all other sections, and members that
nobody asked for. -/
theorem ofText_keep_rate :
    let s : Settings := { bindAddress := "b", rate := { limit := 3, windowSecs := 9 } }
    let kept (path : List String) : Bool :=
      path = ["rate_limit"] || path = ["rate_limit", "limit"] ||
        path = ["rate_limit", "window_secs"]
    let text := "\x7b\"x\":null, \"rate_limit\":" ++
      "\x7b\"window_secs\":9,\"y\":[],\"limit\":3\x7d\x7d"
    s.GivenIn kept (bytesOf text) ∧
      ofText (bytesOf text) = .ok { rate := { limit := 3, windowSecs := 9 } } := by
  intro s kept text
  have hwindow (r : Bytes) : Leads true "window_secs" (bytesOf "\"window_secs\":" ++ r) r :=
    .mk (.fresh (.nil _)) (spellsText_self (t := "window_secs") _ rfl) (.nil _) (.nil _)
  have hy (r : Bytes) : Leads false "y" (bytesOf ",\"y\":" ++ r) r :=
    .mk (.later (.nil _) (.nil _)) (spellsText_self (t := "y") _ rfl) (.nil _) (.nil _)
  have hlimit (r : Bytes) : Leads false "limit" (bytesOf ",\"limit\":" ++ r) r :=
    .mk (.later (.nil _) (.nil _)) (spellsText_self (t := "limit") _ rfl) (.nil _) (.nil _)
  have hx (r : Bytes) : Leads true "x" (bytesOf "\"x\":" ++ r) r :=
    .mk (.fresh (.nil _)) (spellsText_self (t := "x") _ rfl) (.nil _) (.nil _)
  have hrate (r : Bytes) : Leads false "rate_limit" (bytesOf ", \"rate_limit\":" ++ r) r :=
    .mk (.later (.nil _) (.cons rfl (.nil _))) (spellsText_self (t := "rate_limit") _ rfl) (.nil _)
      (.nil _)
  have hsection (r : Bytes) : SpellsKept 1 (fun path => kept ("rate_limit" :: path)) s.rate.toJson
      (bytesOf "\x7b\"window_secs\":9,\"y\":[],\"limit\":3\x7d" ++ r) r := by
    rw [RateSettings.toJson, Json.spellsKept_ofMembers (by simp)]
    refine ⟨[("window_secs", .nat 9), ("limit", .nat 3)], _, ?_, rfl,
      .given (hwindow _) (.scalar (.whole 9 _)) (.other (hy _) (by simp)
        (.list (.endList true (.nil _))) (.given (hlimit _) (.scalar (.whole 3 _))
          (.close false (.nil _))))⟩
    exact .swap _ _ _
  have hgiven : s.GivenIn kept (bytesOf text) := by
    refine ⟨bytesOf text, [], .nil _, ?_, .nil _⟩
    rw [Settings.toJson, Json.spellsKept_ofMembers (by simp)]
    exact ⟨[("rate_limit", s.rate.toJson)], _, .refl _, rfl, .other (hx _) (by simp) (.null _)
      (.given (hrate _) (hsection _) (.close false (.nil _)))⟩
  exact ⟨hgiven, (ofText_keep s).1 kept _ hgiven⟩

end Settings

end QueryAdmission

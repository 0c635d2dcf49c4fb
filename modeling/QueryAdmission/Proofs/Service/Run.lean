import QueryAdmission.Proofs.Gate
import QueryAdmission.Proofs.Quota.Run
import QueryAdmission.Proofs.Service.Envelope
import QueryAdmission.Service.Basic

/-! # Runs of the service

Between requests time passes, and now and then elapsed windows are swept out. Of all requests only
those to check a query change the service, and of these only those that are short enough to be read.
Those that name a client touch a window, and only that client's. -/

namespace QueryAdmission

namespace Service

/-- A request to check a query, whatever its body. -/
def IsCheck (r : Request) : Prop := r.method = "POST" ∧ r.path = "/check"

instance : DecidablePred IsCheck := fun r =>
  inferInstanceAs (Decidable (r.method = "POST" ∧ r.path = "/check"))

theorem isCheck_check (body : Bytes) : IsCheck ⟨"POST", "/check", body⟩ := by
  refine ⟨rfl, ?_⟩
  rw [Request.path]
  dsimp only
  decide

/-- A request to check a query whose body is short enough to be read. -/
def IsRead (r : Request) : Prop := IsCheck r ∧ r.body.length ≤ maxBodyLength

instance : DecidablePred IsRead := fun r =>
  inferInstanceAs (Decidable (IsCheck r ∧ r.body.length ≤ maxBodyLength))

theorem IsCheck.overlong {r : Request} (hr : IsCheck r) (h : ¬ IsRead r) :
    maxBodyLength < r.body.length :=
  Nat.not_le.mp fun hlength => h ⟨hr, hlength⟩

/-- A request to check a query that is read and says who asks. -/
structure Names (r : Request) (client : String) : Prop where
  isRead : IsRead r
  envelope : ∃ envelope, Envelope.ofBytes r.body = .ok envelope ∧ envelope.client = client
  notBlank : Text.isBlankText client = false

/-- A request that says who asks, and nothing else. -/
theorem names_plain {client : String} (h : client.toList.all Json.isPlain = true)
    (hblank : Text.isBlankText client = false)
    (hlength : (bytesOf client).length + 13 ≤ maxBodyLength) :
    Names ⟨"POST", "/check", bytesOf "\x7b\"client\":\"" ++ (bytesOf client ++ bytesOf "\"\x7d")⟩
      client where
  isRead := by
    refine ⟨isCheck_check _, ?_⟩
    have hopen : (bytesOf "\x7b\"client\":\"").length = 11 := by decide +kernel
    have hclose : (bytesOf "\"\x7d").length = 2 := by decide +kernel
    simp only [List.length_append, hopen, hclose]
    omega
  envelope := ⟨_, Envelope.ofBytes_client (Json.spellsText_self [Byte.closeCurly] h), rfl⟩
  notBlank := hblank

/-- What can happen to the service. -/
inductive Event where
  | request (r : Request)
  | advance (nanos : Nat)
  | cleanup

/-- A service and the instant it has come to. -/
structure Clocked where
  service : Service
  now : Int

namespace Clocked

/-- What a request is replied. -/
def reply (c : Clocked) (r : Request) : Reply := (c.service.respond c.now r).1

def after (c : Clocked) : Event → Clocked
  | .request r => { c with service := (c.service.respond c.now r).2 }
  | .advance nanos => { c with now := c.now + nanos }
  | .cleanup => { c with service := c.service.sweep c.now }

def run (c : Clocked) (events : List Event) : Clocked := events.foldl after c

@[simp] theorem run_nil (c : Clocked) : c.run [] = c := rfl

@[simp] theorem run_cons (c : Clocked) (event : Event) (events : List Event) :
    c.run (event :: events) = (c.after event).run events := rfl

end Clocked

/-! ## One request -/

theorem find?_resources_check (s : Settings) :
    (resources s "/check").find? (·.methods.contains "POST") = some .check := by
  simp +decide [resources, fixedPaths, Resource.methods]

theorem mem_resources_check {s : Settings} {path : String} (h : .check ∈ resources s path) :
    path = "/check" := by
  simp only [resources, List.mem_append, List.mem_map, List.mem_filter, fixedPaths] at h
  rcases h with ⟨entry, ⟨hentry, hpath⟩, hcheck⟩ | h
  · simp only [List.mem_cons, List.not_mem_nil, or_false] at hentry
    rcases hentry with rfl | rfl | rfl
    · cases hcheck
    · cases hcheck
    · exact (beq_iff_eq.mp hpath).symm
  · split at h <;> simp at h

section

variable {r : Request} (s : Service) (now : Int)

theorem respond_of_check (h : IsCheck r) : s.respond now r = s.serve now r.body .check := by
  have hfind := find?_resources_check s.settings
  rw [respond, h.2]
  split
  · rename_i hnone
    rw [hnone] at hfind
    cases hfind
  · rw [h.1, hfind]
    rfl

theorem respond_of_read (h : IsRead r) :
    s.respond now r = (answerReply (s.check now r.body).1, (s.check now r.body).2) := by
  rw [s.respond_of_check now h.1, serve, if_neg (Nat.not_lt.mpr h.2)]

/-- A body that is too long is not looked at. -/
theorem respond_of_overlong (h : IsCheck r) (hlong : maxBodyLength < r.body.length) :
    s.respond now r = (overlongReply, s) := by
  rw [s.respond_of_check now h, serve, if_pos hlong]

/-- Every other request leaves the service as it is. -/
theorem respond_of_not_check (h : ¬ IsCheck r) : (s.respond now r).2 = s := by
  rw [respond]
  split
  · rfl
  · split
    · rfl
    · rename_i resource hfind
      cases resource with
      | health => rfl
      | counters => rfl
      | check =>
          have hmethod : r.method = "POST" := by
            simpa [Resource.methods] using List.find?_some hfind
          exact absurd ⟨hmethod, mem_resources_check (List.mem_of_find?_eq_some hfind)⟩ h

theorem respond_of_not_read (h : ¬ IsRead r) : (s.respond now r).2 = s := by
  by_cases hr : IsCheck r
  · rw [s.respond_of_overlong now hr (hr.overlong h)]
  · exact s.respond_of_not_check now hr

/-- A client without a name is turned away before its quota is looked at. -/
theorem check_of_blank {body : Bytes} {envelope : Envelope}
    (h : Envelope.ofBytes body = .ok envelope) (hblank : Text.isBlankText envelope.client = true) :
    s.check now body = (.anonymous, s.counted .anonymous) := by
  simp [check, h, hblank]

/-- A client that says who it is is answered by its quota. -/
theorem check_of_named {body : Bytes} {envelope : Envelope}
    (h : Envelope.ofBytes body = .ok envelope) (hblank : Text.isBlankText envelope.client = false) :
    let quota := (s.quota.check envelope.client now).2
    let a := s.answer envelope (s.quota.check envelope.client now).1
    s.check now body =
      (a, { s with quota := quota, tally := s.tally.setTracked quota.tracked }.counted a) := by
  simp [check, h, hblank]

/-- All that a body which is read can do. -/
theorem check_cases (body : Bytes) :
    (∃ a, a.outcome = .invalid ∧ a.breaches = [] ∧ s.check now body = (a, s.counted a)) ∨
    ∃ envelope, Envelope.ofBytes body = .ok envelope ∧
      Text.isBlankText envelope.client = false ∧
      let quota := (s.quota.check envelope.client now).2
      let a := s.answer envelope (s.quota.check envelope.client now).1
      s.check now body =
        (a, { s with quota := quota, tally := s.tally.setTracked quota.tracked }.counted a) := by
  cases henvelope : Envelope.ofBytes body with
  | error fault => exact .inl ⟨.malformed fault, rfl, rfl, by simp [check, henvelope]⟩
  | ok envelope =>
      cases hblank : Text.isBlankText envelope.client with
      | true => exact .inl ⟨.anonymous, rfl, rfl, s.check_of_blank now henvelope hblank⟩
      | false => exact .inr ⟨envelope, rfl, hblank, s.check_of_named now henvelope hblank⟩

theorem gate_respond (r : Request) : (s.respond now r).2.gate = s.gate := by
  by_cases hr : IsRead r
  · rw [s.respond_of_read now hr]
    rcases s.check_cases now r.body with ⟨a, -, -, heq⟩ | ⟨envelope, -, -, heq⟩
    · rw [heq]
      rfl
    · rw [heq]
      rfl
  · rw [s.respond_of_not_read now hr]

/-- A request that names a client is answered by the client's quota. -/
theorem Names.respond_eq {client : String} (h : Names r client) (s : Service) (now : Int) :
    ∃ envelope,
      (s.respond now r).1 = answerReply (s.answer envelope (s.quota.check client now).1) ∧
      (s.respond now r).2.quota = (s.quota.check client now).2 := by
  obtain ⟨envelope, henvelope, rfl⟩ := h.envelope
  refine ⟨envelope, ?_⟩
  rw [s.respond_of_read now h.isRead, s.check_of_named now henvelope h.notBlank]
  exact ⟨rfl, rfl⟩

/-- Every other request leaves the windows as they are. -/
theorem quota_respond (r : Request) :
    (s.respond now r).2.quota = s.quota ∨
      ∃ client, Names r client ∧ (s.respond now r).2.quota = (s.quota.check client now).2 := by
  by_cases hr : IsRead r
  · rw [s.respond_of_read now hr]
    rcases s.check_cases now r.body with ⟨a, -, -, heq⟩ | ⟨envelope, henvelope, hblank, heq⟩
    · rw [heq]
      exact .inl rfl
    · rw [heq]
      exact .inr ⟨envelope.client, ⟨hr, ⟨envelope, henvelope, rfl⟩, hblank⟩, rfl⟩
  · rw [s.respond_of_not_read now hr]
    exact .inl rfl

end

theorem status_gateAnswer_ne (g : Gate) (query : Option String) (remaining : Nat) :
    (g.answer query remaining).status ≠ 429 := by
  rw [Gate.answer]
  split
  · simp [Answer.status]
  · dsimp only
    split <;> simp [Answer.status]

theorem status_answer (s : Service) (envelope : Envelope) (d : Decision) :
    (s.answer envelope d).status = 429 ↔ d.isAllowed = false := by
  cases d with
  | allowed remaining _ =>
      exact iff_of_false (status_gateAnswer_ne s.gate envelope.query remaining)
        (by simp [Decision.isAllowed])
  | limited breach wait => exact iff_of_true rfl rfl

/-- A client is told to wait exactly if its quota does not allow the request. -/
theorem Clocked.status_reply {r : Request} {client : String} (hr : Names r client) (c : Clocked) :
    (c.reply r).status = 429 ↔ (c.service.quota.check client c.now).1.isAllowed = false := by
  obtain ⟨envelope, hreply, -⟩ := hr.respond_eq c.service c.now
  rw [reply, hreply]
  exact status_answer c.service envelope _

/-! ## Invariants of a run -/

namespace Clocked

theorem gate_after (c : Clocked) (event : Event) :
    (c.after event).service.gate = c.service.gate := by
  cases event with
  | request r => exact c.service.gate_respond c.now r
  | advance _ => rfl
  | cleanup => rfl

@[simp] theorem gate_run (c : Clocked) (events : List Event) :
    (c.run events).service.gate = c.service.gate := by
  induction events generalizing c with
  | nil => rfl
  | cons event events ih => rw [run_cons, ih, gate_after]

/-- The quota is the one of the settings, and no window opens in the future. -/
structure Sound (s : RateSettings) (c : Clocked) : Prop where
  limit : c.service.quota.limit = s.limit.toNat
  length : c.service.quota.length = s.window
  opened : ∀ client, c.service.quota.OpenedBy client c.now

variable {s : RateSettings} {c : Clocked}

theorem Sound.limit_pos (h : c.Sound s) (hl : 0 < s.limit.toNat) : 0 < c.service.quota.limit := by
  rw [h.limit]
  exact hl

theorem Sound.length_pos (h : c.Sound s) (hl : 0 < s.window) : 0 < c.service.quota.length := by
  rw [h.length]
  exact hl

theorem Sound.after (h : c.Sound s) (event : Event) : (c.after event).Sound s := by
  cases event with
  | request r =>
      rcases quota_respond c.service c.now r with heq | ⟨client, -, heq⟩
      · refine ⟨?_, ?_, fun other => ?_⟩ <;> dsimp only [Clocked.after] <;> rw [heq]
        · exact h.limit
        · exact h.length
        · exact h.opened other
      · refine ⟨?_, ?_, fun other => ?_⟩ <;> dsimp only [Clocked.after] <;> rw [heq]
        · exact h.limit
        · exact h.length
        · exact (h.opened other).check
  | advance nanos =>
      exact ⟨h.limit, h.length, fun client => (h.opened client).mono (Int.le.intro nanos rfl)⟩
  | cleanup => exact ⟨h.limit, h.length, fun client => (h.opened client).evict⟩

theorem Sound.run (h : c.Sound s) (events : List Event) : (c.run events).Sound s := by
  induction events generalizing c with
  | nil => exact h
  | cons event events ih => exact ih (h.after event)

end Clocked

/-! ## The service that settings describe -/

theorem ofSettings_eq {s : Settings} {service : Service} (h : ofSettings s = .ok service) :
    ∃ gate, Gate.ofSettings s = .ok gate ∧ service = ⟨s, gate, .ofSettings s.rate, {}⟩ := by
  unfold ofSettings at h
  split at h
  · cases h
  · rename_i gate hgate
    cases h
    exact ⟨gate, hgate, rfl⟩

theorem ofSettings_spec {s : Settings} {service : Service} (h : ofSettings s = .ok service) :
    s.issues = [] ∧ service.quota = .ofSettings s.rate := by
  obtain ⟨gate, hgate, rfl⟩ := ofSettings_eq h
  exact ⟨(Gate.ofSettings_eq hgate).1, rfl⟩

theorem sound_ofSettings {s : Settings} {service : Service} (h : ofSettings s = .ok service)
    (start : Int) : (Clocked.mk service start).Sound s.rate := by
  obtain ⟨-, hquota⟩ := ofSettings_spec h
  refine ⟨?_, ?_, fun client w hw => ?_⟩
  · rw [hquota]; rfl
  · rw [hquota]; rfl
  · simp [hquota, Quota.ofSettings] at hw

/-- No threshold of valid settings is zero. -/
theorem threshold_pos {s : Settings} (h : s.issues = []) (t : Threshold) : 0 < t.value s := by
  simp only [Settings.issues, List.append_eq_nil_iff, List.map_eq_nil_iff,
    List.filter_eq_nil_iff] at h
  have hall : t ∈ Threshold.all := by cases t <;> decide
  have hne := h.1.1.1 t hall
  simp only [beq_iff_eq] at hne
  exact Nat.pos_of_ne_zero hne

theorem limit_pos {s : Settings} (h : s.issues = []) : 0 < s.rate.limit.toNat :=
  threshold_pos h .rateLimit

theorem window_pos {s : Settings} (h : s.issues = []) : 0 < s.rate.window :=
  Nat.mul_pos (threshold_pos h .window) (by decide)

end Service

end QueryAdmission

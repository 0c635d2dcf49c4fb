import Mathlib.Data.List.Forall2
import QueryAdmission.Proofs.Service.Verdict

/-! # Queries and quotas

The quota of a client is looked at before its query, and nothing that is found out about the query
comes back to it. So of two runs that differ in queries only, both refuse the same requests, and
leave the same to the clients whose requests they do not refuse. A query has a say in it by its
length alone, if its request becomes too long to be read. -/

namespace QueryAdmission

namespace Service

/-- The client that a body names, if it can be read. -/
def clientOf? (body : Bytes) : Option String := (Envelope.ofBytes body).toOption.map (·.client)

/-- Two events differ at most in a query: if requests check a query, both bodies are too long or
neither is, and both are envelopes that name the same client, or neither is an envelope. -/
inductive Alike : Event → Event → Prop where
  | request {r r' : Request} : r.method = r'.method → r.path = r'.path →
      (IsCheck r → (r.body.length ≤ maxBodyLength ↔ r'.body.length ≤ maxBodyLength) ∧
        clientOf? r.body = clientOf? r'.body) → Alike (.request r) (.request r')
  | advance (nanos : Nat) : Alike (.advance nanos) (.advance nanos)
  | cleanup : Alike .cleanup .cleanup

/-! ## Who is named -/

theorem clientOf?_eq_some {body : Bytes} {client : String} :
    clientOf? body = some client ↔
      ∃ envelope, Envelope.ofBytes body = .ok envelope ∧ envelope.client = client := by
  rw [clientOf?]
  cases Envelope.ofBytes body with
  | error fault => simp [Except.toOption]
  | ok envelope => simp [Except.toOption]

theorem names_iff {r : Request} {client : String} :
    Names r client ↔
      IsRead r ∧ clientOf? r.body = some client ∧ Text.isBlankText client = false := by
  rw [clientOf?_eq_some]
  exact ⟨fun h => ⟨h.isRead, h.envelope, h.notBlank⟩,
    fun ⟨hread, henvelope, hblank⟩ => ⟨hread, henvelope, hblank⟩⟩

theorem Alike.names_iff {r r' : Request} (h : Alike (.request r) (.request r')) (client : String) :
    Names r client ↔ Names r' client := by
  cases h with
  | request hmethod hpath hbody =>
      have hcheck : IsCheck r ↔ IsCheck r' := by rw [IsCheck, IsCheck, hmethod, hpath]
      have hread : IsRead r ↔ IsRead r' := by
        rw [IsRead, IsRead, ← hcheck]
        exact and_congr_right fun hr => (hbody hr).1
      rw [Service.names_iff, Service.names_iff, ← hread]
      refine and_congr_right fun hr => ?_
      rw [(hbody hr.1).2]

/-! ## One request -/

section

variable {r : Request} {client : String} (s : Service) (now : Int)

theorem Names.tracked_respond (h : Names r client) :
    (s.respond now r).2.tally.tracked = (s.quota.check client now).2.tracked := by
  obtain ⟨envelope, henvelope, rfl⟩ := h.envelope
  rw [s.respond_of_read now h.isRead, s.check_of_named now henvelope h.notBlank]
  rfl

theorem status_of_invalid {a : Answer} (h : a.outcome = .invalid) : a.status = 400 := by
  cases a with
  | malformed fault => rfl
  | anonymous => rfl
  | unreadable error remaining => rfl
  | limited breach secs => cases h
  | admitted analysis remaining => cases h
  | rejected breaches analysis remaining => cases h

theorem status_respond_of_not_check (h : ¬ IsCheck r) : (s.respond now r).1.status ≠ 429 := by
  have hserve : ∀ resource ∈ resources s.settings r.path, resource.methods.contains r.method →
      (s.serve now r.body resource).1.status ≠ 429 := by
    intro resource hin hmethod
    cases resource with
    | health => simp [serve]
    | counters => simp [serve]
    | check =>
        have hpost : r.method = "POST" := by simpa [Resource.methods] using hmethod
        exact absurd ⟨hpost, mem_resources_check hin⟩ h
  rw [respond]
  split
  · simp
  · split
    · simp
    · rename_i resource hfind
      have hmethod : resource.methods.contains r.method = true := by
        simpa using List.find?_some hfind
      have hstatus := hserve resource (List.mem_of_find?_eq_some hfind) hmethod
      dsimp only
      split
      · exact hstatus
      · exact hstatus

theorem status_respond_of_not_read (h : ¬ IsRead r) : (s.respond now r).1.status ≠ 429 := by
  by_cases hr : IsCheck r
  · rw [s.respond_of_overlong now hr (hr.overlong h)]
    simp [overlongReply]
  · exact s.status_respond_of_not_check now hr

/-- A request that names nobody is not refused, and leaves all quotas as they are. -/
theorem respond_of_nobody (h : ∀ client, ¬ Names r client) :
    (s.respond now r).1.status ≠ 429 ∧ (s.respond now r).2.quota = s.quota ∧
      (s.respond now r).2.tally.tracked = s.tally.tracked := by
  by_cases hr : IsRead r
  · rw [s.respond_of_read now hr]
    rcases s.check_cases now r.body with ⟨a, hinvalid, -, heq⟩ | ⟨envelope, henvelope, hblank, -⟩
    · have hstatus : (answerReply a).status = 400 := status_of_invalid hinvalid
      rw [heq]
      exact ⟨by rw [hstatus]; decide, rfl, rfl⟩
    · exact absurd ⟨hr, ⟨envelope, henvelope, rfl⟩, hblank⟩ (h envelope.client)
  · rw [s.respond_of_not_read now hr]
    exact ⟨s.status_respond_of_not_read now hr, rfl, rfl⟩

end

/-! ## Two services -/

namespace Clocked

variable {c d : Clocked} {r r' : Request} {client : String}

theorem status_reply_of_nobody (c : Clocked) (h : ∀ client, ¬ Names r client) :
    (c.reply r).status ≠ 429 := by
  rw [reply]
  exact (c.service.respond_of_nobody c.now h).1

theorem reply_of_limited {breach : Breach} {wait : Nat} (hr : Names r client)
    (h : (c.service.quota.check client c.now).1 = .limited breach wait) :
    c.reply r = answerReply (.limited breach (waitSecs wait)) := by
  obtain ⟨envelope, hreply, -⟩ := hr.respond_eq c.service c.now
  rw [reply, hreply, h]
  rfl

theorem remaining_of_allowed {remaining resetIn : Nat} (hr : Names r client)
    (h : (c.service.quota.check client c.now).1 = .allowed remaining resetIn) :
    (c.reply r).member? "remaining" = some (.nat remaining) := by
  obtain ⟨envelope, hreply, -⟩ := hr.respond_eq c.service c.now
  rw [reply, hreply, h]
  exact (conveys_gateAnswer c.service.gate envelope.query remaining).remaining

@[simp] theorem now_after_request (c : Clocked) (r : Request) :
    (c.after (.request r)).now = c.now := by
  simp only [after]

/-- Two services are the same as far as quotas go. -/
structure SameQuotas (c d : Clocked) : Prop where
  now : c.now = d.now
  quota : c.service.quota = d.service.quota
  tracked : c.service.tally.tracked = d.service.tally.tracked

theorem SameQuotas.refl (c : Clocked) : SameQuotas c c := ⟨rfl, rfl, rfl⟩

theorem SameQuotas.check_eq (h : SameQuotas c d) (client : String) :
    c.service.quota.check client c.now = d.service.quota.check client d.now := by
  rw [h.quota, h.now]

theorem SameQuotas.request (h : SameQuotas c d) (hr : Alike (.request r) (.request r')) :
    SameQuotas (c.after (.request r)) (d.after (.request r')) := by
  by_cases hnamed : ∃ client, Names r client
  · obtain ⟨client, hname⟩ := hnamed
    have hname' := (hr.names_iff client).mp hname
    obtain ⟨-, -, hquota⟩ := hname.respond_eq c.service c.now
    obtain ⟨-, -, hquota'⟩ := hname'.respond_eq d.service d.now
    have htracked := hname.tracked_respond c.service c.now
    have htracked' := hname'.tracked_respond d.service d.now
    rw [← h.check_eq] at hquota' htracked'
    refine ⟨by simp [h.now], ?_, ?_⟩
    · rw [after, after, hquota, hquota']
    · rw [after, after, htracked, htracked']
  · rw [not_exists] at hnamed
    obtain ⟨-, hquota, htracked⟩ := c.service.respond_of_nobody c.now hnamed
    obtain ⟨-, hquota', htracked'⟩ := d.service.respond_of_nobody d.now
      fun client => mt (hr.names_iff client).mpr (hnamed client)
    refine ⟨by simp [h.now], ?_, ?_⟩
    · rw [after, after, hquota, hquota', h.quota]
    · rw [after, after, htracked, htracked', h.tracked]

theorem SameQuotas.after {e e' : Event} (h : SameQuotas c d) (he : Alike e e') :
    SameQuotas (c.after e) (d.after e') := by
  cases he with
  | request hmethod hpath hclient => exact h.request (.request hmethod hpath hclient)
  | advance nanos => exact ⟨congrArg (· + (nanos : Int)) h.now, h.quota, h.tracked⟩
  | cleanup =>
      have hevict : (c.service.quota.evict c.now).2 = (d.service.quota.evict d.now).2 := by
        rw [h.quota, h.now]
      exact ⟨h.now, hevict, congrArg Quota.tracked hevict⟩

theorem SameQuotas.run {a b : List Event} (h : SameQuotas c d) (hab : List.Forall₂ Alike a b) :
    SameQuotas (c.run a) (d.run b) := by
  induction hab generalizing c d with
  | nil => exact h
  | cons he _ ih => exact ih (h.after he)

/-- What a client is told of its quota does not depend on its query. -/
theorem SameQuotas.reply_eq (h : SameQuotas c d) (hr : Alike (.request r) (.request r')) :
    ((c.reply r).status = 429 ↔ (d.reply r').status = 429) ∧
      ((c.reply r).status = 429 → c.reply r = d.reply r') ∧
      ∀ client, Names r client → (c.reply r).status ≠ 429 → ∃ remaining : Nat,
        (c.reply r).member? "remaining" = some (.nat remaining) ∧
        (d.reply r').member? "remaining" = some (.nat remaining) := by
  by_cases hnamed : ∃ client, Names r client
  · obtain ⟨client, hname⟩ := hnamed
    have hname' := (hr.names_iff client).mp hname
    have hstatus := status_reply hname c
    have hstatus' := status_reply hname' d
    rw [← h.check_eq] at hstatus'
    refine ⟨hstatus.trans hstatus'.symm, ?_⟩
    cases hdecision : (c.service.quota.check client c.now).1 with
    | allowed remaining resetIn =>
        have hother : (c.reply r).status ≠ 429 := by
          rw [ne_eq, hstatus, hdecision]
          exact Bool.noConfusion
        have hdecision' := (congrArg Prod.fst (h.check_eq client)).symm.trans hdecision
        exact ⟨fun h429 => absurd h429 hother, fun _ _ _ =>
          ⟨remaining, remaining_of_allowed hname hdecision, remaining_of_allowed hname' hdecision'⟩⟩
    | limited breach wait =>
        have h429 : (c.reply r).status = 429 := by
          rw [hstatus, hdecision]
          rfl
        have hdecision' := (congrArg Prod.fst (h.check_eq client)).symm.trans hdecision
        refine ⟨fun _ => ?_, fun _ _ hother => absurd h429 hother⟩
        rw [reply_of_limited hname hdecision, reply_of_limited hname' hdecision']
  · rw [not_exists] at hnamed
    have hother := status_reply_of_nobody c hnamed
    have hother' := status_reply_of_nobody d fun client =>
      mt (hr.names_iff client).mpr (hnamed client)
    exact ⟨iff_of_false hother hother', fun h429 => absurd h429 hother,
      fun client hname => absurd hname (hnamed client)⟩

end Clocked

/-- Let two runs of a service differ in queries only, with requests that are too long in the same
places. Then at every place both refuse the request, in
the same words, or neither does and both tell its client the same number of requests left. After
every step all quotas are the same, and so is the number of clients that is exposed. -/
theorem reply_of_alike (c : Clocked) {a b : List Event} (h : List.Forall₂ Alike a b) :
    (∀ (i : Nat) (r r' : Request), a[i]? = some (.request r) → b[i]? = some (.request r') →
      let reply := (c.run (a.take i)).reply r
      let reply' := (c.run (b.take i)).reply r'
      (reply.status = 429 ↔ reply'.status = 429) ∧
      (reply.status = 429 → reply = reply') ∧
      ∀ client, Names r client → reply.status ≠ 429 → ∃ remaining : Nat,
        reply.member? "remaining" = some (.nat remaining) ∧
        reply'.member? "remaining" = some (.nat remaining)) ∧
    ∀ i : Nat, (c.run (a.take i)).service.quota = (c.run (b.take i)).service.quota ∧
      (c.run (a.take i)).service.tally.tracked = (c.run (b.take i)).service.tally.tracked := by
  have hrun : ∀ i, Clocked.SameQuotas (c.run (a.take i)) (c.run (b.take i)) := fun i =>
    (Clocked.SameQuotas.refl c).run (List.forall₂_take i h)
  refine ⟨fun i r r' hr hr' => ?_, fun i => ⟨(hrun i).quota, (hrun i).tracked⟩⟩
  obtain ⟨hi, heq⟩ := List.getElem?_eq_some_iff.mp hr
  obtain ⟨hi', heq'⟩ := List.getElem?_eq_some_iff.mp hr'
  have halike : Alike (.request r) (.request r') := by
    rw [← heq, ← heq']
    exact h.get hi hi'
  exact (hrun i).reply_eq halike

/-- A client that asks for nothing and then for a query that cannot be read is refused the second
time, as one that asks for a query and then for nothing. -/
theorem reply_of_alike_refused :
    let settings : Settings := { rate := { limit := 1 }, costs := { weights := ∅ } }
    let r : Request := ⟨"POST", "/check", bytesOf "\x7b\"client\":\"c\"\x7d"⟩
    let r' : Request := ⟨"POST", "/check", bytesOf "\x7b\"query\":0,\"client\":\"c\"\x7d"⟩
    ∃ service, ofSettings settings = .ok service ∧
      List.Forall₂ Alike [.request r, .advance 5, .request r']
        [.request r', .advance 5, .request r] ∧
      let c := (Clocked.mk service 0).run [.request r, .advance 5]
      let d := (Clocked.mk service 0).run [.request r', .advance 5]
      (c.reply r').status = 429 ∧ c.reply r' = d.reply r ∧
        c.service.tally.tracked = d.service.tally.tracked := by
  intro settings r r'
  obtain ⟨service, hvalid⟩ : ∃ service, ofSettings settings = .ok service := ⟨_, rfl⟩
  have hclient : clientOf? r.body = some "c" := by decide +kernel
  have hclient' : clientOf? r'.body = some "c" := by decide +kernel
  have hr : Names r "c" := names_iff.mpr ⟨by decide, hclient, by decide⟩
  have hr' : Names r' "c" := names_iff.mpr ⟨by decide, hclient', by decide⟩
  have hrr' : Alike (.request r) (.request r') :=
    .request rfl rfl fun _ => ⟨iff_of_true (by decide) (by decide), hclient.trans hclient'.symm⟩
  have hr'r : Alike (.request r') (.request r) :=
    .request rfl rfl fun _ => ⟨iff_of_true (by decide) (by decide), hclient'.trans hclient.symm⟩
  have halike : List.Forall₂ Alike [.request r, .advance 5, .request r']
      [.request r', .advance 5, .request r] :=
    .cons hrr' (.cons (.advance 5) (.cons hr'r .nil))
  obtain ⟨hreplies, hquotas⟩ := reply_of_alike (Clocked.mk service 0) halike
  have h429 : (((Clocked.mk service 0).run [.request r, .advance 5]).reply r').status = 429 := by
    obtain ⟨-, -, hquota⟩ := hr.respond_eq service 0
    have hfresh : service.quota = ⟨1, 60 * nanosPerSecond, ∅⟩ := (ofSettings_spec hvalid).2
    rw [Clocked.status_reply hr']
    simp only [Clocked.run_cons, Clocked.run_nil, Clocked.after, hquota, hfresh]
    simp [Quota.check, Quota.window?, Quota.windowAfter, Quota.decide, Window.opened,
      Window.request, Window.hasElapsed, Window.age, Window.maxCount, nanosPerSecond,
      Decision.isAllowed]
  have hsame := (hreplies 2 r' r rfl rfl).2.1
  have htracked := (hquotas 2).2
  simp only [List.take_succ_cons, List.take_zero] at hsame htracked
  exact ⟨service, hvalid, halike, h429, hsame h429, htracked⟩

/-- A client that asks for nothing has used up its quota, and is refused the next time. With two
megabytes of blanks in its query instead it would not have been. -/
theorem reply_of_alike_overlong :
    let settings : Settings := { rate := { limit := 1 }, costs := { weights := ∅ } }
    let short : Request := ⟨"POST", "/check", bytesOf "\x7b\"client\":\"c\"\x7d"⟩
    let overlong : Request := ⟨"POST", "/check", Envelope.blankBody maxBodyLength⟩
    ∃ service, ofSettings settings = .ok service ∧
      IsCheck short ∧ clientOf? short.body = some "c" ∧
      IsCheck overlong ∧ clientOf? overlong.body = some "c" ∧
      let c := (Clocked.mk service 0).run [.request short]
      let d := (Clocked.mk service 0).run [.request overlong]
      (c.reply short).status = 429 ∧ (d.reply short).status ≠ 429 := by
  intro settings short overlong
  obtain ⟨service, hvalid⟩ : ∃ service, ofSettings settings = .ok service := ⟨_, rfl⟩
  have hfresh : service.quota = ⟨1, 60 * nanosPerSecond, ∅⟩ := (ofSettings_spec hvalid).2
  have hshort : Names short "c" := @names_plain "c" rfl (by decide) (by decide)
  have hclient : clientOf? overlong.body = some "c" :=
    clientOf?_eq_some.mpr ⟨_, (Envelope.asks_blankBody _).ofBytes_eq, rfl⟩
  have hcheck : IsCheck overlong := isCheck_check _
  have hrespond := service.respond_of_overlong 0 hcheck (Envelope.lt_length_blankBody _)
  refine ⟨service, hvalid, hshort.isRead.1, (names_iff.mp hshort).2.1, hcheck, hclient, ?_, ?_⟩
  · obtain ⟨-, -, hquota⟩ := hshort.respond_eq service 0
    rw [Clocked.status_reply hshort]
    simp only [Clocked.run_cons, Clocked.run_nil, Clocked.after, hquota, hfresh]
    simp [Quota.check, Quota.window?, Quota.windowAfter, Quota.decide, Window.opened,
      Window.request, Window.hasElapsed, Window.age, Window.maxCount, nanosPerSecond,
      Decision.isAllowed]
  · rw [ne_eq, Clocked.status_reply hshort]
    simp only [Clocked.run_cons, Clocked.run_nil, Clocked.after, hrespond, hfresh]
    simp [Quota.check, Quota.windowAfter, Quota.decide, Window.opened, Decision.isAllowed]

end Service

end QueryAdmission

import QueryAdmission.Proofs.Service.Verdict

/-! # Counters and replies

What the counters say can be told from the replies that were sent: each reply to a request to check
a query counts once, by its outcome, and each breach that it lists counts once, by its limit. Only a
request that is too long to be read does not count. -/

namespace QueryAdmission

/-! ## Single counters -/

theorem Keyed.getD_bump (counts : Keyed Nat) (label other : String) :
    ((counts.bump label).get? other).getD 0 =
      (counts.get? other).getD 0 + if label = other then 1 else 0 := by
  rw [bump, get?_insert]
  by_cases h : label = other
  · simp [h]
  · simp [h, Ne.symm h]

theorem Outcome.label_inj {o p : Outcome} : o.label = p.label ↔ o = p := by
  cases o <;> cases p <;> decide

theorem Limit.code_inj {l m : Limit} : l.code = m.code ↔ l = m := by
  cases l <;> cases m <;> decide

namespace Tally

/-- The counter of an outcome, a sample of `guard_requests_total`; it is zero until the outcome is
seen. -/
def requestsOf (t : Tally) (o : Outcome) : Nat := (t.requests.get? o.label).getD 0

/-- The counter of a limit, a sample of `guard_violations_total`. -/
def breachesOf (t : Tally) (l : Limit) : Nat := (t.breaches.get? l.code).getD 0

theorem requestsOf_count (t : Tally) (o p : Outcome) (breached : List Limit) :
    (t.count o breached).requestsOf p = t.requestsOf p + if o = p then 1 else 0 := by
  rw [requestsOf, count, Keyed.getD_bump]
  simp only [Outcome.label_inj, requestsOf]

theorem breachesOf_count (t : Tally) (o : Outcome) (breached : List Limit) (l : Limit) :
    (t.count o breached).breachesOf l = t.breachesOf l + breached.count l := by
  rw [breachesOf, count, breachesOf]
  dsimp only
  generalize t.breaches = counts
  induction breached generalizing counts with
  | nil => rfl
  | cons m breached ih =>
      rw [List.foldl_cons, ih, Keyed.getD_bump, List.count_cons]
      simp only [Limit.code_inj, beq_iff_eq]
      omega

end Tally

/-! ## Reading replies -/

/-- Whether an entry under `violations` is for a limit. -/
def Limit.isKindOf (l : Limit) (entry : Json) : Bool :=
  match entry.member? "kind" with
  | some (.text kind) => kind == l.code
  | _ => false

namespace Reply

def allowed? (reply : Reply) : Option Bool :=
  match reply.member? "allowed" with
  | some (.bool b) => some b
  | _ => none

def violations (reply : Reply) : List Json :=
  match reply.member? "violations" with
  | some (.list entries) => entries
  | _ => []

/-- Whether a reply tells that its request has ended in this way. -/
def endsAs (reply : Reply) : Outcome → Bool
  | .admitted => reply.status == 200 && reply.allowed? == some true
  | .rejected => reply.status == 200 && reply.allowed? == some false
  | .invalid => reply.status == 400
  | .rateLimited => reply.status == 429

end Reply

theorem Limit.isKindOf_toJson (l : Limit) (b : Breach) :
    l.isKindOf b.toJson = decide (b.limit = l) := by
  have hkind : b.toJson.member? "kind" = some (.text b.limit.code) :=
    Json.member?_ofMembers (by simp) "kind"
  rw [isKindOf, hkind]
  exact decide_eq_decide.mpr Limit.code_inj

namespace Service

theorem allowed?_answerReply (a : Answer) :
    (answerReply a).allowed? = some (decide (a.outcome = .admitted)) := by
  have hmember : (answerReply a).member? "allowed" =
      some (.bool (decide (a.outcome = .admitted))) := by
    cases a <;> exact Json.member?_ofMembers (by simp) "allowed"
  rw [Reply.allowed?, hmember]

theorem violations_answerReply (a : Answer) :
    (answerReply a).violations = a.breaches.map Breach.toJson := by
  have hmember : (answerReply a).member? "violations" =
      if a.outcome = .rateLimited ∨ a.outcome = .rejected
      then some (.list (a.breaches.map Breach.toJson)) else none := by
    cases a <;> exact Json.member?_ofMembers (by simp) "violations"
  rw [Reply.violations, hmember]
  cases a <;> rfl

/-- An answer is told from the reply to a request that was not read. -/
theorem status_answerReply_ne (a : Answer) : (answerReply a).status ≠ 413 := by
  cases a <;> simp [answerReply, Answer.status]

/-- The reply to a request tells how the request was counted. -/
theorem endsAs_answerReply (a : Answer) (o : Outcome) :
    (answerReply a).endsAs o = decide (a.outcome = o) := by
  cases o with
  | admitted =>
      rw [Reply.endsAs, allowed?_answerReply]
      cases a <;> rfl
  | rejected =>
      rw [Reply.endsAs, allowed?_answerReply]
      cases a <;> rfl
  | invalid => cases a <;> rfl
  | rateLimited => cases a <;> rfl

/-- The reply to a request lists the breaches that were counted. -/
theorem countP_violations_answerReply (a : Answer) (l : Limit) :
    (answerReply a).violations.countP l.isKindOf = (a.breaches.map Breach.limit).count l := by
  rw [violations_answerReply, List.countP_map, List.count, List.countP_map]
  refine List.countP_congr fun b _ => ?_
  simp [Limit.isKindOf_toJson]

/-! ## Counters and replies -/

/-- The counters are those of the replies, one for each request that was read. -/
structure Matches (t : Tally) (replies : List Reply) : Prop where
  requests : ∀ o, t.requestsOf o = replies.countP (·.endsAs o)
  total : t.requestsOf .admitted + t.requestsOf .rejected + t.requestsOf .invalid +
    t.requestsOf .rateLimited = replies.countP (·.status ≠ 413)
  breaches : ∀ l, t.breachesOf l = (replies.flatMap Reply.violations).countP l.isKindOf
  refused : t.refused = t.requestsOf .rateLimited
  rate : t.breachesOf .rate = t.requestsOf .rateLimited

/-- A client beyond its quota is told so once; no other answer mentions that limit. -/
def ReportsRate (a : Answer) : Prop :=
  (a.breaches.map Breach.limit).count .rate = if a.outcome = .rateLimited then 1 else 0

theorem Matches.count {t : Tally} {replies : List Reply} {a : Answer} (h : Matches t replies)
    (ha : ReportsRate a) :
    Matches (t.count a.outcome (a.breaches.map Breach.limit)) (replies ++ [answerReply a]) where
  requests o := by
    rw [Tally.requestsOf_count, h.requests, List.countP_append, List.countP_singleton,
      endsAs_answerReply]
    simp
  total := by
    have hone : [answerReply a].countP (·.status ≠ 413) = 1 := by
      simp [status_answerReply_ne]
    rw [List.countP_append, hone, ← h.total]
    simp only [Tally.requestsOf_count]
    cases a.outcome <;> simp <;> omega
  breaches l := by
    simp [Tally.breachesOf_count, h.breaches, countP_violations_answerReply]
  refused := by
    rw [Tally.requestsOf_count, ← h.refused, Tally.count]
    split <;> rfl
  rate := by
    rw [Tally.breachesOf_count, Tally.requestsOf_count, h.rate, ha]

theorem Matches.overlong {t : Tally} {replies : List Reply} (h : Matches t replies) :
    Matches t (replies ++ [overlongReply]) where
  requests o := by
    have hnone : overlongReply.endsAs o = false := by cases o <;> rfl
    simp [h.requests, hnone]
  total := by simp [h.total, overlongReply]
  breaches l := by simp [h.breaches, overlongReply, Reply.violations, Reply.member?]
  refused := h.refused
  rate := h.rate

theorem Matches.setTracked {t : Tally} {replies : List Reply} (h : Matches t replies) (n : Nat) :
    Matches (t.setTracked n) replies :=
  ⟨h.requests, h.total, h.breaches, h.refused, h.rate⟩

end Service

/-! ## Who is told of the quota -/

theorem Gate.limit_ne_rate {s : Settings} {g : Gate} (h : Gate.ofSettings s = .ok g)
    {a : Analysis} {b : Breach} (hb : b ∈ (g.judge a).breaches) : b.limit ≠ .rate := by
  rw [judge_eq h, Verdict.breaches_ofBreaches] at hb
  exact LimitSettings.limit_ne_rate_of_mem_breached hb

theorem Quota.limit_of_limited {q : Quota} {client : String} {now : Int} {breach : Breach}
    {left : Nat} (h : (q.check client now).1 = .limited breach left) : breach.limit = .rate := by
  rw [check, decide] at h
  split at h
  · cases h
    rfl
  · cases h

namespace Service

theorem reportsRate_gateAnswer {s : Settings} {g : Gate} (h : Gate.ofSettings s = .ok g)
    (query : Option String) (remaining : Nat) : ReportsRate (g.answer query remaining) := by
  rw [Gate.answer]
  split
  · rfl
  · rename_i q _
    dsimp only
    cases hjudge : g.judge (g.analyse q) with
    | admitted => rfl
    | rejected breaches =>
        refine List.count_eq_zero.mpr fun hin => ?_
        obtain ⟨b, hb, hrate⟩ := List.mem_map.mp hin
        exact Gate.limit_ne_rate h (by rwa [hjudge]) hrate

theorem reportsRate_answer {settings : Settings} {s : Service}
    (h : Gate.ofSettings settings = .ok s.gate) (envelope : Envelope) (client : String)
    (now : Int) : ReportsRate (s.answer envelope (s.quota.check client now).1) := by
  cases hdecision : (s.quota.check client now).1 with
  | allowed remaining _ => exact reportsRate_gateAnswer h envelope.query remaining
  | limited breach left =>
      have hrate := Quota.limit_of_limited hdecision
      simp [ReportsRate, answer, Answer.breaches, Answer.outcome, hrate]

/-! ## Runs -/

def Event.isCheck : Event → Bool
  | .request r => decide (IsCheck r)
  | .advance _ => false
  | .cleanup => false

def Event.isRead : Event → Bool
  | .request r => decide (IsRead r)
  | .advance _ => false
  | .cleanup => false

namespace Clocked

/-- The reply to an event, if it is a request to check a query. -/
def checkReply? (c : Clocked) : Event → Option Reply
  | .request r => if IsCheck r then some (c.reply r) else none
  | .advance _ => none
  | .cleanup => none

/-- The replies to the requests to check a query in a run. -/
def checkReplies (c : Clocked) : List Event → List Reply
  | [] => []
  | event :: events => (c.checkReply? event).toList ++ (c.after event).checkReplies events

/-- The counters are those of the replies, and the number of clients with a window is known. -/
structure Books (c : Clocked) (replies : List Reply) : Prop where
  counters : Matches c.service.tally replies
  tracked : c.service.tally.tracked = c.service.quota.tracked

theorem Books.after {s : Settings} {c : Clocked} {replies : List Reply} (h : c.Books replies)
    (hgate : Gate.ofSettings s = .ok c.service.gate) (event : Event) :
    (c.after event).Books (replies ++ (c.checkReply? event).toList) := by
  cases event with
  | request r =>
      by_cases hr : IsCheck r
      · rw [checkReply?, if_pos hr, reply, Clocked.after, Option.toList_some]
        by_cases hread : IsRead r
        · rw [respond_of_read _ _ hread]
          rcases c.service.check_cases c.now r.body with ⟨a, hinvalid, hnone, heq⟩ |
            ⟨envelope, -, -, heq⟩
          · have ha : ReportsRate a := by simp [ReportsRate, hinvalid, hnone]
            rw [heq]
            exact ⟨h.counters.count ha, h.tracked⟩
          · rw [heq]
            exact ⟨(h.counters.setTracked _).count (reportsRate_answer hgate _ _ _), rfl⟩
        · rw [respond_of_overlong _ _ hr (hr.overlong hread)]
          exact ⟨h.counters.overlong, h.tracked⟩
      · rw [checkReply?, if_neg hr, Clocked.after, respond_of_not_check _ _ hr, Option.toList_none,
          List.append_nil]
        exact h
  | advance nanos =>
      rw [checkReply?, Option.toList_none, List.append_nil]
      exact ⟨h.counters, h.tracked⟩
  | cleanup =>
      rw [checkReply?, Option.toList_none, List.append_nil]
      exact ⟨h.counters.setTracked _, rfl⟩

theorem Books.run {s : Settings} {c : Clocked} {replies : List Reply} (h : c.Books replies)
    (hgate : Gate.ofSettings s = .ok c.service.gate) (events : List Event) :
    (c.run events).Books (replies ++ c.checkReplies events) := by
  induction events generalizing c replies with
  | nil => simpa [checkReplies] using h
  | cons event events ih =>
      rw [run_cons, checkReplies, ← List.append_assoc]
      exact ih (h.after hgate event) (by rw [gate_after]; exact hgate)

theorem books_ofSettings {s : Settings} {service : Service} (h : ofSettings s = .ok service)
    (start : Int) : (Clocked.mk service start).Books [] := by
  obtain ⟨gate, -, rfl⟩ := ofSettings_eq h
  have hrequests : ∀ o, Tally.requestsOf {} o = 0 := fun _ => rfl
  have hbreaches : ∀ l, Tally.breachesOf {} l = 0 := by
    intro l
    rw [Tally.breachesOf, Keyed.get?_ofList]
    cases l <;> rfl
  exact ⟨⟨hrequests, rfl, hbreaches, rfl, hbreaches .rate⟩, rfl⟩

theorem length_checkReplies (c : Clocked) (events : List Event) :
    (c.checkReplies events).length = events.countP Event.isCheck := by
  induction events generalizing c with
  | nil => rfl
  | cons event events ih =>
      rw [checkReplies, List.length_append, ih, List.countP_cons, Nat.add_comm]
      cases event with
      | request r =>
          by_cases hr : IsCheck r
          · simp [checkReply?, Event.isCheck, hr]
          · simp [checkReply?, Event.isCheck, hr]
      | advance _ => rfl
      | cleanup => rfl

theorem status_reply_iff (c : Clocked) {r : Request} (hr : IsCheck r) :
    (c.reply r).status ≠ 413 ↔ IsRead r := by
  rw [reply]
  by_cases hread : IsRead r
  · rw [respond_of_read _ _ hread]
    exact iff_of_true (status_answerReply_ne _) hread
  · rw [respond_of_overlong _ _ hr (hr.overlong hread)]
    exact iff_of_false (fun h => h rfl) hread

/-- The replies tell which requests were read. -/
theorem countP_checkReplies (c : Clocked) (events : List Event) :
    (c.checkReplies events).countP (·.status ≠ 413) = events.countP Event.isRead := by
  induction events generalizing c with
  | nil => rfl
  | cons event events ih =>
      rw [checkReplies, List.countP_append, ih, List.countP_cons, Nat.add_comm]
      cases event with
      | request r =>
          by_cases hr : IsCheck r
          · simp [checkReply?, Event.isRead, hr, ← c.status_reply_iff hr, List.countP_cons]
          · have hread : ¬ IsRead r := fun h => hr h.1
            simp [checkReply?, Event.isRead, hr, hread]
      | advance _ => rfl
      | cleanup => rfl

end Clocked

/-- After every run the counters tell what was replied: how many requests to check a query have
ended in each way, how many breaches of each limit were listed, and how often a client was beyond
its quota. The ways together make up all requests to check a query that were handled; the others
were too long to be read, and their replies say so. The number of clients with a window is the true
one. No other request changes any of it. -/
theorem tally_run {settings : Settings} {service : Service}
    (hvalid : ofSettings settings = .ok service) (start : Int) (events : List Event) :
    let c := (Clocked.mk service start).run events
    let replies := (Clocked.mk service start).checkReplies events
    let t := c.service.tally
    (∀ o, t.requestsOf o = replies.countP (·.endsAs o)) ∧
    t.requestsOf .admitted + t.requestsOf .rejected + t.requestsOf .invalid +
      t.requestsOf .rateLimited = events.countP Event.isRead ∧
    events.countP Event.isRead + replies.countP (·.status = 413) = events.countP Event.isCheck ∧
    (∀ l, t.breachesOf l = (replies.flatMap Reply.violations).countP l.isKindOf) ∧
    t.refused = t.requestsOf .rateLimited ∧ t.refused = t.breachesOf .rate ∧
    t.tracked = c.service.quota.tracked ∧
    ∀ r, ¬ IsRead r → (c.after (.request r)).service = c.service := by
  intro c replies t
  obtain ⟨gate, hgate, hservice⟩ := ofSettings_eq hvalid
  have hstart : Gate.ofSettings settings = .ok (Clocked.mk service start).service.gate := by
    rw [hservice]
    exact hgate
  obtain ⟨hcounters, htracked⟩ := (Clocked.books_ofSettings hvalid start).run hstart events
  have hread := Clocked.countP_checkReplies (Clocked.mk service start) events
  refine ⟨hcounters.requests, hcounters.total.trans hread, ?_, hcounters.breaches,
    hcounters.refused, hcounters.refused.trans hcounters.rate.symm, htracked, fun r hr => ?_⟩
  · have hsplit := List.length_eq_countP_add_countP (fun reply : Reply => reply.status ≠ 413)
      (l := replies)
    rw [hread, Clocked.length_checkReplies] at hsplit
    simpa using hsplit.symm
  · exact respond_of_not_read _ _ hr

/-- One request in a window is allowed, the second is refused, and a third has the wrong method. -/
theorem tally_run_refused :
    let settings : Settings := { rate := { limit := 1 }, costs := { weights := ∅ } }
    let r : Request := ⟨"POST", "/check", bytesOf "\x7b\"client\":\"c\"\x7d"⟩
    ∃ service, ofSettings settings = .ok service ∧
      let t := ((Clocked.mk service 0).run
        [.request r, .request r, .request { r with method := "GET" }]).service.tally
      t.requestsOf .rateLimited = 1 ∧ t.refused = 1 ∧ t.breachesOf .rate = 1 ∧
      t.requestsOf .admitted + t.requestsOf .rejected + t.requestsOf .invalid = 1 := by
  intro settings r
  obtain ⟨service, hvalid⟩ : ∃ service, ofSettings settings = .ok service := ⟨_, rfl⟩
  have hr : Names r "c" := @names_plain "c" rfl (by decide) (by decide)
  have hcheck : IsCheck r := hr.isRead.1
  have hget : ¬ IsCheck { r with method := "GET" } := fun h => absurd h.1 (by decide)
  have hfresh : service.quota = ⟨1, 60 * nanosPerSecond, ∅⟩ := (ofSettings_spec hvalid).2
  have hfirst : ((Clocked.mk service 0).reply r).status ≠ 429 := by
    rw [ne_eq, Clocked.status_reply hr, hfresh]
    simp [Quota.check, Quota.windowAfter, Quota.decide, Window.opened, Decision.isAllowed]
  have hsecond : (((Clocked.mk service 0).after (.request r)).reply r).status = 429 := by
    obtain ⟨-, -, hquota⟩ := hr.respond_eq service 0
    rw [Clocked.status_reply hr, Clocked.after, hquota, hfresh]
    simp [Quota.check, Quota.window?, Quota.windowAfter, Quota.decide, Window.opened,
      Window.request, Window.hasElapsed, Window.age, Window.maxCount, nanosPerSecond,
      Decision.isAllowed]
  obtain ⟨hrequests, htotal, -, -, hrefused, hrate, -, -⟩ := tally_run hvalid 0
    [.request r, .request r, .request { r with method := "GET" }]
  have hlimited := hrequests .rateLimited
  simp only [Clocked.checkReplies, Clocked.checkReply?, if_pos hcheck, if_neg hget,
    Option.toList_some, Option.toList_none, List.append_nil, List.singleton_append,
    List.countP_cons, List.countP_nil, Reply.endsAs, beq_iff_eq, if_neg hfirst,
    if_pos hsecond] at hlimited
  have hcount : [Event.request r, .request r, .request { r with method := "GET" }].countP
      Event.isRead = 2 := by
    have hnot : ¬ IsRead { r with method := "GET" } := fun h => hget h.1
    simp [Event.isRead, hr.isRead, hnot]
  rw [hcount] at htotal
  refine ⟨service, hvalid, hlimited, ?_, ?_, ?_⟩ <;> omega

end Service

end QueryAdmission

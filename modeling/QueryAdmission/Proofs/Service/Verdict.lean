import QueryAdmission.Proofs.Keyed
import QueryAdmission.Proofs.Service.Run

/-! # What a query is replied

The reply to a query is made of what the gate says of it and of what is left of the client's quota.
Nothing that happened before has a bearing on it beyond that, and neither has the way in which the
request is written, as long as it is short enough to be read. -/

namespace QueryAdmission

/-! ## Replies and their members -/

/-- The value of a member of an object. -/
def Json.member? (name : String) : Json → Option Json
  | .object members => members.lookup name
  | _ => none

theorem Json.member?_ofMembers {members : List (String × Json)}
    (h : members.Pairwise fun x y => x.1 ≠ y.1) (name : String) :
    (Json.ofMembers members).member? name = members.lookup name :=
  (Keyed.get?_ofList members name).trans (Keyed.lookup_reverse h name)

/-- The value of a member of a reply's body. -/
def Reply.member? (reply : Reply) (name : String) : Option Json :=
  match reply.body with
  | .json v => v.member? name
  | _ => none

/-- The body of a reply has these members and no others. -/
def Reply.Holds (reply : Reply) (members : List (String × Json)) : Prop :=
  ∀ name, reply.member? name = members.lookup name

namespace Service

open Json (Derives IsValueText Leads spellsText_self)

/-- The query that a request asks for, the empty one if it has none. -/
def queryOf : Option String → Except Wire.Error Query
  | none => .ok .empty
  | some text => Query.ofText text

/-- What a reply says of a query that was read, or of why it was not, to a client with so many
requests left. -/
def Conveys (gate : Gate) (remaining : Nat) (reply : Reply) : Except Wire.Error Query → Prop
  | .error e =>
    reply.status = 400 ∧ reply.Holds [
      ("allowed", .bool false),
      ("errors", .list [.ofMembers [
        ("message", .text e.message),
        ("extensions", .ofMembers [("code", .text "INVALID_SELECTION_DOCUMENT")])]]),
      ("remaining", .nat remaining)]
  | .ok q =>
    reply.status = 200 ∧
      match gate.judge (gate.analyse q) with
      | .admitted => reply.Holds [
          ("allowed", .bool true),
          ("analysis", (gate.analyse q).toJson),
          ("remaining", .nat remaining)]
      | .rejected breaches => reply.Holds [
          ("allowed", .bool false),
          ("violations", .list (breaches.map fun b => .ofMembers [
            ("kind", .text b.limit.code),
            ("observed", .nat b.observed),
            ("threshold", .nat b.threshold)])),
          ("errors", .list (breaches.map fun b => .ofMembers [
            ("message", .text b.message),
            ("extensions", .ofMembers [
              ("code", .text b.limit.code),
              ("observed", .nat b.observed),
              ("threshold", .nat b.threshold)])])),
          ("analysis", (gate.analyse q).toJson),
          ("remaining", .nat remaining)]

theorem Conveys.remaining {gate : Gate} {remaining : Nat} {reply : Reply}
    {query : Except Wire.Error Query} (h : Conveys gate remaining reply query) :
    reply.member? "remaining" = some (.nat remaining) := by
  cases query with
  | error e => exact h.2 "remaining"
  | ok q =>
      obtain ⟨-, h⟩ := h
      split at h
      · exact h "remaining"
      · exact h "remaining"

theorem Conveys.status {gate : Gate} {remaining : Nat} {reply : Reply}
    {query : Except Wire.Error Query} (h : Conveys gate remaining reply query) :
    reply.status = 400 ∨ reply.status = 200 := by
  cases query with
  | error e => exact .inl h.1
  | ok q => exact .inr h.1

theorem holds_answerReply {a : Answer} {members : List (String × Json)}
    (h : a.toJson = .ofMembers members) (hnames : members.Pairwise fun x y => x.1 ≠ y.1) :
    (answerReply a).Holds members := by
  intro name
  rw [Reply.member?, answerReply, h]
  exact Json.member?_ofMembers hnames name

/-- The answer of a gate says what the gate does. -/
theorem conveys_gateAnswer (gate : Gate) (query : Option String) (remaining : Nat) :
    Conveys gate remaining (answerReply (gate.answer query remaining))
      (queryOf query) := by
  have hquery : (query.map Query.ofText).getD (.ok .empty) = queryOf query := by
    cases query with
    | none => rfl
    | some text => rfl
  rw [Gate.answer, hquery]
  cases queryOf query with
  | error e => exact ⟨rfl, holds_answerReply rfl (by simp)⟩
  | ok q =>
      dsimp only
      cases hjudge : gate.judge (gate.analyse q) with
      | admitted =>
          refine ⟨rfl, ?_⟩
          rw [hjudge]
          exact holds_answerReply rfl (by simp)
      | rejected breaches =>
          refine ⟨rfl, ?_⟩
          rw [hjudge]
          exact holds_answerReply rfl (by simp)

/-! ## Requests with queries -/

/-- The client has not used up its quota: it may make a request, and so many more after it. -/
def Clocked.Admits (c : Clocked) (client : String) (remaining : Nat) : Prop :=
  ∃ resetIn, (c.service.quota.check client c.now).1 = .allowed remaining resetIn

/-- After any run, a client with requests left is told what the gate of the settings says of its
query, the empty one if it sends none. The client has a name that is not blank, and the request is
short enough to be read. -/
theorem reply_conveys {settings : Settings} {service : Service}
    (hvalid : ofSettings settings = .ok service) (start : Int) (before : List Event)
    {r : Request} (hr : IsRead r) {client : String} {query : Option String}
    (hasks : Envelope.Asks r.body client query) (hblank : Text.isBlankText client = false)
    {remaining : Nat} (hadmits : ((Clocked.mk service start).run before).Admits client remaining) :
    ∃ gate, Gate.ofSettings settings = .ok gate ∧
      Conveys gate remaining (((Clocked.mk service start).run before).reply r)
        (queryOf query) := by
  obtain ⟨gate, hgate, rfl⟩ := ofSettings_eq hvalid
  refine ⟨gate, hgate, ?_⟩
  obtain ⟨resetIn, hdecision⟩ := hadmits
  rw [Clocked.reply, respond_of_read _ _ hr,
    check_of_named _ _ hasks.ofBytes_eq hblank, hdecision, answer, Clocked.gate_run]
  exact conveys_gateAnswer gate query remaining

/-- A second request of a client, with the query before the client, another member in between, and
white space. The query is a value, but not one that stands for a query. -/
theorem reply_conveys_second :
    let settings : Settings := { costs := { weights := ∅ } }
    let first : Request := ⟨"POST", "/check", bytesOf "\x7b\"client\":\"c\"\x7d"⟩
    let r : Request :=
      ⟨"POST", "/check", bytesOf " \x7b\"query\": 0 ,\"x\":[],\"client\":\"c\"\x7d"⟩
    ∃ service gate, ofSettings settings = .ok service ∧ Gate.ofSettings settings = .ok gate ∧
      IsRead r ∧ Envelope.Asks r.body "c" (some "0") ∧ Text.isBlankText "c" = false ∧
      let c := (Clocked.mk service 0).run [.request first, .advance 1]
      c.Admits "c" 8 ∧ Conveys gate 8 (c.reply r) (Query.ofText "0") ∧
      (c.reply r).status = 400 := by
  intro settings first r
  obtain ⟨service, hvalid⟩ : ∃ service, ofSettings settings = .ok service := ⟨_, rfl⟩
  have hfirst : Names first "c" := @names_plain "c" rfl (by decide) (by decide)
  have hquery : Leads true "query" (bytesOf "\"query\": 0 ,\"x\":[],\"client\":\"c\"\x7d")
      (bytesOf "0" ++ bytesOf " ,\"x\":[],\"client\":\"c\"\x7d") :=
    .mk (.fresh (.nil _)) (spellsText_self _ rfl) (.nil _) (.cons rfl (.nil _))
  have hother : Leads false "x" (bytesOf " ,\"x\":[],\"client\":\"c\"\x7d")
      (bytesOf "[],\"client\":\"c\"\x7d") :=
    .mk (.later (.cons rfl (.nil _)) (.nil _)) (spellsText_self _ rfl) (.nil _) (.nil _)
  have hclient : Leads false "client" (bytesOf ",\"client\":\"c\"\x7d") (bytesOf "\"c\"\x7d") :=
    .mk (.later (.nil _) (.nil _)) (spellsText_self _ rfl) (.nil _) (.nil _)
  have hvalue : IsValueText "0" := .numeral (.positive (.zero _) (.none _) (.none _))
  have hasks : Envelope.Asks r.body "c" (some "0") :=
    ⟨_, _, some (some "0"), .cons rfl (.nil _), .query hquery hvalue (by decide)
      (.other hother (by decide) (by decide) (.list (.endList _ (.nil _)))
        (.client hclient (spellsText_self (t := "c") _ rfl) (.close _ (.nil _)))), .nil _, rfl⟩
  have hadmits : ((Clocked.mk service 0).run [.request first, .advance 1]).Admits "c" 8 := by
    obtain ⟨-, -, hquota⟩ := hfirst.respond_eq service 0
    have hfresh : service.quota = ⟨10, 60 * nanosPerSecond, ∅⟩ := (ofSettings_spec hvalid).2
    refine ⟨59999999999, ?_⟩
    simp only [Clocked.run_cons, Clocked.run_nil, Clocked.after, hquota, hfresh]
    simp [Quota.check, Quota.window?, Quota.windowAfter, Quota.decide, Window.opened,
      Window.request, Window.hasElapsed, Window.age, Window.timeLeft, Window.maxCount,
      nanosPerSecond]
  obtain ⟨gate, hgate, hconveys⟩ :=
    reply_conveys hvalid 0 [.request first, .advance 1] (by decide) hasks (by decide) hadmits
  exact ⟨service, gate, hvalid, hgate, by decide, hasks, by decide, hadmits, hconveys,
    hconveys.1⟩

/-- A client with a blank name is not told about its query. -/
theorem not_conveys_of_blank (c : Clocked) {r : Request} (hr : IsRead r) {envelope : Envelope}
    (henvelope : Envelope.ofBytes r.body = .ok envelope)
    (hblank : Text.isBlankText envelope.client = true) (gate : Gate) (remaining : Nat)
    (query : Except Wire.Error Query) : ¬ Conveys gate remaining (c.reply r) query := by
  intro hconveys
  have hholds : (answerReply .anonymous).Holds
      [("allowed", .bool false), ("errors", unreadableErrors "client identity is required")] :=
    holds_answerReply rfl (by simp)
  rw [Clocked.reply, respond_of_read _ _ hr, check_of_blank _ _ henvelope hblank] at hconveys
  have hmissing := hconveys.remaining.symm.trans (hholds "remaining")
  cases hmissing

/-- A client whose request is too long is not told about its query. -/
theorem not_conveys_of_overlong (c : Clocked) {r : Request} (hr : IsCheck r)
    (hlong : maxBodyLength < r.body.length) (gate : Gate) (remaining : Nat)
    (query : Except Wire.Error Query) : ¬ Conveys gate remaining (c.reply r) query := by
  intro hconveys
  have hoverlong : (c.reply r).status = 413 := by
    rw [Clocked.reply, respond_of_overlong _ _ hr hlong]
    rfl
  rcases hconveys.status with hstatus | hstatus
  · cases hoverlong.symm.trans hstatus
  · cases hoverlong.symm.trans hstatus

/-- A client whose name is a space, and one that sends two megabytes of blanks in its query, have
quotas like any other, but are not told about their queries. -/
theorem reply_conveys_exceptions :
    let settings : Settings := { costs := { weights := ∅ } }
    let nameless : Request :=
      ⟨"POST", "/check", bytesOf "\x7b\"client\":\" \",\"query\":\x7b\x7d\x7d"⟩
    let overlong : Request := ⟨"POST", "/check", Envelope.blankBody maxBodyLength⟩
    let query := Envelope.blankQuery maxBodyLength
    ∃ service gate, ofSettings settings = .ok service ∧ Gate.ofSettings settings = .ok gate ∧
      let c := Clocked.mk service 0
      (IsCheck nameless ∧ Envelope.Asks nameless.body " " (some "\x7b\x7d") ∧ c.Admits " " 9 ∧
        ¬ Conveys gate 9 (c.reply nameless) (Query.ofText "\x7b\x7d")) ∧
      IsCheck overlong ∧ Envelope.Asks overlong.body "c" (some query) ∧ c.Admits "c" 9 ∧
        ¬ Conveys gate 9 (c.reply overlong) (Query.ofText query) := by
  intro settings nameless overlong query
  obtain ⟨service, hvalid⟩ : ∃ service, ofSettings settings = .ok service := ⟨_, rfl⟩
  obtain ⟨gate, hgate, -⟩ := ofSettings_eq hvalid
  have hadmits : ∀ client, (Clocked.mk service 0).Admits client 9 := by
    intro client
    have hfresh : service.quota = ⟨10, 60 * nanosPerSecond, ∅⟩ := (ofSettings_spec hvalid).2
    refine ⟨60000000000, ?_⟩
    simp [hfresh, Quota.check, Quota.windowAfter, Quota.decide, Window.opened, Window.age,
      Window.timeLeft, nanosPerSecond]
  have hnameless : Envelope.Asks nameless.body " " (some "\x7b\x7d") :=
    @Envelope.asks_plain " " "\x7b\x7d" rfl (.object (.endObject true (.nil _))) (by decide)
  have hoverlong : IsCheck overlong := isCheck_check _
  refine ⟨service, gate, hvalid, hgate, ⟨by decide, hnameless, hadmits " ", ?_⟩, hoverlong,
    Envelope.asks_blankBody _, hadmits "c", ?_⟩
  · exact not_conveys_of_blank _ (by decide) hnameless.ofBytes_eq (by decide) _ _ _
  · exact not_conveys_of_overlong _ hoverlong (Envelope.lt_length_blankBody _) _ _ _

end Service

end QueryAdmission

import Mathlib.Data.List.DropRight
import QueryAdmission.Proofs.Json.Printing
import QueryAdmission.Proofs.Query.Wellformed
import QueryAdmission.Proofs.Service.Verdict

/-! # Queries in envelopes

An envelope keeps the text of its query as it is, without the white space around it, and does not
look into it. It still turns no query away: whatever is read as a query is passed over as a value,
however deep it is nested, and reads back from the text that was kept. -/

namespace QueryAdmission

open Json

/-! ## Texts without white space around them -/

/-- Bytes without the white space around them. -/
def trim (s : Bytes) : Bytes := (skipSpace s).rdropWhile Byte.isSpace

theorem forall_isSpace_of_blanks {r : Bytes} (h : Blanks r []) :
    ∀ b ∈ r, Byte.isSpace b = true := by
  generalize hend : ([] : Bytes) = t at h
  induction h with
  | nil =>
      subst hend
      exact fun b hb => absurd hb List.not_mem_nil
  | cons hb _ ih => exact List.forall_mem_cons.mpr ⟨hb, ih hend⟩

/-- White space after a value does not belong to it. -/
theorem trim_eq {s v r : Bytes} (hs : skipSpace s = v ++ r) (hv : Derives .value v [])
    (hr : skipSpace r = []) : trim s = v := by
  have hblanks : Blanks r [] := hr ▸ blanks_skipSpace r
  obtain ⟨u, b, hu, hb⟩ := hv.endsBefore
  have hspace : (r.reverse).dropWhile Byte.isSpace = [] := by
    rw [List.dropWhile_eq_nil_iff]
    exact fun b hb => forall_isSpace_of_blanks hblanks b (List.mem_reverse.mp hb)
  rw [trim, hs, List.rdropWhile, List.reverse_append, List.dropWhile_append, hspace,
    List.isEmpty_nil, if_pos rfl, hu, List.reverse_append, List.reverse_singleton,
    List.singleton_append, List.dropWhile_cons_of_neg (by simp [hb]), List.reverse_cons,
    List.reverse_reverse]

/-- The text of a query is that of a value, with white space around it. Without the white space it
is the text of the same query. -/
theorem Query.exists_core {text : String} {q : Query} (h : ofText text = .ok q) :
    ∃ core r, bytesOf core = trim (bytesOf text) ∧ skipSpace (bytesOf text) = bytesOf core ++ r ∧
      Blanks r [] ∧ IsValueText core ∧ ofText core = .ok q := by
  obtain ⟨u, v, r, hsplit, hu, hv, hstart, hend, hvalue, hread⟩ :=
    Wire.exists_core_of_readQuery (ofText_eq_ok_iff.mp h)
  obtain ⟨before, after, -, hbefore, -⟩ := exists_append_of_endsAscii hsplit (hu.append hv)
  obtain ⟨lead, core, -, -, hcore⟩ := exists_append_of_endsAscii hbefore hu
  refine ⟨core, r, ?_, ?_, hend ▸ blanks_skipSpace r, ?_, ofText_eq_ok_iff.mpr ?_⟩
  · rw [hcore, trim_eq hstart hvalue hend]
  · rw [hcore, hstart]
  · rw [IsValueText, hcore]
    exact hvalue
  · rw [hcore]
    exact hread

/-! ## Every string can be spelled -/

theorem exists_spellsText (t : String) (r : Bytes) : ∃ s, SpellsText t s r := by
  obtain ⟨text, -, hspells⟩ := exists_written t.toList
  exact ⟨_, hspells r⟩

/-! ## Envelopes around a text -/

namespace Envelope

/-- A body that names a client, however that is spelled, and then has a text in the place of its
query, with white space wherever there can be some. -/
def Wraps (body : Bytes) (client text : String) : Prop :=
  ∃ s t u v w, Blanks body (Byte.openCurly :: s) ∧ Leads true "client" s (Byte.quote :: t) ∧
    SpellsText client t u ∧ Leads false "query" u (bytesOf text ++ v) ∧
    Blanks v (Byte.closeCurly :: w) ∧ Blanks w []

theorem exists_wraps (client text : String) : ∃ body, Wraps body client text := by
  obtain ⟨t, ht⟩ := exists_spellsText client
    (bytesOf ",\"query\":" ++ (bytesOf text ++ [Byte.closeCurly]))
  have hclient : Leads true "client" (bytesOf "\"client\":\"" ++ t) (Byte.quote :: t) :=
    .mk (.fresh (.nil _)) (spellsText_self (t := "client") _ rfl) (.nil _) (.nil _)
  have hquery : Leads false "query" (bytesOf ",\"query\":" ++ (bytesOf text ++ [Byte.closeCurly]))
      (bytesOf text ++ [Byte.closeCurly]) :=
    .mk (.later (.nil _) (.nil _)) (spellsText_self (t := "query") _ rfl) (.nil _) (.nil _)
  exact ⟨_, _, t, _, _, [], .nil _, hclient, ht, hquery, .nil _, .nil _⟩

/-- An envelope around the text of a query asks for that query. -/
theorem Wraps.asks {body : Bytes} {client text core : String} {r : Bytes}
    (h : Wraps body client text) (htext : skipSpace (bytesOf text) = bytesOf core ++ r)
    (hr : Blanks r []) (hcore : IsValueText core) (hne : core ≠ "null") :
    Asks body client (some core) := by
  obtain ⟨s, t, u, v, w, hbody, hclient, hspelled, ⟨hcomma, hname, hcolon, hvalue⟩, hclose, hend⟩ :=
    h
  have hblanks := (htext ▸ blanks_skipSpace (bytesOf text)).append v
  rw [List.append_assoc] at hblanks
  have hquery : Leads false "query" u (bytesOf core ++ (r ++ v)) :=
    .mk hcomma hname hcolon (hvalue.trans hblanks)
  have hlast : Blanks (r ++ v) (Byte.closeCurly :: w) := (hr.append v).trans hclose
  exact ⟨s, w, some (some core), hbody,
    .client hclient hspelled (.query hquery hcore hne (.close false hlast)), hend, rfl⟩

end Envelope

/-! ## What is kept -/

namespace Service

/-- A request for a query that was read is refused for the client's quota only. -/
theorem reply_of_query (c : Clocked) {r : Request} (hr : IsRead r) {client text : String}
    {q : Query} (henvelope : Envelope.ofBytes r.body = .ok ⟨client, some text⟩)
    (hblank : Text.isBlankText client = false) (hq : Query.ofText text = .ok q) :
    (c.reply r).status ≠ 400 ∧ ((c.reply r).status ≠ 429 →
      ∃ remaining, Conveys c.service.gate remaining (c.reply r) (.ok q)) := by
  rw [Clocked.reply, respond_of_read _ _ hr, check_of_named _ _ henvelope hblank]
  dsimp only
  cases (c.service.quota.check client c.now).1 with
  | limited breach wait =>
      have hstatus : (answerReply (.limited breach (waitSecs wait))).status = 429 := rfl
      rw [answer, hstatus]
      exact ⟨by decide, fun h429 => absurd rfl h429⟩
  | allowed remaining resetIn =>
      have hconveys := conveys_gateAnswer c.service.gate (some text) remaining
      rw [queryOf, hq] at hconveys
      rw [answer]
      refine ⟨?_, fun _ => ⟨remaining, hconveys⟩⟩
      rw [hconveys.1]
      decide

/-- A text that is read as a query is passed over as a value, up to the white space after it, and is
kept without the white space around it. What was kept is the text of the same query. So every
envelope that names a client and holds such a text is read, keeps the query to the byte, and is not
refused as malformed; if its request is not too long, the client is told about the query. -/
theorem ofBytes_of_ofText {text : String} {q : Query} (h : Query.ofText text = .ok q) :
    ∃ core r, bytesOf core = trim (bytesOf text) ∧ Query.ofText core = .ok q ∧
      skipValue (bytesOf text) = .ok r ∧ skipSpace r = [] ∧
      Reader.rawText.run (bytesOf text) = .ok (core, r) ∧
      ∀ client : String, Text.isBlankText client = false →
        (∃ body, Envelope.Wraps body client text) ∧
        ∀ body, Envelope.Wraps body client text →
          Envelope.ofBytes body = .ok ⟨client, some core⟩ ∧
          ∀ (c : Clocked) (r : Request), IsCheck r → r.body = body →
            (c.reply r).status ≠ 400 ∧ (body.length ≤ maxBodyLength → (c.reply r).status ≠ 429 →
              ∃ remaining, Conveys c.service.gate remaining (c.reply r) (.ok q)) := by
  obtain ⟨core, r, hcore, hstart, hend, hvalue, hread⟩ := Query.exists_core h
  have hspace : skipSpace r = [] := hend.skipSpace_eq
  have hblanks : Blanks (bytesOf text) (bytesOf core ++ r) := hstart ▸ blanks_skipSpace _
  have hfollows : Follows r := hend.follows_of_follows nofun
  have hderives : Derives .value (bytesOf core ++ r) r := hvalue.append r
  have hne : core ≠ "null" := by
    rintro rfl
    cases hread
  refine ⟨core, r, hcore, hread, hderives.skipValue_eq hblanks hfollows, hspace,
    hvalue.run_rawText hblanks hfollows, fun client hclient =>
      ⟨Envelope.exists_wraps client text, fun body hbody => ?_⟩⟩
  have henvelope := (hbody.asks hstart hend hvalue hne).ofBytes_eq
  refine ⟨henvelope, fun c r hr hsame => ?_⟩
  subst hsame
  by_cases hshort : IsRead r
  · obtain ⟨hstatus, hconveys⟩ := reply_of_query c hshort henvelope hclient hread
    exact ⟨hstatus, fun _ => hconveys⟩
  · refine ⟨?_, fun hlength => absurd ⟨hr, hlength⟩ hshort⟩
    rw [Clocked.reply, respond_of_overlong _ _ hr (hr.overlong hshort)]
    simp [overlongReply]

/-- White space around the query and inside it, and a member that nobody asked for. -/
theorem ofBytes_of_ofText_spaced :
    let core := "\x7b \"x\":[[1.5e3]],\"selections\":" ++
      "[\x7b\"name\":\"a\",\"arguments\":\x7b\"k\":[2]\x7d\x7d]\x7d"
    let text := "\n " ++ core ++ " \t"
    let body := bytesOf "\x7b\"client\":\"c\",\"query\":" ++ (bytesOf text ++ bytesOf "\x7d\n")
    ∃ q, Query.ofText text = .ok q ∧ Query.ofText core = .ok q ∧
      Reader.rawText.run (bytesOf text) = .ok (core, bytesOf " \t") ∧
      Envelope.Wraps body "c" text ∧ Envelope.ofBytes body = .ok ⟨"c", some core⟩ := by
  intro core text body
  have hread : (Query.ofText text).toOption.isSome = true := by decide +kernel
  have htrim : trim (bytesOf text) = bytesOf core := by decide +kernel
  have hclient : Leads true "client" (bytesOf "\"client\":\"c\",\"query\":" ++
      (bytesOf text ++ bytesOf "\x7d\n")) (bytesOf "\"c\",\"query\":" ++
      (bytesOf text ++ bytesOf "\x7d\n")) :=
    .mk (.fresh (.nil _)) (spellsText_self (t := "client") _ rfl) (.nil _) (.nil _)
  have hquery : Leads false "query" (bytesOf ",\"query\":" ++ (bytesOf text ++ bytesOf "\x7d\n"))
      (bytesOf text ++ bytesOf "\x7d\n") :=
    .mk (.later (.nil _) (.nil _)) (spellsText_self (t := "query") _ rfl) (.nil _) (.nil _)
  have hbody : Envelope.Wraps body "c" text :=
    ⟨_, _, _, bytesOf "\x7d\n", bytesOf "\n", .nil _, hclient, spellsText_self (t := "c") _ rfl,
      hquery, .nil _, .cons rfl (.nil _)⟩
  cases hq : Query.ofText text with
  | error e =>
      rw [hq] at hread
      cases hread
  | ok q =>
      obtain ⟨kept, r, hkept, hcore, -, -, hraw, henvelopes⟩ := ofBytes_of_ofText hq
      obtain rfl : kept = core := bytesOf_inj (hkept.trans htrim)
      obtain ⟨henvelope, -⟩ := (henvelopes "c" (by decide)).2 body hbody
      have hrest : (Reader.rawText.run (bytesOf text)).toOption.map Prod.snd =
          some (bytesOf " \t") := by decide +kernel
      rw [hraw] at hrest
      obtain rfl : r = bytesOf " \t" := Option.some.inj hrest
      exact ⟨q, rfl, hcore, hraw, hbody, henvelope⟩

end Service

end QueryAdmission

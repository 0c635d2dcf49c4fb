import QueryAdmission.Proofs.Json.Record
import QueryAdmission.Service.Envelope

/-! # Envelopes as they are written

An envelope is an object that names a client and may hold a query. Its members come in any order,
with any others between them. Whichever way it is written, the client and the query are read back as
they are, the query to the byte. An envelope can be as long as one likes. -/

namespace QueryAdmission.Envelope

open Json

/-- `Lists fresh client query s r` says that `s` begins with the members of an object, up to its
closing bracket, and goes on with `r`. The client and the query are among them if they are given
here; a query is a value other than `null`, or `null`. -/
inductive Lists : (fresh : Bool) → (client : Option String) → (query : Option (Option String)) →
    Bytes → Bytes → Prop where
  | close (fresh : Bool) {s r : Bytes} : Blanks s (Byte.closeCurly :: r) →
      Lists fresh none none s r
  | client {fresh : Bool} {client : String} {query : Option (Option String)} {s t u r : Bytes} :
      Leads fresh "client" s (Byte.quote :: t) → SpellsText client t u →
      Lists false none query u r → Lists fresh (some client) query s r
  | query {fresh : Bool} {client : Option String} {text : String} {s t r : Bytes} :
      Leads fresh "query" s (bytesOf text ++ t) → IsValueText text → text ≠ "null" →
      Lists false client none t r → Lists fresh client (some (some text)) s r
  | noQuery {fresh : Bool} {client : Option String} {s t r : Bytes} :
      Leads fresh "query" s (0x6E :: 0x75 :: 0x6C :: 0x6C :: t) → Lists false client none t r →
      Lists fresh client (some none) s r
  | other {fresh : Bool} {client : Option String} {query : Option (Option String)} {name : String}
      {s t u r : Bytes} :
      Leads fresh name s t → name ≠ "client" → name ≠ "query" → Derives .value t u →
      Lists false client query u r → Lists fresh client query s r

/-- A body that asks for a query on behalf of a client. Without a query, the body has none or has
`null` in its place. -/
def Asks (body : Bytes) (client : String) (query : Option String) : Prop :=
  ∃ s r given, Blanks body (Byte.openCurly :: s) ∧ Lists true (some client) given s r ∧
    Blanks r [] ∧ given.join = query

section

variable {fresh : Bool} {client : Option String} {query : Option (Option String)} {s r : Bytes}

theorem Lists.follows (h : Lists false client query s r) : Follows s := by
  cases h with
  | close _ hs => exact hs.follows (by decide)
  | client hs _ _ => exact hs.follows
  | query hs _ _ _ => exact hs.follows
  | noQuery hs _ => exact hs.follows
  | other hs _ _ _ _ => exact hs.follows

/-- The members are read one by one into what was read before. -/
theorem Lists.readMembers_eq {seen : List String} {e : Envelope} (h : Lists fresh client query s r)
    (hclient : client.isSome → "client" ∉ seen) (hquery : query.isSome → "query" ∉ seen) :
    ∃ names, (client.isSome ∨ "client" ∈ seen → "client" ∈ names) ∧
      readMembers record.member fresh (seen, e) s =
        .ok ((names, ⟨client.getD e.client, query.getD e.query⟩), r) := by
  induction h generalizing seen e with
  | close fresh hs => exact ⟨seen, by simp, readMembers_close (nextMember_close hs)⟩
  | @client _ name query _ t u _ hs ht hu ih =>
      have hvalue : ∀ v, Blanks v (Byte.quote :: t) → (Reader.text.map fun c (e : Envelope) =>
          { e with client := c }).run v = .ok (fun e => { e with client := name }, u) := by
        intro v hv
        exact Reader.run_map _ ((Reader.run_text_blanks hv).trans (Reader.run_text ht))
      obtain ⟨names, hnames, hread⟩ := @ih ("client" :: seen) { e with client := name }
        (by simp) (by simpa using hquery)
      refine ⟨names, fun _ => hnames (.inr List.mem_cons_self), ?_⟩
      rw [Record.readMembers_known hs rfl (hclient rfl) hvalue, hread]
      rfl
  | @query _ client text _ t _ hs htext hnull hu ih =>
      obtain ⟨b, rest, hhead, hspace, hletter⟩ := htext.head hnull
      have hvalue : ∀ v, Blanks v (bytesOf text ++ t) → ((Reader.optional .rawText).map
          fun q (e : Envelope) => { e with query := q }).run v =
            .ok (fun e => { e with query := some text }, t) := by
        intro v hv
        have htake := htext.run_rawText (.nil _) hu.follows
        rw [hhead] at hv htake
        exact Reader.run_map _ ((Reader.run_optional_blanks _ hv).trans
          (Reader.run_optional hspace hletter htake))
      obtain ⟨names, hnames, hread⟩ := @ih ("query" :: seen) { e with query := some text }
        (by simpa using hclient) (by simp)
      refine ⟨names, fun h => hnames (h.imp_right (List.mem_cons_of_mem _)), ?_⟩
      rw [Record.readMembers_known hs rfl (hquery rfl) hvalue, hread]
      rfl
  | @noQuery _ client _ t _ hs hu ih =>
      have hvalue : ∀ v, Blanks v (0x6E :: 0x75 :: 0x6C :: 0x6C :: t) →
          ((Reader.optional .rawText).map fun q (e : Envelope) => { e with query := q }).run v =
            .ok (fun e => { e with query := none }, t) := by
        intro v hv
        exact Reader.run_map _ ((Reader.run_optional_blanks _ hv).trans
          (Reader.run_optional_null _ t))
      obtain ⟨names, hnames, hread⟩ := @ih ("query" :: seen) { e with query := none }
        (by simpa using hclient) (by simp)
      refine ⟨names, fun h => hnames (h.imp_right (List.mem_cons_of_mem _)), ?_⟩
      rw [Record.readMembers_known hs rfl (hquery rfl) hvalue, hread]
      rfl
  | @other _ _ _ name _ _ _ _ hs hc hq ht hu ih =>
      have hunknown : record.members.find? (·.name == name) = none := by
        simp [record, requiredField, field, Ne.symm hc, Ne.symm hq]
      obtain ⟨names, hnames, hread⟩ := @ih seen e hclient hquery
      exact ⟨names, hnames, (Record.readMembers_unknown hs hunknown ht hu.follows).trans hread⟩

end

/-- An envelope reads back as it was written. -/
theorem Asks.ofBytes_eq {body : Bytes} {client : String} {query : Option String}
    (h : Asks body client query) : ofBytes body = .ok ⟨client, query⟩ := by
  obtain ⟨s, r, given, hbody, hmembers, hend, rfl⟩ := h
  obtain ⟨names, hnames, hread⟩ := @Lists.readMembers_eq _ _ _ _ _ [] ⟨"", none⟩ hmembers
    (by simp) (by simp)
  have habsent : record.absent? names = none := by
    simp [Record.absent?, record, requiredField, field, hnames]
  rw [ofBytes, reader, Record.readAll_object hbody hread habsent hend]
  cases given <;> rfl

/-- A request that says who asks, and nothing else. -/
theorem ofBytes_client {client : String} {s : Bytes} (h : SpellsText client s [Byte.closeCurly]) :
    ofBytes (bytesOf "\x7b\"client\":\"" ++ s) = .ok ⟨client, none⟩ := by
  have hname : SpellsText "client" (bytesOf "client\":\"" ++ s) (bytesOf ":\"" ++ s) :=
    @spellsText_self "client" _ rfl
  have hmember : Leads true "client" (bytesOf "\"client\":\"" ++ s) (Byte.quote :: s) :=
    .mk (.fresh (.nil _)) hname (.nil _) (.nil _)
  have hasks : Asks (bytesOf "\x7b\"client\":\"" ++ s) client none :=
    ⟨_, _, none, .nil _, .client hmember h (.close false (.nil _)), .nil _, rfl⟩
  exact hasks.ofBytes_eq

/-- A client as it is, and the text of a query after it. -/
theorem asks_plain {client text : String} (h : client.toList.all isPlain = true)
    (htext : IsValueText text) (hne : text ≠ "null") :
    Asks (bytesOf "\x7b\"client\":\"" ++
      (bytesOf client ++ (bytesOf "\",\"query\":" ++ (bytesOf text ++ [Byte.closeCurly]))))
      client (some text) := by
  have hclient : Leads true "client"
      (bytesOf "\"client\":\"" ++
        (bytesOf client ++ (bytesOf "\",\"query\":" ++ (bytesOf text ++ [Byte.closeCurly]))))
      (Byte.quote ::
        (bytesOf client ++ (bytesOf "\",\"query\":" ++ (bytesOf text ++ [Byte.closeCurly])))) :=
    .mk (.fresh (.nil _)) (spellsText_self (t := "client") _ rfl) (.nil _) (.nil _)
  have hquery : Leads false "query" (bytesOf ",\"query\":" ++ (bytesOf text ++ [Byte.closeCurly]))
      (bytesOf text ++ [Byte.closeCurly]) :=
    .mk (.later (.nil _) (.nil _)) (spellsText_self (t := "query") _ rfl) (.nil _) (.nil _)
  exact ⟨_, _, some (some text), .nil _, .client hclient (spellsText_self _ h)
    (.query hquery htext hne (.close false (.nil _))), .nil _, rfl⟩

/-! ## Envelopes of any length -/

/-- A query without fields, but with so many blanks. -/
def blankQuery (n : Nat) : String := .ofList ('\x7b' :: (List.replicate n ' ' ++ ['\x7d']))

/-- A body that asks for it. -/
def blankBody (n : Nat) : Bytes :=
  bytesOf "\x7b\"client\":\"" ++
    (bytesOf "c" ++ (bytesOf "\",\"query\":" ++ (bytesOf (blankQuery n) ++ [Byte.closeCurly])))

theorem bytesOf_blankQuery (n : Nat) :
    bytesOf (blankQuery n) = Byte.openCurly :: (List.replicate n 0x20 ++ [Byte.closeCurly]) := by
  have hblanks : (List.replicate n ' ').flatMap String.utf8EncodeChar =
      List.replicate n 0x20 := by
    induction n with
    | zero => rfl
    | succ n ih =>
        rw [List.replicate_succ, List.flatMap_cons, ih]
        rfl
  rw [bytesOf_eq, blankQuery, String.toList_ofList, List.flatMap_cons, List.flatMap_append, hblanks]
  rfl

theorem isValueText_blankQuery (n : Nat) : IsValueText (blankQuery n) := by
  have hblanks : Blanks (List.replicate n 0x20 ++ [Byte.closeCurly]) [Byte.closeCurly] := by
    induction n with
    | zero => exact .nil _
    | succ n ih => exact .cons rfl ih
  rw [IsValueText, bytesOf_blankQuery]
  exact .object (.endObject true hblanks)

theorem asks_blankBody (n : Nat) : Asks (blankBody n) "c" (some (blankQuery n)) := by
  refine asks_plain rfl (isValueText_blankQuery n) fun hnull => ?_
  have hbytes := bytesOf_blankQuery n
  rw [hnull] at hbytes
  exact absurd (List.cons.inj hbytes).1 (by decide)

theorem lt_length_blankBody (n : Nat) : n < (blankBody n).length := by
  simp only [blankBody, bytesOf_blankQuery, List.length_append, List.length_cons,
    List.length_replicate]
  omega

end QueryAdmission.Envelope

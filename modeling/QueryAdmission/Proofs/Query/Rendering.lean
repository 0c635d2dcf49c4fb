import QueryAdmission.Proofs.Json.Spelling
import QueryAdmission.Proofs.Query.Descent

/-! # Renderings of forests

A forest can be written in many ways: with white space anywhere, with the members of a field in any
order, with members nobody asks for among them, and with or without the members that have nothing
to say. Whichever is chosen, reading gives back the query that asks for what the forest says. -/

namespace QueryAdmission

open Json

namespace Wire

/-- What a member says of the field it stands in. -/
inductive Slot where
  | name
  | label
  | arguments
  | selections
  | other
  deriving DecidableEq

/-- Whether a member of a name says that. -/
def Slot.IsCalled : Slot → String → Prop
  | .name, s => s = "name"
  | .label, s => s = "alias"
  | .arguments, s => s = "arguments"
  | .selections, s => s = "selections"
  | .other, s => s ∉ ["name", "alias", "arguments", "selections"]

/-- Members that say all there is to say of a field. What is absent or empty needs no member. -/
structure Covers (slots : List Slot) (head : Head) (below : Forest) : Prop where
  named : head.name ≠ ""
  name : .name ∈ slots
  label : head.label ≠ none → .label ∈ slots
  arguments : head.arguments ≠ ∅ → .arguments ∈ slots
  selections : below ≠ .nil → .selections ∈ slots
  once : ∀ slot, slot ≠ .other → slots.count slot ≤ 1

/-- What a text can begin with: what is left of a list of fields, what is left of the members of a
field, or the value of one such member. -/
inductive Part where
  | fields (fresh : Bool) (forest : Forest)
  | members (fresh : Bool) (slots : List Slot) (head : Head) (below : Forest)
  | value (slot : Slot) (head : Head) (below : Forest)

/-- `Renders part s r` says that `s` begins with a rendering and goes on with `r`. -/
inductive Renders : Part → Bytes → Bytes → Prop where
  | endFields (fresh : Bool) {s r : Bytes} : Blanks s (Byte.closeSquare :: r) →
      Renders (.fields fresh .nil) s r
  | field {fresh : Bool} {slots : List Slot} {head : Head} {below rest : Forest}
      {s t u r : Bytes} : Comma fresh s (Byte.openCurly :: t) → Covers slots head below →
      Renders (.members true slots head below) t u → Renders (.fields false rest) u r →
      Renders (.fields fresh (.cons head below rest)) s r
  | endMembers (fresh : Bool) (head : Head) (below : Forest) {s r : Bytes} :
      Blanks s (Byte.closeCurly :: r) → Renders (.members fresh [] head below) s r
  | member {fresh : Bool} {slot : Slot} {slots : List Slot} {head : Head} {below : Forest}
      {name : String} {s t u v w x r : Bytes} : Comma fresh s (Byte.quote :: t) →
      SpellsText name t u → slot.IsCalled name → Blanks u (Byte.colon :: v) → Blanks v w →
      Renders (.value slot head below) w x → Renders (.members false slots head below) x r →
      Renders (.members fresh (slot :: slots) head below) s r
  | name (head : Head) (below : Forest) {s r : Bytes} : SpellsText head.name s r →
      Renders (.value .name head below) (Byte.quote :: s) r
  | label {head : Head} (below : Forest) {label : String} {s r : Bytes} :
      head.label = some label → SpellsText label s r →
      Renders (.value .label head below) (Byte.quote :: s) r
  | noLabel {head : Head} (below : Forest) (r : Bytes) : head.label = none →
      Renders (.value .label head below) (0x6E :: 0x75 :: 0x6C :: 0x6C :: r) r
  | arguments {head : Head} (below : Forest) {entries : List (String × Json)} {s r : Bytes} :
      .ofList entries = head.arguments → Spells (maxDepth - 1) (.members true entries) s r →
      Renders (.value .arguments head below) (Byte.openCurly :: s) r
  | noArguments {head : Head} (below : Forest) (r : Bytes) : head.arguments = ∅ →
      Renders (.value .arguments head below) (0x6E :: 0x75 :: 0x6C :: 0x6C :: r) r
  | selections (head : Head) {below : Forest} {s r : Bytes} : Renders (.fields true below) s r →
      Renders (.value .selections head below) (Byte.openSquare :: s) r
  | noSelections (head : Head) (r : Bytes) :
      Renders (.value .selections head .nil) (0x6E :: 0x75 :: 0x6C :: 0x6C :: r) r
  | other (head : Head) (below : Forest) {s r : Bytes} : Derives .value s r →
      Renders (.value .other head below) s r

/-- What is left of the outermost object, up to its closing bracket. The forest is what has not
been listed yet. -/
inductive RendersDocument : (fresh : Bool) → Forest → Bytes → Bytes → Prop where
  | close (fresh : Bool) {s r : Bytes} : Blanks s (Byte.closeCurly :: r) →
      RendersDocument fresh .nil s r
  | selections {fresh : Bool} {forest : Forest} {s t u v w x r : Bytes} :
      Comma fresh s (Byte.quote :: t) → SpellsText "selections" t u →
      Blanks u (Byte.colon :: v) → Blanks v w →
      Renders (.value .selections ⟨"", none, ∅⟩ forest) w x →
      RendersDocument false .nil x r → RendersDocument fresh forest s r
  | other {fresh : Bool} {forest : Forest} {name : String} {s t u v w x r : Bytes} :
      Comma fresh s (Byte.quote :: t) → SpellsText name t u → name ≠ "selections" →
      Blanks u (Byte.colon :: v) → Blanks v w → Derives .value w x →
      RendersDocument false forest x r → RendersDocument fresh forest s r

/-- A text that writes a forest: one object, with white space before and after it. -/
def Writes (forest : Forest) (s : Bytes) : Prop :=
  ∃ t u, Blanks s (Byte.openCurly :: t) ∧ RendersDocument true forest t u ∧ Blanks u []

/-! ## Pieces of a rendering -/

theorem separates_of_canFollow {b : UInt8} (h : canFollow b) : separates b := by
  simp only [canFollow, Bool.or_eq_true] at h
  simp only [separates, Bool.or_eq_true]
  tauto

theorem readPiece_eq {α : Type} {p : Reader α} {s t r : Bytes} {b : UInt8} {a : α}
    (hs : Blanks s (b :: t)) (hb : Byte.isSpace b = false) (hp : p.run (b :: t) = .ok (a, r))
    (hr : Follows r) : readPiece p s = .ok (a, r) := by
  have hsep : r.head?.all separates := by
    cases r with
    | nil => rfl
    | cons c r => exact separates_of_canFollow (hr c rfl)
  simp [readPiece, hs.skipSpace_cons hb, hp, hsep]

theorem readPiece_skip {s t r : Bytes} (h : Derives .value t r) (hs : Blanks s t)
    (hr : Follows r) : readPiece Reader.skip s = .ok ((), r) := by
  obtain ⟨b, t, rfl, hb, -⟩ := h.head
  exact readPiece_eq hs hb (by simp [Reader.skip, h.skipValue_eq (.nil _) hr]) hr

theorem readName_eq {name : String} {s t u r : Bytes} (hs : skipSpace s = Byte.quote :: t)
    (ht : SpellsText name t u) (hu : Blanks u (Byte.colon :: r)) : readName s = .ok (name, r) := by
  have hpiece : readPiece Reader.text (Byte.quote :: t) = .ok (name, u) := by
    simp [readPiece, skipSpace_cons (b := Byte.quote) t rfl, Reader.run_text ht]
  simp [readName, hs, hpiece, expect, after?, hu.skipSpace_cons rfl]

theorem after?_eq_some {b : UInt8} {s r : Bytes} (h : Blanks s (b :: r))
    (hb : Byte.isSpace b = false) : after? b s = some r := by
  simp [after?, h.skipSpace_cons hb]

/-- The comma before an item is passed over, and no closing bracket is seen. -/
theorem readComma_eq {fresh : Bool} {s t : Bytes} {b : UInt8} (close : UInt8) (wanted : Wanted)
    (h : Comma fresh s (b :: t)) (hb : Byte.isSpace b = false) (hc : b ≠ close)
    (hn : Byte.comma ≠ close) :
    after? close s = none ∧ ∃ u, readComma fresh wanted s = .ok u ∧ skipSpace u = b :: t := by
  cases h with
  | fresh hs => exact ⟨by simp [after?, hs.skipSpace_cons hb, hc], s, rfl, hs.skipSpace_cons hb⟩
  | later hs ht =>
      refine ⟨by simp [after?, hs.skipSpace_cons rfl, hn], _, ?_, ht.skipSpace_cons hb⟩
      simp [readComma, expect, after?, hs.skipSpace_cons rfl]

/-! ## What is read -/

/-- A head after a member has been read that says its part of `head`. -/
def Slot.set : Slot → (head h : Head) → Head
  | .name, head, h => { h with name := head.name }
  | .label, head, h => { h with label := head.label }
  | .arguments, head, h => { h with arguments := h.arguments.insertAll head.arguments.toList }
  | .selections, _, h => h
  | .other, _, h => h

/-- What has been read of a field when the members in `slots` are still to come. -/
structure Pending (slots : List Slot) (head : Head) (below : Forest) (h : Head) (b : Forest) :
    Prop where
  name : .name ∉ slots → h.name = head.name
  label : .label ∉ slots → h.label = head.label
  arguments : h.arguments = if .arguments ∈ slots then ∅ else head.arguments
  below : b = if .selections ∈ slots then .nil else below
  once : ∀ slot, slot ≠ .other → slots.count slot ≤ 1

theorem Covers.pending {slots : List Slot} {head : Head} {below : Forest}
    (h : Covers slots head below) : Pending slots head below { name := "" } .nil where
  name hs := absurd h.name hs
  label hs := by
    by_contra hne
    exact hs (h.label fun heq => hne (by rw [heq]))
  arguments := by
    split
    · rfl
    · rename_i hs
      by_contra hne
      exact hs (h.arguments fun heq => hne heq.symm)
  below := by
    split
    · rfl
    · rename_i hs
      by_contra hne
      exact hs (h.selections fun heq => hne heq.symm)
  once := h.once

theorem Pending.done {head h : Head} {below b : Forest} (hp : Pending [] head below h b) :
    h = head ∧ b = below := by
  have hname := hp.name List.not_mem_nil
  have hlabel := hp.label List.not_mem_nil
  have hargs := hp.arguments
  have hbelow := hp.below
  cases h
  cases head
  simp_all

theorem Pending.not_mem {slot : Slot} {slots : List Slot} {head h : Head} {below b : Forest}
    (hp : Pending (slot :: slots) head below h b) (hs : slot ≠ .other) : slot ∉ slots := by
  have hcount := hp.once slot hs
  rw [List.count_cons_self] at hcount
  exact List.count_eq_zero.mp (by omega)

/-- One member less is still to come. -/
theorem Pending.next {slot : Slot} {slots : List Slot} {head h : Head} {below b : Forest}
    (hp : Pending (slot :: slots) head below h b) :
    Pending slots head below (slot.set head h)
      (if slot = .selections then b ++ below else b) where
  name hs := by
    cases slot with
    | name => rfl
    | _ => exact hp.name (by simpa using hs)
  label hs := by
    cases slot with
    | label => rfl
    | _ => exact hp.label (by simpa using hs)
  arguments := by
    have hargs := hp.arguments
    cases slot with
    | arguments =>
        have hnot : .arguments ∉ slots := hp.not_mem (by decide)
        rw [if_pos List.mem_cons_self] at hargs
        rw [if_neg hnot, Slot.set, hargs]
        exact Keyed.insertAll_toList head.arguments
    | _ => simpa [Slot.set] using hargs
  below := by
    have hbelow := hp.below
    cases slot with
    | selections =>
        have hnot : .selections ∉ slots := hp.not_mem (by decide)
        rw [if_pos List.mem_cons_self] at hbelow
        rw [if_neg hnot, if_pos rfl, hbelow, Forest.nil_append]
    | _ => simpa using hbelow
  once k hk := Nat.le_trans List.count_le_count_cons (hp.once k hk)

/-- Reading a rendering yields what it renders, however the reader goes on. -/
def Reads : Part → Bytes → Bytes → Prop
  | .fields fresh forest, s, r => ∀ (β : Type) (k : Forest → Bytes → Except Stop β),
      andThen (readFields fresh s) k = k forest r
  | .members fresh slots head below, s, r => head.name ≠ "" → ∀ start h b,
      Pending slots head below h b → ∀ (β : Type) (k : Head × Forest → Bytes → Except Stop β),
      andThen (readMembers start h b fresh s) k = k (head, below) r
  | .value slot head below, s, r => Follows r → ∀ t, Blanks t s →
      (slot = .selections → ∀ (β : Type) (k : Forest → Bytes → Except Stop β),
        andThen (readSelections t) k = k below r) ∧
      (slot ≠ .selections → head.name ≠ "" → ∀ name h, slot.IsCalled name →
        ∀ (β : Type) (k : Head → Bytes → Except Stop β),
        andThen (readAttribute h name t) k = k (slot.set head h) r)

theorem Renders.follows_members {slots : List Slot} {head : Head} {below : Forest} {s r : Bytes}
    (h : Renders (.members false slots head below) s r) : Follows s := by
  cases h with
  | endMembers _ _ _ hs => exact hs.follows rfl
  | member hs _ _ _ _ _ _ => exact hs.follows

theorem Slot.IsCalled.selections_iff {slot : Slot} {name : String} (h : slot.IsCalled name) :
    name = "selections" ↔ slot = .selections := by
  cases slot <;> simp_all [IsCalled]

/-- The value of a member is read into the head, unless it lists the fields below. -/
theorem andThen_member {slot : Slot} {head h : Head} {below b : Forest} {name : String}
    {start s t r : Bytes} (hv : Reads (.value slot head below) t r) (hname : head.name ≠ "")
    (hcalled : slot.IsCalled name) (hr : Follows r) (hs : Blanks s t) {β : Type}
    (k : Head × Forest → Bytes → Except Stop β) :
    (if name = "selections" then
      andThen (readSelections s) fun more v =>
        andThen (readMembers start h (b ++ more) false v) k
    else
      andThen (readAttribute h name s) fun head v =>
        andThen (readMembers start head b false v) k) =
      andThen (readMembers start (slot.set head h)
        (if slot = .selections then b ++ below else b) false r) k := by
  obtain ⟨hlist, hattribute⟩ := hv hr s hs
  by_cases hslot : slot = .selections
  · rw [if_pos (hcalled.selections_iff.mpr hslot), if_pos hslot, hlist hslot]
    rw [hslot]
    rfl
  · rw [if_neg (mt hcalled.selections_iff.mp hslot), if_neg hslot,
      hattribute hslot hname name h hcalled]

theorem Renders.reads {part : Part} {s r : Bytes} (h : Renders part s r) : Reads part s r := by
  induction h with
  | endFields fresh hs =>
      intro β k
      rw [andThen_readFields, after?_eq_some hs rfl]
  | @field _ _ _ _ _ _ t _ _ hs hcovers _ hrest ihm ihr =>
      intro β k
      obtain ⟨hend, u, hu, hopen⟩ := readComma_eq Byte.closeSquare .nextField hs rfl
        (by decide) (by decide)
      have hexpect : expect Byte.openCurly .openField u = .ok t := by
        simp [expect, after?, hopen]
      rw [andThen_readFields, hend]
      simp only [hu, hexpect]
      rw [ihm hcovers.named _ _ _ hcovers.pending, ihr]
  | endMembers fresh head below hs =>
      intro hname start h b hp β k
      obtain ⟨rfl, rfl⟩ := hp.done
      rw [andThen_readMembers, after?_eq_some hs rfl]
      simp [hname]
  | member hs ht hcalled hu hv _ hm ihv ihm =>
      intro hname start h b hp β k
      obtain ⟨hend, u', hu', hquote⟩ := readComma_eq Byte.closeCurly .nextMember hs rfl
        (by decide) (by decide)
      rw [andThen_readMembers, hend]
      simp only [hu', readName_eq hquote ht hu]
      rw [andThen_member ihv hname hcalled hm.follows_members hv, ihm hname _ _ _ hp.next]
  | name head below hs =>
      refine fun hr t ht => ⟨nofun, fun _ hname name h hcalled β k => ?_⟩
      cases hcalled
      rw [andThen_readAttribute, if_pos rfl, andThen_pieceOf,
        readPiece_eq ht rfl (Reader.run_text hs) hr]
      simp only [if_neg hname]
      rfl
  | label below hl hs =>
      refine fun hr t ht => ⟨nofun, fun _ hname name h hcalled β k => ?_⟩
      cases hcalled
      rw [andThen_readAttribute, if_neg (by decide), if_pos rfl, andThen_pieceOf,
        readPiece_eq ht rfl (Reader.run_optional rfl (by decide) (Reader.run_text hs)) hr, ← hl]
      rfl
  | noLabel below r hl =>
      refine fun hr t ht => ⟨nofun, fun _ hname name h hcalled β k => ?_⟩
      cases hcalled
      rw [andThen_readAttribute, if_neg (by decide), if_pos rfl, andThen_pieceOf,
        readPiece_eq ht rfl (Reader.run_optional_null _ r) hr, ← hl]
      rfl
  | arguments below he hs =>
      refine fun hr t ht => ⟨nofun, fun _ hname name h hcalled β k => ?_⟩
      cases hcalled
      have hrun := Reader.run_optional rfl (by decide) (Reader.run_keyedOf hs)
      rw [andThen_readAttribute, if_neg (by decide), if_neg (by decide), if_pos rfl,
        andThen_pieceOf, Wire.arguments, readPiece_eq ht rfl hrun hr, he]
      rfl
  | noArguments below r he =>
      refine fun hr t ht => ⟨nofun, fun _ hname name h hcalled β k => ?_⟩
      cases hcalled
      rw [andThen_readAttribute, if_neg (by decide), if_neg (by decide), if_pos rfl,
        andThen_pieceOf, Wire.arguments, readPiece_eq ht rfl (Reader.run_optional_null _ r) hr]
      simp only [Slot.set, he]
      rfl
  | selections head _ ih =>
      refine fun hr t ht => ⟨fun _ β k => ?_, fun hne => absurd rfl hne⟩
      rw [andThen_readSelections, after?_eq_some ht rfl]
      exact ih β k
  | noSelections head r =>
      refine fun hr t ht => ⟨fun _ β k => ?_, fun hne => absurd rfl hne⟩
      have hopen : after? Byte.openSquare t = none := by
        simp +decide [after?, ht.skipSpace_cons rfl]
      have hnull : Reader.unit.run (0x6E :: 0x75 :: 0x6C :: 0x6C :: r) = .ok ((), r) := rfl
      rw [andThen_readSelections, hopen]
      simp only [andThen_pieceOf, readPiece_eq ht rfl hnull hr]
  | other head below hs =>
      refine fun hr t ht => ⟨nofun, fun _ hname name h hcalled β k => ?_⟩
      simp only [Slot.IsCalled, List.mem_cons, not_or] at hcalled
      obtain ⟨hn, hl, ha, -⟩ := hcalled
      rw [andThen_readAttribute, if_neg hn, if_neg hl, if_neg ha, andThen_pieceOf,
        readPiece_skip hs ht hr]
      rfl

theorem RendersDocument.follows {forest : Forest} {s r : Bytes}
    (h : RendersDocument false forest s r) : Follows s := by
  cases h with
  | close _ hs => exact hs.follows rfl
  | selections hs _ _ _ _ _ => exact hs.follows
  | other hs _ _ _ _ _ _ => exact hs.follows

theorem RendersDocument.andThen_eq {fresh : Bool} {forest : Forest} {s r : Bytes}
    (h : RendersDocument fresh forest s r) (read : Forest) {β : Type}
    (k : Forest → Bytes → Except Stop β) :
    andThen (readDocument read fresh s) k = k (read ++ forest) r := by
  induction h generalizing read with
  | close fresh hs =>
      rw [andThen_readDocument, after?_eq_some hs rfl, Forest.append_nil]
  | selections hs ht hu hv hw hx ih =>
      obtain ⟨hend, u', hu', hquote⟩ := readComma_eq Byte.closeCurly .nextMember hs rfl
        (by decide) (by decide)
      rw [andThen_readDocument, hend]
      simp only [hu', readName_eq hquote ht hu, if_true]
      rw [(hw.reads hx.follows _ hv).1 rfl, ih, Forest.append_nil]
  | other hs ht hname hu hv hw hx ih =>
      obtain ⟨hend, u', hu', hquote⟩ := readComma_eq Byte.closeCurly .nextMember hs rfl
        (by decide) (by decide)
      rw [andThen_readDocument, hend]
      simp only [hu', readName_eq hquote ht hu, if_neg hname]
      rw [andThen_pieceOf, readPiece_skip hw hv hx.follows]
      exact ih read

theorem readForest_eq {forest : Forest} {s : Bytes} (h : Writes forest s) :
    readForest s = .ok forest := by
  obtain ⟨t, u, hs, ht, hu⟩ := h
  have hend : skipSpace u = [] := hu.skipSpace_eq
  rw [readForest, expect, after?_eq_some hs rfl]
  dsimp only
  rw [ht.andThen_eq, Forest.nil_append, readEnd, hend]

end Wire

/-- Reading a text that writes a forest gives the query to which the fields of the forest were
added one after the other. -/
theorem Query.ofText_of_writes {forest : Forest} {text : String}
    (h : Wire.Writes forest (bytesOf text)) : Query.ofText text = .ok (Query.ofForest forest) := by
  simp only [Query.ofText, Wire.readQuery_eq, Wire.readForest_eq h, Except.map]

/-- A field is named last, in an escape, after one below it and a member that is passed over. -/
theorem Query.ofText_of_writes_named_last :
    let b : Head := { name := "b", arguments := .ofList [("k", .nat 2)] }
    let forest : Forest := .cons { name := "a" } (.cons b .nil .nil) .nil
    let after := "],\"y\":[0],\"name\":\"\\u0061\"\x7d]\x7d"
    let text := "\x7b\"selections\":[\x7b\"selections\":[\x7b\"arguments\":\x7b\"k\":2\x7d, " ++
      "\"name\":\"b\"\x7d" ++ after
    Wire.Writes forest (bytesOf text) ∧ Query.ofText text = .ok (Query.ofForest forest) := by
  intro b forest after text
  have hentries : Spells 126 (.members true [("k", .nat 2)])
      (bytesOf ("\"k\":2\x7d, \"name\":\"b\"\x7d" ++ after))
      (bytesOf (", \"name\":\"b\"\x7d" ++ after)) :=
    .member (.fresh (.nil _)) (spellsText_self _ rfl) (.nil _) (.nil _)
      (.number _ (.inr rfl) rfl) (.endObject _ _ (.nil _))
  have hb : Wire.Renders (.members true [.arguments, .name] b .nil)
      (bytesOf ("\"arguments\":\x7b\"k\":2\x7d, \"name\":\"b\"\x7d" ++ after)) (bytesOf after) :=
    .member (.fresh (.nil _)) (spellsText_self _ rfl) rfl (.nil _) (.nil _)
      (.arguments _ rfl hentries)
    (.member (.later (.nil _) (.cons rfl (.nil _))) (spellsText_self _ rfl) rfl (.nil _)
      (.nil _) (.name _ _ (spellsText_self (t := "b") _ rfl))
    (.endMembers _ _ _ (.nil _)))
  have hbelow : Wire.Renders (.fields true (.cons b .nil .nil))
      (bytesOf ("\x7b\"arguments\":\x7b\"k\":2\x7d, \"name\":\"b\"\x7d" ++ after))
      (bytesOf ",\"y\":[0],\"name\":\"\\u0061\"\x7d]\x7d") :=
    .field (.fresh (.nil _))
      ⟨by decide, by decide, fun h => absurd rfl h, fun _ => by decide, fun h => absurd rfl h,
        fun slot _ => by cases slot <;> decide⟩ hb (.endFields _ (.nil _))
  have hother : Derives .value (bytesOf "[0],\"name\":\"\\u0061\"\x7d]\x7d")
      (bytesOf ",\"name\":\"\\u0061\"\x7d]\x7d") :=
    .list (.item (.fresh (.nil _)) (.numeral (.positive (.zero _) (.none _) (.none _)))
      (.endList _ (.nil _)))
  have ha : Wire.Renders (.members true [.selections, .other, .name] { name := "a" }
      (.cons b .nil .nil)) ((bytesOf text).drop 16) (bytesOf "]\x7d") :=
    .member (.fresh (.nil _)) (spellsText_self _ rfl) rfl (.nil _) (.nil _)
      (.selections _ hbelow)
    (.member (.later (.nil _) (.nil _)) (spellsText_self (t := "y") _ rfl)
      (by simp [Wire.Slot.IsCalled]) (.nil _) (.nil _) (.other _ _ hother)
    (.member (.later (.nil _) (.nil _)) (spellsText_self _ rfl) rfl (.nil _) (.nil _)
      (.name _ _ (.cons (.unit (.mk _ rfl rfl rfl rfl rfl)) (.close _)))
    (.endMembers _ _ _ (.nil _))))
  have h : Wire.Writes forest (bytesOf text) :=
    ⟨_, _, .nil _, .selections (.fresh (.nil _)) (spellsText_self _ rfl) (.nil _) (.nil _)
      (.selections _ (.field (.fresh (.nil _))
        ⟨by decide, by decide, fun h => absurd rfl h, fun h => absurd rfl h, fun _ => by decide,
          fun slot _ => by cases slot <;> decide⟩
        ha (.endFields _ (.nil _)))) (.close _ (.nil _)), .nil _⟩
  exact ⟨h, ofText_of_writes h⟩

end QueryAdmission

import QueryAdmission.Json.Typed
import QueryAdmission.Proofs.Json.Grammar

/-! # Spellings of strings and values

A string can be spelled in many ways, and so can a value. Whichever is chosen, reading gives back
what was spelled. Of numbers only the reader knows which numeral spells them. -/

namespace QueryAdmission.Json

/-! ## Texts and their bytes -/

theorem bytesOf_eq (t : String) : bytesOf t = t.toList.flatMap String.utf8EncodeChar := by
  rw [bytesOf, ← String.utf8Encode_toList, List.utf8Encode]
  simp

theorem textOf?_bytesOf (t : String) : textOf? (bytesOf t) = some t := by
  have h : (⟨(bytesOf t).toArray⟩ : ByteArray) = t.toByteArray := by simp [bytesOf]
  rw [textOf?, h, String.fromUTF8?]
  split
  · simp [String.fromUTF8]
  · exact absurd t.isValidUTF8 ‹_›

/-- A character that needs no escape is encoded without the bytes that mean something else. -/
theorem utf8EncodeChar_spec {c : Char} {b : UInt8} (hc : 0x20 ≤ c.toNat) (hq : c ≠ '"')
    (hs : c ≠ '\\') (h : b ∈ String.utf8EncodeChar c) :
    0x20 ≤ b ∧ b ≠ Byte.quote ∧ b ≠ Byte.backslash := by
  have hq : c.toNat ≠ 0x22 := fun h => hq (Char.toNat_inj.mp h)
  have hs : c.toNat ≠ 0x5C := fun h => hs (Char.toNat_inj.mp h)
  have hv : c.val.toNat = c.toNat := rfl
  have hb : 0x20 ≤ b.toNat ∧ b.toNat ≠ 0x22 ∧ b.toNat ≠ 0x5C := by
    simp only [String.utf8EncodeChar, hv] at h
    split at h
    · simp only [List.mem_singleton] at h
      rw [h, UInt8.toNat_ofNat']
      omega
    split at h
    · simp only [List.mem_cons, List.not_mem_nil, or_false] at h
      rcases h with h | h <;> rw [h, UInt8.toNat_ofNat'] <;> omega
    split at h
    · simp only [List.mem_cons, List.not_mem_nil, or_false] at h
      rcases h with h | h | h <;> rw [h, UInt8.toNat_ofNat'] <;> omega
    · simp only [List.mem_cons, List.not_mem_nil, or_false] at h
      rcases h with h | h | h | h <;> rw [h, UInt8.toNat_ofNat'] <;> omega
  refine ⟨UInt8.le_iff_toNat_le.mpr hb.1, ?_, ?_⟩
  · exact fun h => hb.2.1 (by rw [h]; rfl)
  · exact fun h => hb.2.2 (by rw [h]; rfl)

/-! ## Strings -/

/-- Four hexadecimal digits that write a number. -/
inductive SpellsUnit : Nat → Bytes → Bytes → Prop where
  | mk {a b c d : UInt8} {k l m n u : Nat} (r : Bytes) : Byte.hexDigit? a = some k →
      Byte.hexDigit? b = some l → Byte.hexDigit? c = some m → Byte.hexDigit? d = some n →
      u = ((k * 16 + l) * 16 + m) * 16 + n → SpellsUnit u (a :: b :: c :: d :: r) r

/-- The characters with an escape of one letter. -/
def namedEscapes : List (UInt8 × Char) :=
  [(Byte.quote, '"'), (Byte.backslash, '\\'), (Byte.slash, '/'), (Byte.letterb, '\x08'),
    (Byte.letterf, '\x0C'), (Byte.lettern, '\n'), (Byte.letterr, '\r'), (Byte.lettert, '\t')]

/-- A character of a string: itself, or an escape of one letter, of one UTF-16 unit or of two. -/
inductive SpellsChar : Char → Bytes → Bytes → Prop where
  | plain {c : Char} (r : Bytes) : 0x20 ≤ c.toNat → c ≠ '"' → c ≠ '\\' →
      SpellsChar c (String.utf8EncodeChar c ++ r) r
  | named {b : UInt8} {c : Char} (r : Bytes) : (b, c) ∈ namedEscapes →
      SpellsChar c (Byte.backslash :: b :: r) r
  | unit {c : Char} {s r : Bytes} : SpellsUnit c.toNat s r →
      SpellsChar c (Byte.backslash :: Byte.letteru :: s) r
  | pair {c : Char} {s t r : Bytes} : 0x10000 ≤ c.toNat →
      SpellsUnit (0xD800 + (c.toNat - 0x10000) / 0x400) s
        (Byte.backslash :: Byte.letteru :: t) →
      SpellsUnit (0xDC00 + (c.toNat - 0x10000) % 0x400) t r →
      SpellsChar c (Byte.backslash :: Byte.letteru :: s) r

inductive SpellsChars : List Char → Bytes → Bytes → Prop where
  | close (r : Bytes) : SpellsChars [] (Byte.quote :: r) r
  | cons {c : Char} {cs : List Char} {s t r : Bytes} : SpellsChar c s t → SpellsChars cs t r →
      SpellsChars (c :: cs) s r

/-- A string after its opening quotation mark. -/
def SpellsText (t : String) (s r : Bytes) : Prop := SpellsChars t.toList s r

theorem SpellsUnit.readUnit_eq {n : Nat} {s r : Bytes} (h : SpellsUnit n s r) :
    readUnit s = .ok (n, r) := by
  cases h with
  | mk r ha hb hc hd hu => simp [readUnit, ha, hb, hc, hd, hu]

theorem readTextBytes_plain {l : Bytes} (taken r : Bytes)
    (h : ∀ b ∈ l, 0x20 ≤ b ∧ b ≠ Byte.quote ∧ b ≠ Byte.backslash) :
    readTextBytes taken (l ++ r) = readTextBytes (l.reverse ++ taken) r := by
  induction l generalizing taken with
  | nil => rfl
  | cons b l ih =>
      obtain ⟨hb, hq, hs⟩ := h b List.mem_cons_self
      rw [List.cons_append, readTextBytes]
      simp only [beq_iff_eq, hq, hs, UInt8.not_lt.mpr hb, if_false]
      rw [ih _ fun c hc => h c (List.mem_cons_of_mem b hc)]
      simp

theorem readTextBytes_escape {taken s c r : Bytes} (h : readEscape s = .ok (c, r)) :
    readTextBytes taken (Byte.backslash :: s) = readTextBytes (c.reverse ++ taken) r := by
  rw [readTextBytes]
  simp only [show (Byte.backslash == Byte.quote) = false from rfl,
    show (Byte.backslash == Byte.backslash) = true from rfl, Bool.false_eq_true, if_false, if_true]
  split <;> simp_all

theorem readEscape_named {b : UInt8} {c : Char} (r : Bytes) (h : (b, c) ∈ namedEscapes) :
    readEscape (b :: r) = .ok (String.utf8EncodeChar c, r) := by
  simp only [namedEscapes, List.mem_cons, List.not_mem_nil, or_false, Prod.mk.injEq] at h
  rcases h with ⟨rfl, rfl⟩ | ⟨rfl, rfl⟩ | ⟨rfl, rfl⟩ | ⟨rfl, rfl⟩ | ⟨rfl, rfl⟩ | ⟨rfl, rfl⟩ |
    ⟨rfl, rfl⟩ | ⟨rfl, rfl⟩ <;> rfl

theorem readEscape_codePoint {c : Char} {s r : Bytes} (h : readCodePoint s = .ok (c, r)) :
    readEscape (Byte.letteru :: s) = .ok (String.utf8EncodeChar c, r) := by
  simp [readEscape, h]

/-- No character is half of a surrogate pair. -/
theorem readCodePoint_unit {c : Char} {s r : Bytes} (h : SpellsUnit c.toNat s r) :
    readCodePoint s = .ok (c, r) := by
  have hvalid : c.toNat < 0xD800 ∨ 0xDFFF < c.toNat ∧ c.toNat < 0x110000 := c.valid
  simp only [readCodePoint, h.readUnit_eq]
  rw [if_neg (by omega), if_neg (by omega), Char.ofNat_toNat]

theorem readCodePoint_pair {c : Char} {s t r : Bytes} (hc : 0x10000 ≤ c.toNat)
    (hs : SpellsUnit (0xD800 + (c.toNat - 0x10000) / 0x400) s
      (Byte.backslash :: Byte.letteru :: t))
    (ht : SpellsUnit (0xDC00 + (c.toNat - 0x10000) % 0x400) t r) :
    readCodePoint s = .ok (c, r) := by
  have hvalid : c.toNat < 0xD800 ∨ 0xDFFF < c.toNat ∧ c.toNat < 0x110000 := c.valid
  have hmarks : readPairMark Byte.letteru (Byte.letteru :: t) = .ok t := rfl
  have hsum : 0x10000 + (0xD800 + (c.toNat - 0x10000) / 0x400 - 0xD800) * 0x400 +
      (0xDC00 + (c.toNat - 0x10000) % 0x400 - 0xDC00) = c.toNat := by omega
  simp only [readCodePoint, hs.readUnit_eq]
  rw [if_neg (by omega), if_pos (by omega)]
  simp only [readPair, readPairMark, beq_self_eq_true, if_true, ht.readUnit_eq]
  rw [if_pos (by omega), hsum, Char.ofNat_toNat]

theorem SpellsChar.readTextBytes_eq {c : Char} {s r : Bytes} (taken : Bytes)
    (h : SpellsChar c s r) :
    readTextBytes taken s = readTextBytes ((String.utf8EncodeChar c).reverse ++ taken) r := by
  cases h with
  | plain r hc hq hs =>
      exact readTextBytes_plain taken r fun b hb => utf8EncodeChar_spec hc hq hs hb
  | named r hb => exact readTextBytes_escape (readEscape_named r hb)
  | unit hu => exact readTextBytes_escape (readEscape_codePoint (readCodePoint_unit hu))
  | pair hc hs ht => exact readTextBytes_escape (readEscape_codePoint (readCodePoint_pair hc hs ht))

theorem SpellsChars.readTextBytes_eq {cs : List Char} {s r : Bytes} (taken : Bytes)
    (h : SpellsChars cs s r) :
    readTextBytes taken s = .ok (taken.reverse ++ cs.flatMap String.utf8EncodeChar, r) := by
  induction h generalizing taken with
  | close r => simp [readTextBytes]
  | cons hc _ ih =>
      rw [hc.readTextBytes_eq, ih]
      simp

/-- A string reads back as itself, however it is spelled. -/
theorem SpellsText.readText_eq {t : String} {s r : Bytes} (h : SpellsText t s r) :
    readText s = .ok (t, r) := by
  have hbytes : readTextBytes [] s = .ok (bytesOf t, r) := by
    rw [SpellsChars.readTextBytes_eq [] h, bytesOf_eq]
    rfl
  simp only [readText, hbytes, textOf?_bytesOf]

/-- Whether a character can stand in a string as itself. -/
def isPlain (c : Char) : Bool := 0x20 ≤ c.toNat && c != '"' && c != '\\'

/-- A string in which nothing needs an escape spells itself. -/
theorem spellsText_self {t : String} (r : Bytes) (h : t.toList.all isPlain = true) :
    SpellsText t (bytesOf t ++ Byte.quote :: r) r := by
  rw [SpellsText, bytesOf_eq]
  generalize t.toList = l at h ⊢
  induction l with
  | nil => exact .close r
  | cons c cs ih =>
      simp only [List.all_cons, isPlain, Bool.and_eq_true, decide_eq_true_eq, bne_iff_ne] at h
      obtain ⟨⟨⟨hc, hq⟩, hs⟩, hcs⟩ := h
      rw [List.flatMap_cons, List.append_assoc]
      exact .cons (.plain _ hc hq hs) (ih hcs)

/-! ## Values -/

/-- What a text can spell: a value, or what is left of a list or an object. -/
inductive Sense where
  | value (v : Json)
  | items (fresh : Bool) (l : List Json)
  | members (fresh : Bool) (l : List (String × Json))

/-- `Spells depth sense s r` says that `s` begins with a spelling and goes on with `r`; the values
in it have at most `depth` lists and objects nested in one another. An object does not begin with
the name that marks the text of a value. -/
inductive Spells : (depth : Nat) → Sense → Bytes → Bytes → Prop where
  | null (depth : Nat) (r : Bytes) :
      Spells depth (.value .null) (0x6E :: 0x75 :: 0x6C :: 0x6C :: r) r
  | yes (depth : Nat) (r : Bytes) :
      Spells depth (.value (.bool true)) (0x74 :: 0x72 :: 0x75 :: 0x65 :: r) r
  | no (depth : Nat) (r : Bytes) :
      Spells depth (.value (.bool false)) (0x66 :: 0x61 :: 0x6C :: 0x73 :: 0x65 :: r) r
  | number (depth : Nat) {b : UInt8} {s r : Bytes} {x : Number} :
      b = Byte.minus ∨ Byte.isDigit b → readNumber b s = .ok (x, r) →
      Spells depth (.value (.number x)) (b :: s) r
  | text (depth : Nat) {t : String} {s r : Bytes} : SpellsText t s r →
      Spells depth (.value (.text t)) (Byte.quote :: s) r
  | list {depth : Nat} {l : List Json} {s r : Bytes} : Spells depth (.items true l) s r →
      Spells (depth + 1) (.value (.list l)) (Byte.openSquare :: s) r
  | object {depth : Nat} {l : List (String × Json)} {s r : Bytes} :
      (∀ e ∈ l.head?, e.1 ≠ embeddedName) → Spells depth (.members true l) s r →
      Spells (depth + 1) (.value (.ofMembers l)) (Byte.openCurly :: s) r
  | endList (depth : Nat) (fresh : Bool) {s r : Bytes} : Blanks s (Byte.closeSquare :: r) →
      Spells depth (.items fresh []) s r
  | item {depth : Nat} {fresh : Bool} {v : Json} {l : List Json} {s t u r : Bytes} :
      Comma fresh s t → Spells depth (.value v) t u → Spells depth (.items false l) u r →
      Spells depth (.items fresh (v :: l)) s r
  | endObject (depth : Nat) (fresh : Bool) {s r : Bytes} : Blanks s (Byte.closeCurly :: r) →
      Spells depth (.members fresh []) s r
  | member {depth : Nat} {fresh : Bool} {name : String} {v : Json} {l : List (String × Json)}
      {s t u w x y r : Bytes} : Comma fresh s (Byte.quote :: t) → SpellsText name t u →
      Blanks u (Byte.colon :: w) → Blanks w x → Spells depth (.value v) x y →
      Spells depth (.members false l) y r → Spells depth (.members fresh ((name, v) :: l)) s r

theorem Spells.head {depth : Nat} {v : Json} {s r : Bytes} (h : Spells depth (.value v) s r) :
    ∃ b t, s = b :: t ∧ Byte.isSpace b = false ∧ b ≠ Byte.closeSquare := by
  cases h with
  | number _ hb _ =>
      obtain ⟨hspace, -, -, -, -, -, -, hclose⟩ := numeral_head_spec hb
      exact ⟨_, _, rfl, hspace, hclose⟩
  | _ => exact ⟨_, _, rfl, by decide, by decide⟩

/-- The reader of the values in a list or an object. -/
def Reader.inner : (depth : Nat) → Option (Reader Json)
  | 0 => none
  | depth + 1 => some (.value depth)

theorem Reader.run_value {depth : Nat} {b : UInt8} {s t : Bytes} (h : skipSpace t = b :: s) :
    (Reader.value depth).run t = readValue spelledValue (Reader.inner depth) b s := by
  cases depth <;> simp [Reader.value, Reader.valueBy, Reader.onFirstByte, Reader.inner, h]

/-- Reads the members of an object as a list of pairs, the last one first. -/
def readPairs (depth : Nat) (fresh : Bool) (taken : List (String × Json)) (s : Bytes) :
    Except Fault (List (String × Json) × Bytes) :=
  readMembers (fun taken name => .ok ((Reader.value depth).map fun v => (name, v) :: taken))
    fresh taken s

/-- What a text spells is read from it. -/
def Reads (depth : Nat) : Sense → Bytes → Bytes → Prop
  | .value v, s, r => ∀ t, skipSpace t = s → (Reader.value depth).run t = .ok (v, r)
  | .items fresh l, s, r => ∀ taken,
      readItems (.value depth) fresh taken s = .ok (l.reverse ++ taken, r)
  | .members fresh l, s, r => ∀ taken,
      readPairs depth fresh taken s = .ok (l.reverse ++ taken, r)

theorem nextItem_close {fresh : Bool} {s r : Bytes} (h : Blanks s (Byte.closeSquare :: r)) :
    nextItem fresh s = .ok (.close r) := by
  simp [nextItem, h.skipSpace_cons rfl]

theorem nextMember_close {fresh : Bool} {s r : Bytes} (h : Blanks s (Byte.closeCurly :: r)) :
    nextMember fresh s = .ok (.close r) := by
  simp [nextMember, h.skipSpace_cons rfl]

theorem Comma.nextItem_eq {fresh : Bool} {s t : Bytes} {b : UInt8} (h : Comma fresh s (b :: t))
    (hb : Byte.isSpace b = false) (hc : b ≠ Byte.closeSquare) :
    nextItem fresh s = .ok (.item (b :: t)) := by
  cases h with
  | fresh hs => simp [nextItem, hs.skipSpace_cons hb, hc]
  | later hs ht => simp +decide [nextItem, hs.skipSpace_cons rfl, ht.skipSpace_cons hb, hc]

theorem Comma.nextMember_eq {fresh : Bool} {s t : Bytes} (h : Comma fresh s (Byte.quote :: t)) :
    nextMember fresh s = .ok (.item t) := by
  cases h with
  | fresh hs => simp +decide [nextMember, hs.skipSpace_cons rfl]
  | later hs ht => simp +decide [nextMember, hs.skipSpace_cons rfl, ht.skipSpace_cons rfl]

theorem readItems_close {α : Type} {item : Reader α} {fresh : Bool} {taken : List α} {s r : Bytes}
    (h : nextItem fresh s = .ok (.close r)) : readItems item fresh taken s = .ok (taken, r) := by
  rw [readItems]
  split <;> simp_all

theorem readItems_item {α : Type} {item : Reader α} {fresh : Bool} {taken : List α}
    {s t r : Bytes} {a : α} (h : nextItem fresh s = .ok (.item t))
    (ha : item.run t = .ok (a, r)) :
    readItems item fresh taken s = readItems item false (a :: taken) r := by
  rw [readItems]
  split <;> simp_all
  split <;> simp_all

theorem readColon_eq {s r : Bytes} (h : Blanks s (Byte.colon :: r)) : readColon s = .ok r := by
  simp [readColon, h.skipSpace_cons rfl]

section

variable {σ : Type} {member : σ → String → Except Fault (Reader σ)} {fresh : Bool} {state : σ}
  {s t u w r : Bytes}

theorem readMembers_close (h : nextMember fresh s = .ok (.close r)) :
    readMembers member fresh state s = .ok (state, r) := by
  rw [readMembers]
  split <;> simp_all

theorem readMembers_member {name : String} {value : Reader σ} {next : σ}
    (hs : nextMember fresh s = .ok (.item t)) (ht : readText t = .ok (name, u))
    (hm : member state name = .ok value) (hu : readColon u = .ok w)
    (hw : value.run w = .ok (next, r)) :
    readMembers member fresh state s = readMembers member false next r := by
  rw [readMembers]
  split <;> simp_all
  split <;> simp_all
  split <;> simp_all
  split <;> simp_all

end

theorem readValue_number {spelled : Bytes → Except Fault Json} {inner : Option (Reader Json)}
    {b : UInt8} {s r : Bytes} {x : Number} (hb : b = Byte.minus ∨ Byte.isDigit b)
    (h : readNumber b s = .ok (x, r)) : readValue spelled inner b s = .ok (.number x, r) := by
  obtain ⟨-, hn, ht, hf, -⟩ := numeral_head_spec hb
  have hstart : (b == Byte.minus || Byte.isDigit b) = true := by simpa using hb
  simp only [readValue, beq_iff_eq, hn, ht, hf, hstart, h, if_true, if_false]

/-- An object that is not marked begins with its first member or with its closing bracket. -/
theorem afterMark?_eq_none {depth : Nat} {l : List (String × Json)} {s r : Bytes}
    (h : Spells depth (.members true l) s r) (hl : ∀ e ∈ l.head?, e.1 ≠ embeddedName) :
    afterMark? s = none := by
  cases h with
  | endObject _ _ hs => simp [afterMark?, nextMember_close hs]
  | member hs ht _ _ _ _ =>
      simp [afterMark?, hs.nextMember_eq, ht.readText_eq, hl _ rfl]

theorem Spells.reads {depth : Nat} {sense : Sense} {s r : Bytes} (h : Spells depth sense s r) :
    Reads depth sense s r := by
  induction h with
  | null depth r => exact fun t ht => Reader.run_value ht
  | yes depth r => exact fun t ht => Reader.run_value ht
  | no depth r => exact fun t ht => Reader.run_value ht
  | number depth hb hx =>
      intro t ht
      rw [Reader.run_value ht, readValue_number hb hx]
  | text depth hs =>
      intro t ht
      rw [Reader.run_value ht]
      simp +decide [readValue, hs.readText_eq]
  | list _ ih =>
      intro t ht
      rw [Reader.run_value ht]
      simp +decide [readValue, Reader.inner, ih []]
  | @object depth _ _ _ hl hs ih =>
      intro t ht
      have hentries : readEntries (.value depth) _ = .ok _ := ih []
      rw [Reader.run_value ht]
      simp +decide [readValue, Reader.inner, afterMark?_eq_none hs hl, hentries]
  | endList depth fresh hs =>
      intro taken
      exact readItems_close (nextItem_close hs)
  | item hs ht _ iht ihu =>
      intro taken
      obtain ⟨b, t, rfl, hb, hc⟩ := ht.head
      rw [readItems_item (hs.nextItem_eq hb hc) (iht _ (skipSpace_cons t hb)), ihu]
      simp
  | endObject depth fresh hs =>
      intro taken
      exact readMembers_close (nextMember_close hs)
  | @member depth _ name v _ _ _ _ w _ y _ hs ht hu hw hx _ ihx ihy =>
      intro taken
      obtain ⟨b, x, rfl, hb, -⟩ := hx.head
      have hrun : ((Reader.value depth).map fun v => (name, v) :: taken).run w =
          .ok ((name, v) :: taken, y) := by
        simp [Reader.map, ihx w (hw.skipSpace_cons hb)]
      rw [readPairs, readMembers_member hs.nextMember_eq ht.readText_eq rfl (readColon_eq hu) hrun]
      exact (ihy _).trans (by simp)

/-! ## Values of one type -/

section

variable {α : Type}

theorem Reader.run_text {t : String} {s r : Bytes} (h : SpellsText t s r) :
    Reader.text.run (Byte.quote :: s) = .ok (t, r) := by
  simp [Reader.text, Reader.textFor, Reader.onFirstByte, skipSpace_cons (b := Byte.quote) s rfl,
    h.readText_eq]

theorem Reader.run_optional {p : Reader α} {b : UInt8} {s r : Bytes} {a : α}
    (hb : Byte.isSpace b = false) (hn : b ≠ Byte.lettern) (h : p.run (b :: s) = .ok (a, r)) :
    (Reader.optional p).run (b :: s) = .ok (some a, r) := by
  simp [Reader.optional, Reader.onFirstByte, skipSpace_cons s hb, hn, h]

theorem Reader.run_optional_null (p : Reader α) (r : Bytes) :
    (Reader.optional p).run (0x6E :: 0x75 :: 0x6C :: 0x6C :: r) = .ok (none, r) := rfl

theorem Reader.run_keyedOf {depth : Nat} {entries : List (String × Json)} {s r : Bytes}
    (h : Spells depth (.members true entries) s r) :
    (Reader.keyedOf (.value depth)).run (Byte.openCurly :: s) = .ok (.ofList entries, r) := by
  have hentries : readEntries (.value depth) s = .ok (entries.reverse ++ [], r) := h.reads []
  simp [Reader.keyedOf, Reader.onFirstByte, skipSpace_cons (b := Byte.openCurly) s rfl, hentries]

/-- White space before a value is passed over. -/
theorem Reader.run_text_blanks {s t : Bytes} (h : Blanks s t) :
    Reader.text.run s = Reader.text.run t := by
  simp only [Reader.text, Reader.textFor, Reader.onFirstByte, h.skipSpace_eq]

theorem Reader.run_optional_blanks (p : Reader α) {s t : Bytes} (h : Blanks s t) :
    (Reader.optional p).run s = (Reader.optional p).run t := by
  simp only [Reader.optional, Reader.onFirstByte, h.skipSpace_eq]

theorem Reader.run_map {β : Type} {p : Reader α} {s r : Bytes} {a : α} (f : α → β)
    (h : p.run s = .ok (a, r)) : (p.map f).run s = .ok (f a, r) := by
  simp only [Reader.map, h]

theorem Reader.run_skip {s t r : Bytes} (h : Derives .value t r) (hs : Blanks s t)
    (hr : Follows r) : Reader.skip.run s = .ok ((), r) := by
  simp only [Reader.skip, h.skipValue_eq hs hr]

end

/-! ## Values kept as text -/

/-- A text that is a value, with nothing around it. -/
def IsValueText (t : String) : Prop := Derives .value (bytesOf t) []

theorem bytesOf_inj {t u : String} (h : bytesOf t = bytesOf u) : t = u :=
  Option.some.inj ((textOf?_bytesOf t).symm.trans (h ▸ textOf?_bytesOf u))

/-- Only the text of `null` begins as it does. -/
theorem IsValueText.head {t : String} (h : IsValueText t) (ht : t ≠ "null") :
    ∃ b s, bytesOf t = b :: s ∧ Byte.isSpace b = false ∧ b ≠ Byte.lettern := by
  rw [IsValueText] at h
  generalize hs : bytesOf t = s at h
  generalize hr : ([] : Bytes) = r at h
  cases h with
  | null =>
      subst hr
      exact absurd (bytesOf_inj hs) ht
  | numeral hn =>
      obtain ⟨b, s, rfl, hb⟩ := hn.head
      obtain ⟨hspace, hne, -⟩ := numeral_head_spec hb
      exact ⟨b, s, rfl, hspace, hne⟩
  | _ => exact ⟨_, _, rfl, by decide, by decide⟩

/-- The text of a value is kept as it is, without the white space before it. -/
theorem IsValueText.run_rawText {t : String} {s r : Bytes} (h : IsValueText t)
    (hs : Blanks s (bytesOf t ++ r)) (hr : Follows r) :
    Reader.rawText.run s = .ok (t, r) := by
  have hvalue : Derives .value (bytesOf t ++ r) r := h.append r
  have hskip := hvalue.skipValue_eq (.nil _) hr
  obtain ⟨b, u, hu, hspace, -⟩ := hvalue.head
  have hstart : skipSpace s = bytesOf t ++ r := by
    rw [hu] at hs ⊢
    exact hs.skipSpace_cons hspace
  have htake : (bytesOf t ++ r).take ((bytesOf t ++ r).length - r.length) = bytesOf t := by
    simp
  simp only [Reader.rawText, hstart, hskip, htake, textOf?_bytesOf]

end QueryAdmission.Json

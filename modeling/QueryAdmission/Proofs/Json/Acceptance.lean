import QueryAdmission.Proofs.Json.Derivation

/-! # Values that are accepted

Readers of values accept nothing but values, and what is still open tells what the rest of the text
has to be. So it is with values that are passed over, which keep their brackets in a list, and with
those that are read by recursion. -/

namespace QueryAdmission.Json

/-! ## Lists, objects and typed values -/

namespace Reader

variable {α β : Type}

/-- What is read is a value. -/
structure IsSound (p : Reader α) : Prop where
  derives : ∀ {s : Bytes} {a : α} {r : Bytes}, p.run s = .ok (a, r) →
    Derives .value (skipSpace s) r

theorem IsSound.map {p : Reader α} (hp : p.IsSound) (f : α → β) : (p.map f).IsSound := by
  constructor
  intro s b r h
  unfold Reader.map at h
  dsimp only at h
  split at h
  · cases h
  · rename_i ha
    cases h
    exact hp.derives ha

theorem isSound_of_onFirstByte {p : Reader α} {k : UInt8 → Bytes → Except Fault (α × Bytes)}
    (hp : ∀ x, p.run x =
      match skipSpace x with
      | [] => .error (.ended .value)
      | b :: s => k b s)
    (h : ∀ {b s a r}, Byte.isSpace b = false → k b s = .ok (a, r) → Derives .value (b :: s) r) :
    p.IsSound := by
  constructor
  intro s a r hrun
  rw [hp] at hrun
  split at hrun
  · cases hrun
  · rename_i hs
    rw [hs]
    exact h (isSpace_of_skipSpace hs) hrun

end Reader

section

variable {α σ : Type} {s r : Bytes}

theorem derives_of_readItems {item : Reader α} (hitem : item.IsSound) {fresh : Bool}
    {taken l : List α} (h : readItems item fresh taken s = .ok (l, r)) :
    Derives (.items fresh) s r := by
  fun_induction readItems item fresh taken s with
  | case1 => cases h
  | case2 fresh taken s r hn =>
      cases h
      exact .endList fresh (blanks_of_nextItem hn)
  | case3 => cases h
  | case4 fresh taken s t hn a u ha _ ih =>
      exact .item ((comma_of_nextItem hn).blanks (blanks_skipSpace t)) (hitem.derives ha) (ih h)

theorem derives_of_readMembers {member : σ → String → Except Fault (Reader σ)}
    (hmember : ∀ state name value, member state name = .ok value → value.IsSound) {fresh : Bool}
    {state final : σ} (h : readMembers member fresh state s = .ok (final, r)) :
    Derives (.members fresh) s r := by
  fun_induction readMembers member fresh state s with
  | case1 => cases h
  | case2 fresh state s r hn =>
      cases h
      exact .endObject fresh (blanks_of_nextMember hn)
  | case3 => cases h
  | case4 => cases h
  | case5 => cases h
  | case6 => cases h
  | case7 fresh state s t hn name u ht value hvalue v hv next w hw _ ih =>
      exact .member (comma_of_nextMember hn) (isText_of_readText ht) (blanks_of_readColon hv)
        (blanks_skipSpace v) ((hmember _ _ _ hvalue).derives hw) (ih h)

theorem derives_of_readEntries {value : Reader α} (hvalue : value.IsSound)
    {l : List (String × α)} (h : readEntries value s = .ok (l, r)) :
    Derives (.members true) s r := by
  refine derives_of_readMembers ?_ h
  rintro taken name _ ⟨⟩
  exact hvalue.map _

theorem Reader.isSound_textFor (expected : Expected) : (textFor expected).IsSound := by
  refine isSound_of_onFirstByte (fun x => rfl) fun {b s a r} _ h => ?_
  split at h
  · rename_i hb
    rw [beq_iff_eq.mp hb]
    exact .text (isText_of_readText h)
  · cases h

theorem Reader.isSound_text : text.IsSound := isSound_textFor .text

theorem derives_null (h : restOfNull s = .ok r) : Derives .value (Byte.lettern :: s) r := by
  rw [eq_of_word h]
  exact .null r

theorem Reader.isSound_unit : unit.IsSound := by
  refine isSound_of_onFirstByte (fun x => rfl) fun {b s a r} _ h => ?_
  split at h
  · rename_i hb
    rw [beq_iff_eq.mp hb]
    split at h
    · cases h
    · rename_i hnull
      cases h
      exact derives_null hnull
  · cases h

theorem Reader.isSound_optional {p : Reader α} (hp : p.IsSound) : p.optional.IsSound := by
  refine isSound_of_onFirstByte (fun x => rfl) fun {b s a r} hb h => ?_
  split at h
  · rename_i hn
    rw [beq_iff_eq.mp hn]
    split at h
    · cases h
    · rename_i hnull
      cases h
      exact derives_null hnull
  · split at h
    · cases h
    · rename_i hrun
      cases h
      have hvalue := hp.derives hrun
      rwa [skipSpace_cons s hb] at hvalue

theorem Reader.isSound_keyedOf {value : Reader α} (hvalue : value.IsSound) :
    (keyedOf value).IsSound := by
  refine isSound_of_onFirstByte (fun x => rfl) fun {b s a r} _ h => ?_
  split at h
  · rename_i hb
    rw [beq_iff_eq.mp hb]
    split at h
    · cases h
    · rename_i hentries
      cases h
      exact .object (derives_of_readEntries hvalue hentries)
  · cases h

end

/-! ## Values of any type -/

section

variable {s t r : Bytes} {spelled : Bytes → Except Fault Json} {inner : Option (Reader Json)}

theorem exists_of_afterMark? (h : afterMark? s = some t) :
    ∃ u, Comma true s (Byte.quote :: u) ∧ IsText u t := by
  unfold afterMark? at h
  split at h
  · rename_i hn
    split at h
    · rename_i hname
      split at h
      · cases h
        exact ⟨_, comma_of_nextMember hn, isText_of_readText hname⟩
      · cases h
    · cases h
  · cases h

theorem blanks_of_readObjectEnd (h : readObjectEnd s = .ok r) :
    Blanks s (Byte.closeCurly :: r) := by
  unfold readObjectEnd at h
  split at h
  · cases h
  rename_i hs
  split at h
  · rename_i hb
    cases h
    exact blanks_of_beq hs hb
  · split at h <;> cases h

/-- A string that spells a value is a string all the same, and the mark before it a name. -/
theorem derives_of_readMarked {v : Json} (hmark : afterMark? s = some t)
    (h : readMarked spelled t = .ok (v, r)) : Derives (.members true) s r := by
  obtain ⟨u, hcomma, hname⟩ := exists_of_afterMark? hmark
  unfold readMarked at h
  split at h
  · cases h
  rename_i hcolon
  split at h
  · cases h
  rename_i htext
  split at h
  · cases h
  split at h
  · cases h
  rename_i hend
  cases h
  exact .member hcomma hname (blanks_of_readColon hcolon) (blanks_skipSpace _)
    ((Reader.isSound_textFor _).derives htext) (.endObject false (blanks_of_readObjectEnd hend))

theorem derives_of_readValue (hinner : ∀ p ∈ inner, p.IsSound) {b : UInt8} {v : Json}
    (h : readValue spelled inner b s = .ok (v, r)) : Derives .value (b :: s) r := by
  unfold readValue at h
  split at h
  · rename_i hb
    rw [beq_iff_eq.mp hb]
    split at h
    · cases h
    · rename_i hnull
      cases h
      exact derives_null hnull
  split at h
  · rename_i hb
    rw [beq_iff_eq.mp hb]
    split at h
    · cases h
    · rename_i htrue
      cases h
      rw [eq_of_word htrue]
      exact .yes r
  split at h
  · rename_i hb
    rw [beq_iff_eq.mp hb]
    split at h
    · cases h
    · rename_i hfalse
      cases h
      rw [eq_of_word hfalse]
      exact .no r
  split at h
  · split at h
    · cases h
    · rename_i hnumber
      cases h
      exact .numeral (isNumeral_of_readNumber hnumber)
  split at h
  · rename_i hb
    rw [beq_iff_eq.mp hb]
    split at h
    · cases h
    · rename_i htext
      cases h
      exact .text (isText_of_readText htext)
  split at h
  · rename_i hb
    rw [beq_iff_eq.mp hb]
    split at h
    · cases h
    · split at h
      · cases h
      · rename_i hitems
        cases h
        exact .list (derives_of_readItems (hinner _ rfl) hitems)
  split at h
  · rename_i hb
    rw [beq_iff_eq.mp hb]
    split at h
    · cases h
    · split at h
      · rename_i hmark
        exact .object (derives_of_readMarked hmark h)
      · split at h
        · cases h
        · rename_i hentries
          cases h
          exact .object (derives_of_readEntries (hinner _ rfl) hentries)
  · cases h

theorem Reader.isSound_valueBy (spelled : Bytes → Except Fault Json) (depth : Nat) :
    (valueBy spelled depth).IsSound := by
  induction depth with
  | zero => exact isSound_of_onFirstByte (fun x => rfl) fun _ h =>
      derives_of_readValue (by simp) h
  | succ depth ih =>
      refine isSound_of_onFirstByte (fun x => rfl) fun _ h => derives_of_readValue ?_ h
      simpa using ih

theorem Reader.isSound_value (depth : Nat) : (value depth).IsSound := isSound_valueBy _ depth

end

/-! ## Values that are passed over -/

/-- Phrases one after the other, with white space before each. -/
inductive DerivesAll : List Phrase → Bytes → Bytes → Prop where
  | nil (s : Bytes) : DerivesAll [] s s
  | cons {p : Phrase} {phrases : List Phrase} {s t u r : Bytes} : Blanks s t → Derives p t u →
      DerivesAll phrases u r → DerivesAll (p :: phrases) s r

/-- What has to follow inside a bracket that is open, after a value. -/
def Bracket.phrase : Bracket → Phrase
  | .square => .items false
  | .curly => .members false

/-- What has to follow in a state of passing over. -/
def Skip.phrases (m : Skip) : List Phrase :=
  if m.wanted then .value :: m.brackets.map Bracket.phrase else m.brackets.map Bracket.phrase

section

variable {s t r : Bytes} {phrases : List Phrase} {fresh : Bool}

theorem DerivesAll.head (h : DerivesAll (.value :: phrases) s r) :
    ∃ t u, Blanks s t ∧ Derives .value t u ∧ DerivesAll phrases u r := by
  cases h with
  | cons hs hp hrest => exact ⟨_, _, hs, hp, hrest⟩

/-- White space before the rest of a list or an object belongs to it. -/
theorem DerivesAll.tail {p : Phrase} (hp : p ≠ .value) (h : DerivesAll (p :: phrases) s r) :
    ∃ u, Derives p s u ∧ DerivesAll phrases u r := by
  cases h with
  | cons hs hphrase hrest => exact ⟨_, hs.derives hp hphrase, hrest⟩

/-- An item, and the rest of the list after it. -/
theorem DerivesAll.item (hs : Comma fresh s t)
    (h : DerivesAll (.value :: .items false :: phrases) t r) :
    ∃ u, Derives (.items fresh) s u ∧ DerivesAll phrases u r := by
  obtain ⟨u, v, hu, hvalue, h⟩ := h.head
  obtain ⟨w, hitems, hrest⟩ := h.tail (by simp)
  exact ⟨w, .item (hs.blanks hu) hvalue hitems, hrest⟩

/-- A name and a colon, and with them a member, and the rest of the object after it. -/
theorem DerivesAll.member {u v : Bytes} (hs : Comma fresh s (Byte.quote :: t)) (ht : IsText t u)
    (hu : Blanks u (Byte.colon :: v)) (h : DerivesAll (.value :: .members false :: phrases) v r) :
    ∃ w, Derives (.members fresh) s w ∧ DerivesAll phrases w r := by
  obtain ⟨w, x, hw, hvalue, h⟩ := h.head
  obtain ⟨y, hmembers, hrest⟩ := h.tail (by simp)
  exact ⟨y, .member hs ht hu hw hvalue hmembers, hrest⟩

theorem exists_of_skipName (h : skipName s = .ok r) :
    ∃ t u, Blanks s (Byte.quote :: t) ∧ IsText t u ∧ Blanks u (Byte.colon :: r) := by
  unfold skipName at h
  split at h
  · cases h
  rename_i hs
  split at h
  · rename_i hb
    split at h
    · cases h
    · rename_i htext
      exact ⟨_, _, blanks_of_beq hs hb, isText_of_skipText htext, blanks_of_readColon h⟩
  · cases h

variable {brackets : List Bracket} {m : Skip}

theorem Skip.derivesAll_start (h : Skip.start brackets s = .ok m)
    (hm : DerivesAll m.phrases m.rest r) :
    DerivesAll (.value :: brackets.map Bracket.phrase) s r := by
  unfold Skip.start at h
  split at h
  · cases h
  rename_i hs
  have hs := blanks_of_skipSpace hs
  split at h
  · rename_i hb
    obtain rfl := beq_iff_eq.mp hb
    split at h
    · cases h
    rename_i ht
    have ht := blanks_of_skipSpace ht
    split at h
    · rename_i hc
      obtain rfl := beq_iff_eq.mp hc
      cases h
      exact .cons hs (.list (.endList true ht)) hm
    · cases h
      obtain ⟨u, hitems, hrest⟩ := DerivesAll.item (.fresh ht) hm
      exact .cons hs (.list hitems) hrest
  split at h
  · rename_i hb
    obtain rfl := beq_iff_eq.mp hb
    split at h
    · cases h
    rename_i ht
    have ht := blanks_of_skipSpace ht
    split at h
    · rename_i hc
      obtain rfl := beq_iff_eq.mp hc
      cases h
      exact .cons hs (.object (.endObject true ht)) hm
    · split at h
      · cases h
      rename_i hname
      cases h
      obtain ⟨u, v, hu, htext, hcolon⟩ := exists_of_skipName hname
      obtain ⟨w, hmembers, hrest⟩ := DerivesAll.member (.fresh (ht.trans hu)) htext hcolon hm
      exact .cons hs (.object hmembers) hrest
  · split at h
    · cases h
    rename_i hscalar
    cases h
    exact .cons hs (derives_of_skipScalar hscalar) hm

theorem Skip.derivesAll_continue {bracket : Bracket}
    (h : Skip.continue bracket brackets s = .ok m) (hm : DerivesAll m.phrases m.rest r) :
    DerivesAll (bracket.phrase :: brackets.map Bracket.phrase) s r := by
  unfold Skip.continue at h
  split at h
  · split at h
    · cases h
    rename_i hs
    have hs := blanks_of_skipSpace hs
    split at h
    · rename_i hb
      obtain rfl := beq_iff_eq.mp hb
      cases h
      obtain ⟨u, hitems, hrest⟩ := DerivesAll.item (.later hs (.nil _)) hm
      exact .cons (.nil _) hitems hrest
    split at h
    · rename_i hb
      obtain rfl := beq_iff_eq.mp hb
      cases h
      exact .cons (.nil _) (.endList false hs) hm
    · cases h
  · split at h
    · cases h
    rename_i hs
    have hs := blanks_of_skipSpace hs
    split at h
    · rename_i hb
      obtain rfl := beq_iff_eq.mp hb
      split at h
      · cases h
      rename_i hname
      cases h
      obtain ⟨u, v, hu, htext, hcolon⟩ := exists_of_skipName hname
      obtain ⟨w, hmembers, hrest⟩ := DerivesAll.member (.later hs hu) htext hcolon hm
      exact .cons (.nil _) hmembers hrest
    split at h
    · rename_i hb
      obtain rfl := beq_iff_eq.mp hb
      cases h
      exact .cons (.nil _) (.endObject false hs) hm
    · cases h

/-- Whatever is open, what is passed over is what has to follow. -/
theorem Skip.derivesAll_finish (h : m.finish = .ok r) : DerivesAll m.phrases m.rest r := by
  fun_induction Skip.finish m with
  | case1 => cases h
  | case2 brackets s next hstep _ ih => exact derivesAll_start hstep (ih h)
  | case3 s =>
      cases h
      exact .nil _
  | case4 => cases h
  | case5 bracket brackets s next hstep _ ih => exact derivesAll_continue hstep (ih h)

/-- What is passed over is a value. -/
theorem derives_of_skipValue (h : skipValue s = .ok r) : Derives .value (skipSpace s) r := by
  obtain ⟨t, u, hs, hvalue, hrest⟩ := (Skip.derivesAll_finish h).head
  cases hrest
  obtain ⟨b, t, rfl, hb, -⟩ := hvalue.head
  rwa [hs.skipSpace_cons hb]

theorem Reader.isSound_skip : skip.IsSound := by
  constructor
  intro s a r h
  simp only [skip] at h
  split at h
  · cases h
  · rename_i hskip
    cases h
    exact derives_of_skipValue hskip

end

/-! ## Where values end -/

/-- Something is before `r` in `s`, and white space is not the last of it. -/
def EndsBefore (s r : Bytes) : Prop := ∃ u b, s = u ++ b :: r ∧ Byte.isSpace b = false

section

variable {s t r : Bytes}

theorem endsBefore_cons {b : UInt8} (hb : Byte.isSpace b = false) : EndsBefore (b :: r) r :=
  ⟨[], b, rfl, hb⟩

theorem EndsBefore.suffix (h : EndsBefore s r) : r <:+ s := by
  obtain ⟨u, b, rfl, -⟩ := h
  exact ⟨u ++ [b], by rw [List.append_assoc, List.singleton_append]⟩

theorem EndsBefore.of_suffix (h : EndsBefore t r) (hs : t <:+ s) : EndsBefore s r := by
  obtain ⟨u, b, rfl, hb⟩ := h
  obtain ⟨v, rfl⟩ := hs
  exact ⟨v ++ u, b, (List.append_assoc v u (b :: r)).symm, hb⟩

theorem EndsBefore.cons (h : EndsBefore s r) (b : UInt8) : EndsBefore (b :: s) r :=
  h.of_suffix (List.suffix_cons b s)

theorem Blanks.suffix (h : Blanks s r) : r <:+ s := by
  induction h with
  | nil => exact List.suffix_refl _
  | cons _ _ ih => exact ih.trans (List.suffix_cons _ _)

theorem Blanks.endsBefore {b : UInt8} (h : Blanks s (b :: r)) (hb : Byte.isSpace b = false) :
    EndsBefore s r := (endsBefore_cons hb).of_suffix h.suffix

theorem Comma.suffix {fresh : Bool} (h : Comma fresh s r) : r <:+ s := by
  cases h with
  | fresh hs => exact hs.suffix
  | later hs ht => exact ht.suffix.trans ((List.suffix_cons _ _).trans hs.suffix)

theorem isSpace_of_isDigit {b : UInt8} (h : Byte.isDigit b) : Byte.isSpace b = false :=
  (numeral_head_spec (.inr h)).1

theorem DigitRun.endsBefore (h : DigitRun s r) : EndsBefore s r := by
  induction h with
  | last r hb => exact endsBefore_cons (isSpace_of_isDigit hb)
  | more _ _ ih => exact ih.cons _

theorem WholePart.endsBefore (h : WholePart s r) : EndsBefore s r := by
  cases h with
  | zero => exact endsBefore_cons (by decide)
  | digits _ hd => exact hd.endsBefore

theorem FractionPart.endsBefore (h : FractionPart t r) (hs : EndsBefore s t) : EndsBefore s r := by
  cases h with
  | none => exact hs
  | some hd => exact (hd.endsBefore.cons _).of_suffix hs.suffix

theorem ExponentPart.endsBefore (h : ExponentPart t r) (hs : EndsBefore s t) : EndsBefore s r := by
  cases h with
  | none => exact hs
  | unsigned _ hd => exact (hd.endsBefore.cons _).of_suffix hs.suffix
  | signed _ _ hd => exact ((hd.endsBefore.cons _).cons _).of_suffix hs.suffix

theorem IsNumeral.endsBefore (h : IsNumeral s r) : EndsBefore s r := by
  cases h with
  | positive hw hf he => exact he.endsBefore (hf.endsBefore hw.endsBefore)
  | negative hw hf he => exact (he.endsBefore (hf.endsBefore hw.endsBefore)).cons _

theorem IsText.endsBefore (h : IsText s r) : EndsBefore s r := by
  induction h with
  | close r => exact endsBefore_cons (by decide)
  | plain _ _ _ _ ih => exact ih.cons _
  | escaped _ _ ih => exact (ih.cons _).cons _
  | unit _ _ ih => exact (((((ih.cons _).cons _).cons _).cons _).cons _).cons _

/-- No phrase ends with white space. -/
theorem Derives.endsBefore {p : Phrase} (h : Derives p s r) : EndsBefore s r := by
  induction h with
  | null r => exact ⟨[0x6E, 0x75, 0x6C], 0x6C, rfl, by decide⟩
  | yes r => exact ⟨[0x74, 0x72, 0x75], 0x65, rfl, by decide⟩
  | no r => exact ⟨[0x66, 0x61, 0x6C, 0x73], 0x65, rfl, by decide⟩
  | numeral hn => exact hn.endsBefore
  | text ht => exact ht.endsBefore.cons _
  | list _ ih => exact ih.cons _
  | object _ ih => exact ih.cons _
  | endList fresh hs => exact hs.endsBefore (by decide)
  | item hs _ _ iht ihu => exact ihu.of_suffix (iht.suffix.trans hs.suffix)
  | endObject fresh hs => exact hs.endsBefore (by decide)
  | member hs ht hu hv _ _ ihw ihx =>
      have hname := ht.endsBefore.suffix.trans ((List.suffix_cons _ _).trans hs.suffix)
      have hcolon := (List.suffix_cons _ _).trans (hu.suffix.trans hname)
      exact ihx.of_suffix (ihw.suffix.trans (hv.suffix.trans hcolon))

end

end QueryAdmission.Json

import QueryAdmission.Proofs.Json.NumeralLocality

/-! # How far values are looked at

What readers of values use up, they use up before any rest, if its first byte is the same or
separates. Readers that only pass over a value do not differ in that. -/

namespace QueryAdmission.Json

open Wire (separates)

/-- A reader whose values end before any byte that separates. -/
structure Reader.IsStable {α : Type} (p : Reader α) : Prop where
  stable : ∀ {s : Bytes} {a : α} {r : Bytes}, p.run s = .ok (a, r) →
    Stable (fun x t => p.run x = .ok (a, t)) s r

section

variable {α β σ : Type} {s r : Bytes}

/-! ## Lists and objects -/

theorem stable_nextItem_close {fresh : Bool} (h : nextItem fresh s = .ok (.close r)) :
    Stable (fun x t => nextItem fresh x = .ok (.close t)) s r := by
  unfold nextItem at h
  split at h
  · cases h
  rename_i b q hs
  split at h
  · rename_i hb
    cases h
    refine stable_skipSpace hs (by rw [beq_iff_eq.mp hb]; decide) fun x t hx => ?_
    simp [nextItem, hx, hb]
  split at h
  · cases h
  split at h
  · split at h
    · cases h
    · split at h <;> cases h
  · cases h

theorem stable_nextItem {fresh : Bool} (h : nextItem fresh s = .ok (.item r)) :
    StableBefore (fun x t => nextItem fresh x = .ok (.item t)) s r := by
  unfold nextItem at h
  split at h
  · cases h
  rename_i b q hs
  split at h
  · cases h
  rename_i hclose
  split at h
  · rename_i hfresh
    cases h
    exact stableBefore_skipSpace hs fun x t hx => by simp [nextItem, hx, hclose, hfresh]
  rename_i hfresh
  split at h
  · rename_i hcomma
    split at h
    · cases h
    rename_i c t hq
    split at h
    · cases h
    rename_i hnext
    cases h
    have hfirst : Stable (fun x y => skipSpace x = b :: y) s q :=
      stable_first hs (by rw [beq_iff_eq.mp hcomma]; decide)
    refine (hfirst.transBefore (stableBefore_first hq)).mono ?_
    rintro x t ⟨y, hx, hy, hhead⟩
    obtain ⟨t, rfl⟩ := List.head?_eq_some_iff.mp hhead
    simp [nextItem, hx, hclose, hfresh, hcomma, hy, hnext]
  · cases h

theorem stable_nextMember_close {fresh : Bool} (h : nextMember fresh s = .ok (.close r)) :
    Stable (fun x t => nextMember fresh x = .ok (.close t)) s r := by
  unfold nextMember at h
  split at h
  · cases h
  rename_i b q hs
  split at h
  · rename_i hb
    cases h
    refine stable_skipSpace hs (by rw [beq_iff_eq.mp hb]; decide) fun x t hx => ?_
    simp [nextMember, hx, hb]
  split at h
  · split at h <;> cases h
  split at h
  · split at h
    · cases h
    · split at h
      · cases h
      · split at h <;> cases h
  · cases h

theorem stable_nextMember {fresh : Bool} (h : nextMember fresh s = .ok (.item r)) :
    Stable (fun x t => nextMember fresh x = .ok (.item t)) s r := by
  unfold nextMember at h
  split at h
  · cases h
  rename_i b q hs
  split at h
  · cases h
  rename_i hclose
  split at h
  · rename_i hfresh
    split at h
    · rename_i hquote
      cases h
      refine stable_skipSpace hs (by rw [beq_iff_eq.mp hquote]; decide) fun x t hx => ?_
      simp [nextMember, hx, hclose, hfresh, hquote]
    · cases h
  rename_i hfresh
  split at h
  · rename_i hcomma
    split at h
    · cases h
    rename_i c t hq
    split at h
    · cases h
    rename_i hnext
    split at h
    · rename_i hquote
      cases h
      have hfirst : Stable (fun x y => skipSpace x = b :: y) s q :=
        stable_first hs (by rw [beq_iff_eq.mp hcomma]; decide)
      refine (hfirst.trans (stable_first hq (by rw [beq_iff_eq.mp hquote]; decide))).mono ?_
      rintro x t ⟨y, hx, hy⟩
      simp [nextMember, hx, hclose, hfresh, hcomma, hy, hnext, hquote]
    · cases h
  · cases h

theorem stable_readColon (h : readColon s = .ok r) :
    Stable (fun x t => readColon x = .ok t) s r := by
  unfold readColon at h
  split at h
  · cases h
  rename_i hs
  split at h
  · rename_i hb
    cases h
    refine stable_skipSpace hs (by rw [beq_iff_eq.mp hb]; decide) fun x t hx => ?_
    simp [readColon, hx, hb]
  · cases h

theorem stable_readItems {item : Reader Json} (hitem : item.IsStable) {fresh : Bool}
    {taken l : List Json} (h : readItems item fresh taken s = .ok (l, r)) :
    Stable (fun x t => readItems item fresh taken x = .ok (l, t)) s r := by
  fun_induction readItems item fresh taken s with
  | case1 => cases h
  | case2 fresh taken s q hnext =>
      cases h
      exact (stable_nextItem_close hnext).mono fun x t hx => readItems_close hx
  | case3 => cases h
  | case4 fresh taken s q hnext a w hrun hlt ih =>
      have hitems := ih h
      have hshort := Nat.lt_trans (length_readItems_lt h) (item.shorter hrun)
      refine ((stable_nextItem hnext).trans ((hitem.stable hrun).trans hitems) hshort).mono ?_
      rintro x t ⟨y, hx, z, hy, hz⟩
      rw [readItems_item hx hy, hz]

/-- The name of the first member can be read again. -/
theorem stable_readMembers {member : σ → String → Except Fault (Reader σ)}
    (hmember : ∀ {state : σ} {name : String} {value : Reader σ},
      member state name = .ok value → value.IsStable)
    {fresh : Bool} {state final : σ} (h : readMembers member fresh state s = .ok (final, r)) :
    Stable (fun x t => readMembers member fresh state x = .ok (final, t)) s r := by
  fun_induction readMembers member fresh state s with
  | case1 => cases h
  | case2 fresh state s q hnext =>
      cases h
      exact (stable_nextMember_close hnext).mono fun x t hx => readMembers_close hx
  | case3 => cases h
  | case4 => cases h
  | case5 => cases h
  | case6 => cases h
  | case7 fresh state s q hnext name u hname value hvalue v hcolon next w hrun hlt ih =>
      refine ((stable_nextMember hnext).trans ((stable_readText hname).trans
        ((stable_readColon hcolon).trans ((hmember hvalue).stable hrun |>.trans (ih h))))).mono ?_
      rintro x t ⟨y, hx, z, hy, z', hz, z'', hz', ht⟩
      rw [readMembers_member hx hy hvalue hz hz', ht]

/-! ## Readers made of others -/

theorem Reader.IsStable.map {p : Reader α} (hp : p.IsStable) (f : α → β) : (p.map f).IsStable := by
  constructor
  intro s b r h
  unfold Reader.map at h
  dsimp only at h
  split at h
  · cases h
  rename_i hrun
  cases h
  exact (hp.stable hrun).mono fun x t hx => Reader.run_map f hx

/-- A reader that goes by the first byte that is not white space. -/
theorem isStable_of_onFirstByte {p : Reader α} {k : UInt8 → Bytes → Except Fault (α × Bytes)}
    (hp : ∀ x, p.run x =
      match skipSpace x with
      | [] => .error (.ended .value)
      | b :: y => k b y)
    (h : ∀ {b s a r}, k b s = .ok (a, r) →
      b < 0x80 ∧ Stable (fun x t => k b x = .ok (a, t)) s r) : p.IsStable := by
  constructor
  intro s a r hrun
  rw [hp] at hrun
  split at hrun
  · cases hrun
  rename_i b q hs
  obtain ⟨hb, hstable⟩ := h hrun
  have hfirst : Stable (fun x y => skipSpace x = b :: y) s q :=
    stable_first hs hb
  refine (hfirst.trans hstable).mono ?_
  rintro x t ⟨y, hx, hy⟩
  rw [hp, hx]
  exact hy

/-- The reader of one more entry is stable because the reader of its value is. -/
theorem Reader.IsStable.entry {value : Reader α} (hvalue : value.IsStable)
    {taken : List (String × α)} {name : String} {reader : Reader (List (String × α))}
    (h : Except.ok (value.map fun v => (name, v) :: taken) = Except.ok (ε := Fault) reader) :
    reader.IsStable := by
  cases h
  exact hvalue.map _

theorem stable_readEntries {value : Reader α} (hvalue : value.IsStable)
    {l : List (String × α)} (h : readEntries value s = .ok (l, r)) :
    Stable (fun x t => readEntries value x = .ok (l, t)) s r :=
  stable_readMembers hvalue.entry h

theorem isStable_textFor (expected : Expected) : (Reader.textFor expected).IsStable := by
  refine isStable_of_onFirstByte (fun x => rfl) ?_
  intro b s t r h
  split at h
  · rename_i hb
    refine ⟨by rw [beq_iff_eq.mp hb]; decide, (stable_readText h).mono fun x y hx => ?_⟩
    rw [if_pos hb, hx]
  · cases h

theorem stable_readObjectEnd (h : readObjectEnd s = .ok r) :
    Stable (fun x t => readObjectEnd x = .ok t) s r := by
  unfold readObjectEnd at h
  split at h
  · cases h
  rename_i hs
  split at h
  · rename_i hb
    cases h
    refine stable_skipSpace hs (by rw [beq_iff_eq.mp hb]; decide) fun x t hx => ?_
    simp [readObjectEnd, hx, hb]
  · split at h <;> cases h

theorem stable_readMarked {spelled : Bytes → Except Fault Json} {v : Json}
    (h : readMarked spelled s = .ok (v, r)) :
    Stable (fun x t => readMarked spelled x = .ok (v, t)) s r := by
  unfold readMarked at h
  split at h
  · cases h
  rename_i hcolon
  split at h
  · cases h
  rename_i htext
  split at h
  · cases h
  rename_i hspelled
  split at h
  · cases h
  rename_i hend
  cases h
  refine ((stable_readColon hcolon).trans (((isStable_textFor _).stable htext).trans
    (stable_readObjectEnd hend))).mono ?_
  rintro x t ⟨y, hx, z, hy, hz⟩
  simp only [readMarked, hx, hy, hspelled, hz]

/-! ## Values -/

theorem numeral_lt {b : UInt8} (h : (b == Byte.minus || Byte.isDigit b) = true) : b < 0x80 := by
  rw [Bool.or_eq_true, beq_iff_eq] at h
  rcases h with rfl | h
  · decide
  · exact isDigit_lt h

theorem stable_afterMark? (h : afterMark? s = some r) :
    Stable (fun x t => afterMark? x = some t) s r := by
  unfold afterMark? at h
  split at h
  · rename_i hnext
    split at h
    · rename_i hname
      split at h
      · rename_i hmark
        cases h
        refine ((stable_nextMember hnext).trans (stable_readText hname)).mono ?_
        rintro x t ⟨y, hx, hy⟩
        simp only [afterMark?, hx, hy, if_pos hmark]
      · cases h
    · cases h
  · cases h

/-- An object without the mark of an embedded value shows that by the name of its first member. -/
theorem stable_unmarked {value : Reader α} (hvalue : value.IsStable) {l : List (String × α)}
    (hmark : afterMark? s = none) (h : readEntries value s = .ok (l, r)) :
    Stable (fun x t => afterMark? x = none ∧ readEntries value x = .ok (l, t)) s r := by
  unfold readEntries readMembers at h
  split at h
  · cases h
  · rename_i q hnext
    cases h
    refine (stable_nextMember_close hnext).mono fun x t hx => ⟨?_, readMembers_close hx⟩
    rw [afterMark?, hx]
  rename_i q hnext
  split at h
  · cases h
  rename_i name u hname
  dsimp only at h
  split at h
  · cases h
  rename_i v hcolon
  split at h
  · cases h
  rename_i next w hrun
  have hother : name ≠ embeddedName := by
    intro hsame
    simp [afterMark?, hnext, hname, hsame] at hmark
  refine ((stable_nextMember hnext).trans ((stable_readText hname).trans
    ((stable_readColon hcolon).trans ((hvalue.entry rfl).stable hrun |>.trans
      (stable_readMembers hvalue.entry h))))).mono ?_
  rintro x t ⟨y, hx, z, hy, z', hz, z'', hz', ht⟩
  refine ⟨by simp [afterMark?, hx, hy, hother], ?_⟩
  rw [readEntries, readMembers_member hx hy rfl hz hz', ht]

theorem stable_readValue {spelled : Bytes → Except Fault Json} {inner : Option (Reader Json)}
    (hinner : ∀ p ∈ inner, p.IsStable) {b : UInt8} {v : Json}
    (h : readValue spelled inner b s = .ok (v, r)) :
    b < 0x80 ∧ Stable (fun x t => readValue spelled inner b x = .ok (v, t)) s r := by
  unfold readValue at h ⊢
  split at h
  · rename_i hb
    refine ⟨by rw [beq_iff_eq.mp hb]; decide, ?_⟩
    split at h
    · cases h
    · rename_i hr
      cases h
      exact (stable_restOfNull hr).mono fun x t hx => by simp only [if_pos hb, hx]
  rename_i hnull
  simp only [if_neg hnull]
  split at h
  · rename_i hb
    refine ⟨by rw [beq_iff_eq.mp hb]; decide, ?_⟩
    split at h
    · cases h
    · rename_i hr
      cases h
      exact (stable_restOfTrue hr).mono fun x t hx => by simp only [if_pos hb, hx]
  rename_i htrue
  simp only [if_neg htrue]
  split at h
  · rename_i hb
    refine ⟨by rw [beq_iff_eq.mp hb]; decide, ?_⟩
    split at h
    · cases h
    · rename_i hr
      cases h
      exact (stable_restOfFalse hr).mono fun x t hx => by simp only [if_pos hb, hx]
  rename_i hfalse
  simp only [if_neg hfalse]
  split at h
  · rename_i hb
    refine ⟨numeral_lt hb, ?_⟩
    split at h
    · cases h
    · rename_i hr
      cases h
      exact (stable_readNumber hr).mono fun x t hx => by simp only [if_pos hb, hx]
  rename_i hnumber
  simp only [if_neg hnumber]
  split at h
  · rename_i hb
    refine ⟨by rw [beq_iff_eq.mp hb]; decide, ?_⟩
    split at h
    · cases h
    · rename_i hr
      cases h
      exact (stable_readText hr).mono fun x t hx => by simp only [if_pos hb, hx]
  rename_i htext
  simp only [if_neg htext]
  split at h
  · rename_i hb
    refine ⟨by rw [beq_iff_eq.mp hb]; decide, ?_⟩
    split at h
    · cases h
    rename_i item
    split at h
    · cases h
    · rename_i hr
      cases h
      exact (stable_readItems (hinner item rfl) hr).mono fun x t hx => by
        simp only [if_pos hb, hx]
  rename_i hlist
  simp only [if_neg hlist]
  split at h
  · rename_i hb
    refine ⟨by rw [beq_iff_eq.mp hb]; decide, ?_⟩
    split at h
    · cases h
    rename_i value
    split at h
    · rename_i hmark
      refine ((stable_afterMark? hmark).trans (stable_readMarked h)).mono ?_
      rintro x t ⟨y, hx, hy⟩
      simp only [if_pos hb, hx, hy]
    · rename_i hmark
      split at h
      · cases h
      · rename_i hr
        cases h
        exact (stable_unmarked (hinner value rfl) hmark hr).mono fun x t hx => by
          simp only [if_pos hb, hx.1, hx.2]
  · cases h

theorem isStable_valueBy (spelled : Bytes → Except Fault Json) (depth : Nat) :
    (Reader.valueBy spelled depth).IsStable := by
  induction depth with
  | zero =>
      refine isStable_of_onFirstByte (fun x => rfl) (stable_readValue ?_)
      simp
  | succ depth ih =>
      refine isStable_of_onFirstByte (fun x => rfl) (stable_readValue ?_)
      simpa using ih

theorem isStable_value (depth : Nat) : (Reader.value depth).IsStable :=
  isStable_valueBy spelledValue depth

/-! ## Values of one type -/

theorem isStable_text : Reader.text.IsStable := isStable_textFor _

theorem isStable_unit : Reader.unit.IsStable := by
  refine isStable_of_onFirstByte (fun x => rfl) ?_
  intro b s u r h
  split at h
  · rename_i hb
    split at h
    · cases h
    · rename_i hr
      cases h
      refine ⟨by rw [beq_iff_eq.mp hb]; decide, (stable_restOfNull hr).mono fun x t hx => ?_⟩
      simp only [if_pos hb, hx]
  · cases h

theorem isStable_keyedOf {value : Reader α} (hvalue : value.IsStable) :
    (Reader.keyedOf value).IsStable := by
  refine isStable_of_onFirstByte (fun x => rfl) ?_
  intro b s u r h
  split at h
  · rename_i hb
    split at h
    · cases h
    · rename_i hr
      cases h
      refine ⟨by rw [beq_iff_eq.mp hb]; decide, (stable_readEntries hvalue hr).mono fun x t hx => ?_⟩
      simp only [if_pos hb, hx]
  · cases h

theorem isStable_optional {p : Reader α} (hp : p.IsStable) : (Reader.optional p).IsStable := by
  constructor
  intro s a r h
  simp only [Reader.optional, Reader.onFirstByte] at h ⊢
  split at h
  · cases h
  rename_i b q hs
  split at h
  · rename_i hb
    split at h
    · cases h
    · rename_i hr
      cases h
      have hfirst : Stable (fun x y => skipSpace x = b :: y) s q :=
        stable_first hs (by rw [beq_iff_eq.mp hb]; decide)
      refine (hfirst.trans (stable_restOfNull hr)).mono ?_
      rintro x t ⟨y, hx, hy⟩
      simp only [hx, if_pos hb, hy]
  · rename_i hb
    split at h
    · cases h
    · rename_i hrun
      cases h
      -- The first byte is used up by the reader itself.
      have hfirst : StableBefore (fun x y => skipSpace x = y ∧ y.head? = some b) s (b :: q) :=
        stableBefore_first hs
      refine (hfirst.trans (hp.stable hrun) (p.shorter hrun)).mono ?_
      rintro x t ⟨y, ⟨hx, hhead⟩, hy⟩
      obtain ⟨y, rfl⟩ := List.head?_eq_some_iff.mp hhead
      simp only [hx, if_neg hb, hy]

end

end QueryAdmission.Json

import Mathlib.Algebra.Ring.Nat
import Mathlib.Data.List.TakeWhile
import Mathlib.Tactic.Ring
import QueryAdmission.Text.Numeral

/-! # What numerals denote

A numeral has blank margins, at most one plus sign and at least one digit. Each digit counts by its
place, so that zeros in front do not count. -/

namespace QueryAdmission.Text

/-- The number that decimal digits denote, each by its place. -/
def placeValue : List Char → Nat
  | [] => 0
  | c :: cs => (c.toNat - '0'.toNat) * 10 ^ cs.length + placeValue cs

/-- `Denotes s n` says that the text is a numeral of `n`. -/
inductive Denotes (s : String) : Nat → Prop where
  | mk {lead sign digits trail : List Char} : s.toList = lead ++ (sign ++ digits) ++ trail →
      (∀ c ∈ lead, isBlank c = true) → (∀ c ∈ trail, isBlank c = true) →
      sign = [] ∨ sign = ['+'] → digits ≠ [] → (∀ c ∈ digits, '0' ≤ c ∧ c ≤ '9') →
      Denotes s (placeValue digits)

/-! ## Margins -/

/-- A text is its blank margins and what is left without them. -/
theorem exists_margins (cs : List Char) :
    ∃ lead trail, cs = lead ++ trimChars cs ++ trail ∧ (∀ c ∈ lead, isBlank c = true) ∧
      ∀ c ∈ trail, isBlank c = true := by
  refine ⟨cs.takeWhile isBlank, ((cs.dropWhile isBlank).reverse.takeWhile isBlank).reverse, ?_,
    fun c hc => List.mem_takeWhile_imp hc,
    fun c hc => List.mem_takeWhile_imp (List.mem_reverse.mp hc)⟩
  have hrest : trimChars cs ++ ((cs.dropWhile isBlank).reverse.takeWhile isBlank).reverse =
      cs.dropWhile isBlank := by
    rw [trimChars, ← List.reverse_append, List.takeWhile_append_dropWhile, List.reverse_reverse]
  rw [List.append_assoc, hrest, List.takeWhile_append_dropWhile]

/-- Trimming takes the margins away, and nothing of what is between its first and its last
character if these are not blank. -/
theorem trimChars_append {lead core trail : List Char} (hlead : ∀ c ∈ lead, isBlank c = true)
    (htrail : ∀ c ∈ trail, isBlank c = true) (hcore : ∀ c ∈ core, isBlank c = false)
    (hne : core ≠ []) : trimChars (lead ++ core ++ trail) = core := by
  obtain ⟨first, rest, hfirst⟩ := List.exists_cons_of_ne_nil hne
  obtain ⟨last, init, hlast⟩ := List.exists_cons_of_ne_nil (mt List.reverse_eq_nil_iff.mp hne)
  have hfront : (lead ++ core ++ trail).dropWhile isBlank = core ++ trail := by
    rw [List.append_assoc, List.dropWhile_append_of_pos hlead, hfirst, List.cons_append,
      List.dropWhile_cons_of_neg (by simp [hcore first (hfirst ▸ List.mem_cons_self)])]
  have hback : (core ++ trail).reverse.dropWhile isBlank = core.reverse := by
    have hmem : last ∈ core := List.mem_reverse.mp (hlast ▸ List.mem_cons_self)
    rw [List.reverse_append,
      List.dropWhile_append_of_pos fun c hc => htrail c (List.mem_reverse.mp hc), hlast,
      List.dropWhile_cons_of_neg (by simp [hcore last hmem])]
  rw [trimChars, hfront, hback, List.reverse_reverse]

/-! ## Digits -/

theorem digit?_eq_some_iff {c : Char} {d : Nat} :
    digit? c = some d ↔ ('0' ≤ c ∧ c ≤ '9') ∧ d = c.toNat - '0'.toNat := by
  rw [digit?]
  split <;> simp_all [eq_comm]

/-- Digits that are read from the front count by their places. -/
theorem digits?_eq_some_iff {cs : List Char} {n m : Nat} :
    digits? n cs = some m ↔
      (∀ c ∈ cs, '0' ≤ c ∧ c ≤ '9') ∧ m = n * 10 ^ cs.length + placeValue cs := by
  induction cs generalizing n with
  | nil => simp [digits?, placeValue, eq_comm]
  | cons c cs ih =>
      have hplace (d : Nat) : (10 * n + d) * 10 ^ cs.length + placeValue cs =
          n * 10 ^ (cs.length + 1) + (d * 10 ^ cs.length + placeValue cs) := by ring
      simp only [digits?, Option.bind_eq_some_iff, digit?_eq_some_iff, ih, List.forall_mem_cons,
        List.length_cons, placeValue, hplace]
      constructor
      · rintro ⟨d, ⟨hc, rfl⟩, hcs, rfl⟩
        exact ⟨⟨hc, hcs⟩, rfl⟩
      · rintro ⟨⟨hc, hcs⟩, rfl⟩
        exact ⟨_, ⟨hc, rfl⟩, hcs, rfl⟩

theorem ne_plus_of_digit {c : Char} (h : '0' ≤ c) : c ≠ '+' := by
  rintro rfl
  exact absurd h (by decide)

theorem isBlank_of_digit {c : Char} (h : '0' ≤ c ∧ c ≤ '9') : isBlank c = false := by
  have hlow : '0'.toNat ≤ c.toNat := h.1
  have hhigh : c.toNat ≤ '9'.toNat := h.2
  rw [show '0'.toNat = 48 from rfl] at hlow
  rw [show '9'.toNat = 57 from rfl] at hhigh
  simp only [isBlank, Bool.or_eq_false_iff, Bool.and_eq_false_imp, decide_eq_true_eq,
    decide_eq_false_iff_not, beq_eq_false_iff_ne, ne_eq]
  omega

/-! ## Numerals -/

theorem numeral?_eq_some_iff {cs : List Char} {n : Nat} :
    numeral? cs = some n ↔ ∃ sign digits, cs = sign ++ digits ∧ (sign = [] ∨ sign = ['+']) ∧
      digits ≠ [] ∧ (∀ c ∈ digits, '0' ≤ c ∧ c ≤ '9') ∧ n = placeValue digits := by
  constructor
  · intro h
    unfold numeral? at h
    split at h
    · cases h
    · cases h
    · obtain ⟨hdigits, hn⟩ := digits?_eq_some_iff.mp h
      exact ⟨['+'], _, rfl, .inr rfl, List.cons_ne_nil _ _, hdigits, by rw [hn]; ring⟩
    · obtain ⟨hdigits, hn⟩ := digits?_eq_some_iff.mp h
      exact ⟨[], _, rfl, .inl rfl, List.cons_ne_nil _ _, hdigits, by rw [hn]; ring⟩
  · rintro ⟨sign, digits, rfl, hsign, hne, hdigits, rfl⟩
    obtain ⟨c, cs, rfl⟩ := List.exists_cons_of_ne_nil hne
    have hread : digits? 0 (c :: cs) = some (placeValue (c :: cs)) :=
      digits?_eq_some_iff.mpr ⟨hdigits, by ring⟩
    rcases hsign with rfl | rfl
    · have hc := ne_plus_of_digit (hdigits c List.mem_cons_self).1
      rw [List.nil_append, numeral?]
      · exact hread
      · exact fun heq => absurd heq hc
      · exact fun _ _ heq => absurd heq hc
    · exact hread

/-- What is read is what the numeral denotes. -/
theorem denotes_iff {s : String} {n : Nat} :
    Denotes s n ↔ numeral? (trimChars s.toList) = some n := by
  rw [numeral?_eq_some_iff]
  constructor
  · rintro ⟨htext, hlead, htrail, hsign, hne, hdigits⟩
    rename_i sign digits _
    have hcore : ∀ c ∈ sign ++ digits, isBlank c = false := by
      intro c hc
      rcases List.mem_append.mp hc with hc | hc
      · rcases hsign with rfl | rfl
        · cases hc
        · rw [List.mem_singleton.mp hc]
          rfl
      · exact isBlank_of_digit (hdigits c hc)
    rw [htext, trimChars_append hlead htrail hcore (List.append_ne_nil_of_right_ne_nil _ hne)]
    exact ⟨sign, digits, rfl, hsign, hne, hdigits, rfl⟩
  · rintro ⟨sign, digits, hcore, hsign, hne, hdigits, rfl⟩
    obtain ⟨lead, trail, htext, hlead, htrail⟩ := exists_margins s.toList
    exact .mk (hcore ▸ htext) hlead htrail hsign hne hdigits

theorem Denotes.unique {s : String} {n m : Nat} (hn : Denotes s n) (hm : Denotes s m) : n = m :=
  Option.some.inj ((denotes_iff.mp hn).symm.trans (denotes_iff.mp hm))

theorem numeralBelow?_eq_some_iff {bound : Nat} {s : String} {n : Nat} :
    numeralBelow? bound s = some n ↔ Denotes s n ∧ n < bound := by
  rw [numeralBelow?, Option.filter_eq_some_iff, denotes_iff, decide_eq_true_iff]

end QueryAdmission.Text

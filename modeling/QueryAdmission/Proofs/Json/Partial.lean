import Mathlib.Data.List.Perm.Basic
import QueryAdmission.Proofs.Json.Decimal
import QueryAdmission.Proofs.Json.Record
import QueryAdmission.Proofs.Keyed

/-! # Objects that are given in part

A text can give some of the members of an object, in any order, and others that the object does not
have. A record that is read off such a text has what is given, and what it has by default. -/

namespace QueryAdmission.Json

/-! ## Values as text -/

/-- A truth value, a whole number or a string, as text. -/
inductive SpellsScalar : Json → Bytes → Bytes → Prop where
  | yes (r : Bytes) : SpellsScalar (.bool true) (0x74 :: 0x72 :: 0x75 :: 0x65 :: r) r
  | no (r : Bytes) : SpellsScalar (.bool false) (0x66 :: 0x61 :: 0x6C :: 0x73 :: 0x65 :: r) r
  | whole (n : Int) (r : Bytes) :
      SpellsScalar (.number (.whole n)) (bytesOf (toString n) ++ r) r
  | text {t : String} {s r : Bytes} : SpellsText t s r →
      SpellsScalar (.text t) (Byte.quote :: s) r

/-- What is left of a list of scalars. -/
inductive SpellsItems : (fresh : Bool) → List Json → Bytes → Bytes → Prop where
  | close (fresh : Bool) {s r : Bytes} : Blanks s (Byte.closeSquare :: r) →
      SpellsItems fresh [] s r
  | item {fresh : Bool} {v : Json} {l : List Json} {s t u r : Bytes} : Comma fresh s t →
      SpellsScalar v t u → SpellsItems false l u r → SpellsItems fresh (v :: l) s r

/-- What is left of an object whose members are listed in the order of the text. `value` says how
their values are written. Between them there can be members that are not listed, with any value, if
`other` holds of their names. -/
inductive SpellsMembers (value : String → Json → Bytes → Bytes → Prop) (other : String → Prop) :
    (fresh : Bool) → List (String × Json) → Bytes → Bytes → Prop where
  | close (fresh : Bool) {s r : Bytes} : Blanks s (Byte.closeCurly :: r) →
      SpellsMembers value other fresh [] s r
  | given {fresh : Bool} {name : String} {v : Json} {l : List (String × Json)} {s t u r : Bytes} :
      Leads fresh name s t → value name v t u → SpellsMembers value other false l u r →
      SpellsMembers value other fresh ((name, v) :: l) s r
  | other {fresh : Bool} {name : String} {l : List (String × Json)} {s t u r : Bytes} :
      Leads fresh name s t → other name → Derives .value t u →
      SpellsMembers value other false l u r → SpellsMembers value other fresh l s r

/-- A value whose parts are scalars. The members of an object can be in any order. -/
inductive SpellsFlat : Json → Bytes → Bytes → Prop where
  | scalar {v : Json} {s r : Bytes} : SpellsScalar v s r → SpellsFlat v s r
  | list {l : List Json} {s r : Bytes} : SpellsItems true l s r →
      SpellsFlat (.list l) (Byte.openSquare :: s) r
  | object {members given : List (String × Json)} {s r : Bytes} : given.Perm members →
      SpellsMembers (fun _ => SpellsScalar) (fun _ => False) true given s r →
      SpellsFlat (.object members) (Byte.openCurly :: s) r

/-- An object that gives, of these members, those that are kept, in any order, and other members
under names that none of them has. -/
def SpellsSome (value : String → Json → Bytes → Bytes → Prop) (kept : String → Bool)
    (members : List (String × Json)) (s r : Bytes) : Prop :=
  ∃ given t, given.Perm (members.filter fun m => kept m.1) ∧ s = Byte.openCurly :: t ∧
    SpellsMembers value (· ∉ members.map Prod.fst) true given t r

/-- A value of which some members are given: those whose paths are kept. An object on one of the
first `levels` levels can lose members and get others. -/
def SpellsKept : (levels : Nat) → (kept : List String → Bool) → Json → Bytes → Bytes → Prop
  | levels + 1, kept, .object members =>
    SpellsSome (fun name => SpellsKept levels fun path => kept (name :: path))
      (fun name => kept [name]) members
  | _, _, v => SpellsFlat v

/-- Nothing is left out of a value below the levels that can lose members, or of a value that is
not an object. -/
theorem spellsKept_eq {levels : Nat} {kept : List String → Bool} {v : Json}
    (h : levels = 0 ∨ ∀ members, v ≠ .object members) :
    SpellsKept levels kept v = SpellsFlat v := by
  cases levels with
  | zero => cases v <;> rfl
  | succ levels =>
      cases v with
      | object members => exact absurd rfl (h.resolve_left (Nat.succ_ne_zero _) members)
      | _ => rfl

/-- In which order the members of an object are listed does not matter. -/
theorem spellsSome_congr {value : String → Json → Bytes → Bytes → Prop} {kept : String → Bool}
    {members members' : List (String × Json)} (h : members.Perm members') :
    SpellsSome value kept members = SpellsSome value kept members' := by
  have hother : (· ∉ members.map Prod.fst) = (· ∉ members'.map Prod.fst) :=
    funext fun name => by rw [(h.map Prod.fst).mem_iff]
  funext s r
  simp only [SpellsSome, hother, (h.filter _).congr_right]

theorem spellsKept_ofMembers {levels : Nat} {kept : List String → Bool}
    {members : List (String × Json)} (h : (members.map Prod.fst).Nodup) :
    SpellsKept (levels + 1) kept (.ofMembers members) =
      SpellsSome (fun name => SpellsKept levels fun path => kept (name :: path))
        (fun name => kept [name]) members :=
  spellsSome_congr (Keyed.perm_ofList (List.pairwise_map.mp h))

theorem SpellsScalar.head {v : Json} {s r : Bytes} (h : SpellsScalar v s r) :
    ∃ b t, s = b :: t ∧ Byte.isSpace b = false ∧ b ≠ Byte.closeSquare := by
  cases h with
  | whole n =>
      obtain ⟨b, t, hbytes, hb⟩ := exists_numeral n
      obtain ⟨hspace, -, -, -, -, -, -, hclose⟩ := numeral_head_spec hb
      exact ⟨b, t ++ r, by rw [hbytes, List.cons_append], hspace, hclose⟩
  | _ => exact ⟨_, _, rfl, by decide, by decide⟩

theorem SpellsMembers.follows {value : String → Json → Bytes → Bytes → Prop}
    {other : String → Prop} {l : List (String × Json)} {s r : Bytes}
    (h : SpellsMembers value other false l s r) : Follows s := by
  cases h with
  | close _ hs => exact hs.follows (by decide)
  | given hs _ _ => exact hs.follows
  | other hs _ _ _ => exact hs.follows

theorem SpellsItems.follows {l : List Json} {s r : Bytes} (h : SpellsItems false l s r) :
    Follows s := by
  cases h with
  | close _ hs => exact hs.follows (by decide)
  | item hs _ _ => exact hs.follows

/-! ## Readers of one type -/

namespace Reader

variable {α β : Type} {p : Reader α} {R : Bytes → Bytes → Prop} {a : α}

/-- `p.Takes R a` says that the reader takes `a` from every text that `R` allows, up to where that
text ends, and passes over the white space before it. -/
def Takes (p : Reader α) (R : Bytes → Bytes → Prop) (a : α) : Prop :=
  ∀ ⦃s u r : Bytes⦄, Blanks s u → R u r → Follows r → p.run s = .ok (a, r)

theorem Takes.map (h : p.Takes R a) (f : α → β) : (p.map f).Takes R (f a) :=
  fun _ _ _ hs hR hr => run_map f (h hs hR hr)

theorem takes_bool (b : Bool) : Reader.bool.Takes (SpellsScalar (.bool b)) b := by
  intro s u r hs hu _
  cases hu with
  | yes =>
      simp only [Reader.bool, onFirstByte, hs.skipSpace_cons rfl]
      rfl
  | no =>
      simp only [Reader.bool, onFirstByte, hs.skipSpace_cons rfl]
      rfl

theorem takes_text (t : String) : Reader.text.Takes (SpellsScalar (.text t)) t := by
  intro s u r hs hu _
  cases hu with
  | text ht => rw [run_text_blanks hs, run_text ht]

theorem takes_wholeIn {least bound n : Int} (expected : Expected) (hfits : Fits n)
    (hn : least ≤ n ∧ n < bound) :
    (wholeIn least bound expected).Takes (SpellsScalar (.number (.whole n))) n := by
  intro s u r hs hu hr
  cases hu with
  | whole =>
      obtain ⟨b, t, hbytes, hb⟩ := exists_numeral n
      obtain ⟨hspace, -⟩ := numeral_head_spec hb
      rw [hbytes, List.cons_append] at hs
      have hstart : (b == Byte.minus || Byte.isDigit b) = true := by simpa using hb
      simp only [wholeIn, onFirstByte, hs.skipSpace_cons hspace, hstart,
        readNumber_numeral hfits hbytes hr, if_true, if_pos hn]

theorem takes_word32 (n : UInt32) : word32.Takes (SpellsScalar (.nat n.toNat)) n := by
  have hlt := n.toNat_lt
  have hwhole : (wholeIn 0 UInt32.size .word32).Takes (SpellsScalar (.nat n.toNat)) n.toNat :=
    takes_wholeIn .word32 ⟨by omega, by omega⟩ ⟨by omega, by rw [UInt32.size]; omega⟩
  have h := hwhole.map fun i => UInt32.ofNat i.toNat
  rwa [Int.toNat_natCast, UInt32.ofNat_toNat] at h

theorem takes_word64 (n : UInt64) : word64.Takes (SpellsScalar (.nat n.toNat)) n := by
  have hlt := n.toNat_lt
  have hwhole : (wholeIn 0 UInt64.size .word64).Takes (SpellsScalar (.nat n.toNat)) n.toNat :=
    takes_wholeIn .word64 ⟨by omega, by omega⟩ ⟨by omega, by rw [UInt64.size]; omega⟩
  have h := hwhole.map fun i => UInt64.ofNat i.toNat
  rwa [Int.toNat_natCast, UInt64.ofNat_toNat] at h

theorem takes_signed64 (n : Int64) :
    signed64.Takes (SpellsScalar (.number (.whole n.toInt))) n := by
  have hlow := n.le_toInt
  have hhigh := n.toInt_lt
  have h := (takes_wholeIn .signed64 ⟨by omega, by omega⟩ ⟨hlow, hhigh⟩).map Int64.ofInt
  rwa [Int64.ofInt_toInt] at h

/-- A value that is neither a list nor an object is flat as a scalar. -/
theorem Takes.flat {v : Json} (h : p.Takes (SpellsScalar v) a) (hlist : ∀ l, v ≠ .list l)
    (hobject : ∀ l, v ≠ .object l) : p.Takes (SpellsFlat v) a := by
  intro s u r hs hu hr
  cases hu with
  | scalar hv => exact h hs hv hr
  | list => exact absurd rfl (hlist _)
  | object => exact absurd rfl (hobject _)

theorem Takes.kept {levels : Nat} {kept : List String → Bool} {v : Json}
    (h : p.Takes (SpellsScalar v) a) (hlist : ∀ l, v ≠ .list l) (hobject : ∀ l, v ≠ .object l) :
    p.Takes (SpellsKept levels kept v) a := by
  rw [spellsKept_eq (.inr hobject)]
  exact h.flat hlist hobject

theorem readItems_spelled {item : Reader α} {fresh : Bool} {l : List Json} {as : List α}
    {s r : Bytes} (h : SpellsItems fresh l s r)
    (hl : List.Forall₂ (fun v a => item.Takes (SpellsScalar v) a) l as) (taken : List α) :
    readItems item fresh taken s = .ok (as.reverse ++ taken, r) := by
  induction h generalizing as taken with
  | close fresh hs =>
      cases hl
      exact readItems_close (nextItem_close hs)
  | item hs hv hrest ih =>
      cases hl with
      | cons ha hl =>
          obtain ⟨b, t, rfl, hspace, hclose⟩ := hv.head
          rw [readItems_item (hs.nextItem_eq hspace hclose) (ha (.nil _) hv hrest.follows), ih hl,
            List.reverse_cons, List.append_assoc, List.singleton_append]

/-- A list is read off the text of its items, if each of these is. -/
theorem takes_listOf {item : Reader α} {shown : α → Json}
    (h : ∀ a, item.Takes (SpellsScalar (shown a)) a) (l : List α) :
    (Reader.listOf item).Takes (SpellsFlat (.list (l.map shown))) l := by
  intro s u r hs hu _
  have hl : List.Forall₂ (fun v a => item.Takes (SpellsScalar v) a) (l.map shown) l :=
    List.forall₂_map_left_iff.mpr (List.forall₂_same.mpr fun a _ => h a)
  cases hu with
  | scalar hv => cases hv
  | list hitems =>
      have hread := readItems_spelled hitems hl []
      rw [List.append_nil] at hread
      simp [listOf, onFirstByte, hs.skipSpace_cons rfl, hread]

/-- The entries of a table are read off an object that gives all of them. -/
theorem readMembers_table {value : Reader α} {fresh : Bool} {l : List (String × Json)}
    {entries : List (String × α)} {s r : Bytes}
    (h : SpellsMembers (fun _ => SpellsScalar) (fun _ => False) fresh l s r)
    (hl : List.Forall₂ (fun m e => m.1 = e.1 ∧ value.Takes (SpellsScalar m.2) e.2) l entries)
    (taken : List (String × α)) :
    readMembers (fun taken name => .ok (value.map fun v => (name, v) :: taken)) fresh taken s =
      .ok (entries.reverse ++ taken, r) := by
  induction h generalizing entries taken with
  | close fresh hs =>
      cases hl
      exact readMembers_close (nextMember_close hs)
  | @given _ name _ _ _ _ _ _ hlead hv hrest ih =>
      cases hl with
      | @cons _ e _ entries he hl =>
          obtain ⟨rfl, he⟩ := he
          cases hlead with
          | mk hs ht hu hw =>
              rw [readMembers_member hs.nextMember_eq ht.readText_eq rfl (readColon_eq hu)
                (run_map (fun v => (e.1, v) :: taken) (he hw hv hrest.follows)), ih hl,
                List.reverse_cons, List.append_assoc, List.singleton_append]
  | other _ hname _ _ _ => exact absurd hname id

/-- So is a table. -/
theorem takes_keyedOf {value : Reader α} {shown : α → Json}
    (h : ∀ a, value.Takes (SpellsScalar (shown a)) a) (t : Keyed α) :
    (Reader.keyedOf value).Takes
      (SpellsFlat (.object (t.toList.map fun e => (e.1, shown e.2)))) t := by
  intro s u r hs hu _
  have hmembers : List.Forall₂ (fun m e => m.1 = e.1 ∧ value.Takes (SpellsScalar m.2) e.2)
      (t.toList.map fun e => (e.1, shown e.2)) t.toList :=
    List.forall₂_map_left_iff.mpr (List.forall₂_same.mpr fun e _ => ⟨rfl, h e.2⟩)
  cases hu with
  | scalar hv => cases hv
  | object hperm hspells =>
      obtain ⟨entries, hentries, hsame⟩ := List.perm_comp_forall₂ hperm hmembers
      have hread : readEntries value _ = .ok (entries.reverse ++ [], r) :=
        readMembers_table hspells hentries []
      rw [List.append_nil] at hread
      simp only [keyedOf, onFirstByte, hs.skipSpace_cons rfl, hread, List.reverse_reverse,
        Keyed.ofList_eq_of_perm hsame]
      rfl

end Reader

/-! ## Records -/

variable {ρ : Type} {value : String → Json → Bytes → Bytes → Prop} {keep : (String → Bool) → ρ}

/-- How a member of a record is read off an entry of an object. `keep kept` is a record that has
these of its members from that object and the others by default, so a member that is read is kept
from then on. -/
structure Member.Keeps (m : Member ρ) (value : String → Json → Bytes → Bytes → Prop)
    (keep : (String → Bool) → ρ) (e : String × Json) : Prop where
  name_eq : m.name = e.1
  optional : m.required = false
  takes : ∃ f, m.change.Takes (value e.1 e.2) f ∧
    ∀ kept, f (keep kept) = keep fun name => name == e.1 || kept name

theorem field_keeps {α : Type} {name : String} {p : Reader α} {set : α → ρ → ρ} {v : Json} {a : α}
    (hp : p.Takes (value name v) a)
    (hset : ∀ kept, set a (keep kept) = keep fun other => other == name || kept other) :
    (field name p set).Keeps value keep (name, v) :=
  ⟨rfl, rfl, set a, hp.map set, hset⟩

/-- The same for a record: its members are the entries of an object, one by one. -/
structure Record.Keeps (t : Record ρ) (value : String → Json → Bytes → Bytes → Prop)
    (keep : (String → Bool) → ρ) (entries : List (String × Json)) : Prop where
  members : List.Forall₂ (fun m e => m.Keeps value keep e) t.members entries
  distinct : (entries.map Prod.fst).Nodup
  congr : ∀ {kept kept' : String → Bool}, (∀ e ∈ entries, kept e.1 = kept' e.1) →
    keep kept = keep kept'

namespace Record.Keeps

variable {t : Record ρ} {entries given : List (String × Json)}

theorem exists_find? {ms : List (Member ρ)} {e : String × Json}
    (h : List.Forall₂ (fun m e => m.Keeps value keep e) ms entries)
    (hdistinct : (entries.map Prod.fst).Nodup) (he : e ∈ entries) :
    ∃ m, ms.find? (·.name == e.1) = some m ∧ m.Keeps value keep e := by
  induction h with
  | nil => cases he
  | @cons m e' ms entries hm _ ih =>
      rw [List.map_cons, List.nodup_cons] at hdistinct
      rcases List.mem_cons.mp he with rfl | he
      · exact ⟨m, List.find?_cons_of_pos (by simp [hm.name_eq]), hm⟩
      · have hne : e'.1 ≠ e.1 := fun heq => hdistinct.1 (heq ▸ List.mem_map_of_mem he)
        rw [List.find?_cons_of_neg (by simpa [hm.name_eq] using hne)]
        exact ih hdistinct.2 he

theorem find?_eq_none {ms : List (Member ρ)} {name : String}
    (h : List.Forall₂ (fun m e => m.Keeps value keep e) ms entries)
    (hname : name ∉ entries.map Prod.fst) : ms.find? (·.name == name) = none := by
  induction h with
  | nil => rfl
  | cons hm _ ih =>
      rw [List.map_cons, List.mem_cons, not_or] at hname
      rw [List.find?_cons_of_neg (by simpa [hm.name_eq] using Ne.symm hname.1)]
      exact ih hname.2

theorem required_eq_false {ms : List (Member ρ)}
    (h : List.Forall₂ (fun m e => m.Keeps value keep e) ms entries) :
    ∀ m ∈ ms, m.required = false := by
  induction h with
  | nil => exact nofun
  | cons hm _ ih => exact List.forall_mem_cons.mpr ⟨hm.optional, ih⟩

/-- The members that have been read are kept, whatever else has been passed over. -/
theorem readMembers_eq (h : t.Keeps value keep entries) {fresh : Bool} {seen : List String}
    {s r : Bytes}
    (hspells : SpellsMembers value (· ∉ entries.map Prod.fst) fresh given s r)
    (hgiven : ∀ e ∈ given, e ∈ entries) (hdistinct : ((given.map Prod.fst).reverse ++ seen).Nodup) :
    readMembers t.member fresh (seen, keep seen.contains) s =
      .ok (((given.map Prod.fst).reverse ++ seen,
        keep ((given.map Prod.fst).reverse ++ seen).contains), r) := by
  induction hspells generalizing seen with
  | close fresh hs => exact readMembers_close (nextMember_close hs)
  | @given _ name v given _ _ _ _ hlead hv hrest ih =>
      obtain ⟨he, hgiven⟩ := List.forall_mem_cons.mp hgiven
      obtain ⟨m, hfind, hm⟩ := exists_find? h.members h.distinct he
      obtain ⟨f, hf, hkeep⟩ := hm.takes
      rw [List.map_cons, List.reverse_cons, List.append_assoc, List.singleton_append] at hdistinct ⊢
      have hseen : name ∉ seen :=
        (List.nodup_cons.mp (List.nodup_append.mp hdistinct).2.1).1
      have hcontains : (fun other => other == name || seen.contains other) =
          (name :: seen).contains := funext fun other => (List.contains_cons).symm
      rw [readMembers_known hlead hfind hseen fun u hu => hf hu hv hrest.follows, hkeep, hcontains]
      exact ih hgiven hdistinct
  | other hlead hname hv hrest ih =>
      rw [readMembers_unknown hlead (find?_eq_none h.members hname) hv hrest.follows]
      exact ih hgiven hdistinct

/-- A record is read off an object that gives some of its members: it keeps these. -/
theorem takes (h : t.Keeps value keep entries) (kept : String → Bool) :
    (t.reader (keep fun _ => false)).Takes (SpellsSome value kept entries) (keep kept) := by
  rintro s u r hs ⟨given, v, hperm, rfl, hspells⟩ -
  have hmem : ∀ e, e ∈ given ↔ e ∈ entries ∧ kept e.1 = true := fun e => by
    rw [hperm.mem_iff, List.mem_filter]
  have hdistinct : ((given.map Prod.fst).reverse ++ []).Nodup := by
    rw [List.append_nil, (List.reverse_perm _).nodup_iff, (hperm.map Prod.fst).nodup_iff]
    exact h.distinct.sublist (List.filter_sublist.map Prod.fst)
  have hread := h.readMembers_eq hspells (fun e he => ((hmem e).mp he).1) hdistinct
  have hkept : keep ((given.map Prod.fst).reverse ++ []).contains = keep kept := by
    refine h.congr fun e he => ?_
    rw [Bool.eq_iff_iff, List.contains_iff_mem, List.append_nil, List.mem_reverse, List.mem_map]
    constructor
    · rintro ⟨e', he', heq⟩
      rw [← heq]
      exact ((hmem e').mp he').2
    · exact fun hkept => ⟨e, (hmem e).mpr ⟨he, hkept⟩, rfl⟩
  have habsent : t.absent? ((given.map Prod.fst).reverse ++ []) = none := by
    rw [absent?, List.find?_eq_none.mpr, Option.map_none]
    intro m hm
    simp [required_eq_false h.members m hm]
  rw [hkept] at hread
  exact run_object hs hread habsent

/-- The same for the value that the object is. -/
theorem takes_ofMembers {levels : Nat} {kept : List String → Bool}
    (h : t.Keeps (fun name => SpellsKept levels fun path => kept (name :: path)) keep entries) :
    (t.reader (keep fun _ => false)).Takes (SpellsKept (levels + 1) kept (.ofMembers entries))
      (keep fun name => kept [name]) := by
  rw [spellsKept_ofMembers h.distinct]
  exact h.takes _

end Record.Keeps

end QueryAdmission.Json

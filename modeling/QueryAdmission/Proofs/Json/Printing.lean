import QueryAdmission.Json.Print
import QueryAdmission.Proofs.Json.Partial

/-! # Printed values

What is printed of a value is one of the texts that write it. -/

namespace QueryAdmission.Json

/-! ## Strings -/

/-- A hexadecimal digit, as a byte. -/
def hexByte (n : Nat) : UInt8 := .ofNat (if n < 10 then 0x30 + n else 0x57 + n)

theorem hexDigit?_hexByte : ∀ n < 16, Byte.hexDigit? (hexByte n) = some n := by decide

theorem bytesOf_singleton (c : Char) : bytesOf (String.singleton c) = String.utf8EncodeChar c := by
  rw [bytesOf_eq, String.toList_singleton, List.flatMap_singleton]

/-- Control characters have an escape of one letter or are given by two hexadecimal digits. -/
theorem writtenChar_control : ∀ n < 0x20,
    (∃ e ∈ namedEscapes, e.2 = Char.ofNat n ∧
      bytesOf (writtenChar e.2) = [Byte.backslash, e.1]) ∨
    bytesOf (writtenChar (Char.ofNat n)) =
      [Byte.backslash, Byte.letteru, hexByte 0, hexByte 0, hexByte (n / 16), hexByte (n % 16)] := by
  decide +kernel

theorem spellsChar_written (c : Char) (r : Bytes) :
    SpellsChar c (bytesOf (writtenChar c) ++ r) r := by
  by_cases hcontrol : c.toNat < 0x20
  · have hc := writtenChar_control c.toNat hcontrol
    rw [Char.ofNat_toNat] at hc
    obtain ⟨⟨b, d⟩, hb, rfl, hbytes⟩ | hbytes := hc
    · rw [hbytes]
      exact .named r hb
    · rw [hbytes]
      refine .unit (.mk r (hexDigit?_hexByte _ ?_) (hexDigit?_hexByte _ ?_)
        (hexDigit?_hexByte _ ?_) (hexDigit?_hexByte _ ?_) ?_) <;> omega
  by_cases hquote : c = '"'
  · rw [hquote]
    exact .named r (b := Byte.quote) (by simp [namedEscapes])
  by_cases hslash : c = '\\'
  · rw [hslash]
    exact .named r (b := Byte.backslash) (by simp [namedEscapes])
  · have hwritten : writtenChar c = String.singleton c := by
      have hne : ∀ d : Char, d.toNat < 0x20 → c ≠ d := by
        rintro d hd rfl
        exact hcontrol hd
      simp [writtenChar, hquote, hslash, hne '\n' (by decide), hne '\r' (by decide),
        hne '\t' (by decide), hcontrol, show c.toNat ≠ 0x08 by omega, show c.toNat ≠ 0x0C by omega]
    rw [hwritten, bytesOf_singleton]
    exact .plain r (by omega) hquote hslash

/-- What is printed between brackets comes after what was printed before. -/
theorem push_append_push (out text : String) (b c : Char) :
    (out.push b ++ text).push c = out ++ (String.singleton b ++ text ++ String.singleton c) := by
  rw [String.push_eq_append, String.push_eq_append, String.append_assoc, String.append_assoc,
    String.append_assoc]

/-- Strings are printed from the front; what was printed before stays as it is. -/
theorem exists_written (cs : List Char) :
    ∃ text, (∀ out, cs.foldl (fun out c => out ++ writtenChar c) out = out ++ text) ∧
      ∀ r, SpellsChars cs (bytesOf text ++ Byte.quote :: r) r := by
  induction cs with
  | nil => exact ⟨"", fun _ => String.append_empty.symm, fun r => .close r⟩
  | cons c cs ih =>
      obtain ⟨text, hput, hspells⟩ := ih
      refine ⟨writtenChar c ++ text, fun out => ?_, fun r => ?_⟩
      · rw [List.foldl_cons, hput, String.append_assoc]
      · rw [bytesOf_append, List.append_assoc]
        exact .cons (spellsChar_written c _) (hspells r)

theorem exists_putText (t : String) :
    ∃ text, (∀ out, putText out t = out ++ text) ∧
      ∀ r, ∃ s, bytesOf text ++ r = Byte.quote :: s ∧ SpellsText t s r := by
  obtain ⟨text, hput, hspells⟩ := exists_written t.toList
  refine ⟨"\"" ++ text ++ "\"", fun out => ?_, fun r => ⟨_, ?_, hspells r⟩⟩
  · rw [putText, hput]
    exact push_append_push out text _ _
  · rw [bytesOf_append, bytesOf_append, List.append_assoc, List.append_assoc]
    rfl

/-! ## Values -/

/-- `Prints v R` says that what is printed of the value is a text that `R` allows, and that it does
not depend on what was printed before. -/
def Prints (v : Json) (R : Bytes → Bytes → Prop) : Prop :=
  ∃ text, (∀ out, put out v = out ++ text) ∧ ∀ r, R (bytesOf text ++ r) r

theorem prints_bool (b : Bool) : Prints (.bool b) (SpellsScalar (.bool b)) := by
  cases b with
  | true => exact ⟨"true", fun _ => rfl, fun r => .yes r⟩
  | false => exact ⟨"false", fun _ => rfl, fun r => .no r⟩

theorem prints_whole (n : Int) :
    Prints (.number (.whole n)) (SpellsScalar (.number (.whole n))) :=
  ⟨toString n, fun _ => rfl, fun r => .whole n r⟩

theorem prints_text (t : String) : Prints (.text t) (SpellsScalar (.text t)) := by
  obtain ⟨text, hput, hspells⟩ := exists_putText t
  refine ⟨text, hput, fun r => ?_⟩
  obtain ⟨s, hs, ht⟩ := hspells r
  rw [hs]
  exact .text ht

/-! ## Lists and objects -/

/-- What is printed before an item. -/
def separator (fresh : Bool) : String := if fresh then "" else ","

theorem append_separator (out : String) (fresh : Bool) :
    (if fresh then out else out.push ',') = out ++ separator fresh := by
  cases fresh with
  | true => exact String.append_empty.symm
  | false => exact String.push_eq_append ','

theorem comma_separator (fresh : Bool) (s : Bytes) :
    Comma fresh (bytesOf (separator fresh) ++ s) s := by
  cases fresh with
  | true => exact .fresh (.nil s)
  | false => exact .later (.nil _) (.nil s)

theorem exists_putItems {l : List Json} (h : ∀ v ∈ l, Prints v (SpellsScalar v)) (fresh : Bool) :
    ∃ text, (∀ out, putItems out fresh l = out ++ text) ∧
      ∀ r, SpellsItems fresh l (bytesOf text ++ Byte.closeSquare :: r) r := by
  induction l generalizing fresh with
  | nil => exact ⟨"", fun _ => String.append_empty.symm, fun r => .close fresh (.nil _)⟩
  | cons v l ih =>
      obtain ⟨⟨text, hput, hspells⟩, hl⟩ := List.forall_mem_cons.mp h
      obtain ⟨rest, hrest, hitems⟩ := ih hl false
      refine ⟨separator fresh ++ text ++ rest, fun out => ?_, fun r => ?_⟩
      · rw [putItems, append_separator, hput, hrest, String.append_assoc, String.append_assoc,
          String.append_assoc]
      · rw [bytesOf_append, bytesOf_append, List.append_assoc, List.append_assoc]
        exact .item (comma_separator fresh _) (hspells _) (hitems r)

theorem prints_list {l : List Json} (h : ∀ v ∈ l, Prints v (SpellsScalar v)) :
    Prints (.list l) (SpellsFlat (.list l)) := by
  obtain ⟨text, hput, hspells⟩ := exists_putItems h true
  refine ⟨"[" ++ text ++ "]", fun out => ?_, fun r => ?_⟩
  · rw [put, hput]
    exact push_append_push out text _ _
  · rw [bytesOf_append, bytesOf_append, List.append_assoc, List.append_assoc]
    exact .list (hspells r)

section

variable (value : String → Json → Bytes → Bytes → Prop) (other : String → Prop)
  {members : List (String × Json)} {shown : String × Json → Json}

/-- Members can be printed with other values than their own, if what is printed of these is a text
for their own. -/
theorem exists_putMembers (h : ∀ m ∈ members, Prints (shown m) (value m.1 m.2)) (fresh : Bool) :
    ∃ text, (∀ out, putMembers out fresh (members.map fun m => (m.1, shown m)) = out ++ text) ∧
      ∀ r, SpellsMembers value other fresh members (bytesOf text ++ Byte.closeCurly :: r) r := by
  induction members generalizing fresh with
  | nil => exact ⟨"", fun _ => String.append_empty.symm, fun r => .close fresh (.nil _)⟩
  | cons m members ih =>
      obtain ⟨⟨text, hput, hspells⟩, hmembers⟩ := List.forall_mem_cons.mp h
      obtain ⟨rest, hrest, hothers⟩ := ih hmembers false
      obtain ⟨name, hname, htext⟩ := exists_putText m.1
      refine ⟨separator fresh ++ name ++ ":" ++ text ++ rest, fun out => ?_, fun r => ?_⟩
      · rw [List.map_cons, putMembers, append_separator, hname, String.push_eq_append, hput, hrest]
        simp only [String.append_assoc]
        rfl
      · have hlead (s : Bytes) : Leads fresh m.1
            (bytesOf (separator fresh) ++ (bytesOf name ++ (bytesOf ":" ++ s))) s := by
          obtain ⟨u, hu, hspelled⟩ := htext (bytesOf ":" ++ s)
          rw [hu]
          exact .mk (comma_separator fresh _) hspelled (.nil _) (.nil _)
        simp only [bytesOf_append, List.append_assoc]
        exact .given (hlead _) (hspells _) (hothers r)

theorem exists_put_object (h : ∀ m ∈ members, Prints (shown m) (value m.1 m.2)) :
    ∃ text, (∀ out, put out (.object (members.map fun m => (m.1, shown m))) = out ++ text) ∧
      ∀ r, ∃ s, bytesOf text ++ r = Byte.openCurly :: s ∧
        SpellsMembers value other true members s r := by
  obtain ⟨text, hput, hspells⟩ := exists_putMembers value other h true
  refine ⟨"\x7b" ++ text ++ "\x7d", fun out => ?_, fun r => ⟨_, ?_, hspells r⟩⟩
  · rw [put, hput]
    exact push_append_push out text _ _
  · rw [bytesOf_append, bytesOf_append, List.append_assoc, List.append_assoc]
    rfl

end

theorem prints_table {members : List (String × Json)}
    (h : ∀ m ∈ members, Prints m.2 (SpellsScalar m.2)) :
    Prints (.object members) (SpellsFlat (.object members)) := by
  obtain ⟨text, hput, hspells⟩ := exists_put_object (fun _ => SpellsScalar) (fun _ => False) h
  rw [List.map_id''] at hput
  · refine ⟨text, hput, fun r => ?_⟩
    obtain ⟨s, hs, hmembers⟩ := hspells r
    rw [hs]
    exact .object (.refl _) hmembers
  · exact fun m => rfl

/-! ## Objects without some of their members -/

/-- A value without the members whose paths are not kept. Only objects on the first `levels` levels
lose members. -/
def prune : (levels : Nat) → (kept : List String → Bool) → Json → Json
  | levels + 1, kept, .object members =>
    .object ((members.filter fun m => kept [m.1]).map fun m =>
      (m.1, prune levels (fun path => kept (m.1 :: path)) m.2))
  | _, _, v => v

theorem prune_eq_self {levels : Nat} {kept : List String → Bool} {v : Json}
    (h : levels = 0 ∨ ∀ members, v ≠ .object members) : prune levels kept v = v := by
  cases levels with
  | zero => cases v <;> rfl
  | succ levels =>
      cases v with
      | object members => exact absurd rfl ((h.resolve_left (Nat.succ_ne_zero _)) members)
      | _ => rfl

theorem prune_all (levels : Nat) (v : Json) : prune levels (fun _ => true) v = v := by
  induction levels generalizing v with
  | zero => exact prune_eq_self (.inl rfl)
  | succ levels ih =>
      cases v with
      | object members => simp [prune, ih]
      | _ => rfl

/-- What is printed of the value without the members that are not kept gives those that are. -/
def PrintsKept (levels : Nat) (v : Json) : Prop :=
  ∀ kept, Prints (prune levels kept v) (SpellsKept levels kept v)

variable {levels : Nat} {v : Json}

theorem Prints.kept (h : Prints v (SpellsFlat v))
    (hv : levels = 0 ∨ ∀ members, v ≠ .object members) : PrintsKept levels v := by
  intro kept
  rw [prune_eq_self hv, spellsKept_eq hv]
  exact h

theorem Prints.flat (h : Prints v (SpellsScalar v)) : Prints v (SpellsFlat v) := by
  obtain ⟨text, hput, hspells⟩ := h
  exact ⟨text, hput, fun r => .scalar (hspells r)⟩

theorem printsKept_object {members : List (String × Json)}
    (h : ∀ m ∈ members, PrintsKept levels m.2) : PrintsKept (levels + 1) (.object members) := by
  intro kept
  have hkept : ∀ m ∈ members.filter fun m => kept [m.1],
      Prints (prune levels (fun path => kept (m.1 :: path)) m.2)
        (SpellsKept levels (fun path => kept (m.1 :: path)) m.2) :=
    fun m hm => h m (List.mem_of_mem_filter hm) _
  obtain ⟨text, hput, hspells⟩ := exists_put_object
    (fun name => SpellsKept levels fun path => kept (name :: path)) (· ∉ members.map Prod.fst)
    hkept
  refine ⟨text, hput, fun r => ?_⟩
  obtain ⟨s, hs, hmembers⟩ := hspells r
  exact ⟨_, s, .refl _, hs, hmembers⟩

theorem printsKept_ofMembers {members : List (String × Json)}
    (hdistinct : (members.map Prod.fst).Nodup) (h : ∀ m ∈ members, PrintsKept levels m.2) :
    PrintsKept (levels + 1) (.ofMembers members) := by
  have hperm := Keyed.perm_ofList (List.pairwise_map.mp hdistinct)
  exact printsKept_object fun m hm => h m (hperm.mem_iff.mp hm)

end QueryAdmission.Json

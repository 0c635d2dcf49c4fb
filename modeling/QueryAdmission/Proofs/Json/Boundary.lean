import QueryAdmission.Proofs.Json.Locality

/-! # Places between characters

A byte that is a character by itself is no part of another character. So a text can be cut after
such a byte, and each of the two parts is a text. -/

namespace QueryAdmission

open Json

theorem bytesOf_append (a c : String) : bytesOf (a ++ c) = bytesOf a ++ bytesOf c := by
  rw [bytesOf_eq, bytesOf_eq, bytesOf_eq, String.toList_append, List.flatMap_append]

theorem length_bytesOf (a : String) : (bytesOf a).length = a.utf8ByteSize := by
  rw [bytesOf, Array.length_toList]
  rfl

/-- In the encoding of a character of several bytes there is no ASCII byte. -/
theorem length_utf8EncodeChar_of_lt {c : Char} {b : UInt8} (h : b ∈ String.utf8EncodeChar c)
    (hb : b < 0x80) : (String.utf8EncodeChar c).length = 1 := by
  rw [UInt8.lt_iff_toNat_lt] at hb
  have hlarge : b.toNat < 0x80 := hb
  have hvalid := c.val.toNat_lt
  simp only [String.utf8EncodeChar] at h ⊢
  split at h
  · rename_i hone
    rw [if_pos hone, List.length_singleton]
  split at h
  · simp only [List.mem_cons, List.not_mem_nil, or_false] at h
    rcases h with h | h <;> rw [h, UInt8.toNat_ofNat'] at hlarge <;> omega
  split at h
  · simp only [List.mem_cons, List.not_mem_nil, or_false] at h
    rcases h with h | h | h <;> rw [h, UInt8.toNat_ofNat'] at hlarge <;> omega
  · simp only [List.mem_cons, List.not_mem_nil, or_false] at h
    rcases h with h | h | h | h <;> rw [h, UInt8.toNat_ofNat'] at hlarge <;> omega

theorem exists_chars_of_endsAscii {cs : List Char} {u r : Bytes}
    (h : cs.flatMap String.utf8EncodeChar = u ++ r) (hu : EndsAscii u) :
    ∃ as bs, cs = as ++ bs ∧ as.flatMap String.utf8EncodeChar = u := by
  induction cs generalizing u with
  | nil =>
      obtain ⟨rfl, -⟩ := List.append_eq_nil_iff.mp h.symm
      exact ⟨[], [], rfl, rfl⟩
  | cons c cs ih =>
      rw [List.flatMap_cons] at h
      rcases List.append_eq_append_iff.mp h with ⟨v, rfl, hrest⟩ | ⟨v, hv, -⟩
      · have hascii : EndsAscii v := by
          intro b hb
          exact hu b (by rw [List.getLast?_append, Option.mem_def.mp hb]; rfl)
        obtain ⟨as, bs, rfl, rfl⟩ := ih hrest hascii
        exact ⟨c :: as, bs, rfl, List.flatMap_cons⟩
      · -- The text is cut inside the first character or right after it.
        cases hlast : u.getLast? with
        | none =>
            rw [List.getLast?_eq_none_iff.mp hlast]
            exact ⟨[], c :: cs, rfl, rfl⟩
        | some b =>
            have hmem : b ∈ u := List.mem_of_getLast? hlast
            have hone := length_utf8EncodeChar_of_lt (hv ▸ List.mem_append_left v hmem)
              (hu b hlast)
            have hpos := List.length_pos_of_mem hmem
            rw [hv, List.length_append] at hone
            have hnil : v = [] := List.length_eq_zero_iff.mp (by omega)
            refine ⟨[c], cs, rfl, ?_⟩
            rw [List.flatMap_singleton, hv, hnil, List.append_nil]

/-- Where the bytes before a place end with a character, so does a text. -/
theorem exists_append_of_endsAscii {text : String} {u r : Bytes} (h : bytesOf text = u ++ r)
    (hu : EndsAscii u) : ∃ a c, text = a ++ c ∧ bytesOf a = u ∧ bytesOf c = r := by
  rw [bytesOf_eq] at h
  obtain ⟨as, bs, hsplit, has⟩ := exists_chars_of_endsAscii h hu
  have htext : text = String.ofList as ++ String.ofList bs := by
    rw [← String.ofList_append, ← hsplit, String.ofList_toList]
  have ha : bytesOf (String.ofList as) = u := by
    rw [bytesOf_eq, String.toList_ofList, has]
  refine ⟨String.ofList as, String.ofList bs, htext, ha, ?_⟩
  rw [← bytesOf_eq, htext, bytesOf_append, ha] at h
  exact List.append_cancel_left h

/-- `IsPlace text offset s` says that `offset` is a place between two characters of the text, or at
one of its ends, and that the bytes after it are `s`. -/
structure IsPlace (text : String) (offset : Nat) (s : Bytes) : Prop where
  isValid : String.Pos.Raw.IsValid text ⟨offset⟩
  offset_le : offset ≤ (bytesOf text).length
  rest : (bytesOf text).drop offset = s

theorem isPlace_of_endsAscii {text : String} {u r : Bytes} (h : bytesOf text = u ++ r)
    (hu : EndsAscii u) : IsPlace text ((bytesOf text).length - r.length) r := by
  have hoffset : (bytesOf text).length - r.length = u.length := by
    rw [h, List.length_append, Nat.add_sub_cancel]
  rw [hoffset]
  refine ⟨?_, ?_, ?_⟩
  · obtain ⟨a, c, rfl, rfl, -⟩ := exists_append_of_endsAscii h hu
    refine String.Pos.Raw.isValid_iff_exists_append.mpr ⟨a, c, rfl, ?_⟩
    rw [length_bytesOf]
    rfl
  · rw [h, List.length_append]
    exact Nat.le_add_right _ _
  · rw [h, List.drop_left]

end QueryAdmission

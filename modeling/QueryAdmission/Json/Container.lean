import QueryAdmission.Json.Text

/-! Lists and objects, read item by item and member by member. -/

namespace QueryAdmission.Json

/-- How a list or an object goes on after an item. -/
inductive Next where
  /-- With an item, from here on. -/
  | item (rest : Bytes)
  /-- Not at all; this follows its closing bracket. -/
  | close (rest : Bytes)

/-- How a list goes on. `fresh` holds right after the opening bracket, where no comma comes before
an item. -/
def nextItem (fresh : Bool) (s : Bytes) : Except Fault Next :=
  match skipSpace s with
  | [] => .error (.ended .list)
  | b :: r =>
    if b == Byte.closeSquare then .ok (.close r)
    else if fresh then .ok (.item (b :: r))
    else if b == Byte.comma then
      match skipSpace r with
      | [] => .error (.ended .value)
      | c :: t =>
        if c == Byte.closeSquare then .error .trailingComma else .ok (.item (c :: t))
    else .error .noListEnd

/-- How an object goes on. An item starts after the opening quotation mark of a member's name. -/
def nextMember (fresh : Bool) (s : Bytes) : Except Fault Next :=
  match skipSpace s with
  | [] => .error (.ended .object)
  | b :: r =>
    if b == Byte.closeCurly then .ok (.close r)
    else if fresh then
      if b == Byte.quote then .ok (.item r) else .error .nameNotText
    else if b == Byte.comma then
      match skipSpace r with
      | [] => .error (.ended .value)
      | c :: t =>
        if c == Byte.closeCurly then .error .trailingComma
        else if c == Byte.quote then .ok (.item t)
        else .error .nameNotText
    else .error .noObjectEnd

theorem length_nextItem_le {fresh : Bool} {s r : Bytes} (h : nextItem fresh s = .ok (.item r)) :
    r.length ≤ s.length := by
  have hs := length_skipSpace_le s
  unfold nextItem at h
  split at h
  · cases h
  · rename_i b t ht
    rw [ht] at hs
    split at h
    · cases h
    · split at h
      · cases h; exact hs
      · split at h
        · have hr := length_skipSpace_le t
          split at h
          · cases h
          · rename_i hu
            rw [hu] at hr
            split at h
            · cases h
            · cases h; exact Nat.le_trans hr (Nat.le_trans (Nat.le_succ _) hs)
        · cases h

theorem length_nextItem_close_lt {fresh : Bool} {s r : Bytes}
    (h : nextItem fresh s = .ok (.close r)) : r.length < s.length := by
  have hs := length_skipSpace_le s
  unfold nextItem at h
  split at h
  · cases h
  · rename_i b t ht
    rw [ht] at hs
    split at h
    · cases h; exact hs
    · split at h
      · cases h
      · split at h
        · split at h
          · cases h
          · split at h <;> cases h
        · cases h

theorem length_nextMember_lt {fresh : Bool} {s r : Bytes}
    (h : nextMember fresh s = .ok (.item r)) : r.length < s.length := by
  have hs := length_skipSpace_le s
  unfold nextMember at h
  split at h
  · cases h
  · rename_i b t ht
    rw [ht] at hs
    split at h
    · cases h
    · split at h
      · split at h
        · cases h; exact hs
        · cases h
      · split at h
        · have hr := length_skipSpace_le t
          split at h
          · cases h
          · rename_i hu
            rw [hu] at hr
            split at h
            · cases h
            · split at h
              · cases h; exact Nat.lt_of_lt_of_le (Nat.lt_of_lt_of_le (Nat.lt_succ_self _) hr)
                  (Nat.le_trans (Nat.le_succ _) hs)
              · cases h
        · cases h

theorem length_nextMember_close_lt {fresh : Bool} {s r : Bytes}
    (h : nextMember fresh s = .ok (.close r)) : r.length < s.length := by
  have hs := length_skipSpace_le s
  unfold nextMember at h
  split at h
  · cases h
  · rename_i b t ht
    rw [ht] at hs
    split at h
    · cases h; exact hs
    · split at h
      · split at h <;> cases h
      · split at h
        · split at h
          · cases h
          · split at h
            · cases h
            · split at h <;> cases h
        · cases h

/-- The colon between a member's name and its value. -/
def readColon (s : Bytes) : Except Fault Bytes :=
  match skipSpace s with
  | [] => .error (.ended .object)
  | b :: r => if b == Byte.colon then .ok r else .error .noColon

theorem length_readColon_lt {s r : Bytes} (h : readColon s = .ok r) : r.length < s.length := by
  unfold readColon at h
  split at h
  · cases h
  · rename_i hs
    split at h
    · cases h; exact length_lt_of_skipSpace hs
    · cases h

variable {α σ : Type}

/-- The items of a list up to its closing bracket, added to `taken`, the last one first. -/
def readItems (item : Reader α) (fresh : Bool) (taken : List α) (s : Bytes) :
    Except Fault (List α × Bytes) :=
  match hn : nextItem fresh s with
  | .error e => .error e
  | .ok (.close r) => .ok (taken, r)
  | .ok (.item t) =>
    match hi : item.run t with
    | .error e => .error e
    | .ok (a, r) =>
      have : r.length < s.length := Nat.lt_of_lt_of_le (item.shorter hi) (length_nextItem_le hn)
      readItems item false (a :: taken) r
termination_by s.length

theorem length_readItems_lt {item : Reader α} {fresh : Bool} {taken l : List α} {s r : Bytes}
    (h : readItems item fresh taken s = .ok (l, r)) : r.length < s.length := by
  fun_induction readItems item fresh taken s with
  | case1 => cases h
  | case2 _ _ _ _ hn => cases h; exact length_nextItem_close_lt hn
  | case3 => cases h
  | case4 _ _ _ _ _ _ _ _ hlt ih => exact Nat.lt_trans (ih h) hlt

theorem readItems_congr {p q : Reader α} {fresh : Bool} {taken : List α} {s : Bytes}
    (h : ∀ t : Bytes, t.length ≤ s.length → p.run t = q.run t) :
    readItems p fresh taken s = readItems q fresh taken s := by
  fun_induction readItems p fresh taken s with
  | case1 _ _ _ _ hn => unfold readItems; split <;> simp_all
  | case2 _ _ _ _ hn => unfold readItems; split <;> simp_all
  | case3 _ _ _ _ hn _ hi =>
    rw [h _ (length_nextItem_le hn)] at hi
    unfold readItems
    split <;> simp_all
    split <;> simp_all
  | case4 _ _ _ _ hn _ _ hi hlt ih =>
    rw [h _ (length_nextItem_le hn)] at hi
    rw [ih fun t ht => h t (Nat.le_trans ht (Nat.le_of_lt hlt))]
    conv => rhs; unfold readItems
    split <;> simp_all
    split <;> simp_all

/-- The members of an object up to its closing bracket, taken into a state one after the other.
`member` says from the state and the name of a member how its value is read, or why a member of
that name is refused. -/
def readMembers (member : σ → String → Except Fault (Reader σ)) (fresh : Bool) (state : σ)
    (s : Bytes) : Except Fault (σ × Bytes) :=
  match hn : nextMember fresh s with
  | .error e => .error e
  | .ok (.close r) => .ok (state, r)
  | .ok (.item t) =>
    match ht : readText t with
    | .error e => .error e
    | .ok (name, u) =>
      match member state name with
      | .error e => .error e
      | .ok value =>
        match hc : readColon u with
        | .error e => .error e
        | .ok v =>
          match hv : value.run v with
          | .error e => .error e
          | .ok (next, r) =>
            have : r.length < s.length := by
              have := length_nextMember_lt hn
              have := length_readText_lt ht
              have := length_readColon_lt hc
              have := value.shorter hv
              omega
            readMembers member false next r
termination_by s.length

theorem length_readMembers_lt {member : σ → String → Except Fault (Reader σ)} {fresh : Bool}
    {state final : σ} {s r : Bytes} (h : readMembers member fresh state s = .ok (final, r)) :
    r.length < s.length := by
  fun_induction readMembers member fresh state s with
  | case1 => cases h
  | case2 _ _ _ _ hn => cases h; exact length_nextMember_close_lt hn
  | case3 => cases h
  | case4 => cases h
  | case5 => cases h
  | case6 => cases h
  | case7 _ _ _ _ _ _ _ _ _ _ _ _ _ _ _ hlt ih => exact Nat.lt_trans (ih h) hlt

theorem readMembers_congr {f g : σ → String → Reader σ} {fresh : Bool} {a : σ} {s : Bytes}
    (h : ∀ a name (t : Bytes), t.length ≤ s.length → (f a name).run t = (g a name).run t) :
    readMembers (fun a name => .ok (f a name)) fresh a s =
      readMembers (fun a name => .ok (g a name)) fresh a s := by
  fun_induction readMembers (fun a name => .ok (f a name)) fresh a s with
  | case1 _ _ _ _ hn => unfold readMembers; split <;> simp_all
  | case2 _ _ _ _ hn => unfold readMembers; split <;> simp_all
  | case3 _ _ _ _ hn _ ht =>
    unfold readMembers
    split <;> simp_all
    split <;> simp_all
  | case4 _ _ _ _ _ _ _ _ _ he => cases he
  | case5 _ _ _ _ hn _ _ ht _ hm _ hc =>
    cases hm
    unfold readMembers
    split <;> simp_all
    split <;> simp_all
    split <;> simp_all
  | case6 _ _ _ _ hn name u ht _ hm v hc _ hv =>
    cases hm
    have := length_nextMember_lt hn
    have := length_readText_lt ht
    have := length_readColon_lt hc
    rw [h _ _ _ (by omega)] at hv
    unfold readMembers
    split <;> simp_all
    split <;> simp_all
    split <;> simp_all
    split <;> simp_all
  | case7 _ _ _ _ hn name u ht _ hm v hc _ _ hv hlt ih =>
    cases hm
    have := length_nextMember_lt hn
    have := length_readText_lt ht
    have := length_readColon_lt hc
    rw [h _ _ _ (by omega)] at hv
    rw [ih fun a name t ht => h a name t (Nat.le_trans ht (Nat.le_of_lt hlt))]
    conv => rhs; unfold readMembers
    split <;> simp_all
    split <;> simp_all
    split <;> simp_all
    split <;> simp_all

end QueryAdmission.Json

import QueryAdmission.Json.Record
import QueryAdmission.Proofs.Json.Spelling

/-! # Records, member by member

A record that is written as an object is read one member at a time. What is read does not depend on
how the names are spelled and on the white space around them; members that the record does not have
are passed over. -/

namespace QueryAdmission.Json

/-- What comes before the value of a member: a comma, except before the first one, the name and a
colon, with white space anywhere. -/
inductive Leads (fresh : Bool) (name : String) : Bytes → Bytes → Prop where
  | mk {s t u v w : Bytes} : Comma fresh s (Byte.quote :: t) → SpellsText name t u →
      Blanks u (Byte.colon :: v) → Blanks v w → Leads fresh name s w

theorem Leads.follows {name : String} {s w : Bytes} (h : Leads false name s w) : Follows s := by
  cases h with
  | mk hs _ _ _ => exact hs.follows

namespace Record

variable {ρ : Type} {t : Record ρ} {fresh : Bool} {name : String} {seen : List String} {a : ρ}
  {s w r : Bytes}

/-- A member of the record is read into it. -/
theorem readMembers_known {m : Member ρ} {f : ρ → ρ} (h : Leads fresh name s w)
    (hm : t.members.find? (·.name == name) = some m) (hseen : name ∉ seen)
    (hvalue : ∀ v, Blanks v w → m.change.run v = .ok (f, r)) :
    readMembers t.member fresh (seen, a) s =
      readMembers t.member false (name :: seen, f a) r := by
  cases h with
  | mk hs ht hu hv =>
      have hmember : t.member (seen, a) name =
          .ok (m.change.map fun f => (name :: seen, f a)) := by
        simp [member, hm, hseen]
      exact readMembers_member hs.nextMember_eq ht.readText_eq hmember (readColon_eq hu)
        (Reader.run_map _ (hvalue _ hv))

/-- A member that the record does not have is passed over. -/
theorem readMembers_unknown (h : Leads fresh name s w)
    (hm : t.members.find? (·.name == name) = none) (hvalue : Derives .value w r)
    (hr : Follows r) :
    readMembers t.member fresh (seen, a) s = readMembers t.member false (seen, a) r := by
  cases h with
  | mk hs ht hu hv =>
      have hmember : t.member (seen, a) name = .ok (Reader.skip.map fun _ => (seen, a)) := by
        simp [member, hm]
      exact readMembers_member hs.nextMember_eq ht.readText_eq hmember (readColon_eq hu)
        (Reader.run_map _ (Reader.run_skip hvalue hv hr))

/-- A record is read off the object of its members, if all that are required are there. -/
theorem run_object {blank : ρ} {u v : Bytes} (hs : Blanks s (Byte.openCurly :: u))
    (hread : readMembers t.member true ([], blank) u = .ok ((seen, a), v))
    (habsent : t.absent? seen = none) : (t.reader blank).run s = .ok (a, v) := by
  simp +decide [reader, Reader.onFirstByte, hs.skipSpace_cons rfl, readObject, hread, habsent]

theorem readAll_object {blank : ρ} {u v : Bytes} (hs : Blanks s (Byte.openCurly :: u))
    (hread : readMembers t.member true ([], blank) u = .ok ((seen, a), v))
    (habsent : t.absent? seen = none) (hv : Blanks v []) :
    (t.reader blank).readAll s = .ok a := by
  have hrun := run_object hs hread habsent
  have hend : skipSpace v = [] := hv.skipSpace_eq
  simp [Reader.readAll, hrun, hend]

end Record

end QueryAdmission.Json

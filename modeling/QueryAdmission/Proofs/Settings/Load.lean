import QueryAdmission.Proofs.Settings.Issue
import QueryAdmission.Proofs.Settings.Override

/-! # Settings on their way in

Settings are read, decoded, overridden and checked, and can be refused at each of these stages. What
is reported is the error of the first stage that fails, whatever later stages would say. -/

namespace QueryAdmission

/-- The stages at which settings can be refused. -/
inductive Stage where
  | reading
  | decoding
  | overriding
  | checking

/-- The stages that come before another one. -/
def Stage.earlier : Stage → List Stage
  | .reading => []
  | .decoding => [.reading]
  | .overriding => [.reading, .decoding]
  | .checking => [.reading, .decoding, .overriding]

/-- `GivenBy file s` says that these are the settings before any variable: those in the file, which
is a text, or the default ones if no file is named. -/
inductive GivenBy : Option FileContents → Settings → Prop
  | default : GivenBy none {}
  | file {contents : Bytes} {text : String} {s : Settings} : textOf? contents = some text →
      Settings.ofText contents = .ok s → GivenBy (some (.bytes contents)) s

/-- `Fails file lookup stage e` says that a stage has a reason to refuse the settings, whatever the
stages before it say of the same file and variables. -/
inductive Fails (file : Option FileContents) (lookup : String → Option String) :
    Stage → SettingsError → Prop
  | unreadable {reason : String} : file = some (.unreadable reason) →
      Fails file lookup .reading (.unreadable reason)
  | noText {contents : Bytes} : file = some (.bytes contents) → textOf? contents = none →
      Fails file lookup .reading (.unreadable noTextFile)
  | malformed {contents : Bytes} {fault : Json.Fault} : file = some (.bytes contents) →
      Settings.ofText contents = .error fault → Fails file lookup .decoding (.malformed fault)
  | badVariable {bad : BadVariable} : FirstBad lookup Variable.all bad →
      Fails file lookup .overriding (.badVariable bad)
  | invalid {s : Settings} : GivenBy file s → (s.overridden lookup).issues ≠ [] →
      Fails file lookup .checking (.invalid (s.overridden lookup).issues)

/-- `FirstFails file lookup e` says that `e` is the error of the first stage that fails. -/
def FirstFails (file : Option FileContents) (lookup : String → Option String)
    (e : SettingsError) : Prop :=
  ∃ stage, Fails file lookup stage e ∧
    ∀ earlier ∈ stage.earlier, ∀ e', ¬ Fails file lookup earlier e'

variable {file : Option FileContents} {lookup : String → Option String}

/-! ## Each stage has one error -/

theorem Stage.mem_earlier_or_eq (a b : Stage) : a ∈ b.earlier ∨ a = b ∨ b ∈ a.earlier := by
  cases a <;> cases b <;> simp [earlier]

section

variable {s s' : Settings} {e e' : SettingsError} {stage : Stage}

theorem GivenBy.ofFile_eq (h : GivenBy file s) :
    (file.map Settings.ofFile).getD (.ok {}) = .ok s := by
  cases h with
  | default => rfl
  | file htext hread => simp [Settings.ofFile, htext, hread]

theorem GivenBy.unique (h : GivenBy file s) (h' : GivenBy file s') : s = s' :=
  Except.ok.inj (h.ofFile_eq.symm.trans h'.ofFile_eq)

theorem Fails.unique (h : Fails file lookup stage e) (h' : Fails file lookup stage e') :
    e = e' := by
  cases h with
  | unreadable hfile =>
      subst hfile
      cases h' with
      | unreadable hfile' =>
          cases hfile'
          rfl
      | noText hfile' => cases hfile'
  | noText hfile =>
      subst hfile
      cases h' with
      | unreadable hfile' => cases hfile'
      | noText => rfl
  | malformed hfile hfault =>
      subst hfile
      cases h' with
      | malformed hfile' hfault' =>
          cases hfile'
          rw [Except.error.inj (hfault.symm.trans hfault')]
  | badVariable hbad =>
      cases h' with
      | badVariable hbad' => rw [hbad.unique hbad']
  | invalid hgiven =>
      cases h' with
      | invalid hgiven' => rw [hgiven.unique hgiven']

theorem FirstFails.unique (h : FirstFails file lookup e) (h' : FirstFails file lookup e') :
    e = e' := by
  obtain ⟨stage, hfails, hnone⟩ := h
  obtain ⟨stage', hfails', hnone'⟩ := h'
  obtain hlt | rfl | hlt := Stage.mem_earlier_or_eq stage stage'
  · exact absurd hfails (hnone' stage hlt e)
  · exact hfails.unique hfails'
  · exact absurd hfails' (hnone stage' hlt e')

end

/-! ## The file -/

namespace Settings

end Settings

end QueryAdmission

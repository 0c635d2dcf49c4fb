import QueryAdmission.Settings.Issue
import QueryAdmission.Settings.Override
import QueryAdmission.Settings.Wire

/-! Settings from a file and from variables, and why they are refused. -/

namespace QueryAdmission

/-- What reading a file gives. -/
inductive FileContents where
  | bytes (contents : Bytes)
  /-- The file cannot be read, for this reason. -/
  | unreadable (reason : String)

/-- The reason given for a file that does not exist. -/
def noSuchFile : String := "No such file or directory (os error 2)"

/-- The reason given for a file that holds no text. -/
def noTextFile : String := "stream did not contain valid UTF-8"

inductive SettingsError where
  | unreadable (reason : String)
  | malformed (fault : Json.Fault)
  | badVariable (bad : BadVariable)
  | invalid (issues : List Issue)

namespace SettingsError

def message : SettingsError → String
  | .unreadable reason => "failed to read configuration: " ++ reason
  | .malformed fault => "failed to parse configuration: " ++ fault.message
  | .badVariable bad =>
    "invalid value for " ++ bad.setting.name ++ ": " ++ Text.quoted bad.value
  | .invalid issues =>
    "invalid configuration: " ++ ", ".intercalate (issues.map Issue.message)

/-- What an error goes back to, if it was found by another part. -/
def cause? : SettingsError → Option String
  | .unreadable reason => some reason
  | .malformed fault => some fault.message
  | .badVariable _ => none
  | .invalid _ => none

end SettingsError

namespace Settings

/-- The settings in a file. -/
def ofFile : FileContents → Except SettingsError Settings
  | .unreadable reason => .error (.unreadable reason)
  | .bytes contents =>
    match textOf? contents with
    | none => .error (.unreadable noTextFile)
    | some _ =>
      match ofText contents with
      | .error fault => .error (.malformed fault)
      | .ok s => .ok s

/-- Refuses settings that have issues. -/
def validate (s : Settings) : Except SettingsError Unit :=
  if s.issues.isEmpty then .ok () else .error (.invalid s.issues)

/-- Settings from a file, if one is named, with the variables applied. -/
def load (file : Option FileContents) (lookup : String → Option String) :
    Except SettingsError Settings :=
  match (file.map ofFile).getD (.ok {}) with
  | .error e => .error e
  | .ok s =>
    match s.override lookup with
    | (_, some bad) => .error (.badVariable bad)
    | (s, none) =>
      match s.validate with
      | .error e => .error e
      | .ok () => .ok s

end Settings

end QueryAdmission

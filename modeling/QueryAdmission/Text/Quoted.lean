import QueryAdmission.Text.Hidden

/-! Texts in quotation marks, written so that every character can be seen. -/

namespace QueryAdmission.Text

/-- A character as it stands between quotation marks. -/
def visible (c : Char) : String :=
  if c = '"' then "\\\""
  else if c = '\\' then "\\\\"
  else if c = '\n' then "\\n"
  else if c = '\r' then "\\r"
  else if c = '\t' then "\\t"
  else if c.toNat = 0 then "\\0"
  else if isHidden c then "\\u\x7b" ++ String.ofList (Nat.toDigits 16 c.toNat) ++ "\x7d"
  else String.singleton c

/-- A text between quotation marks. Hidden characters are written by their code points. -/
def quoted (s : String) : String :=
  s.toList.foldl (fun out c => out ++ visible c) "\"" ++ "\""

end QueryAdmission.Text

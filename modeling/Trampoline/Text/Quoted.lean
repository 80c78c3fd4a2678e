import Trampoline.Text.Hidden

/-!
Quoted text. A text is shown between double quotes; quotes, backslashes and the usual control
characters are written with a backslash, other hidden characters by their number.
-/

namespace Trampoline.Quoted

/-- The hexadecimal digits of a number, small letters. -/
def hex (n : Nat) : String := String.ofList (Nat.toDigits 16 n)

/-- A character as it stands between double quotes. -/
def escape (c : Char) : String :=
  if c = '"' then "\\\""
  else if c = '\\' then "\\\\"
  else if c = '\n' then "\\n"
  else if c = '\r' then "\\r"
  else if c = '\t' then "\\t"
  else if c.toNat = 0 then "\\0"
  else if Hidden.isHidden c then "\\u\x7b" ++ hex c.toNat ++ "\x7d"
  else String.singleton c

def quote (s : String) : String :=
  "\"" ++ s.foldl (fun out c => out ++ escape c) "" ++ "\""

end Trampoline.Quoted

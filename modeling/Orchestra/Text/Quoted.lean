/-
  Quoted text: how a string is written inside a value.

  A quoted text stands between double quotes.  NUL, tab, carriage return, line feed, the double
  quote and the backslash have two-character escapes; every other unprintable character is
  written by its code point in lower-case hexadecimal, and the rest stands for itself.
-/
import Orchestra.Text.Unprintable

namespace Orchestra.Text

/-- The hexadecimal digits of `n`, lower case and without padding. -/
def hexadecimal (n : Nat) : String :=
  String.ofList (Nat.toDigits 16 n)

/-- How one character is written between the quotes. -/
def quotedChar (c : Char) : String :=
  if c = '\x00' then "\\0"
  else if c = '\t' then "\\t"
  else if c = '\r' then "\\r"
  else if c = '\n' then "\\n"
  else if c = '"' then "\\\""
  else if c = '\\' then "\\\\"
  else if isUnprintable c then "\\u\x7b" ++ hexadecimal c.toNat ++ "\x7d"
  else c.toString

/-- The text `s` between double quotes, with everything escaped that has to be. -/
def quoted (s : String) : String :=
  "\"" ++ String.join (s.toList.map quotedChar) ++ "\""

end Orchestra.Text

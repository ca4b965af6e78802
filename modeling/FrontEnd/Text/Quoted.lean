import FrontEnd.Text.Hidden

/-!
# Quoted characters

A character in single quotes, as messages and listings show it.  Line feed, tab,
carriage return, NUL, the quote and the backslash have escapes of two characters;
a hidden character is written by its code point; any other stands for itself.
-/

namespace FrontEnd.Text

/-- The escape of two characters, for the characters that have one. -/
def shortEscape? (c : Char) : Option String :=
  if c = '\x00' then some "\\0"
  else if c = '\t' then some "\\t"
  else if c = '\r' then some "\\r"
  else if c = '\n' then some "\\n"
  else if c = '\x27' then some "\\'"
  else if c = '\\' then some "\\\\"
  else none

/-- A code point in lower-case hexadecimal digits, in braces. -/
def codePointEscape (c : Char) : String :=
  "\\u\x7b" ++ String.ofList (Nat.toDigits 16 c.toNat) ++ "\x7d"

/-- A character in single quotes. -/
def quoted (c : Char) : String :=
  "'" ++ (match shortEscape? c with
    | some escape => escape
    | none => if isHidden c then codePointEscape c else String.singleton c) ++ "'"

end FrontEnd.Text

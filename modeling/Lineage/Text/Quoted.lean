import Lineage.Text.Invisible

/-!
# Quoted texts

A quoted text stands between double quotes. Quotes and backslashes in it are
escaped by a backslash, and so are the characters that would not show: tab, line
feed, carriage return and the null character by a letter or digit, the others by
their code point, as in `\\u{7f}`.
-/

namespace Lineage.Text

/-- A number in lower-case hexadecimal digits. -/
def hex (n : Nat) : String :=
  String.ofList (Nat.toDigits 16 n)

/-- A character as it stands in a quoted text. -/
def escape (c : Char) : String :=
  match c with
  | '\x00' => "\\0"
  | '\t' => "\\t"
  | '\r' => "\\r"
  | '\n' => "\\n"
  | '\\' => "\\\\"
  | '"' => "\\\""
  | _ => if isInvisible c then "\\u\x7b" ++ hex c.toNat ++ "\x7d" else c.toString

/-- The text between quotes, escaped. -/
def quote (s : String) : String :=
  "\"" ++ String.join (s.toList.map escape) ++ "\""

end Lineage.Text

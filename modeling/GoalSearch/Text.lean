/-
The written form of names and quoted atoms.

Main definitions:

* `Text.padLeft` — text filled up with a character on the left;
* `Text.quote` — an atom in double quotes, with what cannot stand there escaped;
* `Var.name` — the name under which a variable is shown.
-/
import GoalSearch.Term

namespace GoalSearch

namespace Text

/-- Fills `s` up to `width` characters with `c` on the left. -/
def padLeft (width : Nat) (c : Char) (s : String) : String :=
  String.ofList (List.replicate (width - s.length) c) ++ s

/-- Fills `s` up to `width` characters with `c` on the right. -/
def padRight (width : Nat) (c : Char) (s : String) : String :=
  s ++ String.ofList (List.replicate (width - s.length) c)

/-- How a character is written between double quotes: quotes, backslashes and
the common control characters by an escape of two characters, the other ASCII
control characters by their number in hexadecimal. -/
def escape (c : Char) : String :=
  match c with
  | '"' => "\\\""
  | '\\' => "\\\\"
  | '\n' => "\\n"
  | '\t' => "\\t"
  | '\r' => "\\r"
  | '\x00' => "\\0"
  | c =>
    if c.toNat < 0x20 ∨ c.toNat = 0x7f then
      "\\u\x7b" ++ String.ofList (Nat.toDigits 16 c.toNat) ++ "\x7d"
    else c.toString

/-- A text between double quotes. -/
def quote (s : String) : String :=
  "\"" ++ String.join (s.toList.map escape) ++ "\""

/-- Truth values in lower case. -/
def ofBool (b : Bool) : String :=
  if b then "true" else "false"

end Text

/-- The name of a variable: `X` and its identifier in at least two digits. -/
def Var.name (v : Var) : String :=
  "X" ++ Text.padLeft 2 '0' (toString v.id)

end GoalSearch

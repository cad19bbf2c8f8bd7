import Bitemporal.Digits

/-!
The text of strings in TOML documents.

A string is written in the plainest form that shows its characters as they are: between double
quotes, between single quotes, or between three of either. Only a string that no such form can
hold has characters escaped.
-/

namespace Bitemporal.Toml

/-- The length of the longest run of a character in a string, where `run` is the length of the run
that the string continues. -/
def longestRun (q : Char) (run : Nat) : List Char → Nat
  | [] => run
  | c :: rest => if c = q then longestRun q (run + 1) rest else max run (longestRun q 0 rest)

/-- Whether a character is shown only by an escape. A line break and a tab are not. -/
def needsEscape (c : Char) : Bool := c ≠ '\n' && c ≠ '\t' && (c.toNat < 32 || c.toNat = 127)

/-- The ways to write a string. -/
inductive StringForm where
  /-- Between double quotes. -/
  | basic
  /-- Between single quotes; nothing is escaped. -/
  | literal
  /-- Between three double quotes; line breaks stand for themselves. -/
  | multiBasic
  /-- Between three single quotes; nothing is escaped. -/
  | multiLiteral
deriving DecidableEq

/-- The form in which a string is written. -/
def StringForm.of (cs : List Char) : StringForm :=
  let controls := cs.any needsEscape
  let backslash := cs.contains '\\'
  let newline := cs.contains '\n'
  let singles := longestRun '\'' 0 cs
  let doubles := longestRun '"' 0 cs
  if !controls && !backslash && doubles = 0 && !newline then .basic
  else if !controls && singles = 0 && !newline then .literal
  else if !controls && !backslash && doubles ≤ 2 then .multiBasic
  else if !controls && singles ≤ 2 then .multiLiteral
  else if newline then .multiBasic
  else .basic

/-- The upper-case hexadecimal digits of a number, with leading zeros up to four digits. -/
def hexEscape (n : Nat) : List Char :=
  '\\' :: 'u' :: (paddedDigits 16 4 n).map Char.toUpper

/-- A character as it stands between double quotes. Of a run of double quotes, `quotes` may still
stand for themselves. -/
def basicChar (multi : Bool) (quotes : Nat) (c : Char) : List Char :=
  match c with
  | '\x08' => ['\\', 'b']
  | '\t' => ['\\', 't']
  | '\n' => if multi then ['\n'] else ['\\', 'n']
  | '\x0c' => ['\\', 'f']
  | '\r' => ['\\', 'r']
  | '"' => if quotes = 0 then ['\\', '"'] else ['"']
  | '\\' => ['\\', '\\']
  | c => if c.toNat < 32 || c.toNat = 127 then hexEscape c.toNat else [c]

/-- How many double quotes in a row stand for themselves. -/
def quoteAllowance (multi : Bool) : Nat := if multi then 2 else 0

/-- The characters of a string between double quotes, where `quotes` more of a run of double
quotes may stand for themselves. -/
def basicChars (multi : Bool) : Nat → List Char → List Char
  | _, [] => []
  | quotes, c :: rest =>
    basicChar multi quotes c ++
      basicChars multi (if c = '"' && quotes ≠ 0 then quotes - 1 else quoteAllowance multi) rest

/-- The text of a string. A string of several lines starts on a line of its own. -/
def quote (s : String) : List Char :=
  let cs := s.toList
  let lead := if cs.contains '\n' then ['\n'] else []
  match StringForm.of cs with
  | .basic => '"' :: basicChars false 0 cs ++ ['"']
  | .literal => '\'' :: cs ++ ['\'']
  | .multiBasic => ['"', '"', '"'] ++ lead ++ basicChars true 2 cs ++ ['"', '"', '"']
  | .multiLiteral => ['\'', '\'', '\''] ++ lead ++ cs ++ ['\'', '\'', '\'']

end Bitemporal.Toml

import Bitemporal.Digits

/-!
JSON values and their compact text.

Numbers are natural numbers: no form of this library writes another. A text may hold other values,
such as a fraction or a string with half of a surrogate pair; all of them are the one value
`Json.other`, which is well formed but which no form reads.
-/

namespace Bitemporal

/-- A JSON value. -/
inductive Json where
  /-- The null value. -/
  | null
  /-- A truth value. -/
  | bool (value : Bool)
  /-- A natural number. -/
  | natural (value : Nat)
  /-- A string. -/
  | string (value : String)
  /-- A list of values. -/
  | array (items : List Json)
  /-- A list of named values, in the order of the text. -/
  | object (members : List (String × Json))
  /-- A well-formed value that no form reads. -/
  | other

namespace Json

/-! ## Text -/

/-- The lower-case hexadecimal digits of a number, with leading zeros up to four digits. -/
def hexEscape (n : Nat) : List Char := '\\' :: 'u' :: paddedDigits 16 4 n

/-- A character as it stands in a string: quotes, backslashes and control
characters are escaped. -/
def escapeChar (c : Char) : List Char :=
  match c with
  | '"' => ['\\', '"']
  | '\\' => ['\\', '\\']
  | '\x08' => ['\\', 'b']
  | '\t' => ['\\', 't']
  | '\n' => ['\\', 'n']
  | '\x0c' => ['\\', 'f']
  | '\r' => ['\\', 'r']
  | c => if c.toNat < 32 then hexEscape c.toNat else [c]

/-- The text of a string. -/
def quote (s : String) : List Char := '"' :: s.toList.flatMap escapeChar ++ ['"']

mutual

/-- The characters of a value, without blanks. -/
def chars : Json → List Char
  | null => "null".toList
  | bool true => "true".toList
  | bool false => "false".toList
  | natural n => Nat.toDigits 10 n
  | string s => quote s
  | array items => '[' :: itemChars items ++ [']']
  | object members => '{' :: memberChars members ++ ['}']
  | other => "null".toList

/-- The characters of the values of a list, with commas between them. -/
def itemChars : List Json → List Char
  | [] => []
  | [item] => item.chars
  | item :: next :: rest => item.chars ++ ',' :: itemChars (next :: rest)

/-- The characters of the members of an object, with commas between them. -/
def memberChars : List (String × Json) → List Char
  | [] => []
  | [(name, value)] => quote name ++ ':' :: value.chars
  | (name, value) :: next :: rest =>
    quote name ++ ':' :: value.chars ++ ',' :: memberChars (next :: rest)

end

/-- The compact text of a value. -/
def text (j : Json) : String := String.ofList j.chars

end Json

end Bitemporal

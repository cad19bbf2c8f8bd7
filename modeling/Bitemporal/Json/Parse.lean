import Bitemporal.Json.Basic

/-!
Reading JSON text.

`Json.parse?` accepts exactly the texts of the JSON grammar. What it reads is the value, except
that numbers other than plain natural numbers, strings with half of a surrogate pair and objects
with such a name are `Json.other`.

Nested values are read with a bound on the number of steps. Every second step takes a character,
so twice the length of the text is more than any text needs.
-/

namespace Bitemporal.Json

/-- Whether a character may stand between the parts of a text. -/
def isBlank (c : Char) : Bool := c = ' ' || c = '\t' || c = '\n' || c = '\r'

/-- The text after the blanks at its start. -/
def skipBlanks (cs : List Char) : List Char := cs.dropWhile isBlank

/-! ## Numbers -/

/-- The digits at the start of a text, of which there must be one, and the rest. -/
def digits1? (cs : List Char) : Option (List Char × List Char) :=
  let digits := cs.takeWhile Char.isDigit
  if digits.isEmpty then none else some (digits, cs.dropWhile Char.isDigit)

/-- The integer part of a number, which has no leading zero, and the rest. -/
def integerPart? (cs : List Char) : Option (Nat × List Char) := do
  let (digits, rest) ← digits1? cs
  if digits.head? = some '0' && digits.length ≠ 1 then none
  else some (Nat.ofDigitChars 10 digits 0, rest)

/-- The text after the fraction at its start, if there is one, and whether there is. -/
def fraction? : List Char → Option (Bool × List Char)
  | '.' :: rest => do
    let (_, rest) ← digits1? rest
    some (true, rest)
  | cs => some (false, cs)

/-- The text after the exponent at its start, if there is one, and whether there is. -/
def exponent? : List Char → Option (Bool × List Char)
  | c :: rest =>
    if c = 'e' || c = 'E' then do
      let unsigned := match rest with
        | s :: more => if s = '+' || s = '-' then more else rest
        | [] => rest
      let (_, rest) ← digits1? unsigned
      some (true, rest)
    else some (false, c :: rest)
  | [] => some (false, [])

/-- The number at the start of a text that has no sign, and the rest. -/
def unsignedNumber? (cs : List Char) : Option (Json × List Char) := do
  let (value, rest) ← integerPart? cs
  let (fractional, rest) ← fraction? rest
  let (scaled, rest) ← exponent? rest
  some (if fractional || scaled then .other else .natural value, rest)

/-- The number at the start of a text, and the rest. -/
def number? : List Char → Option (Json × List Char)
  | '-' :: rest => do
    let (_, rest) ← unsignedNumber? rest
    some (.other, rest)
  | cs => unsignedNumber? cs

/-! ## Strings -/

/-- The value of four hexadecimal digits. -/
def hexUnit? (a b c d : Char) : Option Nat := do
  return ((← hexDigit? a) * 16 + (← hexDigit? b)) * 256 + (← hexDigit? c) * 16 + (← hexDigit? d)

/-- The character that a backslash and one more character stand for. -/
def escaped? : Char → Option Char
  | '"' => some '"'
  | '\\' => some '\\'
  | '/' => some '/'
  | 'b' => some '\x08'
  | 'f' => some '\x0c'
  | 'n' => some '\n'
  | 'r' => some '\r'
  | 't' => some '\t'
  | _ => none

/-- One element of a string: a character, or half of a surrogate pair. -/
inductive StringItem where
  /-- A character. -/
  | char (c : Char)
  /-- The first half of a pair. -/
  | leading (unit : Nat)
  /-- The second half of a pair. -/
  | trailing (unit : Nat)

/-- The element that an escaped 16-bit unit stands for. -/
def StringItem.ofUnit (unit : Nat) : StringItem :=
  if 0xD800 ≤ unit ∧ unit < 0xDC00 then .leading unit
  else if 0xDC00 ≤ unit ∧ unit < 0xE000 then .trailing unit
  else .char (Char.ofNat unit)

/-- The characters of a string, unless half of a pair stands alone. -/
def joinItems? : List StringItem → Option (List Char)
  | [] => some []
  | .char c :: rest => (joinItems? rest).map (c :: ·)
  | .leading a :: .trailing b :: rest =>
    (joinItems? rest).map (Char.ofNat (0x10000 + (a - 0xD800) * 0x400 + (b - 0xDC00)) :: ·)
  | .leading _ :: _ => none
  | .trailing _ :: _ => none

/-- The elements of a string up to its closing quote, and the rest. -/
def stringItems? : List Char → Option (List StringItem × List Char)
  | '"' :: rest => some ([], rest)
  | '\\' :: 'u' :: a :: b :: c :: d :: rest => do
    let unit ← hexUnit? a b c d
    let (items, rest) ← stringItems? rest
    some (.ofUnit unit :: items, rest)
  | '\\' :: e :: rest => do
    let c ← escaped? e
    let (items, rest) ← stringItems? rest
    some (.char c :: items, rest)
  | c :: rest =>
    if c.toNat < 32 then none
    else do
      let (items, rest) ← stringItems? rest
      some (.char c :: items, rest)
  | [] => none

/-- The string after its opening quote, or nothing if half of a pair stands alone
in it; and the rest. -/
def string? (cs : List Char) : Option (Option String × List Char) := do
  let (items, rest) ← stringItems? cs
  some ((joinItems? items).map String.ofList, rest)

/-! ## Values -/

/-- An object, unless a name is not a string of characters. -/
def ofMembers (members : List (Option String × Json)) : Json :=
  match members.mapM (fun member => member.1.map fun name => (name, member.2)) with
  | some members => .object members
  | none => .other

mutual

/-- The value at the start of a text, and the rest, read in at most `steps` steps. -/
def value? (steps : Nat) (cs : List Char) : Option (Json × List Char) :=
  match steps with
  | 0 => none
  | steps + 1 =>
    match skipBlanks cs with
    | '"' :: rest => do
      let (s, rest) ← string? rest
      some (match s with | some s => .string s | none => .other, rest)
    | '[' :: rest =>
      match skipBlanks rest with
      | ']' :: rest => some (.array [], rest)
      | rest => do
        let (items, rest) ← items? steps rest
        some (.array items, rest)
    | '{' :: rest =>
      match skipBlanks rest with
      | '}' :: rest => some (.object [], rest)
      | rest => do
        let (members, rest) ← members? steps rest
        some (ofMembers members, rest)
    | 'n' :: 'u' :: 'l' :: 'l' :: rest => some (.null, rest)
    | 't' :: 'r' :: 'u' :: 'e' :: rest => some (.bool true, rest)
    | 'f' :: 'a' :: 'l' :: 's' :: 'e' :: rest => some (.bool false, rest)
    | rest => number? rest

/-- The values of a list up to its closing bracket, and the rest, read in at
most `steps` steps. -/
def items? (steps : Nat) (cs : List Char) : Option (List Json × List Char) :=
  match steps with
  | 0 => none
  | steps + 1 => do
    let (item, rest) ← value? steps cs
    match skipBlanks rest with
    | ',' :: rest => do
      let (items, rest) ← items? steps rest
      some (item :: items, rest)
    | ']' :: rest => some ([item], rest)
    | _ => none

/-- The members of an object up to its closing brace, and the rest, read in at
most `steps` steps. -/
def members? (steps : Nat) (cs : List Char) : Option (List (Option String × Json) × List Char) :=
  match steps with
  | 0 => none
  | steps + 1 =>
    match skipBlanks cs with
    | '"' :: rest => do
      let (name, rest) ← string? rest
      match skipBlanks rest with
      | ':' :: rest => do
        let (value, rest) ← value? steps rest
        match skipBlanks rest with
        | ',' :: rest => do
          let (members, rest) ← members? steps rest
          some ((name, value) :: members, rest)
        | '}' :: rest => some ([(name, value)], rest)
        | _ => none
      | _ => none
    | _ => none

end

/-- The value that a text holds, with nothing but blanks around it. -/
def parse? (text : String) : Option Json :=
  match value? (2 * text.toList.length + 2) text.toList with
  | some (value, rest) => if (skipBlanks rest).isEmpty then some value else none
  | none => none

end Bitemporal.Json

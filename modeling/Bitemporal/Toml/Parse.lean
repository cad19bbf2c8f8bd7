import Bitemporal.Calendar
import Bitemporal.Toml.Table

/-!
Reading TOML documents.

`Toml.parse?` accepts the documents of TOML 1.0, read as statements and then carried out on the
root table. A number beyond binary64 is refused, and so is a value, or a dotted key, nested deeper
than `nestingLimit`; nested values are read by recursion on the levels that are left. Lists, keys
and statements are read with a bound on the number of parts, for which the length of the text is
always enough.
-/

namespace Bitemporal.Toml

/-! ## Blanks and comments -/

/-- Whether a character is blank within a line. -/
def isBlank (c : Char) : Bool := c = ' ' || c = '\t'

/-- The text after the blanks at its start. -/
def skipBlanks (cs : List Char) : List Char := cs.dropWhile isBlank

/-- Whether a character may stand as it is: a tab, or no control character. -/
def isPlain (c : Char) : Bool := c = '\t' || 32 ≤ c.toNat && c.toNat ≠ 127

/-- The text after the line break at its start. -/
def newline? : List Char → Option (List Char)
  | '\n' :: rest => some rest
  | '\r' :: '\n' :: rest => some rest
  | _ => none

/-- The text after the comment at its start, if there is one. -/
def skipComment : List Char → List Char
  | '#' :: rest => rest.dropWhile isPlain
  | cs => cs

/-- The text after the end of a line: blanks, perhaps a comment, and a line break or
the end of the text. -/
def lineEnd? (cs : List Char) : Option (List Char) :=
  match skipComment (skipBlanks cs) with
  | [] => some []
  | rest => newline? rest

/-- The text after blanks, line breaks and comments. -/
def skipLines (inComment : Bool) : List Char → List Char
  | [] => []
  | '\r' :: '\n' :: rest => skipLines false rest
  | '\n' :: rest => skipLines false rest
  | c :: rest =>
    if inComment && isPlain c then skipLines true rest
    else if isBlank c then skipLines false rest
    else if c = '#' then skipLines true rest
    else c :: rest

/-! ## Strings -/

/-- The character whose number some hexadecimal digits write. -/
def hexChar? (digits : List Char) : Option Char := do
  let number ← digits.foldlM (fun n c => (hexDigit? c).map (n * 16 + ·)) 0
  if number.isValidChar then some (Char.ofNat number) else none

/-- The character that a backslash and one more character stand for. -/
def escaped? : Char → Option Char
  | '"' => some '"'
  | '\\' => some '\\'
  | 'b' => some '\x08'
  | 'f' => some '\x0c'
  | 'n' => some '\n'
  | 'r' => some '\r'
  | 't' => some '\t'
  | _ => none

/-- The string after its opening double quote, and the rest. -/
def basicString? : List Char → Option (List Char × List Char)
  | '"' :: rest => some ([], rest)
  | '\\' :: 'u' :: a :: b :: c :: d :: rest => do
    let x ← hexChar? [a, b, c, d]
    let (cs, rest) ← basicString? rest
    some (x :: cs, rest)
  | '\\' :: 'U' :: a :: b :: c :: d :: e :: f :: g :: h :: rest => do
    let x ← hexChar? [a, b, c, d, e, f, g, h]
    let (cs, rest) ← basicString? rest
    some (x :: cs, rest)
  | '\\' :: x :: rest => do
    let x ← escaped? x
    let (cs, rest) ← basicString? rest
    some (x :: cs, rest)
  | x :: rest =>
    if isPlain x then do
      let (cs, rest) ← basicString? rest
      some (x :: cs, rest)
    else none
  | [] => none

/-- The string after its opening single quote, and the rest. -/
def literalString? : List Char → Option (List Char × List Char)
  | '\'' :: rest => some ([], rest)
  | x :: rest =>
    if isPlain x then do
      let (cs, rest) ← literalString? rest
      some (x :: cs, rest)
    else none
  | [] => none

/-- The end of a string between three quotes: up to two quotes before the closing ones belong to
the string. -/
def closing? (q : Char) : List Char → Option (List Char × List Char)
  | a :: b :: c :: rest =>
    if a = q && b = q && c = q then
      match rest with
      | d :: e :: more =>
        if d = q && e = q then some ([q, q], more)
        else if d = q then some ([q], e :: more)
        else some ([], rest)
      | [d] => if d = q then some ([q], []) else some ([], [d])
      | [] => some ([], [])
    else none
  | _ => none

/-- Whether a line ends here but for blanks. -/
def endsLine (cs : List Char) : Bool := (newline? (skipBlanks cs)).isSome

/-- The string after its opening three double quotes, and the rest. A backslash at the end of a
line joins the line with what follows the next blanks and line breaks; `joining` says that such
blanks are being passed over. -/
def multiBasicString? (joining : Bool) : List Char → Option (List Char × List Char)
  | [] => none
  | '\r' :: '\n' :: rest => do
    let (cs, rest) ← multiBasicString? joining rest
    some (if joining then cs else '\n' :: cs, rest)
  | '\\' :: 'u' :: a :: b :: c :: d :: rest => do
    let x ← hexChar? [a, b, c, d]
    let (cs, rest) ← multiBasicString? false rest
    some (x :: cs, rest)
  | '\\' :: 'U' :: a :: b :: c :: d :: e :: f :: g :: h :: rest => do
    let x ← hexChar? [a, b, c, d, e, f, g, h]
    let (cs, rest) ← multiBasicString? false rest
    some (x :: cs, rest)
  | '\\' :: x :: rest =>
    match escaped? x with
    | some x => do
      let (cs, rest) ← multiBasicString? false rest
      some (x :: cs, rest)
    | none => if endsLine (x :: rest) then multiBasicString? true (x :: rest) else none
  | x :: rest =>
    if joining && (isBlank x || x = '\n') then multiBasicString? true rest
    else
      match closing? '"' (x :: rest) with
      | some done => some done
      | none =>
        if isPlain x || x = '\n' then do
          let (cs, rest) ← multiBasicString? false rest
          some (x :: cs, rest)
        else none

/-- The string after its opening three single quotes, and the rest. -/
def multiLiteralString? : List Char → Option (List Char × List Char)
  | [] => none
  | '\r' :: '\n' :: rest => do
    let (cs, rest) ← multiLiteralString? rest
    some ('\n' :: cs, rest)
  | x :: rest =>
    match closing? '\'' (x :: rest) with
    | some done => some done
    | none =>
      if isPlain x || x = '\n' then do
        let (cs, rest) ← multiLiteralString? rest
        some (x :: cs, rest)
      else none

/-- The text after the line break at its start, if there is one. -/
def skipNewline (cs : List Char) : List Char := (newline? cs).getD cs

/-- The string of any form at the start of a text, and the rest. -/
def string? : List Char → Option (List Char × List Char)
  | '"' :: '"' :: '"' :: rest => multiBasicString? false (skipNewline rest)
  | '"' :: rest => basicString? rest
  | '\'' :: '\'' :: '\'' :: rest => multiLiteralString? (skipNewline rest)
  | '\'' :: rest => literalString? rest
  | _ => none

/-! ## Keys -/

/-- How many levels values and keys may be nested. -/
def nestingLimit : Nat := 79

/-- Whether a character may stand in a key without quotes. -/
def isBareKeyChar (c : Char) : Bool := c.isAlphanum || c = '_' || c = '-'

/-- The part of a key at the start of a text, and the rest. -/
def simpleKey? (cs : List Char) : Option (String × List Char) :=
  match cs with
  | '"' :: rest => (basicString? rest).map fun (s, rest) => (String.ofList s, rest)
  | '\'' :: rest => (literalString? rest).map fun (s, rest) => (String.ofList s, rest)
  | cs =>
    let bare := cs.takeWhile isBareKeyChar
    if bare.isEmpty then none else some (String.ofList bare, cs.dropWhile isBareKeyChar)

/-- The key of at most `parts` parts at the start of a text, as a path and a
name, and the rest. -/
def key? : Nat → List Char → Option ((List String × String) × List Char)
  | 0, _ => none
  | parts + 1, cs => do
    let (part, rest) ← simpleKey? (skipBlanks cs)
    match skipBlanks rest with
    | '.' :: rest => do
      let ((path, name), rest) ← key? parts rest
      some ((part :: path, name), rest)
    | rest => some (([], part), rest)

/-! ## Numbers, dates and times -/

/-- More digits of a number, between which single underscores may stand, and the rest. -/
def moreDigits? (isDigit : Char → Bool) : List Char → Option (List Char × List Char)
  | [] => some ([], [])
  | '_' :: c :: rest =>
    if isDigit c then do
      let (digits, rest) ← moreDigits? isDigit rest
      some (c :: digits, rest)
    else none
  | c :: rest =>
    if isDigit c then do
      let (digits, rest) ← moreDigits? isDigit rest
      some (c :: digits, rest)
    else if c = '_' then none
    else some ([], c :: rest)

/-- The digits of a number, of which there must be one, and the rest. -/
def digits? (isDigit : Char → Bool) : List Char → Option (List Char × List Char)
  | c :: rest =>
    if isDigit c then do
      let (digits, rest) ← moreDigits? isDigit rest
      some (c :: digits, rest)
    else none
  | [] => none

/-- The value of digits in a base. -/
def digitsValue (base : Nat) (digits : List Char) : Nat :=
  digits.foldl (fun n c => n * base + (hexDigit? c).getD 0) 0

/-- The integer, if it has 64 bits. -/
def integer? (n : Int) : Option Toml :=
  if -9223372036854775808 ≤ n ∧ n ≤ 9223372036854775807 then some (.integer n) else none

/-- The integer in another base after its mark, and the rest. -/
def basedInteger? (base : Nat) (isDigit : Char → Bool) (cs : List Char) :
    Option (Toml × List Char) := do
  let (digits, rest) ← digits? isDigit cs
  return (← integer? (digitsValue base digits), rest)

/-- Whether a positive decimal number is rounded to infinity by binary64, whose largest number is
2 ^ 1024 - 2 ^ 971. -/
def exceedsBinary64 (digits : List Char) (exponent : Int) : Bool :=
  let significant := digits.dropWhile (· = '0')
  let magnitude := exponent + significant.length
  if significant.isEmpty || magnitude ≤ 300 then false
  else if 400 ≤ magnitude then true
  else
    Nat.pow 2 970 * (Nat.pow 2 54 - 1) * Nat.pow 10 (-exponent).toNat ≤
      digitsValue 10 significant * Nat.pow 10 exponent.toNat

/-- The digits of the fraction at the start of a text, none if there is no
fraction, and the rest. -/
def fraction? : List Char → Option (Option (List Char) × List Char)
  | '.' :: rest => do
    let (digits, rest) ← digits? Char.isDigit rest
    some (some digits, rest)
  | cs => some (none, cs)

/-- Whether a number is negative by its sign, and the text after the sign. -/
def sign : List Char → Bool × List Char
  | '-' :: rest => (true, rest)
  | '+' :: rest => (false, rest)
  | cs => (false, cs)

/-- The exponent at the start of a text, if there is one, and the rest. -/
def exponent? : List Char → Option (Option Int × List Char)
  | c :: rest =>
    if c = 'e' || c = 'E' then do
      let (negative, rest) := sign rest
      let (digits, rest) ← digits? Char.isDigit rest
      let value : Int := digitsValue 10 digits
      some (some (if negative then -value else value), rest)
    else some (none, c :: rest)
  | [] => some (none, [])

/-- The digits of the integer part of a decimal number, and the rest. A
leading zero stands alone. -/
def decimalDigits? : List Char → Option (List Char × List Char)
  | '0' :: rest => some (['0'], rest)
  | cs => digits? Char.isDigit cs

/-- The decimal number at the start of a text, and the rest. -/
def decimal? (cs : List Char) : Option (Toml × List Char) := do
  let (negative, rest) := sign cs
  let (whole, rest) ← decimalDigits? rest
  let (fraction, rest) ← fraction? rest
  let (exponent, rest) ← exponent? rest
  if fraction.isNone && exponent.isNone then
    let value : Int := digitsValue 10 whole
    return (← integer? (if negative then -value else value), rest)
  else
    let digits := whole ++ fraction.getD []
    let scale := exponent.getD 0 - (fraction.getD []).length
    if !negative && exceedsBinary64 digits scale then none else some (.other, rest)

/-- The number that two digits write, if it is at most `limit`. -/
def twoDigits? (limit : Nat) (a b : Char) : Option Nat :=
  if a.isDigit && b.isDigit && digitsValue 10 [a, b] ≤ limit then some (digitsValue 10 [a, b])
    else none

/-- The text after the digits of a fraction of a second, if there are any. -/
def secondFraction? : List Char → Option (List Char)
  | '.' :: c :: rest => if c.isDigit then some (rest.dropWhile Char.isDigit) else none
  | '.' :: [] => none
  | cs => some cs

/-- The text after a time of day. -/
def time? : List Char → Option (List Char)
  | a :: b :: ':' :: c :: d :: ':' :: e :: f :: rest => do
    let _ ← twoDigits? 23 a b
    let _ ← twoDigits? 59 c d
    let _ ← twoDigits? 60 e f
    secondFraction? rest
  | _ => none

/-- The text after the offset from UTC, if there is one. -/
def offset? : List Char → Option (List Char)
  | 'Z' :: rest | 'z' :: rest => some rest
  | s :: rest =>
    if s = '+' || s = '-' then
      match rest with
      | a :: b :: ':' :: c :: d :: rest => do
        let _ ← twoDigits? 23 a b
        let _ ← twoDigits? 59 c d
        some rest
      | _ => none
    else some (s :: rest)
  | [] => some []

/-- Whether a text starts with a time of day, whose first part is an hour. -/
def startsTime : List Char → Bool
  | a :: b :: ':' :: _ => (twoDigits? 23 a b).isSome
  | _ => false

/-- The text after the time of day that may follow a date. -/
def timeOfDate? : List Char → Option (List Char)
  | s :: rest =>
    if (s = 'T' || s = 't' || s = ' ') && startsTime rest then do offset? (← time? rest)
    else some (s :: rest)
  | [] => some []

/-- The text after a date, with a time of day or not. -/
def date? : List Char → Option (List Char)
  | a :: b :: c :: d :: '-' :: e :: f :: '-' :: g :: h :: rest => do
    let month ← twoDigits? 12 e f
    let day ← twoDigits? 31 g h
    if month = 0 || day = 0 || Date.daysInMonth (digitsValue 10 [a, b, c, d]) month <
      day then none
    else timeOfDate? rest
  | _ => none

/-- Whether a text starts as a date does. -/
def startsDate : List Char → Bool
  | a :: b :: c :: d :: '-' :: _ => [a, b, c, d].all Char.isDigit
  | _ => false

/-- The number, date or time at the start of a text, and the rest. -/
def scalar? (cs : List Char) : Option (Toml × List Char) :=
  if startsDate cs then (date? cs).map fun rest => (.other, rest)
  else if startsTime cs then (time? cs).map fun rest => (.other, rest)
  else
    match cs with
    | '0' :: 'x' :: rest => basedInteger? 16 (fun c => (hexDigit? c).isSome) rest
    | '0' :: 'o' :: rest => basedInteger? 8 (fun c => '0' ≤ c ∧ c ≤ '7') rest
    | '0' :: 'b' :: rest => basedInteger? 2 (fun c => c = '0' || c = '1') rest
    | cs =>
      match (sign cs).2 with
      | 'i' :: 'n' :: 'f' :: rest => some (.other, rest)
      | 'n' :: 'a' :: 'n' :: rest => some (.other, rest)
      | _ => decimal? cs

/-! ## Values -/

/-- The values of a list up to its closing bracket, and the rest: at most `parts` of them, each
read by `value`. -/
def items? (value : List Char → Option (Toml × List Char)) :
    Nat → List Char → Option (List Toml × List Char)
  | 0, _ => none
  | parts + 1, cs =>
    match skipLines false cs with
    | ']' :: rest => some ([], rest)
    | cs => do
      let (item, rest) ← value cs
      match skipLines false rest with
      | ',' :: rest => do
        let (items, rest) ← items? value parts rest
        some (item :: items, rest)
      | ']' :: rest => some ([item], rest)
      | _ => none

/-- A key and its value, and the rest. -/
def pair? (value : List Char → Option (Toml × List Char)) (cs : List Char) :
    Option (((List String × String) × Toml) × List Char) := do
  let (key, rest) ← key? nestingLimit cs
  match rest with
  | '=' :: rest => do
    let (v, rest) ← value (skipBlanks rest)
    some ((key, v), rest)
  | _ => none

/-- The keys and values of an inline table up to its closing brace, and the rest: at
most `parts` of them. -/
def pairs? (value : List Char → Option (Toml × List Char)) :
    Nat → List Char → Option (List ((List String × String) × Toml) × List Char)
  | 0, _ => none
  | parts + 1, cs => do
    let (pair, rest) ← pair? value cs
    match skipBlanks rest with
    | ',' :: rest => do
      let (pairs, rest) ← pairs? value parts rest
      some (pair :: pairs, rest)
    | '}' :: rest => some ([pair], rest)
    | _ => none

/-- The value at the start of a text, with at most `levels` levels of lists and tables
in it, and the rest. -/
def value? : Nat → List Char → Option (Toml × List Char)
  | levels, cs =>
    match cs with
    | '"' :: _ | '\'' :: _ => (string? cs).map fun (s, rest) => (.string (String.ofList s), rest)
    | 't' :: 'r' :: 'u' :: 'e' :: rest => some (.boolean true, rest)
    | 'f' :: 'a' :: 'l' :: 's' :: 'e' :: rest => some (.boolean false, rest)
    | '[' :: rest =>
      match levels with
      | 0 => none
      | levels + 1 =>
        (items? (value? levels) (rest.length + 1) rest).map fun (items, rest) =>
          (.array items, rest)
    | '{' :: rest =>
      match levels with
      | 0 => none
      | levels + 1 =>
        match skipBlanks rest with
        | '}' :: rest => some (.table .inline [], rest)
        | rest => do
          let (pairs, rest) ← pairs? (value? levels) (rest.length + 1) rest
          some (.table .inline (← Entries.ofPairs? pairs []), rest)
    | cs => scalar? cs

/-! ## Documents -/

/-- The statement at the start of a text, which is not blank, and the text after its line. -/
def statement? : List Char → Option (Statement × List Char)
  | '[' :: '[' :: rest => do
    let ((path, name), rest) ← key? nestingLimit rest
    match rest with
    | ']' :: ']' :: rest => return (.element path name, ← lineEnd? rest)
    | _ => none
  | '[' :: rest => do
    let ((path, name), rest) ← key? nestingLimit rest
    match rest with
    | ']' :: rest => return (.table path name, ← lineEnd? rest)
    | _ => none
  | cs => do
    let (((path, name), value), rest) ← pair? (value? nestingLimit) cs
    return (.value path name value, ← lineEnd? rest)

/-- The statements of a text of at most `lines` lines. -/
def statements? : Nat → List Char → Option (List Statement)
  | 0, _ => none
  | lines + 1, cs =>
    match skipBlanks cs with
    | [] => some []
    | '\n' :: rest => statements? lines rest
    | '\r' :: '\n' :: rest => statements? lines rest
    | '#' :: rest => do statements? lines (← lineEnd? ('#' :: rest))
    | cs => do
      let (statement, rest) ← statement? cs
      return statement :: (← statements? lines rest)

/-- The text without the byte order mark at its start. -/
def skipMark : List Char → List Char
  | '\ufeff' :: rest => rest
  | cs => cs

/-- The root table of the document that a text holds. -/
def parse? (text : String) : Option Entries := do
  let cs := skipMark text.toList
  Entries.build? (← statements? (cs.length + 1) cs) [] []

end Bitemporal.Toml

/-! # Reading parts of JSON text

Each reader takes the text from where it stands and gives what it read with the text that follows.
Strings that are kept are read strictly; a value that is passed by only has to be well formed, so
an escape in it may name half of a pair.
-/

namespace QueryAlgebra.Json.Scan

/-- Pass by blanks. -/
def blanks (text : List Char) : List Char :=
  text.dropWhile fun c => c == ' ' || c == '\n' || c == '\t' || c == '\r'

/-- Pass by a given character, after blanks. -/
def mark? (c : Char) (text : List Char) : Option (List Char) :=
  match blanks text with
  | head :: rest => if head == c then some rest else none
  | [] => none

/-- Pass by given characters. -/
def word? : List Char → List Char → Option (List Char)
  | [], text => some text
  | c :: word, head :: rest => if head == c then word? word rest else none
  | _ :: _, [] => none

/-- The value of a hexadecimal digit. -/
def hex? (c : Char) : Option Nat :=
  if c.isDigit then some (c.toNat - '0'.toNat)
  else if 'a' ≤ c && c ≤ 'f' then some (c.toNat - 'a'.toNat + 10)
  else if 'A' ≤ c && c ≤ 'F' then some (c.toNat - 'A'.toNat + 10)
  else none

/-- The value of four hexadecimal digits. -/
def unit? (a b c d : Char) : Option Nat := do
  pure (((← hex? a) * 16 + (← hex? b)) * 256 + (← hex? c) * 16 + (← hex? d))

/-- The character of a simple escape. -/
def simpleEscape? : Char → Option Char
  | '"' => some '"'
  | '\\' => some '\\'
  | '/' => some '/'
  | 'b' => some '\x08'
  | 'f' => some '\x0c'
  | 'n' => some '\n'
  | 'r' => some '\r'
  | 't' => some '\t'
  | _ => none

/-- Whether a unit is the first half of a pair. -/
def isHighHalf (unit : Nat) : Bool := 0xD800 ≤ unit && unit < 0xDC00

/-- Whether a unit is the second half of a pair. -/
def isLowHalf (unit : Nat) : Bool := 0xDC00 ≤ unit && unit < 0xE000

/-- The characters of a string up to its closing quotation mark. -/
def characters? : List Char → Option (List Char × List Char)
  | [] => none
  | '"' :: rest => some ([], rest)
  | '\\' :: 'u' :: a :: b :: c :: d :: '\\' :: 'u' :: e :: f :: g :: h :: rest => do
    let first ← unit? a b c d
    if isHighHalf first then
      let second ← unit? e f g h
      if isLowHalf second then
        let (cs, rest) ← characters? rest
        pure (Char.ofNat (0x10000 + (first - 0xD800) * 0x400 + (second - 0xDC00)) :: cs, rest)
      else none
    else if isLowHalf first then none
    else
      let (cs, rest) ← characters? ('\\' :: 'u' :: e :: f :: g :: h :: rest)
      pure (Char.ofNat first :: cs, rest)
  | '\\' :: 'u' :: a :: b :: c :: d :: rest => do
    let unit ← unit? a b c d
    if isHighHalf unit || isLowHalf unit then none
    else
      let (cs, rest) ← characters? rest
      pure (Char.ofNat unit :: cs, rest)
  | '\\' :: c :: rest => do
    let escaped ← simpleEscape? c
    let (cs, rest) ← characters? rest
    pure (escaped :: cs, rest)
  | c :: rest => do
    if c.toNat < 0x20 || c == '\\' then none
    else
      let (cs, rest) ← characters? rest
      pure (c :: cs, rest)

/-- A string, after blanks. -/
def string? (text : List Char) : Option (String × List Char) := do
  let rest ← mark? '"' text
  let (cs, rest) ← characters? rest
  pure (String.ofList cs, rest)

/-- A truth value, after blanks. -/
def bool? (text : List Char) : Option (Bool × List Char) :=
  match blanks text with
  | 't' :: rest => (word? ['r', 'u', 'e'] rest).map fun rest => (true, rest)
  | 'f' :: rest => (word? ['a', 'l', 's', 'e'] rest).map fun rest => (false, rest)
  | _ => none

/-- A string or nothing, after blanks. -/
def optionalString? (text : List Char) : Option (Option String × List Char) :=
  match blanks text with
  | 'n' :: rest => (word? ['u', 'l', 'l'] rest).map fun rest => (none, rest)
  | _ => (string? text).map fun (value, rest) => (some value, rest)

/-- Pass by the rest of a string. -/
def passString? : List Char → Option (List Char)
  | [] => none
  | '"' :: rest => some rest
  | '\\' :: 'u' :: a :: b :: c :: d :: rest => (unit? a b c d).bind fun _ => passString? rest
  | '\\' :: c :: rest => (simpleEscape? c).bind fun _ => passString? rest
  | c :: rest => if c.toNat < 0x20 || c == '\\' then none else passString? rest

/-- Pass by at least one digit. -/
def passDigits? (text : List Char) : Option (List Char) :=
  match text with
  | c :: rest => if c.isDigit then some (rest.dropWhile Char.isDigit) else none
  | [] => none

/-- Pass by an exponent, if there is one. -/
def passExponent? : List Char → Option (List Char)
  | 'e' :: '+' :: rest => passDigits? rest
  | 'e' :: '-' :: rest => passDigits? rest
  | 'e' :: rest => passDigits? rest
  | 'E' :: '+' :: rest => passDigits? rest
  | 'E' :: '-' :: rest => passDigits? rest
  | 'E' :: rest => passDigits? rest
  | text => some text

/-- Pass by a fraction, if there is one, and an exponent. -/
def passFraction? : List Char → Option (List Char)
  | '.' :: rest => (passDigits? rest).bind passExponent?
  | text => passExponent? text

/-- Pass by a number without its sign. -/
def passNumber? : List Char → Option (List Char)
  | '0' :: c :: rest => if c.isDigit then none else passFraction? (c :: rest)
  | text => (passDigits? text).bind passFraction?

/-- What a value that is passed by stands in. -/
inductive Frame where
  | array
  | object
deriving DecidableEq

/-- Pass by the name of a member and the colon after it. -/
def passName? (text : List Char) : Option (List Char) :=
  (mark? '"' text).bind passString? |>.bind (mark? ':')

mutual

/-- Pass by a value inside of frames and by the rest of the frames. -/
def passValue? : Nat → List Frame → List Char → Option (List Char)
  | 0, _, _ => none
  | fuel + 1, frames, text =>
    match blanks text with
    | 'n' :: rest => (word? ['u', 'l', 'l'] rest).bind (passRest? fuel frames)
    | 't' :: rest => (word? ['r', 'u', 'e'] rest).bind (passRest? fuel frames)
    | 'f' :: rest => (word? ['a', 'l', 's', 'e'] rest).bind (passRest? fuel frames)
    | '-' :: rest => (passNumber? rest).bind (passRest? fuel frames)
    | '"' :: rest => (passString? rest).bind (passRest? fuel frames)
    | '[' :: rest =>
      match blanks rest with
      | ']' :: rest => passRest? fuel frames rest
      | rest => passValue? fuel (.array :: frames) rest
    | '\x7b' :: rest =>
      match blanks rest with
      | '\x7d' :: rest => passRest? fuel frames rest
      | rest => (passName? rest).bind (passValue? fuel (.object :: frames))
    | text => (passNumber? text).bind (passRest? fuel frames)

/-- Pass by the rest of the frames after a value. -/
def passRest? : Nat → List Frame → List Char → Option (List Char)
  | _, [], text => some text
  | 0, _ :: _, _ => none
  | fuel + 1, frame :: frames, text =>
    match frame, blanks text with
    | .array, ',' :: rest => passValue? fuel (.array :: frames) rest
    | .array, ']' :: rest => passRest? fuel frames rest
    | .object, ',' :: rest => (passName? rest).bind (passValue? fuel (.object :: frames))
    | .object, '\x7d' :: rest => passRest? fuel frames rest
    | _, _ => none

end

/-- Pass by a value. Every step passes by a character, so there are no more steps than
characters. -/
def pass? (text : List Char) : Option (List Char) := passValue? (text.length + 1) [] text

end QueryAlgebra.Json.Scan

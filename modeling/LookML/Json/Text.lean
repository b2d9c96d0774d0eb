/-!
# JSON strings — reading and writing the text between quotes

Written, a text escapes quotes, backslashes and controls.  Read, it may escape anything by its
UTF-16 units; a unit of a pair needs its partner.  A control character stands nowhere in a string.
-/

namespace LookML.Json

/-! ## Writing -/

/-- The digit for a number below sixteen. -/
def hexDigit (n : Nat) : Char :=
  if n < 10 then Char.ofNat ('0'.toNat + n) else Char.ofNat ('a'.toNat + n - 10)

/-- One character of a written string. -/
def escapeChar (c : Char) : List Char :=
  if c = '"' || c = '\\' then ['\\', c]
  else if c = '\x08' then ['\\', 'b']
  else if c = '\x0c' then ['\\', 'f']
  else if c = '\n' then ['\\', 'n']
  else if c = '\r' then ['\\', 'r']
  else if c = '\t' then ['\\', 't']
  else if c.toNat < 0x20 then
    ['\\', 'u', '0', '0', hexDigit (c.toNat / 16), hexDigit (c.toNat % 16)]
  else [c]

/-- A text as a written string. -/
def quote (text : String) : String :=
  String.ofList ('"' :: (text.toList.flatMap escapeChar ++ ['"']))

/-! ## Reading -/

def hexValue? (c : Char) : Option Nat :=
  if '0' ≤ c && c ≤ '9' then some (c.toNat - '0'.toNat)
  else if 'a' ≤ c && c ≤ 'f' then some (c.toNat - 'a'.toNat + 10)
  else if 'A' ≤ c && c ≤ 'F' then some (c.toNat - 'A'.toNat + 10)
  else none

/-- The UTF-16 unit that four hexadecimal digits stand for. -/
def unit? (a b c d : Char) : Option Nat := do
  let a ← hexValue? a
  let b ← hexValue? b
  let c ← hexValue? c
  let d ← hexValue? d
  return 4096 * a + 256 * b + 16 * c + d

/-- Whether a unit is the first of a pair. -/
def isLead (unit : Nat) : Bool :=
  0xD800 ≤ unit && unit < 0xDC00

/-- Whether a unit is the second of a pair. -/
def isTrail (unit : Nat) : Bool :=
  0xDC00 ≤ unit && unit < 0xE000

/-- The character of a pair of units. -/
def pairChar (lead trail : Nat) : Char :=
  Char.ofNat (0x10000 + 1024 * (lead - 0xD800) + (trail - 0xDC00))

/-- The character that a letter after a backslash stands for. -/
def shortEscape? : Char → Option Char
  | '"' => some '"'
  | '\\' => some '\\'
  | '/' => some '/'
  | 'b' => some '\x08'
  | 'f' => some '\x0c'
  | 'n' => some '\n'
  | 'r' => some '\r'
  | 't' => some '\t'
  | _ => none

/-- The characters of an escape by units, and what follows it.  The text starts after `\u`. -/
def unitEscape? : List Char → Option (Char × List Char)
  | a :: b :: c :: d :: rest =>
    match unit? a b c d with
    | none => none
    | some unit =>
      if isTrail unit then none
      else if isLead unit then
        match rest with
        | '\\' :: 'u' :: e :: f :: g :: h :: rest =>
          match unit? e f g h with
          | some trail => if isTrail trail then some (pairChar unit trail, rest) else none
          | none => none
        | _ => none
      else some (Char.ofNat unit, rest)
  | _ => none

/-- Adds a character to a string that was read. -/
def push (c : Char) : List Char × List Char → List Char × List Char
  | (text, rest) => (c :: text, rest)

/-- Reads a string of at most `fuel` characters whose opening quote was read before, and tells
what follows its closing quote. -/
def stringWithin : Nat → List Char → Option (List Char × List Char)
  | 0, _ => none
  | _ + 1, [] => none
  | _ + 1, '"' :: rest => some ([], rest)
  | fuel + 1, '\\' :: 'u' :: rest =>
    match unitEscape? rest with
    | some (c, rest) => (stringWithin fuel rest).map (push c)
    | none => none
  | fuel + 1, '\\' :: letter :: rest =>
    match shortEscape? letter with
    | some c => (stringWithin fuel rest).map (push c)
    | none => none
  | fuel + 1, c :: rest =>
    if c.toNat < 0x20 || c = '\\' then none else (stringWithin fuel rest).map (push c)

/-- Reads a string whose opening quote was read before. -/
def string? (text : List Char) : Option (String × List Char) :=
  (stringWithin (text.length + 1) text).map fun (chars, rest) => (String.ofList chars, rest)

end LookML.Json

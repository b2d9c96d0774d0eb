/-!
# JSON numbers — their grammar and their range

A number has a whole part without leading zeros, a fraction and an exponent.  A whole number may
be of any length below the range of binary floating point, but one that rounds to infinity is
refused.  The range is checked on the leading digits, as many as 64 bits hold, and a power of ten.
-/

namespace LookML.Json

/-- The leading digits of a number and the power of ten that goes with them. -/
structure Magnitude where
  digits : Nat := 0
  exponent : Int := 0
deriving DecidableEq, Repr

namespace Magnitude

/-- The number after `d` as its next digit, if 64 bits hold it. -/
def push? (digits d : Nat) : Option Nat :=
  if 10 * digits + d < UInt64.size then some (10 * digits + d) else none

/-- Whether a magnitude is beyond the range of binary floating point. -/
def isInfinite (m : Magnitude) : Bool :=
  m.digits != 0 && 0 ≤ m.exponent &&
    (308 < m.exponent || (Float.ofNat m.digits * Float.ofScientific 1 false m.exponent.toNat).isInf)

end Magnitude

def digitValue (c : Char) : Nat :=
  c.toNat - '0'.toNat

def isDigit (c : Char) : Bool :=
  '0' ≤ c && c ≤ '9'

/-- The magnitude with the digits of a whole part added.  Past 64 bits, a digit only scales. -/
def addWhole : Magnitude → List Char → Magnitude
  | m, [] => m
  | m, d :: rest =>
    match Magnitude.push? m.digits (digitValue d) with
    | some digits => addWhole { m with digits } rest
    | none => { m with exponent := m.exponent + (rest.length + 1) }

/-- The magnitude with the digits of a fraction added.  Past 64 bits, digits are dropped. -/
def addFraction : Magnitude → List Char → Magnitude
  | m, [] => m
  | m, d :: rest =>
    match Magnitude.push? m.digits (digitValue d) with
    | some digits => addFraction { digits, exponent := m.exponent - 1 } rest
    | none => m

/-- The exponent that a row of digits stands for. -/
def exponentOf (digits : List Char) : Nat :=
  digits.foldl (fun n d => 10 * n + digitValue d) 0

/-- Cuts digits off the front of a text. -/
def spanDigits (text : List Char) : List Char × List Char :=
  (text.takeWhile isDigit, text.dropWhile isDigit)

/-- The fraction at the front of a text, which needs a digit after its point. -/
def fraction? : List Char → Option (List Char × List Char)
  | '.' :: text =>
    let (digits, rest) := spanDigits text
    if digits.isEmpty then none else some (digits, rest)
  | text => some ([], text)

/-- The exponent at the front of a text, which needs a digit. -/
def exponent? : List Char → Option (Int × List Char)
  | [] => some (0, [])
  | e :: text =>
    if e = 'e' || e = 'E' then
      let (negative, text) :=
        match text with
        | '+' :: rest => (false, rest)
        | '-' :: rest => (true, rest)
        | rest => (false, rest)
      let (digits, rest) := spanDigits text
      if digits.isEmpty then none
      else some (if negative then -(exponentOf digits : Int) else exponentOf digits, rest)
    else
      some (0, e :: text)

/-- Reads a number without its sign, and tells what follows it. -/
def unsigned? (text : List Char) : Option (List Char) :=
  let (whole, rest) := spanDigits text
  if whole.isEmpty || (whole.head? == some '0' && whole.length > 1) then none
  else
    match fraction? rest with
    | none => none
    | some (decimals, rest) =>
      match exponent? rest with
      | none => none
      | some (power, rest) =>
        let m := addFraction (addWhole {} whole) decimals
        if { m with exponent := m.exponent + power }.isInfinite then none else some rest

/-- Reads a number, and tells what follows it. -/
def number? : List Char → Option (List Char)
  | '-' :: text => unsigned? text
  | text => unsigned? text

end LookML.Json

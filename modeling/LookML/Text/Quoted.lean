import LookML.Text.Printable

/-!
# Quoted texts — a text on one line, for logs and outlines

The text stands between double quotes.  Quotes and backslashes take a backslash, the common
controls have a letter of their own, and any other hidden character is written by its code point.
-/

namespace LookML.Text

/-- `c` by its code point: `\u`, then lower-case hexadecimal digits in braces. -/
def codePoint (c : Char) : List Char :=
  ['\\', 'u', '{'] ++ Nat.toDigits 16 c.toNat ++ ['}']

/-- One character of a quoted text. -/
def quoteChar (c : Char) : List Char :=
  if c = '\x00' then ['\\', '0']
  else if c = '\t' then ['\\', 't']
  else if c = '\r' then ['\\', 'r']
  else if c = '\n' then ['\\', 'n']
  else if c = '"' || c = '\\' then ['\\', c]
  else if isPrintable c then [c]
  else codePoint c

/-- `text` in double quotes, with every hidden character spelled out. -/
def quoted (text : String) : String :=
  String.ofList (['"'] ++ text.toList.flatMap quoteChar ++ ['"'])

/-- A space is written as it is, a no-break space by its code point. -/
example : quoted " \u00a0" = "\" \\u\x7ba0\x7d\"" := by
  decide +kernel

end LookML.Text

/-!
# Blank characters — which characters are trimmed from a text

A character is blank when it has the property `White_Space`.  The module holds the table of that
property and the trimming of a text on either side, which loses nothing but what it cuts off.
-/

namespace LookML.Text

/-- The code points of the property `White_Space`, as closed ranges in increasing order. -/
def blankRanges : List (Nat × Nat) :=
  [(0x09, 0x0D), (0x20, 0x20), (0x85, 0x85), (0xA0, 0xA0), (0x1680, 0x1680), (0x2000, 0x200A),
    (0x2028, 0x2029), (0x202F, 0x202F), (0x205F, 0x205F), (0x3000, 0x3000)]

/-- Whether `c` is a blank character. -/
def isBlank (c : Char) : Bool :=
  blankRanges.any fun range => range.1 ≤ c.toNat && c.toNat ≤ range.2

/-- The property has 25 characters. -/
example : blankRanges.foldl (fun count range => count + (range.2 + 1 - range.1)) 0 = 25 := by
  decide

/-! ## Trimming at the end -/

/-- `text` without the characters at its end that satisfy `p`. -/
def dropTrailing (p : Char → Bool) (text : List Char) : List Char :=
  (text.reverse.dropWhile p).reverse

/-- The characters at the end of `text` that satisfy `p`. -/
def takeTrailing (p : Char → Bool) (text : List Char) : List Char :=
  (text.reverse.takeWhile p).reverse

/-- Cutting off the end loses nothing. -/
theorem dropTrailing_append_takeTrailing (p : Char → Bool) (text : List Char) :
    dropTrailing p text ++ takeTrailing p text = text := by
  rw [dropTrailing, takeTrailing, ← List.reverse_append, List.takeWhile_append_dropWhile,
    List.reverse_reverse]

/-! ## Trimmed texts -/

def trimStart (text : String) : String :=
  String.ofList (text.toList.dropWhile isBlank)

def trimEnd (text : String) : String :=
  String.ofList (dropTrailing isBlank text.toList)

/-- `text` without blanks at either side. -/
def trim (text : String) : String :=
  trimEnd (trimStart text)

/-- `text` without `ending`, if it ends so. -/
def withoutEnd? (ending text : String) : Option String :=
  if ending.toList.isSuffixOf text.toList then
    some (String.ofList (text.toList.take (text.toList.length - ending.toList.length)))
  else
    none

end LookML.Text

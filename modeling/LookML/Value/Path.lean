import LookML.Value.Basic

/-!
# Value paths — reaching into plain data

A path such as `views[0].dimensions[1].name` is a row of steps.  A key ends before a dot or an
opening bracket, an index after its closing bracket; a dot after a step is passed over.  A key
steps into an object, an index into a list, and any other step leads nowhere.
-/

namespace LookML.Value

/-! ## Steps of a path -/

/-- Whether a key goes on with `c`. -/
def inKey (c : Char) : Bool :=
  c != '.' && c != '['

/-- Whether an index in brackets goes on with `c`. -/
def inBrackets (c : Char) : Bool :=
  c != ']'

/-- Cuts the first step off a path. -/
def splitStep : List Char → List Char × List Char
  | '[' :: path =>
    match path.dropWhile inBrackets with
    | [] => ('[' :: path, [])
    | close :: '.' :: rest => ('[' :: path.takeWhile inBrackets ++ [close], rest)
    | close :: rest => ('[' :: path.takeWhile inBrackets ++ [close], rest)
  | path =>
    match path.dropWhile inKey with
    | '.' :: rest => (path.takeWhile inKey, rest)
    | rest => (path.takeWhile inKey, rest)

/-- What follows a step is shorter than the path. -/
theorem length_splitStep_lt (c : Char) (rest : List Char) :
    (splitStep (c :: rest)).2.length < (c :: rest).length := by
  unfold splitStep
  split
  · rename_i path h
    obtain ⟨rfl, rfl⟩ := List.cons.inj h
    have hle := (List.dropWhile_suffix inBrackets (l := rest)).length_le
    split <;> simp_all <;> omega
  · rename_i hne
    split
    · rename_i after h
      have hle := (List.dropWhile_suffix inKey (l := c :: rest)).length_le
      rw [h] at hle
      exact hle
    · rename_i hdot
      have hc : inKey c = true := by
        by_cases hc : c = '.'
        · exact (hdot rest (by simp [hc, inKey])).elim
        · by_cases hb : c = '['
          · exact (hne rest (by rw [hb])).elim
          · simp [inKey, hc, hb]
      rw [List.dropWhile_cons_of_pos hc]
      exact Nat.lt_succ_of_le (List.dropWhile_suffix inKey (l := rest)).length_le

/-- The steps of a path. -/
def steps (path : List Char) : List String :=
  match path with
  | [] => []
  | c :: rest => String.ofList (splitStep (c :: rest)).1 :: steps (splitStep (c :: rest)).2
termination_by path.length
decreasing_by
  exact length_splitStep_lt c rest

/-! ## Following steps -/

/-- The largest index that a step can name. -/
def maxIndex : Nat := UInt64.size - 1

/-- The number that a row of decimal digits stands for. -/
def ofDigits (digits : List Char) : Nat :=
  digits.foldl (fun n d => 10 * n + (d.toNat - '0'.toNat)) 0

/-- The number of decimal digits behind an optional plus sign. -/
def index? (text : List Char) : Option Nat :=
  let digits :=
    match text with
    | '+' :: rest => rest
    | rest => rest
  if digits ≠ [] && digits.all Char.isDigit && ofDigits digits ≤ maxIndex then
    some (ofDigits digits)
  else
    none

/-- The index that a step in brackets names. -/
def bracketed? (step : String) : Option Nat :=
  match step.toList with
  | '[' :: rest => if rest.getLast? = some ']' then index? rest.dropLast else none
  | _ => none

/-- Follows one step. -/
def follow (value : Value) (step : String) : Option Value :=
  match value with
  | object fields => fields.get? step
  | list items => (bracketed? step).bind fun i => items[i]?
  | string _ => none

/-- The value that a path leads to. -/
def get? (value : Value) (path : String) : Option Value :=
  (steps path.toList).foldlM follow value

end LookML.Value

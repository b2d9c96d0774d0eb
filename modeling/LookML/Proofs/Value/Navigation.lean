import LookML.Value.Path

/-!
# Navigation — a path leads where its steps lead

A path is steps written one after the other, a dot before each key but the first.  It is cut up
into these steps again, whatever stands in the keys besides dots and opening brackets, and leads
where the steps lead one by one.  Each step that is cut off leaves a shorter path, so every text is
looked up in no more calls than it has characters, and one.
-/

namespace LookML

namespace Value

/-! ## Steps -/

/-- A step into plain data. -/
inductive Step where
  /-- To the value under a key of an object. -/
  | key (key : String)
  /-- To the item at a place in a list, counted from 0. -/
  | index (place : Nat)
deriving DecidableEq, Repr

namespace Step

/-- Where a step leads from a value.  A key that an object has more than once leads to the first of
its values. -/
def into? : Step → Value → Option Value
  | key k, object fields => (fields.entries.find? fun entry => entry.1 == k).map Prod.snd
  | index place, list items => items[place]?
  | _, _ => none

def text : Step → String
  | key k => k
  | index place => "[" ++ toString place ++ "]"

/-- Whether a step can be written in a path: a key that is not cut up there, or an index of 64
bits. -/
def IsWritable : Step → Prop
  | key k => k ≠ "" ∧ '.' ∉ k.toList ∧ '[' ∉ k.toList
  | index place => place < UInt64.size

end Step

/-- Where steps lead from a value, one after the other. -/
def navigate : Value → List Step → Option Value
  | value, [] => some value
  | value, step :: steps => (step.into? value).bind fun next => next.navigate steps

/-- Steps as they are written behind others. -/
def textBehind : List Step → String
  | [] => ""
  | .key k :: steps => "." ++ k ++ textBehind steps
  | .index place :: steps => (Step.index place).text ++ textBehind steps

/-- Steps as a path. -/
def pathText : List Step → String
  | [] => ""
  | step :: steps => step.text ++ textBehind steps

/-! ## Cutting off a step -/

/-- What stands behind a dot, if one comes first. -/
def behindDot : List Char → List Char
  | '.' :: rest => rest
  | rest => rest

theorem behindDot_cons_of_ne {c : Char} (h : c ≠ '.') (rest : List Char) :
    behindDot (c :: rest) = c :: rest := by
  unfold behindDot
  split
  · simp_all
  · rfl

theorem behindDot_textBehind {steps : List Step} (h : ∀ step ∈ steps, step.IsWritable) :
    behindDot (textBehind steps).toList = (pathText steps).toList := by
  cases steps with
  | nil => rfl
  | cons step steps =>
    cases step with
    | key k => simp [textBehind, pathText, Step.text, behindDot]
    | index place => simp [textBehind, pathText, Step.text, behindDot]

/-- Steps behind others begin with what ends a key. -/
theorem inKey_head?_textBehind (steps : List Step) :
    ∀ c ∈ (textBehind steps).toList.head?, inKey c = false := by
  rcases steps with _ | ⟨_ | _, _⟩ <;> simp [textBehind, Step.text, inKey]

/-- Where a condition holds of a run and not of what follows it, the run is cut off. -/
theorem cut_append {p : Char → Bool} {run rest : List Char} (hrun : ∀ c ∈ run, p c = true)
    (hrest : ∀ c ∈ rest.head?, p c = false) :
    (run ++ rest).takeWhile p = run ∧ (run ++ rest).dropWhile p = rest := by
  rw [List.takeWhile_append_of_pos hrun, List.dropWhile_append_of_pos hrun]
  cases rest with
  | nil => simp
  | cons c rest =>
    have hc : ¬ p c = true := by simpa using hrest c rfl
    rw [List.takeWhile_cons_of_neg hc, List.dropWhile_cons_of_neg hc, List.append_nil]
    exact ⟨rfl, rfl⟩

theorem splitStep_key {key rest : List Char} (hne : key ≠ []) (hkey : ∀ c ∈ key, inKey c = true)
    (hrest : ∀ c ∈ rest.head?, inKey c = false) :
    splitStep (key ++ rest) = (key, behindDot rest) := by
  obtain ⟨htake, hdrop⟩ := cut_append hkey hrest
  unfold splitStep
  split
  · rename_i path hpath
    -- A key does not begin with a bracket.
    obtain ⟨c, key, rfl⟩ := List.exists_cons_of_ne_nil hne
    obtain rfl : c = '[' := (List.cons.inj hpath).1
    simpa [inKey] using hkey '[' (by simp)
  · rw [htake, hdrop]
    split
    · rfl
    · rename_i hdot
      cases rest with
      | nil => rfl
      | cons c rest => rw [behindDot_cons_of_ne fun hc => hdot rest (by rw [hc])]

theorem splitStep_index {digits : List Char} (h : ∀ c ∈ digits, inBrackets c = true)
    (rest : List Char) :
    splitStep ('[' :: (digits ++ ']' :: rest)) = ('[' :: (digits ++ [']']), behindDot rest) := by
  have hclose : ∀ c ∈ (']' :: rest).head?, inBrackets c = false := by simp [inBrackets]
  obtain ⟨htake, hdrop⟩ := cut_append h hclose
  rw [splitStep, hdrop, htake]
  cases rest with
  | nil => rfl
  | cons c rest =>
    by_cases hc : c = '.'
    · subst hc
      rfl
    · rw [behindDot_cons_of_ne hc]
      split
      · rename_i hnil
        cases hnil
      · rename_i hdot
        exact absurd (List.cons.inj (List.cons.inj hdot).2).1 hc
      · rename_i heq
        obtain ⟨rfl, rfl⟩ := List.cons.inj heq
        rfl

theorem inBrackets_of_mem_toDigits {place : Nat} {c : Char} (h : c ∈ Nat.toDigits 10 place) :
    inBrackets c = true := by
  have hdigit := Nat.isDigit_of_mem_toDigits (by decide) (by decide) h
  rw [inBrackets, bne_iff_ne]
  rintro rfl
  exact absurd hdigit (by decide)

theorem toList_text_index (place : Nat) :
    (Step.index place).text.toList = '[' :: (Nat.toDigits 10 place ++ [']']) := by
  simp [Step.text]

/-- A path is cut behind its first step, and a dot there is passed over. -/
theorem splitStep_pathText {step : Step} {steps : List Step}
    (h : ∀ s ∈ step :: steps, s.IsWritable) :
    splitStep (pathText (step :: steps)).toList = (step.text.toList, (pathText steps).toList) := by
  rw [List.forall_mem_cons] at h
  rw [pathText, String.toList_append, ← behindDot_textBehind h.2]
  cases step with
  | key k =>
    obtain ⟨hne, hdot, hbracket⟩ := h.1
    refine splitStep_key (by simpa [Step.text] using hne) (fun c hc => ?_)
      (inKey_head?_textBehind steps)
    simp only [inKey, Bool.and_eq_true, bne_iff_ne]
    constructor <;> rintro rfl
    · exact hdot hc
    · exact hbracket hc
  | index place =>
    rw [toList_text_index, List.cons_append, List.append_assoc]
    exact splitStep_index (fun c => inBrackets_of_mem_toDigits) _

theorem toList_text_ne_nil {step : Step} (h : step.IsWritable) : step.text.toList ≠ [] := by
  cases step with
  | key k => simpa [Step.text] using h.1
  | index place => simp [toList_text_index]

theorem steps_of_ne_nil {path : List Char} (h : path ≠ []) :
    steps path = String.ofList (splitStep path).1 :: steps (splitStep path).2 := by
  cases path with
  | nil => exact absurd rfl h
  | cons c rest => rw [steps]

/-- A path has the steps that it is written for. -/
theorem steps_pathText : ∀ {ss : List Step}, (∀ step ∈ ss, step.IsWritable) →
    steps (pathText ss).toList = ss.map Step.text
  | [], _ => by rw [pathText, String.toList_empty, steps, List.map_nil]
  | step :: ss, h => by
    have hne : (pathText (step :: ss)).toList ≠ [] := by
      have := toList_text_ne_nil (h step (by simp))
      simp_all [pathText]
    rw [steps_of_ne_nil hne, splitStep_pathText h, String.ofList_toList,
      steps_pathText fun s hs => h s (by simp [hs]), List.map_cons]

/-! ## Following a step -/

mutual

/-- Whether every key in a value, at every depth, has `p`. -/
def ForallKeys (p : String → Prop) : Value → Prop
  | string _ => True
  | list items => AllForallKeys p items
  | object ⟨entries⟩ => EachForallKeys p entries

def AllForallKeys (p : String → Prop) : List Value → Prop
  | [] => True
  | item :: items => item.ForallKeys p ∧ AllForallKeys p items

def EachForallKeys (p : String → Prop) : List (String × Value) → Prop
  | [] => True
  | (key, value) :: entries => p key ∧ value.ForallKeys p ∧ EachForallKeys p entries

end

section keys

variable {p : String → Prop}

theorem forallKeys_list {items : List Value} :
    (list items).ForallKeys p ↔ ∀ item ∈ items, item.ForallKeys p := by
  rw [ForallKeys]
  induction items with
  | nil => simp [AllForallKeys]
  | cons item items ih => simp [AllForallKeys, ih]

theorem forallKeys_object {fields : Object Value} : (object fields).ForallKeys p ↔
    ∀ entry ∈ fields.entries, p entry.1 ∧ entry.2.ForallKeys p := by
  obtain ⟨entries⟩ := fields
  rw [ForallKeys]
  induction entries with
  | nil => simp [EachForallKeys]
  | cons entry entries ih => simp [EachForallKeys, ih, and_assoc]

/-- A step leads to a part of a value. -/
theorem ForallKeys.into? {value next : Value} {step : Step} (h : value.ForallKeys p)
    (hs : step.into? value = some next) : next.ForallKeys p := by
  cases step <;> cases value <;> simp only [Step.into?, reduceCtorEq] at hs
  case key.object k fields =>
    obtain ⟨entry, hentry, rfl⟩ := Option.map_eq_some_iff.mp hs
    exact (forallKeys_object.mp h entry (List.mem_of_find?_eq_some hentry)).2
  case index.list place items =>
    exact forallKeys_list.mp h next (List.mem_of_getElem? hs)

end keys

theorem get?_eq_find? (fields : Object Value) (key : String) :
    fields.get? key = (fields.entries.find? fun entry => entry.1 == key).map Prod.snd := by
  obtain ⟨entries⟩ := fields
  rw [Object.get?]
  induction entries with
  | nil => rfl
  | cons entry entries ih =>
    rw [List.lookup_cons, List.find?_cons, Bool.beq_comm]
    cases entry.1 == key with
    | true => rfl
    | false => exact ih

/-- The decimal digits of a place are read as the place. -/
theorem bracketed?_text {place : Nat} (h : place < UInt64.size) :
    bracketed? (Step.index place).text = some place := by
  have hdigits : ∀ c ∈ Nat.toDigits 10 place, c.isDigit = true := fun c hc =>
    Nat.isDigit_of_mem_toDigits (by decide) (by decide) hc
  have hvalue : ofDigits (Nat.toDigits 10 place) = place := Nat.ofDigitChars_ten_toDigits
  have hmax : place ≤ maxIndex := Nat.le_pred_of_lt h
  have hindex : index? (Nat.toDigits 10 place) = some place := by
    unfold index?
    dsimp only
    split
    · rename_i rest hrest
      -- No digit is a plus sign.
      exact absurd (hdigits '+' (by simp [hrest])) (by decide)
    · rw [hvalue, if_pos]
      simp [Nat.toDigits_ne_nil, hmax]
      exact hdigits
  rw [bracketed?, toList_text_index]
  simp [hindex]

theorem bracketed?_eq_none {step : String} (h : '[' ∉ step.toList) : bracketed? step = none := by
  unfold bracketed?
  split
  · rename_i rest hrest
    simp [hrest] at h
  · rfl

/-- A step that is written leads where the step leads, if no key looks like a place. -/
theorem follow_text {value : Value} {step : Step}
    (hv : value.ForallKeys fun key => key.toList.head? ≠ some '[') (hs : step.IsWritable) :
    follow value step.text = step.into? value := by
  cases value with
  | string text => cases step <;> rfl
  | list items =>
    cases step with
    | key k =>
      rw [follow, Step.text, bracketed?_eq_none hs.2.2]
      rfl
    | index place =>
      rw [follow, bracketed?_text hs]
      rfl
  | object fields =>
    rw [follow, get?_eq_find?]
    cases step with
    | key k => rfl
    | index place =>
      have hnone : (fields.entries.find? fun entry => entry.1 == (Step.index place).text) =
          none := by
        rw [List.find?_eq_none]
        intro entry hentry hkey
        refine (forallKeys_object.mp hv entry hentry).1 ?_
        rw [eq_of_beq hkey, toList_text_index]
        rfl
      rw [hnone]
      rfl

/-- Where the written steps are followed, the steps lead. -/
theorem foldlM_follow : ∀ {ss : List Step} {value : Value},
    value.ForallKeys (fun key => key.toList.head? ≠ some '[') → (∀ step ∈ ss, step.IsWritable) →
      (ss.map Step.text).foldlM follow value = value.navigate ss
  | [], _, _, _ => rfl
  | step :: ss, value, hv, hs => by
    rw [List.forall_mem_cons] at hs
    rw [List.map_cons, List.foldlM_cons, follow_text hv hs.1, navigate]
    cases hnext : step.into? value with
    | none => rfl
    | some next => exact foldlM_follow (hv.into? hnext) hs.2

/-! ## Looking up a text -/

/-- Looks a path up in at most so many calls, each of which cuts a step off the path and follows it.
`none` if more calls would be needed. -/
def lookWithin : Nat → Value → List Char → Option (Option Value)
  | 0, _, _ => none
  | _ + 1, value, [] => some (some value)
  | calls + 1, value, c :: rest =>
    match follow value (String.ofList (splitStep (c :: rest)).1) with
    | none => some none
    | some next => lookWithin calls next (splitStep (c :: rest)).2

theorem lookWithin_eq {calls : Nat} {path : List Char} (h : path.length < calls)
    (value : Value) : lookWithin calls value path = some ((steps path).foldlM follow value) := by
  induction calls generalizing path value with
  | zero => exact absurd h (Nat.not_lt_zero _)
  | succ calls ih =>
    cases path with
    | nil =>
      rw [steps]
      rfl
    | cons c rest =>
      have hrest := length_splitStep_lt c rest
      rw [lookWithin, steps, List.foldlM_cons]
      cases follow value (String.ofList (splitStep (c :: rest)).1) with
      | none => rfl
      | some next => exact ih (by omega) next

/-- Looking up a path is following its steps.  Where no key of a value begins with a bracket, a path
that steps are written as leads where they lead.  Any text whatever is looked up in no more calls
than it has characters, and one. -/
theorem get?_eq_navigate :
    (∀ (value : Value) (steps : List Step),
      value.ForallKeys (fun key => key.toList.head? ≠ some '[') →
        (∀ step ∈ steps, step.IsWritable) →
          value.get? (pathText steps) = value.navigate steps) ∧
    ∀ (value : Value) (path : String),
      lookWithin (path.length + 1) value path.toList = some (value.get? path) := by
  constructor
  · intro value steps hv hs
    rw [get?, steps_pathText hs, foldlM_follow hv hs]
  · intro value path
    exact lookWithin_eq (Nat.lt_succ_self _) value

end Value

/-- An object that has a key twice, in a list in a list, under a key that ends like a place. -/
def Samples.bracketed : Value :=
  .object ⟨[("é]", .list [.list [.string "a",
    .object ⟨[("1", .string "b"), ("1", .string "c")]⟩]])]⟩

theorem Value.get?_eq_navigate_bracketed :
    (Samples.bracketed.ForallKeys (fun key => key.toList.head? ≠ some '[') ∧
      (∀ step ∈ [Step.key "é]", .index 0, .index 1, .key "1"], step.IsWritable) ∧
      Samples.bracketed.get? "é][0][1].1" = some (.string "b")) ∧
    lookWithin 4 Samples.bracketed "[..".toList = some (Samples.bracketed.get? "[..") := by
  have hv : Samples.bracketed.ForallKeys fun key => key.toList.head? ≠ some '[' := by
    simp [Samples.bracketed, ForallKeys, AllForallKeys, EachForallKeys]
  have hs : ∀ step ∈ [Step.key "é]", .index 0, .index 1, .key "1"], step.IsWritable := by
    simp [Step.IsWritable, UInt64.size]
  exact ⟨⟨hv, hs, get?_eq_navigate.1 _ _ hv hs⟩, get?_eq_navigate.2 _ "[.."⟩

end LookML

import LookML.Text.Blank
import Mathlib.Data.List.DropRight

/-!
# Trimming — texts without blanks at their edges

A text is trimmed if trimming leaves it as it is, that is, if neither edge is blank.  Trimming
gives a trimmed part of its text, and takes away what blanks are put around a trimmed text.
-/

namespace LookML.Text

variable {p : Char → Bool} {text : List Char}

/-! ## Edges -/

theorem toList_trim (text : String) :
    (trim text).toList = dropTrailing isBlank (text.toList.dropWhile isBlank) := by
  simp [trim, trimEnd, trimStart]

theorem length_dropTrailing_le (p : Char → Bool) (text : List Char) :
    (dropTrailing p text).length ≤ text.length := by
  have h := congrArg List.length (dropTrailing_append_takeTrailing p text)
  rw [List.length_append] at h
  omega

/-- Neither edge of a trimmed text is blank. -/
theorem trim_eq_self_iff {text : String} : trim text = text ↔
    text.toList.dropWhile isBlank = text.toList ∧
      dropTrailing isBlank text.toList = text.toList := by
  rw [← String.toList_inj, toList_trim]
  constructor
  · intro h
    have hsuffix := List.dropWhile_suffix (l := text.toList) isBlank
    have hle := length_dropTrailing_le isBlank (text.toList.dropWhile isBlank)
    have hstart : text.toList.dropWhile isBlank = text.toList :=
      hsuffix.eq_of_length (Nat.le_antisymm hsuffix.length_le (by rwa [h] at hle))
    exact ⟨hstart, by rwa [hstart] at h⟩
  · rintro ⟨hstart, hend⟩
    rw [hstart, hend]

theorem dropWhile_append_of_eq_self {rest : List Char} (h : text.dropWhile p = text)
    (hne : text ≠ []) : (text ++ rest).dropWhile p = text ++ rest := by
  rw [List.dropWhile_eq_self_iff] at h ⊢
  intro _
  rw [List.getElem_append_left (List.length_pos_iff.mpr hne)]
  exact h (List.length_pos_iff.mpr hne)

theorem dropTrailing_concat {c : Char} (hc : p c = true) (text : List Char) :
    dropTrailing p (text ++ [c]) = dropTrailing p text := by
  simp [dropTrailing, hc]

theorem dropTrailing_congr {q : Char → Bool} (h : ∀ c ∈ text, p c = q c) :
    dropTrailing p text = dropTrailing q text := by
  induction text using List.reverseRecOn with
  | nil => rfl
  | append_singleton text c ih =>
    rw [List.forall_mem_append] at h
    show List.rdropWhile p _ = List.rdropWhile q _
    rw [List.rdropWhile_concat, List.rdropWhile_concat, h.2 c (by simp)]
    exact if_congr Iff.rfl (ih h.1) rfl

/-- Blanks around a trimmed text are trimmed away. -/
theorem trim_margins {text : String} (h : trim text = text) : trim (" " ++ text ++ " ") = text := by
  obtain ⟨hstart, hend⟩ := trim_eq_self_iff.mp h
  refine String.toList_inj.mp ?_
  rw [toList_trim, String.toList_append, String.toList_append, List.append_assoc]
  show dropTrailing isBlank ((' ' :: (text.toList ++ [' '])).dropWhile isBlank) = text.toList
  rw [List.dropWhile_cons_of_pos (by decide)]
  by_cases hne : text.toList = []
  · rw [hne]
    decide
  · rw [dropWhile_append_of_eq_self hstart hne, dropTrailing_concat (by decide), hend]

/-! ## Trimming -/

theorem dropTrailing_isPrefix (p : Char → Bool) (text : List Char) : dropTrailing p text <+: text :=
  ⟨_, dropTrailing_append_takeTrailing p text⟩

theorem dropWhile_of_isPrefix {part : List Char} (h : part <+: text)
    (ht : text.dropWhile p = text) : part.dropWhile p = part := by
  obtain ⟨rest, rfl⟩ := h
  cases part with
  | nil => rfl
  | cons c part =>
    rw [List.dropWhile_eq_self_iff] at ht ⊢
    simpa using ht

theorem trim_trim (text : String) : trim (trim text) = trim text := by
  rw [trim_eq_self_iff, toList_trim]
  exact ⟨dropWhile_of_isPrefix (dropTrailing_isPrefix _ _) (List.dropWhile_idempotent _ _),
    List.rdropWhile_idempotent isBlank _⟩

/-- A trimmed text is a part of the text. -/
theorem trim_isInfix (text : String) : (trim text).toList <:+: text.toList := by
  rw [toList_trim]
  exact (dropTrailing_isPrefix _ _).isInfix.trans (List.dropWhile_suffix _).isInfix

end LookML.Text

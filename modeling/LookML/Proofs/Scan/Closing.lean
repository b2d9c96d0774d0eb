import LookML.Proofs.Scan.Reading

/-!
# Closing — where quoted literals and expressions end

A quoted literal ends at the first quote that no backslash escapes, an expression before the first
`;;`.  Where there is none, the scan of the piece has no result.  Both are said here without the
scan: by the relation between the raw text of a literal and what it means, and by the place of the
first `;;` in a text.
-/

namespace LookML.Token

/-! ## Quoted literals -/

/-- Whether `raw` stands for the text in a quoted literal: a backslash and the character after it
stand for that character, and no quote stands for itself. -/
inductive Unescapes : (raw text : List Char) → Prop where
  | nil : Unescapes [] []
  | plain {c : Char} {raw text : List Char} (hq : c ≠ '"') (hb : c ≠ '\\')
      (h : Unescapes raw text) : Unescapes (c :: raw) (c :: text)
  | escaped {c : Char} {raw text : List Char} (h : Unescapes raw text) :
      Unescapes ('\\' :: c :: raw) (c :: text)

/-- Whether a text has a quote that closes the literal whose opening quote stands before it. -/
def Closes (text : List Char) : Prop :=
  ∃ raw meaning left, text = raw ++ '"' :: left ∧ Unescapes raw meaning

theorem unescapes_of_quoted? {text : List Char} {span : QuotedSpan}
    (h : quoted? text = some span) : Unescapes span.raw span.text := by
  fun_induction quoted? text generalizing span with
  | case1 => simp at h
  | case2 rest =>
    obtain rfl := Option.some.inj h
    exact .nil
  | case3 => simp at h
  | case4 e rest _ ih =>
    obtain ⟨inner, hi, rfl⟩ := Option.map_eq_some_iff.mp h
    exact .escaped (ih hi)
  | case5 c rest hq hb ih =>
    obtain ⟨inner, hi, rfl⟩ := Option.map_eq_some_iff.mp h
    exact .plain hq hb (ih hi)

/-- A raw text before a quote is scanned up to that quote. -/
theorem quoted?_of_unescapes {raw text : List Char} (h : Unescapes raw text) (left : List Char) :
    quoted? (raw ++ '"' :: left) = some ⟨raw, text, left⟩ := by
  induction h with
  | nil => exact quoted?_quote left
  | @plain c raw text hq hb h ih =>
    rw [List.cons_append, quoted?_plain (by simp [Text.needsEscape, hq, hb]), ih]
    rfl
  | @escaped c raw text h ih =>
    rw [List.cons_append, List.cons_append, quoted?_escaped, ih]
    rfl

theorem quoted?_eq_none_iff {text : List Char} : quoted? text = none ↔ ¬ Closes text := by
  constructor
  · rintro h ⟨raw, meaning, left, rfl, hraw⟩
    rw [quoted?_of_unescapes hraw left] at h
    simp at h
  · intro h
    cases hs : quoted? text with
    | none => rfl
    | some span =>
      exact absurd ⟨span.raw, span.text, span.left, (append_of_quoted? hs).symm,
        unescapes_of_quoted? hs⟩ h

/-! ## Expressions -/

/-- At each character that a cut takes, its condition holds of the text from there on. -/
theorem holds_of_splitWhile {p : List Char → Bool} {text a b left : List Char} {c : Char}
    (h : splitWhile p text = (a ++ c :: b, left)) : p (c :: (b ++ left)) = true := by
  induction text generalizing a with
  | nil => simp [splitWhile] at h
  | cons d text ih =>
    have happ := append_splitWhile p text
    by_cases hd : p (d :: text) = true
    · rw [splitWhile, if_pos hd] at h
      obtain ⟨htaken, rfl⟩ := Prod.mk.inj h
      cases a with
      | nil =>
        -- The first character stands before all of the text.
        obtain ⟨rfl, rfl⟩ := List.cons.inj htaken
        rwa [happ]
      | cons e a => exact ih (Prod.ext (List.cons.inj htaken).2 rfl)
    · rw [splitWhile, if_neg hd] at h
      simp at h

theorem expression?_eq_none_iff {text : List Char} :
    expression? text = none ↔ ¬ [';', ';'] <:+: text := by
  have happ := append_splitWhile (!startsExpressionEnd ·) text
  have hleft := splitWhile_left (!startsExpressionEnd ·) text
  unfold expression?
  dsimp only
  by_cases hnil : (splitWhile (!startsExpressionEnd ·) text).2 = []
  · rw [if_pos hnil]
    refine ⟨fun _ ⟨a, b, hab⟩ => ?_, fun _ => rfl⟩
    -- The cut takes all of the text, so no end starts anywhere in it.
    have hcut : splitWhile (!startsExpressionEnd ·) text = (a ++ ';' :: ';' :: b, []) := by
      refine Prod.ext ?_ hnil
      rw [hnil, List.append_nil] at happ
      simpa using happ.trans hab.symm
    simpa [startsExpressionEnd] using holds_of_splitWhile hcut
  · rw [if_neg hnil]
    refine ⟨fun h => by simp at h, fun h => absurd ?_ h⟩
    -- What the cut leaves starts with an end.
    obtain ⟨rest, hrest⟩ := startsExpressionEnd_eq_true (by simpa using hleft.resolve_left hnil)
    rw [hrest] at happ
    exact ⟨(splitWhile (!startsExpressionEnd ·) text).1, rest, by simp [happ]⟩

/-- The text of an expression ends before the first `;;`: it holds none, and its last character
does not make one with the end. -/
theorem not_semicolons_of_expression? {text taken left : List Char}
    (h : expression? text = some (taken, left)) :
    ¬ [';', ';'] <:+: taken ∧ taken.getLast? ≠ some ';' := by
  constructor
  · rw [← holdsExpressionEnd_iff, holdsExpressionEnd_of_expression? h]
    exact Bool.false_ne_true
  · intro hlast
    obtain ⟨a, rfl⟩ := List.getLast?_eq_some_iff.mp hlast
    -- The last character and the end after it would be an end one character earlier.
    have hat := holds_of_splitWhile (splitWhile_of_expression? h).1
    obtain ⟨rest, rfl⟩ := startsExpressionEnd_eq_true (expression?_eq_some h).2
    simp [startsExpressionEnd] at hat

end LookML.Token

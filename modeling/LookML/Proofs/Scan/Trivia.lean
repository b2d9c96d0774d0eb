import LookML.Proofs.Scan.Spelling
import Mathlib.Data.List.Chain

/-!
# Trivia — runs of trivia are scanned by themselves

A comment goes on to the end of its line, so a text of blanks, line breaks and comments is known
by one bit, whether it stands within a comment.  What a scan emits between two other tokens is
such a text (`IsSpaced`), also where it is cut between two of its tokens, and such a text alone is
scanned as trivia (`IsTriviaText`).
-/

namespace LookML.Token

/-- Whether a text is scanned as white space, line breaks and comments, and nothing else. -/
def IsTriviaText (text : String) : Prop :=
  ∃ trivia last, tokenize text = .ok (⟨.streamStart, 1⟩ :: (trivia ++ [⟨.streamEnd, last⟩])) ∧
    ∀ t ∈ trivia, t.isTrivia = true

/-! ## Texts of trivia -/

/-- Whether a text of trivia goes on in a comment after `c`, from inside a comment or not; `none`
if `c` is no trivia there. -/
def commentAfter? (inComment : Bool) (c : Char) : Option Bool :=
  if c = '\n' then some false
  else if inComment then some true
  else if c = '#' then some true
  else if c = ' ' ∨ c = '\t' ∨ c = '\r' then some false
  else none

/-- Where `text` leaves a text of trivia, as `commentAfter?` has it for a character. -/
def endsInComment? (inComment : Bool) (text : List Char) : Option Bool :=
  text.foldlM commentAfter? inComment

theorem endsInComment?_append (inComment : Bool) (a b : List Char) :
    endsInComment? inComment (a ++ b) =
      (endsInComment? inComment a).bind (endsInComment? · b) :=
  List.foldlM_append

/-- Text between comments: blanks and line breaks. -/
theorem endsInComment?_blank {text : List Char}
    (h : ∀ c ∈ text, c = ' ' ∨ c = '\t' ∨ c = '\r' ∨ c = '\n') :
    endsInComment? false text = some false := by
  induction text with
  | nil => rfl
  | cons c rest ih =>
    have hc : commentAfter? false c = some false := by
      rcases h c (by simp) with rfl | rfl | rfl | rfl <;> rfl
    rw [endsInComment?, List.foldlM_cons, hc]
    exact ih fun d hd => h d (by simp [hd])

/-- Text within a comment: anything but a line feed. -/
theorem endsInComment?_comment {text : List Char} (h : '\n' ∉ text) :
    endsInComment? true text = some true := by
  induction text with
  | nil => rfl
  | cons c rest ih =>
    rw [List.mem_cons, not_or] at h
    have hc : commentAfter? true c = some true := by simp [commentAfter?, Ne.symm h.1]
    rw [endsInComment?, List.foldlM_cons, hc]
    exact ih h.2

/-- A line break ends a comment. -/
theorem endsInComment?_break {text : List Char} (h : startsBreak text = true) :
    endsInComment? true text = endsInComment? false text := by
  unfold startsBreak at h
  split at h
  · rfl
  · rfl
  · simp at h

/-! ## Scanning them -/

/-- What a cut takes are characters at which its condition holds. -/
theorem exists_of_mem_splitWhile {p : List Char → Bool} {text : List Char} {c : Char}
    (h : c ∈ (splitWhile p text).1) : ∃ rest, p (c :: rest) = true := by
  induction text with
  | nil => simp [splitWhile] at h
  | cons d text ih =>
    rw [splitWhile] at h
    by_cases hd : p (d :: text) = true
    · rw [if_pos hd] at h
      rcases List.mem_cons.mp h with rfl | h
      · exact ⟨text, hd⟩
      · exact ih h
    · simp [if_neg hd] at h

theorem eq_of_startsBreak {c : Char} {rest : List Char} (h : startsBreak (c :: rest) = true) :
    c = '\n' ∨ c = '\r' := by
  unfold startsBreak at h
  split at h <;> simp_all

theorem eq_of_startsBlank {c : Char} {rest : List Char} (h : startsBlank (c :: rest) = true) :
    c = ' ' ∨ c = '\t' ∨ c = '\r' := by
  simp only [startsBlank, Bool.and_eq_true, Bool.or_eq_true, beq_iff_eq, or_assoc] at h
  exact h.1

theorem blank_of_mem_breaks {text : List Char} :
    ∀ c ∈ (breaks text).1, c = ' ' ∨ c = '\t' ∨ c = '\r' ∨ c = '\n' := by
  intro c hc
  obtain ⟨rest, hr⟩ := exists_of_mem_splitWhile hc
  rcases eq_of_startsBreak hr with rfl | rfl <;> simp

theorem blank_of_mem_blanks {text : List Char} :
    ∀ c ∈ (blanks text).1, c = ' ' ∨ c = '\t' ∨ c = '\r' ∨ c = '\n' := by
  intro c hc
  obtain ⟨rest, hr⟩ := exists_of_mem_splitWhile hc
  rcases eq_of_startsBlank hr with rfl | rfl | rfl <;> simp

theorem lineFeed_notMem_comment (text : List Char) : '\n' ∉ (comment text).1 := by
  intro h
  obtain ⟨rest, hr⟩ := exists_of_mem_splitWhile h
  simp [startsBreak] at hr

/-- A comment goes on to the end of the text or to a line break. -/
theorem comment_left (text : List Char) :
    (comment text).2 = [] ∨ startsBreak (comment text).2 = true := by
  have hleft := splitWhile_left (!startsBreak ·) text
  rw [← comment] at hleft
  simpa using hleft

/-- One step takes trivia off a text of trivia and leaves a text of trivia. -/
theorem exists_step_of_endsInComment? (line : Nat) {c : Char} {rest : List Char}
    (h : (endsInComment? false (c :: rest)).isSome = true) :
    ∃ t after left, step line c rest = ⟨[t], .ok (after, left)⟩ ∧ t.isTrivia = true ∧
      (endsInComment? false left).isSome = true := by
  -- The tests of a step, in its order: the first three take trivia.
  by_cases hb : startsBreak (c :: rest) = true
  · refine ⟨_, _, _, step_of_break line hb, rfl, ?_⟩
    rw [← append_breaks (c :: rest), endsInComment?_append,
      endsInComment?_blank blank_of_mem_breaks] at h
    exact h
  by_cases hw : startsBlank (c :: rest) = true
  · refine ⟨_, _, _, step_of_blank line hw, rfl, ?_⟩
    rw [← append_blanks (c :: rest), endsInComment?_append,
      endsInComment?_blank blank_of_mem_blanks] at h
    exact h
  by_cases hc : c = '#'
  · subst hc
    refine ⟨_, _, _, step_hash line rest, rfl, ?_⟩
    have hrest : (endsInComment? true rest).isSome = true := h
    rw [← append_comment rest, endsInComment?_append,
      endsInComment?_comment (lineFeed_notMem_comment rest)] at hrest
    rcases comment_left rest with hnil | hbreak
    · rw [hnil]
      rfl
    · rw [← endsInComment?_break hbreak]
      exact hrest
  · -- Nothing else is trivia.
    have hl : c ≠ '\n' := by
      rintro rfl
      exact hb rfl
    have hn : ¬ (c = ' ' ∨ c = '\t' ∨ c = '\r') := by
      intro hs
      rw [Bool.not_eq_true] at hb
      exact hw (by rcases hs with rfl | rfl | rfl <;> simp [startsBlank, hb])
    simp [endsInComment?, commentAfter?, hl, hc, hn] at h

/-- A text of trivia is scanned as trivia. -/
theorem ofChars_of_endsInComment? (line : Nat) (text : List Char)
    (h : (endsInComment? false text).isSome = true) :
    ∃ trivia last, Scan.ofChars line text = ⟨trivia ++ [⟨.streamEnd, last⟩], none⟩ ∧
      ∀ t ∈ trivia, t.isTrivia = true := by
  fun_induction Scan.ofChars line text with
  | case1 line => exact ⟨[], line, rfl, by simp⟩
  | case2 line c rest e he =>
    obtain ⟨t, after, left, hs, -⟩ := exists_step_of_endsInComment? line h
    simp [hs] at he
  | case3 line c rest next left hn ih =>
    obtain ⟨t, after, left', hs, ht, hleft⟩ := exists_step_of_endsInComment? line h
    rw [hs] at hn ⊢
    obtain ⟨rfl, rfl⟩ : after = next ∧ left' = left := by simpa using hn
    obtain ⟨trivia, last, hscan, htrivia⟩ := ih hleft
    refine ⟨t :: trivia, last, by rw [hscan]; rfl, ?_⟩
    simpa [ht] using htrivia

theorem isTriviaText_of_endsInComment? {text : String}
    (h : (endsInComment? false text.toList).isSome = true) : IsTriviaText text := by
  obtain ⟨trivia, last, hscan, htrivia⟩ := ofChars_of_endsInComment? 1 text.toList h
  exact ⟨trivia, last, tokenize_eq_ok_iff.mpr (by simp [hscan]), htrivia⟩

/-! ## Runs of trivia in a scan -/

/-- Whether a token that is trivia carries a text of its kind. -/
def IsLaid (t : Token) : Prop :=
  match t.lexeme with
  | .blanks text => ∀ c ∈ text.toList, c = ' ' ∨ c = '\t' ∨ c = '\r' ∨ c = '\n'
  | .breaks text => startsBreak text.toList = true ∧
      ∀ c ∈ text.toList, c = ' ' ∨ c = '\t' ∨ c = '\r' ∨ c = '\n'
  | .comment text => '\n' ∉ text.toList
  | _ => True

/-- Whether a comment is followed by what may follow it: line breaks or the end of the stream. -/
def EndsComment (t next : Token) : Prop :=
  (∃ text, t.lexeme = .comment text) →
    next.lexeme = .streamEnd ∨ ∃ text, next.lexeme = .breaks text

/-- Tokens as a scan emits them, as far as trivia goes. -/
def IsSpaced (tokens : List Token) : Prop :=
  (∀ t ∈ tokens, t.IsLaid) ∧ tokens.IsChain EndsComment

theorem IsSpaced.of_run {a b : List Token} (h : IsSpaced b) (hi : a <:+: b) : IsSpaced a :=
  ⟨fun t ht => h.1 t (hi.subset ht), List.IsChain.infix h.2 hi⟩

theorem isLaid_of_not_isTrivia {t : Token} (h : t.isTrivia = false) : t.IsLaid := by
  obtain ⟨lexeme, line⟩ := t
  cases lexeme <;> trivial

theorem startsBreak_breaks {text : List Char} (h : startsBreak text = true) :
    startsBreak (breaks text).1 = true := by
  unfold startsBreak at h
  split at h
  · rfl
  · rfl
  · simp at h

theorem not_isTrivia_of_ofChar? {c : Char} {l : Lexeme} (h : Lexeme.ofChar? c = some l) :
    l.isTrivia = false := by
  rcases end_or_mark_of_ofChar? h with rfl | ⟨m, rfl⟩ <;> rfl

/-- What a step emits, and what it leaves after a comment. -/
structure Step.IsSpaced (step : Step) : Prop where
  tokens : Token.IsSpaced step.tokens
  comment : ∀ t ∈ step.tokens.getLast?, (∃ text, t.lexeme = .comment text) →
    ∃ after left, step.next = .ok (after, left) ∧ (left = [] ∨ startsBreak left = true)

/-- Tokens of which none is trivia are spaced, whatever they leave. -/
theorem Step.isSpaced_of_plain {step : Step} (h : ∀ t ∈ step.tokens, t.isTrivia = false) :
    step.IsSpaced where
  tokens := by
    refine ⟨fun t ht => isLaid_of_not_isTrivia (h t ht), ?_⟩
    refine (List.isChain_isInfix step.tokens).imp_of_mem_imp fun t u ht _ _ hcomment => ?_
    obtain ⟨text, he⟩ := hcomment
    exact absurd (h t ht) (by simp [isTrivia, he, Lexeme.isTrivia])
  comment := by
    rintro ⟨lexeme, line⟩ ht ⟨text, rfl⟩
    exact absurd (h _ (List.mem_of_getLast? ht)) (by simp [isTrivia, Lexeme.isTrivia])

theorem Step.isSpaced_one {l : Lexeme} {line after : Nat} {left : List Char}
    (hl : IsLaid ⟨l, line⟩)
    (hc : (∃ text, l = .comment text) → left = [] ∨ startsBreak left = true) :
    (Step.one l line after left).IsSpaced where
  tokens := ⟨by simpa [Step.one] using hl, .singleton _⟩
  comment := by
    intro t ht hcomment
    obtain rfl : (⟨l, line⟩ : Token) = t := by simpa [Step.one] using ht
    exact ⟨after, left, rfl, hc hcomment⟩

theorem isSpaced_step (line : Nat) (c : Char) (rest : List Char) :
    (step line c rest).IsSpaced := by
  have hs := stepCase_step line c rest
  generalize step line c rest = s at hs
  cases hs with
  | breaks hb =>
    refine Step.isSpaced_one ⟨?_, ?_⟩ (by simp)
    · simpa using startsBreak_breaks hb
    · simpa using blank_of_mem_breaks
  | blanks hb hw => exact Step.isSpaced_one (by simpa [IsLaid] using blank_of_mem_blanks) (by simp)
  | comment =>
    exact Step.isSpaced_one (by simpa [IsLaid] using lineFeed_notMem_comment rest) fun _ =>
      comment_left rest
  | quoted =>
    unfold quotedStep
    cases quoted? rest with
    | none => exact Step.isSpaced_of_plain (by simp)
    | some span => exact Step.isSpaced_of_plain (by simp [Step.one, isTrivia, Lexeme.isTrivia])
  | ending => exact Step.isSpaced_of_plain (by simp [Step.one, isTrivia, Lexeme.isTrivia])
  | mark hl he =>
    exact Step.isSpaced_of_plain (by simp [Step.one, isTrivia, not_isTrivia_of_ofChar? hl])
  | @expression _ _ key ho hk =>
    unfold expressionStep
    cases expression? (rest.drop key.length) <;>
      exact Step.isSpaced_of_plain (by simp [isTrivia, Lexeme.isTrivia])
  | word ho hk => exact Step.isSpaced_of_plain (by simp [Step.one, isTrivia, Lexeme.isTrivia])

/-- The tokens of a scan are spaced; where a line break comes first, so does its token. -/
theorem isSpaced_ofChars (line : Nat) (text : List Char) :
    IsSpaced (Scan.ofChars line text).tokens ∧ (startsBreak text = true →
      ∀ t ∈ (Scan.ofChars line text).tokens.head?, ∃ text, t.lexeme = .breaks text) := by
  fun_induction Scan.ofChars line text with
  | case1 line => exact ⟨⟨by simp [IsLaid], .singleton _⟩, by simp [startsBreak]⟩
  | case2 line c rest e he =>
    refine ⟨(isSpaced_step line c rest).tokens, fun hb => ?_⟩
    simp [step_of_break line hb, Step.one] at he
  | case3 line c rest next left hn ih =>
    have hs := isSpaced_step line c rest
    refine ⟨⟨?_, hs.tokens.2.append ih.1.2 fun t ht u hu hcomment => ?_⟩, fun hb => ?_⟩
    · intro t ht
      exact (List.mem_append.mp ht).elim (hs.tokens.1 t) (ih.1.1 t)
    · -- Behind a comment comes the end of the stream or the token of a line break.
      obtain ⟨after, left', hn', hleft⟩ := hs.comment t ht hcomment
      obtain ⟨-, rfl⟩ : next = after ∧ left = left' := by simpa [hn] using hn'
      rcases hleft with rfl | hb
      · rw [Scan.ofChars] at hu
        obtain rfl : (⟨.streamEnd, next⟩ : Token) = u := by simpa using hu
        exact .inl rfl
      · exact .inr (ih.2 hb u hu)
    · rw [step_of_break line hb]
      simp [Scan.after, Step.one]

theorem isSpaced_of_tokenize {source : String} {tokens : List Token}
    (h : tokenize source = .ok tokens) : IsSpaced tokens := by
  obtain ⟨-, rfl⟩ := tokenize_eq_ok_iff.mp h
  obtain ⟨hlaid, hchain⟩ := (isSpaced_ofChars 1 source.toList).1
  refine ⟨fun t ht => ?_, hchain.cons fun u hu hcomment => ?_⟩
  · rcases List.mem_cons.mp ht with rfl | ht
    · trivial
    · exact hlaid t ht
  · simp at hcomment

/-- After a trivia token, which begins with a line break if a comment comes before it, a text goes
on in a comment only if the token is one. -/
theorem endsInComment?_source {t : Token} (hl : t.IsLaid) (ht : t.isTrivia = true)
    {inComment : Bool} (hb : inComment = true → ∃ text, t.lexeme = .breaks text) :
    ∃ after, endsInComment? inComment t.source.toList = some after ∧
      (after = true → ∃ text, t.lexeme = .comment text) := by
  obtain ⟨lexeme, line⟩ := t
  cases lexeme <;> simp only [isTrivia, Lexeme.isTrivia, Bool.false_eq_true] at ht
  case breaks text =>
    refine ⟨false, ?_, by simp⟩
    cases inComment with
    | false => exact endsInComment?_blank hl.2
    | true => exact (endsInComment?_break hl.1).trans (endsInComment?_blank hl.2)
  -- Blanks and comments begin with no line break, so no comment comes before them.
  all_goals obtain rfl : inComment = false := by simpa using hb
  case blanks text => exact ⟨false, endsInComment?_blank hl, by simp⟩
  case comment text =>
    refine ⟨true, ?_, fun _ => ⟨text, rfl⟩⟩
    rw [source, Lexeme.source, String.toList_append]
    exact endsInComment?_comment hl

/-- A run of trivia is a text of trivia, from within a comment if it begins with a line break. -/
theorem endsInComment?_sourceAll {run : List Token} (hs : IsSpaced run)
    (ht : ∀ t ∈ run, t.isTrivia = true) {inComment : Bool}
    (hb : inComment = true → ∀ t ∈ run.head?, ∃ text, t.lexeme = .breaks text) :
    (endsInComment? inComment (sourceAll run).toList).isSome = true := by
  induction run generalizing inComment with
  | nil => rfl
  | cons t run ih =>
    obtain ⟨hnext, hchain⟩ := List.isChain_cons.mp hs.2
    obtain ⟨after, hafter, hcomment⟩ :=
      endsInComment?_source (hs.1 t (by simp)) (ht t (by simp)) fun h => hb h t rfl
    rw [sourceAll_cons, String.toList_append, endsInComment?_append, hafter]
    have hrun : IsSpaced run := ⟨fun u hu => hs.1 u (by simp [hu]), hchain⟩
    refine ih hrun (fun u hu => ht u (by simp [hu])) fun h u hu => ?_
    -- A comment goes on to its line break, which comes next or not at all.
    refine (hnext u hu (hcomment h)).resolve_left fun hend => ?_
    have hu' := ht u (List.mem_cons_of_mem _ (List.mem_of_head? hu))
    simp [isTrivia, hend, Lexeme.isTrivia] at hu'

/-- What a scan emits between two other tokens, or a part of it, is a text of trivia. -/
theorem isTriviaText_of_run {source : String} {tokens run : List Token}
    (h : tokenize source = .ok tokens) (hi : run <:+: tokens)
    (ht : ∀ t ∈ run, t.isTrivia = true) : IsTriviaText (sourceAll run) :=
  isTriviaText_of_endsInComment?
    (endsInComment?_sourceAll ((isSpaced_of_tokenize h).of_run hi) ht (by simp))

end LookML.Token

import LookML.Proofs.Scan.Stability
import LookML.Proofs.Scan.Trivia

/-!
# Lines — a token stands on the line that the tokens before it reach

Line feeds stand in line breaks, quoted literals and expressions only.  A scan counts those of each
token it emits, so the line of a token is the first line and the line feeds of the tokens before
it (`LinesFrom`).
-/

namespace LookML.Token

/-! ## Line feeds -/

@[simp] theorem lineFeeds_nil : lineFeeds [] = 0 := rfl

@[simp] theorem lineFeeds_append (a b : List Char) :
    lineFeeds (a ++ b) = lineFeeds a + lineFeeds b :=
  List.count_append

theorem lineFeeds_eq_zero {text : List Char} (h : '\n' ∉ text) : lineFeeds text = 0 :=
  List.count_eq_zero_of_not_mem h

theorem lineFeeds_cons_of_ne {c : Char} (h : c ≠ '\n') (text : List Char) :
    lineFeeds (c :: text) = lineFeeds text :=
  List.count_cons_of_ne h

theorem lineFeeds_cons_congr {a b : List Char} (h : lineFeeds a = lineFeeds b) (c : Char) :
    lineFeeds (c :: a) = lineFeeds (c :: b) := by
  simp only [lineFeeds, List.count_cons] at h ⊢
  rw [h]

/-- Escaping adds no line. -/
theorem lineFeeds_escapeChars (text : List Char) :
    lineFeeds (Text.escapeChars text) = lineFeeds text := by
  induction text with
  | nil => rfl
  | cons c text ih =>
    rw [Text.escapeChars]
    split
    · rw [lineFeeds_cons_of_ne (by decide), lineFeeds_cons_congr ih]
    · exact lineFeeds_cons_congr ih c

theorem lineFeed_notMem_blanks (text : List Char) : '\n' ∉ (blanks text).1 := by
  intro h
  obtain ⟨rest, hr⟩ := exists_of_mem_splitWhile h
  simp [startsBlank] at hr

theorem lineFeed_notMem_of_isBareWord {w : String} (h : Builder.isBareWord w = true) :
    '\n' ∉ w.toList := by
  intro hmem
  simpa [endsWord] using endsWord_of_isBareWord h '\n' hmem

theorem lineFeed_notMem_key {key : String} (h : key ∈ Keys.expressionKeys) :
    '\n' ∉ key.toList :=
  lineFeed_notMem_of_isBareWord (Keys.bare_of_mem_expressionKeys key h).1

theorem lineFeed_notMem_word {c : Char} {rest : List Char} (ho : OpensWord c rest) :
    '\n' ∉ c :: (wordTail rest).1 := by
  rw [List.mem_cons, not_or]
  constructor
  · rintro rfl
    simpa [startsBreak] using ho.not_break
  · intro h
    simpa [endsWord] using endsWord_of_mem_wordTail rest '\n' h

theorem lineFeeds_of_ofChar? {c : Char} {l : Lexeme} (h : Lexeme.ofChar? c = some l) :
    lineFeeds l.source.toList = 0 := by
  rcases end_or_mark_of_ofChar? h with rfl | ⟨m, rfl⟩
  · rfl
  · cases m <;> rfl

/-! ## Tokens on their lines -/

/-- Whether each token stands on the line that the ones before it reach, from `line` on. -/
def LinesFrom (line : Nat) : List Token → Prop
  | [] => True
  | t :: tokens => t.line = line ∧ LinesFrom (line + lineFeeds t.source.toList) tokens

/-- The line that some tokens reach. -/
def lineAfter (line : Nat) (tokens : List Token) : Nat :=
  line + lineFeeds (sourceAll tokens).toList

theorem linesFrom_append {line : Nat} {a b : List Token} :
    LinesFrom line (a ++ b) ↔ LinesFrom line a ∧ LinesFrom (lineAfter line a) b := by
  induction a generalizing line with
  | nil => simp [LinesFrom, lineAfter]
  | cons t a ih =>
    rw [List.cons_append, LinesFrom, LinesFrom, ih, and_assoc, lineAfter, lineAfter, sourceAll_cons,
      String.toList_append, lineFeeds_append, Nat.add_assoc]

/-- Whether the tokens of a step stand on their lines, and it leaves the line that they reach. -/
def Step.IsOn (line : Nat) (step : Step) : Prop :=
  LinesFrom line step.tokens ∧
    ∀ after left, step.next = .ok (after, left) → after = lineAfter line step.tokens

theorem Step.isOn_one {l : Lexeme} {line after : Nat} {left : List Char}
    (h : after = line + lineFeeds l.source.toList) : (Step.one l line after left).IsOn line := by
  refine ⟨⟨rfl, trivial⟩, fun after' left' hnext => ?_⟩
  simp only [Step.one, Except.ok.injEq, Prod.mk.injEq] at hnext
  rw [← hnext.1, h]
  simp [lineAfter, Step.one, sourceAll, source]

theorem isOn_step (line : Nat) (c : Char) (rest : List Char) : (step line c rest).IsOn line := by
  have hs := stepCase_step line c rest
  generalize step line c rest = s at hs
  -- Each step counts the line feeds of what it takes, or takes what has none.
  cases hs with
  | breaks hb => exact Step.isOn_one (by simp [Lexeme.source])
  | blanks hb hw =>
    exact Step.isOn_one (by simp [Lexeme.source, lineFeeds_eq_zero (lineFeed_notMem_blanks _)])
  | comment =>
    exact Step.isOn_one (by
      simp [Lexeme.source, lineFeeds_cons_of_ne, lineFeeds_eq_zero (lineFeed_notMem_comment rest)])
  | quoted =>
    unfold quotedStep
    cases quoted? rest with
    | none => exact ⟨trivial, by simp⟩
    | some span => exact Step.isOn_one (by simp [Lexeme.source, lineFeeds_cons_of_ne])
  | ending => exact Step.isOn_one rfl
  | mark hl he => exact Step.isOn_one (by rw [lineFeeds_of_ofChar? hl]; rfl)
  | @expression _ _ key ho hk =>
    have hkey := lineFeeds_eq_zero (lineFeed_notMem_key (Keys.mem_of_expressionKeyOf? hk))
    unfold expressionStep
    cases expression? (rest.drop key.length) with
    | none => simp [Step.IsOn, LinesFrom, source, Lexeme.source, hkey]
    | some span =>
      simp [Step.IsOn, LinesFrom, lineAfter, sourceAll, source, Lexeme.source, hkey, Mark.symbol,
        lineFeeds_cons_of_ne]
  | word ho hk =>
    refine Step.isOn_one ?_
    rw [Lexeme.source, String.toList_ofList, lineFeeds_eq_zero (lineFeed_notMem_word ho)]
    rfl

/-- The tokens of a scan stand on their lines. -/
theorem linesFrom_ofChars (line : Nat) (text : List Char) :
    LinesFrom line (Scan.ofChars line text).tokens := by
  fun_induction Scan.ofChars line text with
  | case1 line => exact ⟨rfl, trivial⟩
  | case2 line c rest e he => exact (isOn_step line c rest).1
  | case3 line c rest next left hn ih =>
    obtain ⟨hlines, hafter⟩ := isOn_step line c rest
    obtain rfl := hafter next left hn
    exact linesFrom_append.mpr ⟨hlines, ih⟩

theorem linesFrom_of_tokenize {source : String} {tokens : List Token}
    (h : tokenize source = .ok tokens) : LinesFrom 1 tokens := by
  obtain ⟨-, rfl⟩ := tokenize_eq_ok_iff.mp h
  exact ⟨rfl, linesFrom_ofChars 1 source.toList⟩

end LookML.Token

import LookML.Proofs.Scan.Lines

/-!
# Seams — a text, a line break and another text are scanned one after the other

A line break ends whatever a scan that goes through can be in the middle of: a word, a blank, a
comment.  So the scan of two texts with a line break between them emits the tokens of the first and
then those of the second, further down.  Trivia is left out of the account: at the seam, a carriage
return joins the line break and blanks meet blanks, so it is cut up in another way.
-/

namespace LookML

/-! ## What a scan sees -/

namespace Token

/-- The tokens of a run that are no trivia. -/
def seen (tokens : List Token) : List Token :=
  tokens.filter (!·.isTrivia)

theorem seen_append (a b : List Token) : seen (a ++ b) = seen a ++ seen b :=
  List.filter_append ..

theorem seen_map_shift (n : Nat) (tokens : List Token) :
    seen (tokens.map (shift n)) = (seen tokens).map (shift n) :=
  List.filter_map

theorem map_lexeme_seen (tokens : List Token) : (seen tokens).map lexeme = significant tokens := by
  rw [seen, significant, List.filter_map]
  rfl

end Token

namespace Scan

/-- A scan without its trivia. -/
def seen (scan : Scan) : Scan :=
  { scan with tokens := Token.seen scan.tokens }

theorem seen_after (tokens : List Token) (rest : Scan) :
    (rest.after tokens).seen = rest.seen.after (Token.seen tokens) := by
  rw [seen, after, Token.seen_append]
  rfl

theorem seen_after_trivia {t : Token} (h : t.isTrivia = true) (rest : Scan) :
    (rest.after [t]).seen = rest.seen := by
  have ht : Token.seen [t] = [] := by simp [Token.seen, h]
  rw [seen_after, ht]
  rfl

end Scan

namespace Token

open Scan (ofChars)

/-! ## White space and comments -/

theorem splitWhile_cons {p : List Char → Bool} {c : Char} {text : List Char}
    (h : p (c :: text) = true) :
    splitWhile p (c :: text) = (c :: (splitWhile p text).1, (splitWhile p text).2) := by
  rw [splitWhile, if_pos h]

/-- A scan sees what it sees behind the line breaks that come first. -/
theorem seen_breaks (line : Nat) (text : List Char) : (ofChars line text).seen =
    (ofChars (line + lineFeeds (breaks text).1) (breaks text).2).seen := by
  cases text with
  | nil => rfl
  | cons c rest =>
    by_cases h : startsBreak (c :: rest) = true
    · rw [ofChars_of_step (step_of_break line h), Scan.seen_after_trivia rfl]
    · rw [breaks, splitWhile, if_neg h]
      rfl

theorem seen_blanks (line : Nat) (text : List Char) :
    (ofChars line text).seen = (ofChars line (blanks text).2).seen := by
  cases text with
  | nil => rfl
  | cons c rest =>
    by_cases h : startsBlank (c :: rest) = true
    · rw [ofChars_of_step (step_of_blank line h), Scan.seen_after_trivia rfl]
    · rw [blanks, splitWhile, if_neg h]

/-- A single blank is passed over, whatever it stands before. -/
theorem seen_cons_blank {c : Char} (hc : c = ' ' ∨ c = '\t' ∨ c = '\r' ∨ c = '\n') (line : Nat)
    (text : List Char) :
    (ofChars line (c :: text)).seen = (ofChars (line + lineFeeds [c]) text).seen := by
  by_cases hb : startsBreak (c :: text) = true
  · have hcut : breaks (c :: text) = (c :: (breaks text).1, (breaks text).2) := splitWhile_cons hb
    have hfeeds : lineFeeds (c :: (breaks text).1) =
        lineFeeds [c] + lineFeeds (breaks text).1 := lineFeeds_append [c] _
    rw [seen_breaks line (c :: text), hcut, hfeeds, ← Nat.add_assoc, ← seen_breaks]
  · have hne : c ≠ '\n' := by
      rintro rfl
      exact hb rfl
    have hw : startsBlank (c :: text) = true := by
      rcases hc with rfl | rfl | rfl | rfl <;> simp_all [startsBlank]
    have hcut : blanks (c :: text) = (c :: (blanks text).1, (blanks text).2) := splitWhile_cons hw
    have hfeeds : lineFeeds [c] = 0 := lineFeeds_eq_zero (by simpa using Ne.symm hne)
    rw [seen_blanks line (c :: text), hcut, hfeeds, Nat.add_zero, ← seen_blanks]

theorem seen_append_blank {run : List Char}
    (hrun : ∀ c ∈ run, c = ' ' ∨ c = '\t' ∨ c = '\r' ∨ c = '\n') (line : Nat) (text : List Char) :
    (ofChars line (run ++ text)).seen = (ofChars (line + lineFeeds run) text).seen := by
  induction run generalizing line with
  | nil => rfl
  | cons c run ih =>
    have hfeeds : lineFeeds (c :: run) = lineFeeds [c] + lineFeeds run := lineFeeds_append [c] run
    rw [List.forall_mem_cons] at hrun
    rw [List.cons_append, seen_cons_blank hrun.1, ih hrun.2, hfeeds, Nat.add_assoc]

/-- A comment before a line break leaves the line break, or a carriage return before it that now
belongs to the break. -/
theorem comment_append {run text : List Char} (hrun : '\n' ∉ run) (ht : startsBreak text = true) :
    (comment (run ++ text)).2 = text ∨ (comment (run ++ text)).2 = '\r' :: text := by
  induction run with
  | nil =>
    left
    cases text with
    | nil => rfl
    | cons c text => rw [List.nil_append, comment, splitWhile, if_neg (by simp [ht])]
  | cons c run ih =>
    rw [List.mem_cons, not_or] at hrun
    rw [List.cons_append, comment]
    by_cases hb : startsBreak (c :: (run ++ text)) = true
    · right
      obtain rfl : c = '\r' := (eq_of_startsBreak hb).resolve_left (Ne.symm hrun.1)
      -- The line feed of this break is the first of `text`.
      cases run with
      | nil =>
        rw [splitWhile, if_neg (by simpa using hb)]
        rfl
      | cons d run =>
        have hd : d = '\n' := by
          rw [List.cons_append] at hb
          unfold startsBreak at hb
          split at hb <;> simp_all
        simp [hd] at hrun
    · rw [splitWhile_cons (by simp [hb])]
      exact ih hrun.2

theorem seen_comment {run text : List Char} (hrun : '\n' ∉ run) (ht : startsBreak text = true)
    (line : Nat) : (ofChars line ('#' :: (run ++ text))).seen = (ofChars line text).seen := by
  rw [ofChars_of_step (step_hash line _), Scan.seen_after_trivia rfl]
  rcases comment_append hrun ht with hleft | hleft
  · rw [hleft]
  · rw [hleft, seen_cons_blank (by simp)]
    rfl

/-! ## Steps before a line break -/

/-- No end of an expression begins in a text because a line break follows. -/
theorem startsExpressionEnd_append (text next : List Char) :
    startsExpressionEnd (text ++ '\n' :: next) = startsExpressionEnd text := by
  match text with
  | [] => rfl
  | [c] =>
    unfold startsExpressionEnd
    split <;> simp_all
  | c :: d :: text => exact isLocal_startsExpressionEnd c rfl

theorem startsBreak_append {text : List Char} (h : text = [] ∨ startsBreak text = true)
    (next : List Char) : startsBreak (text ++ '\n' :: next) = true := by
  rcases h with rfl | h
  · rfl
  · unfold startsBreak at h
    split at h
    · rfl
    · rfl
    · simp at h

theorem exits_append {text : List Char} (h : Exits text) (next : List Char) :
    Exits (text ++ '\n' :: next) := by
  cases text with
  | nil => exact .cons rfl next
  | cons c text => exact h

section steps

variable {c : Char} {rest : List Char} (line : Nat) (next : List Char)

theorem stepsTo_quoted_append {span : QuotedSpan} (h : quoted? rest = some span) :
    StepsTo line ('"' :: rest ++ '\n' :: next)
      (.one (.quoted (String.ofList span.raw) (String.ofList span.text)) line
        (line + lineFeeds span.raw) (span.left ++ '\n' :: next)) := by
  have htext : '"' :: rest ++ '\n' :: next =
      (Lexeme.quoted (String.ofList span.raw) (String.ofList span.text)).source.toList ++
        (span.left ++ '\n' :: next) := by
    simp [Lexeme.source, ← append_of_quoted? h]
  rw [htext]
  exact stepsTo_quoted line h

theorem stepsTo_expression_append {key : String} {text : List Char}
    {span : List Char × List Char} (hk : Keys.isExpression key = true)
    (h : expression? text = some span) :
    StepsTo line (key.toList ++ ':' :: text ++ '\n' :: next)
      ⟨[⟨.word key, line⟩, ⟨.mark .colon, line⟩, ⟨.expression (String.ofList span.1), line⟩],
        .ok (line + lineFeeds span.1, span.2 ++ '\n' :: next)⟩ := by
  obtain ⟨happ, hend⟩ := expression?_eq_some h
  -- What is left begins with the end of the expression, also before a line break.
  have hfront : SameFront span.2 (span.2 ++ '\n' :: next) := by
    obtain ⟨more, hmore⟩ := startsExpressionEnd_eq_true hend
    rw [hmore]
    exact ⟨rfl, rfl, rfl, fun _ => rfl⟩
  rw [← happ]
  simpa using stepsTo_expression line hk h hfront

theorem stepsTo_word_append (ho : OpensWord c rest)
    (hk : Keys.expressionKeyOf? ((c :: rest).take Keys.lookahead) = none) :
    StepsTo line (c :: rest ++ '\n' :: next)
      (.one (.word (String.ofList (c :: (wordTail rest).1))) line line
        ((wordTail rest).2 ++ '\n' :: next)) := by
  have hcolon : ((wordTail rest).2 ++ '\n' :: next).head? = some ':' →
      (wordTail rest).2.head? = some ':' := by
    cases (wordTail rest).2 <;> simp
  have htext : c :: rest ++ '\n' :: next =
      (Lexeme.word (String.ofList (c :: (wordTail rest).1))).source.toList ++
        ((wordTail rest).2 ++ '\n' :: next) := by
    rw [Lexeme.source, String.toList_ofList, List.cons_append, List.cons_append,
      ← List.append_assoc, append_wordTail]
  rw [htext]
  exact stepsTo_word line ho hk (exits_append (exits_wordTail rest) next) hcolon

end steps

/-- Before a line break, a scan sees what a step emits, and then what it sees from where the step
leaves it. -/
theorem seen_of_step {line after : Nat} {c : Char} {rest left : List Char} {tokens : List Token}
    (h : step line c rest = ⟨tokens, .ok (after, left)⟩) (next : List Char) :
    (ofChars line (c :: rest ++ '\n' :: next)).seen =
      (ofChars after (left ++ '\n' :: next)).seen.after (seen tokens) := by
  have goesOn (hsteps : StepsTo line (c :: rest ++ '\n' :: next)
      ⟨tokens, .ok (after, left ++ '\n' :: next)⟩) :
      (ofChars line (c :: rest ++ '\n' :: next)).seen =
        (ofChars after (left ++ '\n' :: next)).seen.after (seen tokens) := by
    rw [hsteps.ofChars, Scan.seen_after]
  have hs := stepCase_step line c rest
  rw [h] at hs
  generalize hstep : (⟨tokens, .ok (after, left)⟩ : Step) = s at hs
  -- Trivia may be cut in another way; any other step is the same as before.
  cases hs with
  | breaks hb =>
    obtain ⟨rfl, rfl, rfl⟩ := Step.eq_one hstep
    rw [← Scan.seen_after, Scan.seen_after_trivia rfl, ← append_breaks (c :: rest),
      List.append_assoc, seen_append_blank blank_of_mem_breaks, append_breaks]
  | blanks hb hw =>
    obtain ⟨rfl, rfl, rfl⟩ := Step.eq_one hstep
    have hfeeds := lineFeeds_eq_zero (lineFeed_notMem_blanks (c :: rest))
    rw [← Scan.seen_after, Scan.seen_after_trivia rfl, ← append_blanks (c :: rest),
      List.append_assoc, seen_append_blank blank_of_mem_blanks, append_blanks, hfeeds,
      Nat.add_zero]
  | comment =>
    obtain ⟨rfl, rfl, rfl⟩ := Step.eq_one hstep
    have hleft := startsBreak_append (comment_left rest) next
    have hseen := seen_comment (lineFeed_notMem_comment rest) hleft line
    rw [← List.append_assoc, append_comment] at hseen
    rw [← Scan.seen_after, Scan.seen_after_trivia rfl]
    exact hseen
  | quoted =>
    unfold quotedStep at hstep
    cases hq : quoted? rest with
    | none => simp [hq] at hstep
    | some span =>
      rw [hq] at hstep
      obtain ⟨rfl, rfl, rfl⟩ := Step.eq_one hstep
      exact goesOn (stepsTo_quoted_append line next hq)
  | ending =>
    obtain ⟨rfl, rfl, rfl⟩ := Step.eq_one hstep
    exact goesOn ⟨';', _, rfl, step_ending line _⟩
  | mark hm he =>
    obtain ⟨rfl, rfl, rfl⟩ := Step.eq_one hstep
    have hend := (startsExpressionEnd_append (c :: rest) next).trans he
    exact goesOn ⟨c, _, rfl, step_of_mark line hm hend⟩
  | @expression _ _ key ho hk =>
    obtain ⟨text, htext⟩ := eq_append_of_expressionKeyOf? hk
    rw [drop_of_eq_append htext] at hstep
    unfold expressionStep at hstep
    cases he : expression? text with
    | none => simp [he] at hstep
    | some span =>
      rw [he] at hstep
      simp only [Step.mk.injEq, Except.ok.injEq, Prod.mk.injEq] at hstep
      obtain ⟨rfl, rfl, rfl⟩ := hstep
      have hkey : Keys.isExpression key = true := by
        simpa [Keys.isExpression] using Keys.mem_of_expressionKeyOf? hk
      exact goesOn (htext ▸ stepsTo_expression_append line next hkey he)
  | word ho hk =>
    obtain ⟨rfl, rfl, rfl⟩ := Step.eq_one hstep
    exact goesOn (stepsTo_word_append line next ho hk)

/-! ## Scans -/

/-- What goes through before a line break is scanned, and then what stands behind the line break,
from the line that is reached there. -/
theorem GoesThrough.seen_append {line : Nat} {text : List Char} (h : GoesThrough line text)
    (next : List Char) : ∃ body last, ofChars line text = ⟨body ++ [⟨.streamEnd, last⟩], none⟩ ∧
      (ofChars line (text ++ '\n' :: next)).seen =
        (ofChars (last + 1) next).seen.after (seen body) := by
  -- Each step of the first text is one of the whole; the last is followed by the line break.
  induction h with
  | nil line =>
    refine ⟨[], line, by rw [ofChars]; rfl, ?_⟩
    exact seen_cons_blank (by simp) line next
  | step hs htext hsource more ih =>
    rename_i line after c rest taken left tokens
    obtain ⟨body, last, hbody, hseen⟩ := ih
    refine ⟨tokens ++ body, last, ?_, ?_⟩
    · rw [ofChars_of_step hs, hbody, Scan.after, List.append_assoc]
    · rw [seen_of_step hs, hseen, Token.seen_append, Scan.after, Scan.after, Scan.after,
        List.append_assoc]

end Token

/-- The tokens between the ends of a stream, and its last line. -/
theorem Token.stream_inj {a b : List Token} {line last final : Nat}
    (h : (⟨.streamStart, line⟩ : Token) :: (a ++ [⟨.streamEnd, last⟩]) =
      ⟨.streamStart, line⟩ :: (b ++ [⟨.streamEnd, final⟩])) : a = b ∧ last = final := by
  obtain ⟨rfl, hend⟩ := List.append_inj' (List.cons.inj h).2 rfl
  exact ⟨rfl, by simpa using hend⟩

/-- Two texts with a line break between them have the tokens of the first and then those of the
second, as many lines further down as the first text has, but for trivia. -/
theorem tokenize_append {a b : String} {body next : List Token} {last final : Nat}
    (ha : tokenize a = .ok (⟨.streamStart, 1⟩ :: (body ++ [⟨.streamEnd, last⟩])))
    (hb : tokenize b = .ok (⟨.streamStart, 1⟩ :: (next ++ [⟨.streamEnd, final⟩]))) :
    ∃ whole, tokenize (a ++ "\n" ++ b) =
        .ok (⟨.streamStart, 1⟩ :: (whole ++ [⟨.streamEnd, final + last⟩])) ∧
      Token.seen whole = Token.seen body ++ (Token.seen next).map (Token.shift last) := by
  obtain ⟨haerror, hatokens⟩ := Token.tokenize_eq_ok_iff.mp ha
  obtain ⟨hberror, hbtokens⟩ := Token.tokenize_eq_ok_iff.mp hb
  obtain ⟨body', last', hscan, hseen⟩ :=
    (Token.goesThrough_of_error? haerror).seen_append b.toList
  rw [hscan] at hatokens
  obtain ⟨rfl, rfl⟩ := Token.stream_inj hatokens
  -- What stands behind the line break is scanned as if it stood alone, further down.
  have hshift : Scan.ofChars (last' + 1) b.toList = (Scan.ofChars 1 b.toList).shift last' := by
    rw [Nat.add_comm, Scan.ofChars_add]
  have htext : (a ++ "\n" ++ b).toList = a.toList ++ '\n' :: b.toList := by simp
  rw [hshift, ← htext] at hseen
  have herror : (Scan.ofChars 1 (a ++ "\n" ++ b).toList).error? = none := by
    have := congrArg Scan.error? hseen
    simpa [Scan.seen, Scan.after, Scan.shift, hberror] using this
  obtain ⟨whole, end_, hwhole, -⟩ := Token.spells_ofChars 1 _ herror
  have htokens : Token.seen whole ++ [⟨.streamEnd, end_⟩] =
      Token.seen body' ++ (Token.seen next).map (Token.shift last') ++
        [⟨.streamEnd, final + last'⟩] := by
    have := congrArg Scan.tokens hseen
    have hnext := (List.cons.inj hbtokens).2
    simp only [Scan.seen, Scan.after, Scan.shift, hwhole, hnext, Token.seen_map_shift,
      Token.seen_append, List.map_append] at this
    rw [List.append_assoc]
    exact this
  obtain ⟨hseen', hend⟩ := List.append_inj' htokens rfl
  obtain rfl : end_ = final + last' := by simpa using hend
  exact ⟨whole, Token.tokenize_eq_ok_iff.mpr ⟨herror, by rw [hwhole]⟩, hseen'⟩

end LookML

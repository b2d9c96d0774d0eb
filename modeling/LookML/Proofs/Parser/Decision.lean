import LookML.Proofs.Parser.Acceptance

/-!
# Decision — a source parses exactly if its tokens derive from the grammar

The tokens of a source make one sentence of lexemes.  If the sentence has a derivation, the parse
gives that derivation or, where a braced container in it repeats a key, refuses the key; if it has
none, the parse fails.  No choice that the parser makes early rules out a derivation.
-/

namespace LookML

/-! ## The tokens of a source -/

section spelled

variable {body : List Token} {text : List Char} {line last : Nat}

/-- The end of each expression stands right after it, also in the whole stream. -/
theorem Token.Spells.carries (h : Spells body text) :
    Carries (⟨.streamStart, line⟩ :: (body ++ [⟨.streamEnd, last⟩]))
      (.streamStart :: (significant body ++ [.streamEnd])) where
  significant := significant_stream body line last
  adjacent := by
    intro a b e l hab
    cases a with
    | nil => simp at hab
    | cons t a =>
      obtain ⟨-, hab⟩ := List.cons.inj hab
      rcases List.append_eq_append_iff.mp hab with ⟨x, -, hx⟩ | ⟨x, hbody, hx⟩
      · cases x <;> simp at hx
      · cases x with
        | nil => simp at hx
        | cons t x =>
          obtain ⟨rfl, rfl⟩ := List.cons.inj hx
          obtain ⟨l', c, rfl⟩ := h.expressionEnd_next hbody
          exact ⟨l', _, rfl⟩

end spelled

/-! ## What a parse answers -/

/-- What the parse of tokens with a derivation answers. -/
theorem parseTokens_of_derivation (line last : Nat) {body : List Token} {text : List Char}
    {ps : List Phrase} (hs : Token.Spells body text)
    (hps : Phrase.lexemesAll ps = Token.significant body) :
    (Phrase.AnyRepeat ps →
      ∃ e, (parseTokens (⟨.streamStart, line⟩ :: (body ++ [⟨.streamEnd, last⟩]))).1 =
        .error (.duplicate e)) ∧
    (¬ Phrase.AnyRepeat ps →
      ∃ d, (parseTokens (⟨.streamStart, line⟩ :: (body ++ [⟨.streamEnd, last⟩]))).1 = .ok d) := by
  have hc : Carries (⟨.streamStart, line⟩ :: (body ++ [⟨.streamEnd, last⟩]))
      (.streamStart :: (Token.significant body ++ [.streamEnd])) := hs.carries
  rw [← hps, ← Parser.rest_ofTokens (_ :: _)] at hc
  have ha := Parser.answers_document rfl hc (by
    rw [Parser.rest_ofTokens]
    exact settled_cons rfl)
  unfold parseTokens
  rcases ha with ⟨hr, d, q, hd, -⟩ | ⟨hr, e, q, hd⟩
  · exact ⟨fun h => absurd h hr, fun _ => ⟨d, by rw [hd]⟩⟩
  · exact ⟨fun _ => ⟨e, by rw [hd]⟩, fun h => absurd hr h⟩

/-- A document that is parsed is a derivation of the sentence. -/
theorem lexemesAll_phrases {source : String} {tokens : List Token} {d : Document}
    (h : tokenize source = .ok tokens) (hd : parse source = .ok d) :
    Phrase.lexemesAll d.phrases = Token.sentence tokens := by
  obtain ⟨body, last, ht, hs, -, hsig⟩ := body_of_parse hd
  rw [h] at ht
  rw [Except.ok.inj ht, hs.sentence_eq, hsig]

/-- A derivation that repeats no key below the root is what the parse gives. -/
theorem parse_of_derivation {source : String} {tokens : List Token} {ps : List Phrase}
    (h : tokenize source = .ok tokens) (hps : Phrase.lexemesAll ps = Token.sentence tokens)
    (hr : ¬ Phrase.AnyRepeat ps) : ∃ d, parse source = .ok d ∧ d.phrases = ps := by
  obtain ⟨body, last, rfl, hs⟩ := Token.tokenize_eq_ok h
  obtain ⟨d, hd⟩ := (parseTokens_of_derivation 1 last hs (hps.trans hs.sentence_eq)).2 hr
  have hparse : parse source = .ok d := by rw [parse_eq, h]; exact hd
  exact ⟨d, hparse, Phrase.lexemesAll_inj ((lexemesAll_phrases h hparse).trans hps.symm)⟩

/-- The parser accepts exactly its grammar.  A source with no derivation is an error; a derivation
is the only one, and the parse gives it, or refuses it where a braced container repeats a key. -/
theorem parse_of_tokenize {source : String} {tokens : List Token}
    (h : tokenize source = .ok tokens) :
    ((¬ ∃ ps, Phrase.lexemesAll ps = Token.sentence tokens) → ∃ e, parse source = .error e) ∧
    ∀ ps, Phrase.lexemesAll ps = Token.sentence tokens →
      (∀ qs, Phrase.lexemesAll qs = Token.sentence tokens → qs = ps) ∧
      (Phrase.AnyRepeat ps → ∃ e, parse source = .error (.duplicate e)) ∧
      (¬ Phrase.AnyRepeat ps → ∃ d, parse source = .ok d ∧ d.phrases = ps) := by
  refine ⟨fun hno => ?_, fun ps hps => ⟨fun qs hqs => ?_, fun hr => ?_, fun hr => ?_⟩⟩
  · cases hd : parse source with
    | error e => exact ⟨e, rfl⟩
    | ok d => exact absurd ⟨d.phrases, lexemesAll_phrases h hd⟩ hno
  · exact Phrase.lexemesAll_inj (hqs.trans hps.symm)
  · obtain ⟨body, last, rfl, hs⟩ := Token.tokenize_eq_ok h
    rw [parse_eq, h]
    exact (parseTokens_of_derivation 1 last hs (hps.trans hs.sentence_eq)).1 hr
  · exact parse_of_derivation h hps hr

/-- A block with an expression, a list with a comma at either end, and a key that stands twice. -/
def Samples.twice : String :=
  "view: v \x7b sql: a ;; f: [, x: y,] f: [] \x7d"

theorem parse_of_tokenize_twice : ∃ tokens, tokenize Samples.twice = .ok tokens ∧
    ∃ e, parse Samples.twice = .error (.duplicate e) := by
  have hs : (tokenize Samples.twice).toOption.map Token.sentence = some (Phrase.lexemesAll
      [.block "view" (some "v") [.pair "sql" (.expression " a "),
        .listing "f" true (some (.pairs ("x", .word "y") [], true)),
        .listing "f" false none]]) := by
    decide +kernel
  cases ht : tokenize Samples.twice with
  | error e => simp [ht, Except.toOption] at hs
  | ok tokens =>
    rw [ht] at hs
    have hps := ((parse_of_tokenize ht).2 _ (Option.some.inj hs).symm).2.1
    refine ⟨tokens, rfl, hps (.inl (.inl ?_))⟩
    decide

end LookML

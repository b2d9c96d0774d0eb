import LookML.Proofs.Scan.Lines

/-!
# Fronts — a source that begins with a piece of its own

Where a piece at the front of a source is scanned by itself, whatever stands behind it, the rest of
the source is scanned as if it stood alone, so many lines further down.  An escaped text between
quotes is such a piece.
-/

namespace LookML

open Token (lineFeeds)

/-- Whether `source` has the tokens of `next` with the tokens `front` before them, and those of
`next` are `n` lines further down.  Where `next` has no tokens, `source` fails as `next` does, `n`
lines further down. -/
def TokenizesBehind (front : List Token) (n : Nat) (next source : String) : Prop :=
  (∃ tokens, tokenize next = .ok (⟨.streamStart, 1⟩ :: tokens) ∧
    tokenize source = .ok (⟨.streamStart, 1⟩ :: (front ++ tokens.map (Token.shift n)))) ∨
  ∃ e, tokenize next = .error e ∧ tokenize source = .error (e.shift n)

/-- A source whose scan comes to `next` behind some tokens is scanned as `next` from there on. -/
theorem tokenizesBehind_of_ofChars {front : List Token} {n : Nat} {next source : String}
    (h : Scan.ofChars 1 source.toList = (Scan.ofChars (1 + n) next.toList).after front) :
    TokenizesBehind front n next source := by
  rw [Scan.ofChars_add] at h
  cases herror : (Scan.ofChars 1 next.toList).error? with
  | none =>
    refine .inl ⟨_, Token.tokenize_eq_ok_iff.mpr ⟨herror, rfl⟩, ?_⟩
    rw [Token.tokenize_eq_ok_iff, h]
    exact ⟨by simp [Scan.after, Scan.shift, herror], rfl⟩
  | some e =>
    refine .inr ⟨e, Token.tokenize_eq_error_iff.mpr herror, ?_⟩
    rw [Token.tokenize_eq_error_iff, h]
    simp [Scan.after, Scan.shift, herror]

/-- An escaped text between quotes is one literal, which means the text, before any source. -/
theorem tokenizesBehind_quoted (text next : String) :
    TokenizesBehind [⟨.quoted (Text.escape text) text, 1⟩] (lineFeeds text.toList) next
      ("\"" ++ Text.escape text ++ "\"" ++ next) := by
  apply tokenizesBehind_of_ofChars
  have hchars : ("\"" ++ Text.escape text ++ "\"" ++ next).toList =
      '"' :: ((Text.escape text).toList ++ '"' :: next.toList) := by
    simp
  have hfeeds : lineFeeds (Text.escape text).toList = lineFeeds text.toList := by
    rw [Text.escape, String.toList_ofList, Token.lineFeeds_escapeChars]
  rw [hchars, Token.ofChars_quoted, hfeeds]

/-- A text that ends in a backslash, before a quote that nothing closes. -/
example : tokenize ("\"" ++ Text.escape "a\n\\" ++ "\"" ++ "\n\"") =
    .error (.unterminatedString 3) := by
  decide +kernel

end LookML

import LookML.Proofs.Parser.Discipline
import LookML.Proofs.Parser.Lossless

/-!
# Slices — a rule writes back the tokens that it has moved over

Where a rule matches, its value is written as the source of the tokens from the cursor before it up
to the cursor after it.  This holds at every place of every sequence of tokens, also of those that
no scan makes, since a rule keeps the source of each token it reads (`Reads`) and comes back to its
start where an attempt inside it does not match.
-/

namespace LookML.Parser

open Production

variable {p q : Parser}

/-! ## Between two places -/

/-- What is taken off the rest of a parser is what lies between the places before and after. -/
theorem eq_extract {taken : List Token} (ht : q.tokens = p.tokens)
    (h : p.rest = taken ++ q.rest) : taken = (p.tokens.extract p.index q.index).toList := by
  have hslice : (p.tokens.extract p.index q.index).toList = p.rest.take (q.index - p.index) := by
    rw [Array.toList_extract, List.extract_eq_take_drop, rest]
  rw [hslice]
  rcases Nat.le_total p.index q.index with hle | hle
  · -- The rest at `q` is what is left of the rest at `p`.
    have hrest : q.rest = p.rest.drop (q.index - p.index) := by
      rw [rest, rest, ht, List.drop_drop, Nat.add_sub_cancel' hle]
    rw [hrest] at h
    exact List.append_cancel_right (h.symm.trans (List.take_append_drop _ _).symm)
  · -- A cursor that is farther back leaves more, unless both are past the last token.
    have hlen := congrArg List.length h
    simp only [rest, ht, List.length_append, List.length_drop, Array.length_toList] at hlen
    obtain rfl : taken = [] := List.eq_nil_of_length_eq_zero (by omega)
    rw [Nat.sub_eq_zero_of_le hle, List.take_zero]

/-! ## Documents anywhere -/

/-- The start of the stream has no source, so it does not matter whether it is there. -/
theorem reads_of_optional_streamStart {u? : Option Unit}
    (h : Production.optional streamStart p = .matched u? q) :
    ∃ lexemes, Reads p.rest "" lexemes q.rest := by
  obtain ⟨u, hs, -⟩ | ⟨hu, -⟩ := optional_eq_matched.mp h
  · obtain ⟨⟨lexeme, line⟩, hr, ha⟩ := take_eq_matched hs
    obtain rfl : lexeme = .streamStart := by simpa using ha
    rw [hr]
    exact ⟨_, .single (t := ⟨.streamStart, line⟩) rfl _⟩
  · rw [take_eq_unmatched hu]
    exact ⟨[], .refl _⟩

/-- A document is read from wherever the parser stands, to where it is left. -/
theorem reads_of_document_from {d : Document} (h : document p = .matched d q) :
    ∃ lexemes, Reads p.rest d.print lexemes q.rest := by
  unfold document at h
  simp only [bind_eq_matched, pure_apply, Reply.matched.injEq] at h
  obtain ⟨n, p₁, h₁, u, p₂, h₂, s?, p₃, h₃, before, p₄, h₄, c, p₅, h₅, after, p₆, h₆, u', p₇, h₇,
    u'', p₈, h₈, rfl, rfl⟩ := h
  -- Looking, the log and the check at the end read nothing.
  obtain ⟨-, rfl⟩ := Reply.matched.inj h₁
  obtain ⟨-, rfl⟩ := Reply.matched.inj h₂
  obtain ⟨-, rfl⟩ := Reply.matched.inj h₈
  obtain ⟨-, rfl⟩ := nothingLeft_eq_matched h₇
  obtain ⟨lexemes, hstart⟩ := reads_of_optional_streamStart h₃
  have hread := ((hstart.trans (reads_of_trivia h₄)).trans (readsContainers_container h₅)).trans
    (reads_of_trivia h₆)
  rw [String.empty_append] at hread
  exact ⟨_, hread⟩

/-! ## Rules -/

namespace Rule

/-- How the value of a rule is written. -/
def written : (rule : Rule) → rule.Result → String
  | comma, leaf => leaf.print
  | value, leaf => leaf.print
  | key, (k, c) => k.print ++ c.print
  | pair, p => p.print
  | listing, l => l.print
  | listValues, v => Entries.join v.separators v.entries.printEach ++ Leaf.print? v.trailing?
  | block, b => b.print
  | container, c => c.print
  | document, d => d.print

/-- A rule reads what its value is written as. -/
theorem reads_of_production {rule : Rule} {a : rule.Result}
    (h : rule.production p = .matched a q) :
    ∃ lexemes, Reads p.rest (rule.written a) lexemes q.rest := by
  cases rule with
  | comma => exact ⟨_, reads_of_comma h⟩
  | key => exact ⟨_, reads_of_key h⟩
  | value => exact ⟨_, reads_of_value h⟩
  | pair => exact ⟨_, reads_of_pair h⟩
  | listing => exact ⟨_, reads_of_listing h⟩
  | listValues => exact ⟨_, reads_of_listValues h⟩
  | block => exact ⟨_, reads_of_blockOf readsContainers_container h⟩
  | container => exact ⟨_, readsContainers_container h⟩
  | document => exact reads_of_document_from h

/-- Wherever a rule matches, and over whatever tokens, its value is written as the source of the
tokens from the cursor before it up to the cursor after it. -/
theorem written_eq_sourceAll (rule : Rule) {a : rule.Result}
    (h : rule.production p = .matched a q) :
    q.tokens = p.tokens ∧
      rule.written a = Token.sourceAll (p.tokens.extract p.index q.index).toList := by
  have ht := (rule.scripted.kept h).1
  obtain ⟨lexemes, taken, hrest, hsource, -⟩ := reads_of_production h
  exact ⟨ht, by rw [← hsource, eq_extract ht hrest]⟩

/-- Tokens that no scan makes: blanks that are a line break, trivia of one kind in a row, a text of
white space that is none, a start within the stream and an expression behind a word that is no key
for it. -/
def Samples.scattered : Parser where
  tokens := #[⟨.streamStart, 1⟩, ⟨.blanks "\n", 1⟩, ⟨.blanks " ", 1⟩, ⟨.word "v", 1⟩,
    ⟨.comment "c", 1⟩, ⟨.mark .colon, 1⟩, ⟨.mark .braceOpen, 1⟩, ⟨.word "a", 1⟩, ⟨.mark .colon, 9⟩,
    ⟨.breaks "x", 2⟩, ⟨.expression " e ", 1⟩, ⟨.expressionEnd, 1⟩, ⟨.mark .braceClose, 1⟩,
    ⟨.streamStart, 3⟩]
  index := 1

/-- A block from the second token up to the last one. -/
theorem written_eq_sourceAll_scattered :
    ∃ b q, block.production Samples.scattered = .matched b q ∧ q.index = 13 ∧
      block.written b = "\n v#c:\x7ba:x e ;;\x7d" ∧
      block.written b = Token.sourceAll (Samples.scattered.tokens.extract 1 q.index).toList := by
  have hok : (match Parser.block Samples.scattered with
      | .matched b q => some (b.print, q.index)
      | _ => none) = some ("\n v#c:\x7ba:x e ;;\x7d", 13) := by decide +kernel
  cases hb : Parser.block Samples.scattered with
  | matched b q =>
    rw [hb] at hok
    obtain ⟨hprint, hindex⟩ := Prod.mk.inj (Option.some.inj hok)
    exact ⟨b, q, hb, hindex, hprint, (written_eq_sourceAll block hb).2⟩
  | unmatched q => simp [hb] at hok
  | failed e q => simp [hb] at hok

end Rule

end LookML.Parser

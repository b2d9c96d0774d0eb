import LookML.Proofs.Scan.Classes
import Mathlib.Data.List.Find

/-!
# Expressions — a scan reads one exactly behind an expression key and its colon

Whether an expression comes next is decided on a few characters, before the word is scanned.  They
are enough: a key with its colon is no longer, and no text starts with two of them, for a colon ends
a word.  So the decision is the same on the tokens (`EntersAtKeys`), in which an expression is what
stands behind the two tokens of an expression key and a colon.
-/

namespace LookML

/-! ## The characters that decide -/

namespace Keys

/-- The characters that are looked at are enough for each key with its colon. -/
theorem isPrefixOf_take_lookahead {key : String} (hk : key ∈ expressionKeys) (text : List Char) :
    (key.toList ++ [':']).isPrefixOf (text.take lookahead) =
      (key.toList ++ [':']).isPrefixOf text := by
  have hlen : (key.toList ++ [':']).length ≤ lookahead := by
    rw [List.length_append, String.length_toList]
    exact (bare_of_mem_expressionKeys key hk).2
  rw [Bool.eq_iff_iff, List.isPrefixOf_iff_prefix, List.isPrefixOf_iff_prefix,
    List.prefix_take_iff]
  exact and_iff_left hlen

theorem expressionKeyOf?_take_lookahead (text : List Char) :
    expressionKeyOf? (text.take lookahead) = expressionKeyOf? text :=
  List.find?_congr fun _ hk => isPrefixOf_take_lookahead hk text

/-- No text starts with two expression keys, each with its colon. -/
theorem eq_of_isPrefixOf {key other : String} {text : List Char} (hk : key ∈ expressionKeys)
    (ho : other ∈ expressionKeys) (h : (key.toList ++ [':']).isPrefixOf text = true)
    (h' : (other.toList ++ [':']).isPrefixOf text = true) : key = other := by
  obtain ⟨left, rfl⟩ := List.isPrefixOf_iff_prefix.mp h
  obtain ⟨left', hleft⟩ := List.isPrefixOf_iff_prefix.mp h'
  have hends {k : String} (hk : k ∈ expressionKeys) :=
    Token.endsWord_of_isBareWord (bare_of_mem_expressionKeys k hk).1
  rw [List.append_assoc, List.append_assoc] at hleft
  exact String.toList_inj.mp
    (Token.eq_key_of_append (hends hk) (hends ho) (.cons rfl left) hleft.symm).1

/-- The order of the table does not matter. -/
theorem find?_of_perm {table : List String} (h : table.Perm expressionKeys) (text : List Char) :
    table.find? (fun key => (key.toList ++ [':']).isPrefixOf text) = expressionKeyOf? text :=
  List.find?_eq_find?_of_perm h fun _ hk _ ho =>
    eq_of_isPrefixOf (h.mem_iff.mp hk.1) (h.mem_iff.mp ho.1) hk.2 ho.2

end Keys

/-! ## Tokens -/

namespace Token

def IsExpression (t : Token) : Prop :=
  ∃ text, t.lexeme = .expression text

def IsExpressionKey (t : Token) : Prop :=
  ∃ key ∈ Keys.expressionKeys, t.lexeme = .word key

def IsColon (t : Token) : Prop :=
  t.lexeme = .mark .colon

/-- Whether expressions stand exactly behind the expression keys with their colons. -/
def EntersAtKeys (tokens : List Token) : Prop :=
  ∀ i, (∃ t ∈ tokens[i + 2]?, t.IsExpression) ↔
    (∃ t ∈ tokens[i]?, t.IsExpressionKey) ∧ ∃ t ∈ tokens[i + 1]?, t.IsColon

theorem entersAtKeys_cons {t : Token} {tokens : List Token} :
    EntersAtKeys (t :: tokens) ↔ ((∃ u ∈ tokens[1]?, u.IsExpression) ↔
      t.IsExpressionKey ∧ ∃ u ∈ tokens[0]?, u.IsColon) ∧ EntersAtKeys tokens := by
  constructor
  · intro h
    exact ⟨by simpa using h 0, fun i => by simpa using h (i + 1)⟩
  · rintro ⟨h, htokens⟩ i
    cases i with
    | zero => simpa using h
    | succ i => simpa using htokens i

/-- What a step that goes through emits: no expression, and no expression key before a colon, or a
key with its colon and its expression. -/
inductive StepEnters (tokens : List Token) (left : List Char) : Prop where
  | one (t : Token) (ht : tokens = [t]) (he : ¬ t.IsExpression)
      (hk : t.IsExpressionKey → left.head? ≠ some ':')
  | key (key e : String) (line : Nat) (hk : key ∈ Keys.expressionKeys)
      (ht : tokens = [⟨.word key, line⟩, ⟨.mark .colon, line⟩, ⟨.expression e, line⟩])

theorem stepEnters_step {line after : Nat} {c : Char} {rest left : List Char}
    (h : (step line c rest).next = .ok (after, left)) :
    StepEnters (step line c rest).tokens left := by
  have hs := stepCase_step line c rest
  generalize step line c rest = s at h hs
  cases hs with
  | breaks | blanks | comment | ending =>
    exact .one _ rfl (by simp [IsExpression]) (by simp [IsExpressionKey])
  | quoted =>
    obtain ⟨span, -, -, ht⟩ := quotedStep_of_next h
    exact .one _ ht (by simp [IsExpression]) (by simp [IsExpressionKey])
  | mark hl he =>
    rcases end_or_mark_of_ofChar? hl with rfl | ⟨m, rfl⟩ <;>
      exact .one _ rfl (by simp [IsExpression]) (by simp [IsExpressionKey])
  | @expression _ _ key ho hk =>
    obtain ⟨taken, -, ht⟩ := expressionStep_of_next h
    exact .key key _ line (Keys.mem_of_expressionKeyOf? hk) ht
  | word ho hk =>
    obtain rfl := Step.one_next h
    refine .one _ rfl (by simp [IsExpression]) ?_
    rintro ⟨key, hmem, hkey⟩ hcolon
    obtain ⟨more, hmore⟩ := List.head?_eq_some_iff.mp hcolon
    -- The word and the colon after it would have been found as an expression key.
    have hfound := expressionKeyOf?_key (by simpa [Keys.isExpression] using hmem) more
    rw [← Lexeme.word.inj hkey, String.toList_ofList, ← hmore, List.cons_append, append_wordTail,
      hk] at hfound
    simp at hfound

/-- The tokens of a scan that goes through have expressions where they should be, and so none among
the first two. -/
theorem entersAtKeys_ofChars {line : Nat} {text : List Char}
    (h : (Scan.ofChars line text).error? = none) :
    EntersAtKeys (Scan.ofChars line text).tokens ∧
      ¬ ∃ t ∈ (Scan.ofChars line text).tokens[1]?, t.IsExpression := by
  fun_induction Scan.ofChars line text with
  | case1 line => simp [EntersAtKeys]
  | case2 line c rest e he => simp at h
  | case3 line c rest next left hn ih =>
    obtain ⟨hmore, hsecond⟩ := ih h
    have hfirst := opens_of_head?_ofChars next left
    rw [List.head?_eq_getElem?] at hfirst
    have hnone : ¬ ∃ t ∈ (Scan.ofChars next left).tokens[0]?, t.IsExpression := by
      rintro ⟨t, ht, e, he⟩
      exact (hfirst t ht).not_expression e he
    rw [Scan.after]
    cases stepEnters_step hn with
    | one t ht he hk =>
      rw [ht, List.singleton_append, entersAtKeys_cons, iff_false_left hsecond]
      refine ⟨⟨?_, hmore⟩, by simpa using hnone⟩
      rintro ⟨hkey, u, hu, hcolon⟩
      exact hk hkey ((hfirst u hu).colon hcolon)
    | key key e line hk ht =>
      rw [ht]
      simp only [List.cons_append, List.nil_append, entersAtKeys_cons]
      -- At the key, at the colon and at the expression.
      refine ⟨⟨?_, ?_, ?_, hmore⟩, ?_⟩
      · simp [IsExpression, IsExpressionKey, IsColon, hk]
      · rw [List.getElem?_cons_succ, iff_false_left hnone]
        simp [IsExpressionKey]
      · rw [iff_false_left hsecond]
        simp [IsExpressionKey]
      · simp [IsExpression]

/-- Expressions stand exactly behind the expression keys with their colons. -/
theorem entersAtKeys_of_tokenize {source : String} {tokens : List Token}
    (h : tokenize source = .ok tokens) : EntersAtKeys tokens := by
  obtain ⟨herror, rfl⟩ := tokenize_eq_ok_iff.mp h
  obtain ⟨htokens, hsecond⟩ := entersAtKeys_ofChars herror
  rw [entersAtKeys_cons, iff_false_left hsecond]
  exact ⟨by simp [IsExpressionKey], htokens⟩

/-- No trivia that a step emits is empty, for it takes something off the text. -/
theorem source_ne_of_step {line after : Nat} {c : Char} {rest left : List Char}
    (h : (step line c rest).next = .ok (after, left)) :
    ∀ t ∈ (step line c rest).tokens, t.isTrivia = true → t.source ≠ "" := by
  cases stepSpells_step h with
  | plain t ht hp htext =>
    intro u hu _ hempty
    obtain rfl : u = t := by simpa [ht] using hu
    have hlen := congrArg List.length htext
    have hlt := length_lt_of_step h
    simp only [hempty, String.toList_empty, List.nil_append, List.length_cons] at hlen
    omega
  | lone l ht htext he => simp [ht, isTrivia, Lexeme.isTrivia]
  | expression key e l ht htext he => simp [ht, isTrivia, Lexeme.isTrivia]

theorem source_ne_of_ofChars {line : Nat} {text : List Char}
    (h : (Scan.ofChars line text).error? = none) :
    ∀ t ∈ (Scan.ofChars line text).tokens, t.isTrivia = true → t.source ≠ "" := by
  fun_induction Scan.ofChars line text with
  | case1 line => simp [isTrivia, Lexeme.isTrivia]
  | case2 line c rest e he => simp at h
  | case3 line c rest next left hn ih =>
    exact List.forall_mem_append.mpr ⟨source_ne_of_step hn, ih h⟩

theorem source_ne_of_tokenize {source : String} {tokens : List Token}
    (h : tokenize source = .ok tokens) : ∀ t ∈ tokens, t.isTrivia = true → t.source ≠ "" := by
  obtain ⟨herror, rfl⟩ := tokenize_eq_ok_iff.mp h
  exact List.forall_mem_cons.mpr
    ⟨by simp [isTrivia, Lexeme.isTrivia], source_ne_of_ofChars herror⟩

end Token

end LookML

import LookML.Proofs.Build.Building
import LookML.Proofs.Build.ReadBack
import LookML.Proofs.Scan.Fronts

/-!
# Values — a built value is scanned as one

The builder writes a text as a word, in quotes or as an expression.  What is no expression is
scanned as one token that means the text, wherever a value may end; an expression behind its key is
scanned as the key, the colon, the text between two blanks and the end.
-/

namespace LookML

open Token (lineFeeds)

/-- A bare word is one token before a source that ends it, unless a colon makes it a key. -/
theorem tokenizesBehind_word {w next : String} (hw : Builder.isBareWord w = true)
    (hn : Ends next.toList) :
    TokenizesBehind [⟨.word w, 1⟩] (lineFeeds w.toList) next (w ++ next) := by
  apply tokenizesBehind_of_ofChars
  have hfeeds : lineFeeds w.toList = 0 :=
    Token.lineFeeds_eq_zero (Token.lineFeed_notMem_of_isBareWord hw)
  rw [String.toList_append, Token.ofChars_word 1 hw hn.exits fun _ => hn.head?, hfeeds]

/-- A text that is written in quotes is one token before any source. -/
theorem tokenizesBehind_literal (text next : String) :
    TokenizesBehind [⟨.quoted (Text.escape text) text, 1⟩] (lineFeeds text.toList) next
      ((Leaf.quoted text).written ++ next) := by
  apply tokenizesBehind_of_ofChars
  have hchars : ((Leaf.quoted text).written ++ next).toList =
      '"' :: ((Text.escape text).toList ++ '"' :: next.toList) := by
    simp [Leaf.written, Leaf.quoted]
  have hfeeds : lineFeeds (Text.escape text).toList = lineFeeds text.toList := by
    rw [Text.escape, String.toList_ofList, Token.lineFeeds_escapeChars]
  rw [hchars, Token.ofChars_quoted, hfeeds]

/-- An expression is scanned with a blank on either side, behind its key and before any source. -/
theorem tokenizesBehind_expression {key text : String} (hk : Keys.isExpression key = true)
    (h : Builder.holdsExpressionEnd text.toList = false) (next : String) :
    let body := " " ++ text ++ " "
    TokenizesBehind
      [⟨.word key, 1⟩, ⟨.mark .colon, 1⟩, ⟨.expression body, 1⟩,
        ⟨.expressionEnd, 1 + lineFeeds body.toList⟩]
      (lineFeeds body.toList) next (key ++ ": " ++ (Leaf.expression text).written ++ next) := by
  intro body
  apply tokenizesBehind_of_ofChars
  have hbody : body.toList = ' ' :: text.toList ++ [' '] := by
    simp [body]
  have hchars : (key ++ ": " ++ (Leaf.expression text).written ++ next).toList =
      key.toList ++ ':' :: (body.toList ++ ';' :: ';' :: next.toList) := by
    simp [hbody, Leaf.written, Leaf.expression]
  have hend : Builder.holdsExpressionEnd (body.toList ++ [';']) = false := by
    rw [hbody]
    exact Pair.holdsExpressionEnd_margins h
  rw [hchars, Token.ofChars_expression 1 next.toList hk hend, String.ofList_toList]

/-- A built value that is no expression is one token that means the text, a quoted literal or a
word as the value is, before any source where a value may end.  One that is an expression, of a text
without an end in it, is the key, the colon, an expression with the trimmed text and the end, before
any source. -/
theorem tokenizesBehind_valueLeaf (key text : String) (quotes : Bool) :
    let leaf := Builder.valueLeaf key text quotes
    let lexeme : Lexeme := if leaf.isQuoted then .quoted (Text.escape text) text else .word text
    let body := " " ++ Text.trim text ++ " "
    (leaf.isExpression = false → lexeme.value? = some text ∧
      ∀ next : String, Ends next.toList →
        TokenizesBehind [⟨lexeme, 1⟩] (lineFeeds text.toList) next (leaf.written ++ next)) ∧
    (leaf.isExpression = true → ¬ [';', ';'] <:+: text.toList →
      Text.trim body = Text.trim text ∧
      ∀ next : String, TokenizesBehind
        [⟨.word key, 1⟩, ⟨.mark .colon, 1⟩, ⟨.expression body, 1⟩,
          ⟨.expressionEnd, 1 + lineFeeds body.toList⟩]
        (lineFeeds body.toList) next (key ++ ": " ++ leaf.written ++ next)) := by
  intro leaf lexeme body
  obtain hleaf | ⟨hk, hleaf⟩ | ⟨hk, hb, hleaf⟩ :
      leaf = .quoted text ∨ _ ∧ leaf = .expression _ ∨ _ ∧ _ ∧ leaf = .word text :=
    Builder.valueLeaf_cases key text quotes
  · have hlexeme : lexeme = .quoted (Text.escape text) text := if_pos (by rw [hleaf]; rfl)
    rw [hlexeme, hleaf]
    refine ⟨fun _ => ⟨rfl, fun next _ => ?_⟩, fun h => absurd h Bool.false_ne_true⟩
    exact tokenizesBehind_literal text next
  · rw [hleaf]
    refine ⟨fun h => absurd h.symm Bool.false_ne_true,
      fun _ hend => ⟨Text.trim_margins (Text.trim_trim text), fun next => ?_⟩⟩
    have htext : Builder.holdsExpressionEnd text.toList = false :=
      Bool.eq_false_iff.mpr (mt Token.holdsExpressionEnd_iff.mp hend)
    exact tokenizesBehind_expression hk (Builder.holdsExpressionEnd_trim htext) next
  · have hlexeme : lexeme = .word text := if_neg (by rw [hleaf]; simp [Leaf.isQuoted, Leaf.word])
    rw [hlexeme, hleaf]
    refine ⟨fun _ => ⟨rfl, fun next hn => ?_⟩, fun h => absurd h Bool.false_ne_true⟩
    exact tokenizesBehind_word hb hn

theorem tokenizesBehind_valueLeaf_semicolons :
    ((Builder.valueLeaf "type" "a;b" false).isExpression = false ∧ Ends ",\"".toList ∧
      TokenizesBehind [⟨.word "a;b", 1⟩] 0 ",\"" "a;b,\"") ∧
    ((Builder.valueLeaf "sql" "\n a;\n;" false).isExpression = true ∧
      ¬ [';', ';'] <:+: "\n a;\n;".toList ∧
      TokenizesBehind
        [⟨.word "sql", 1⟩, ⟨.mark .colon, 1⟩, ⟨.expression " a;\n; ", 1⟩, ⟨.expressionEnd, 2⟩] 1
        ";\n" "sql: a;\n; ;;;\n") := by
  have hword : (Builder.valueLeaf "type" "a;b" false).isExpression = false := by decide
  have hends : Ends ",\"".toList := Ends.cons rfl (by decide) _
  have hexpression : (Builder.valueLeaf "sql" "\n a;\n;" false).isExpression = true := by
    decide +kernel
  have hend : ¬ [';', ';'] <:+: "\n a;\n;".toList := by decide
  exact ⟨⟨hword, hends, ((tokenizesBehind_valueLeaf "type" "a;b" false).1 hword).2 _ hends⟩,
    hexpression, hend,
    ((tokenizesBehind_valueLeaf "sql" "\n a;\n;" false).2 hexpression hend).2 _⟩

end LookML

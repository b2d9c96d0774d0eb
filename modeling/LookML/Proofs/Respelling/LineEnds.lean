import LookML.Load
import LookML.Proofs.Build.Faithful
import LookML.Proofs.Parser.Decision
import LookML.Proofs.Respelling.Parser
import LookML.Proofs.Respelling.Projection
import LookML.Proofs.Scan.Lines

/-!
# Windows line ends — a source reads the same whatever ends its lines

A source without carriage returns reads the same with Windows line ends: it has the same tokens,
document and data, with the line ends replaced in all their texts, or an error of the same kind on
the same line.  Keys and names stay, because no word holds a line end.
-/

namespace LookML

open Respelling (crlf)

/-! ## Words -/

namespace Token

/-- No word that a step emits holds a line feed. -/
theorem lineFeed_notMem_of_step (line : Nat) (c : Char) (rest : List Char) :
    ∀ t ∈ (step line c rest).tokens, ∀ w, t.lexeme = .word w → '\n' ∉ w.toList := by
  have hother {l : Lexeme} (hl : ∀ w, l ≠ .word w) {n m : Nat} {left : List Char} :
      ∀ t ∈ (Step.one l n m left).tokens, ∀ w, t.lexeme = .word w → '\n' ∉ w.toList := by
    intro t ht w hw
    rw [List.mem_singleton.mp ht] at hw
    exact absurd hw (hl w)
  have hs := stepCase_step line c rest
  generalize step line c rest = s at hs
  cases hs with
  | breaks hb => exact hother (by simp)
  | blanks hb hw => exact hother (by simp)
  | comment => exact hother (by simp)
  | ending => exact hother (by simp)
  | mark hm he =>
    rcases end_or_mark_of_ofChar? hm with rfl | ⟨m, rfl⟩ <;> exact hother (by simp)
  | quoted =>
    unfold quotedStep
    cases quoted? rest with
    | none => simp
    | some span => exact hother (by simp)
  | @expression _ _ key ho hk =>
    have hkey := lineFeed_notMem_key (Keys.mem_of_expressionKeyOf? hk)
    unfold expressionStep
    cases expression? (rest.drop key.length) <;> simp [hkey]
  | word ho hk =>
    intro t ht w hw
    obtain rfl : String.ofList (c :: (wordTail rest).1) = w := by
      rw [List.mem_singleton.mp ht] at hw
      exact Lexeme.word.inj hw
    rw [String.toList_ofList]
    exact lineFeed_notMem_word ho

/-- No word of a scan holds a line feed. -/
theorem lineFeed_notMem_of_ofChars (line : Nat) (text : List Char) :
    ∀ t ∈ (Scan.ofChars line text).tokens, ∀ w, t.lexeme = .word w → '\n' ∉ w.toList := by
  fun_induction Scan.ofChars line text with
  | case1 line => simp
  | case2 line c rest e he => exact lineFeed_notMem_of_step line c rest
  | case3 line c rest next left hn ih =>
    intro t ht
    rcases List.mem_append.mp ht with ht | ht
    · exact lineFeed_notMem_of_step line c rest t ht
    · exact ih t ht

theorem lineFeed_notMem_of_sentence {source : String} {tokens : List Token}
    (h : tokenize source = .ok tokens) : ∀ w, .word w ∈ sentence tokens → '\n' ∉ w.toList := by
  intro w hw
  obtain ⟨t, ht, hlexeme⟩ := List.mem_map.mp (List.mem_filter.mp (List.mem_filter.mp hw).1).1
  obtain ⟨-, rfl⟩ := tokenize_eq_ok_iff.mp h
  rcases List.mem_cons.mp ht with rfl | ht
  · simp at hlexeme
  · exact lineFeed_notMem_of_ofChars 1 source.toList t ht w hlexeme

end Token

theorem Respelling.crlf_text_eq_self {s : String} (h : '\n' ∉ s.toList) : crlf.text s = s := by
  have hchars : ∀ text : List Char, '\n' ∉ text → crlf.chars text = text := by
    intro text
    induction text with
    | nil => exact fun _ => rfl
    | cons c rest ih =>
      intro h
      rw [List.mem_cons, not_or] at h
      rw [Token.chars_crlf_cons_of_ne (Ne.symm h.1), ih h.2]
  rw [text, hchars _ h, String.ofList_toList]

/-- Windows line ends leave the words of a document as they are. -/
theorem keepsWords_of_parse {source : String} {d : Document} (h : parse source = .ok d) :
    Projector.KeepsWords crlf (Phrase.lexemesAll d.phrases) := by
  obtain ⟨body, last, ht, -⟩ := body_of_parse h
  intro w hw
  rw [lexemesAll_phrases ht h] at hw
  exact Respelling.crlf_text_eq_self (Token.lineFeed_notMem_of_sentence ht w hw)

/-! ## Results -/

/-- Whether two results are alike: values related by `g`, or errors related by `R`. -/
inductive Alike {ε α : Type} (g : α → α) (R : ε → ε → Prop) : Except ε α → Except ε α → Prop where
  | ok (a : α) : Alike g R (.ok a) (.ok (g a))
  | error {e e' : ε} (h : R e e') : Alike g R (.error e) (.error e')

/-- Respelled tokens are parsed as the respelled document, or with an error of the same kind. -/
theorem parseTokens_respell (r : Respelling) (tokens : List Token) :
    Alike r.document (ParseError.Respelled r) (parseTokens tokens).1
      (parseTokens (tokens.map r.token)).1 := by
  have hp := Parser.respells_document (r := r) (.ofTokens tokens)
  rw [show (Parser.ofTokens tokens).respell r = .ofTokens (tokens.map r.token) by
    simp [Parser.respell, Parser.ofTokens]] at hp
  unfold parseTokens
  generalize Parser.document (.ofTokens tokens) = reply at hp
  generalize Parser.document (.ofTokens (tokens.map r.token)) = reply' at hp
  cases hp with
  | matched d q => exact .ok d
  | unmatched q => exact .error (.grammatical Parser.errorLine_respell rfl)
  | failed q he => exact .error he

/-- With Windows line ends, a source is parsed as the same document with its line ends replaced,
or with an error of the same kind. -/
theorem parse_crlf {source : String} (h : '\r' ∉ source.toList) :
    Alike crlf.document (ParseError.Respelled crlf) (parse source)
      (parse (crlf.text source)) := by
  rw [parse_eq, parse_eq, tokenize_crlf_eq h]
  cases tokenize source with
  | error e => exact .error (.lexical e)
  | ok tokens => exact parseTokens_respell crlf tokens

/-- Whether an error is the same as another in a respelled source. -/
inductive Error.Respelled (r : Respelling) : Error → Error → Prop where
  | parse {e e' : ParseError} (h : e.Respelled r e') : Respelled r (.parse e) (.parse e')
  | projection (e : ProjectionError) : Respelled r (.projection e) (.projection e)

/-- A source without carriage returns reads the same with Windows line ends: it has the same
tokens, document and data with their line ends replaced, or an error of the same kind. -/
theorem reads_crlf {source : String} (h : '\r' ∉ source.toList) :
    tokenize (crlf.text source) = (tokenize source).map (List.map crlf.token) ∧
    Alike crlf.document (ParseError.Respelled crlf) (parse source) (parse (crlf.text source)) ∧
    Alike (Value.map crlf.text) (Error.Respelled crlf) (load source)
      (load (crlf.text source)) := by
  refine ⟨tokenize_crlf_eq h, parse_crlf h, ?_⟩
  have hparse := parse_crlf h
  rw [load_eq, load_eq]
  generalize hd : parse source = result at hparse
  generalize parse (crlf.text source) = result' at hparse
  cases hparse with
  | error he => exact .error (.parse he)
  | ok d =>
    dsimp only
    rw [Respelling.project_document (keepsWords_of_parse hd)]
    cases d.project.1 with
    | error e => exact .error (.projection e)
    | ok value => exact .ok value

/-- A comment, a blank line, a name in quotes that ends a line after a backslash, and an expression
with line ends around it and inside. -/
def Samples.lineEnds : String :=
  "# note\n\nview: v \x7b\n  label: \"a\\\n b\"\n  sql:\n x\n y\n ;;\n\x7d\n"

theorem reads_crlf_lineEnds : ∃ v, load Samples.lineEnds = .ok v ∧
    load (crlf.text Samples.lineEnds) = .ok (v.map crlf.text) ∧ v.map crlf.text =
      .object ⟨[("views", .list [.object ⟨[("label", .string "a\r\n b"),
        ("sql", .string "x\r\n y"), ("name", .string "v")]⟩])]⟩ := by
  have hload : load Samples.lineEnds = .ok (.object ⟨[("views", .list [.object
      ⟨[("label", .string "a\n b"), ("sql", .string "x\n y"), ("name", .string "v")]⟩])]⟩) := by
    decide +kernel
  have hreturn : '\r' ∉ Samples.lineEnds.toList := by decide +kernel
  have h := (reads_crlf hreturn).2.2
  rw [hload] at h ⊢
  generalize load (crlf.text Samples.lineEnds) = result at h
  cases h with
  | ok => exact ⟨_, rfl, rfl, by decide +kernel⟩

end LookML

import LookML.Proofs.Scan.Placement

/-!
# Classes — what the text of each class of token holds, and where it ends

A class says which texts its tokens hold and what cannot follow them, for a token goes as far as its
class does.  Both are laws of one token and the source after it (`InClass`) and of two tokens one
after the other (`MayPrecede`).  A step keeps them, given what the next step opens with.
-/

namespace LookML.Token

/-! ## Laws -/

/-- Line breaks one after another. -/
inductive BreakRun : List Char → Prop where
  | nil : BreakRun []
  | lineFeed {text : List Char} (h : BreakRun text) : BreakRun ('\n' :: text)
  | both {text : List Char} (h : BreakRun text) : BreakRun ('\r' :: '\n' :: text)

/-- Whether `c` is white space within a line, with `rest` after it: a carriage return before a line
feed is not. -/
def IsBlankBefore (rest : List Char) (c : Char) : Prop :=
  c = ' ' ∨ c = '\t' ∨ c = '\r' ∧ rest.head? ≠ some '\n'

/-- The characters that no word starts with, though some of them may stand within one. -/
def wordStartBars : List Char :=
  [' ', '\t', '\r', '\n', '#', '"', ';', '{', '}', '[', ']', ',', ':']

/-- Whether a token holds what its class does, with `left` after it in the source. -/
def InClass (left : List Char) (t : Token) : Prop :=
  match t.lexeme with
  | .blanks text => text.toList ≠ [] ∧
      ∀ a c b, text.toList = a ++ c :: b → IsBlankBefore (b ++ left) c
  | .breaks text => text.toList ≠ [] ∧ BreakRun text.toList
  | .comment text => '\n' ∉ text.toList
  | .word text => (∃ c rest, text.toList = c :: rest ∧ c ∉ wordStartBars ∧
      ∀ d ∈ rest, endsWord d = false) ∧ Exits left
  | .quoted raw text => Unescapes raw.toList text.toList
  | .expression text => ¬ [';', ';'] <:+: text.toList ∧ text.toList.getLast? ≠ some ';'
  | .streamStart | .streamEnd | .expressionEnd | .mark _ => True

/-- Whether `next` may come after a token: what its class goes on with does not, and a comment and
an expression have ends of their own. -/
def MayPrecede (t next : Token) : Prop :=
  match t.lexeme with
  | .blanks _ => ∀ text, next.lexeme ≠ .blanks text
  | .breaks _ => ∀ text, next.lexeme ≠ .breaks text
  | .comment _ => (∃ text, next.lexeme = .breaks text) ∨ next.lexeme = .streamEnd
  | .expression _ => next.lexeme = .expressionEnd
  | _ => True

/-- Whether `p` keeps the laws of its class before `q`. -/
structure Placed.Obeys (p q : Placed) : Prop where
  inClass : p.token.InClass q.text
  mayPrecede : p.token.MayPrecede q.token

/-! ## Pieces -/

theorem startsBlank_cons_iff {c : Char} {rest : List Char} :
    startsBlank (c :: rest) = true ↔ IsBlankBefore rest c := by
  by_cases hc : c = '\r'
  · subst hc
    cases rest with
    | nil => simp [startsBlank, startsBreak, IsBlankBefore]
    | cons d rest =>
      by_cases hd : d = '\n' <;> simp [startsBlank, startsBreak, IsBlankBefore, hd]
  · simp only [startsBlank, IsBlankBefore, Bool.and_eq_true, Bool.or_eq_true, beq_iff_eq, hc,
      false_and, or_false]
    refine ⟨And.left, fun h => ⟨h, ?_⟩⟩
    rcases h with rfl | rfl <;> rfl

theorem splitWhile_of_false {p : List Char → Bool} {text : List Char} (h : p text = false) :
    (splitWhile p text).1 = [] := by
  cases text with
  | nil => rfl
  | cons c rest => rw [splitWhile, if_neg (by simp [h])]

theorem splitWhile_ne_nil {p : List Char → Bool} {text : List Char} (hnil : p [] = false)
    (h : p text = true) : (splitWhile p text).1 ≠ [] := by
  cases text with
  | nil => simp [hnil] at h
  | cons c rest =>
    rw [splitWhile, if_pos h]
    exact List.cons_ne_nil _ _

/-- What a cut leaves does not go on with what was cut. -/
theorem splitWhile_stops {p : List Char → Bool} (hnil : p [] = false) (text : List Char) :
    p (splitWhile p text).2 = false :=
  (splitWhile_left p text).elim (fun h => by rw [h, hnil]) id

/-- The recursion goes by line breaks, of which one has two characters. -/
theorem breakRun_breaks (text : List Char) : BreakRun (breaks text).1 := by
  cases hb : startsBreak text with
  | false =>
    rw [breaks, splitWhile_of_false hb]
    exact .nil
  | true =>
    unfold startsBreak at hb
    split at hb
    · exact .lineFeed (breakRun_breaks _)
    · exact .both (breakRun_breaks _)
    · simp at hb
termination_by text.length

theorem OpensWord.notMem_wordStartBars {c : Char} {rest : List Char} (h : OpensWord c rest) :
    c ∉ wordStartBars := by
  intro hc
  obtain ⟨hb, hw, hh, hq, hm⟩ := h
  simp only [wordStartBars, List.mem_cons, List.not_mem_nil, or_false] at hc
  rcases hc with rfl | rfl | rfl | rfl | rfl | rfl | rfl | rfl | rfl | rfl | rfl | rfl | rfl <;>
    simp_all [startsBlank, startsBreak, Lexeme.ofChar?]

theorem inClass_blanks {text : List Char} (line : Nat) (h : startsBlank text = true) :
    (⟨.blanks (String.ofList (blanks text).1), line⟩ : Token).InClass (blanks text).2 := by
  simp only [InClass, String.toList_ofList]
  exact ⟨splitWhile_ne_nil rfl h, fun a c b hab =>
    startsBlank_cons_iff.mp (holds_of_splitWhile (Prod.ext hab rfl))⟩

theorem inClass_breaks {text : List Char} (left : List Char) (line : Nat)
    (h : startsBreak text = true) :
    (⟨.breaks (String.ofList (breaks text).1), line⟩ : Token).InClass left := by
  simp only [InClass, String.toList_ofList]
  exact ⟨splitWhile_ne_nil rfl h, breakRun_breaks text⟩

theorem inClass_comment (text left : List Char) (line : Nat) :
    (⟨.comment (String.ofList (comment text).1), line⟩ : Token).InClass left := by
  simpa [InClass] using lineFeed_notMem_comment text

theorem inClass_quoted {text : List Char} {span : QuotedSpan} (left : List Char) (line : Nat)
    (h : quoted? text = some span) :
    (⟨.quoted (String.ofList span.raw) (String.ofList span.text), line⟩ : Token).InClass left := by
  simpa [InClass] using unescapes_of_quoted? h

theorem inClass_expression {text taken left : List Char} (line : Nat)
    (h : expression? text = some (taken, left)) :
    (⟨.expression (String.ofList taken), line⟩ : Token).InClass left := by
  simpa [InClass] using not_semicolons_of_expression? h

theorem inClass_of_ofChar? {c : Char} {l : Lexeme} (left : List Char) (line : Nat)
    (h : Lexeme.ofChar? c = some l) : (⟨l, line⟩ : Token).InClass left := by
  rcases end_or_mark_of_ofChar? h with rfl | ⟨m, rfl⟩ <;> trivial

theorem inClass_word {c : Char} {rest : List Char} (line : Nat) (ho : OpensWord c rest) :
    (⟨.word (String.ofList (c :: (wordTail rest).1)), line⟩ : Token).InClass
      (wordTail rest).2 :=
  ⟨⟨c, _, String.toList_ofList, ho.notMem_wordStartBars, endsWord_of_mem_wordTail rest⟩,
    exits_wordTail rest⟩

/-- An expression key is a word, which its colon ends. -/
theorem inClass_key {key : String} (hk : key ∈ Keys.expressionKeys) (line : Nat)
    (left : List Char) : (⟨.word key, line⟩ : Token).InClass (':' :: left) := by
  have hbare := (Keys.bare_of_mem_expressionKeys key hk).1
  obtain ⟨c, rest, rfl⟩ := exists_cons_of_isBareWord hbare
  obtain ⟨hh, hs, hb⟩ := isBareWord_iff.mp hbare
  refine ⟨⟨c, rest, String.toList_ofList, ?_, fun d hd => ?_⟩, .cons rfl left⟩
  · exact (opensWord_of_bare rest hh hs (hb c (by simp))).notMem_wordStartBars
  · exact endsWord_of_isBareWord hbare d (by simp [hd])

/-! ## Openings -/

/-- What a scan can say of its first token from how the text starts, and the other way round. -/
structure Opens (text : List Char) (t : Token) : Prop where
  breaks : ∀ run, t.lexeme = .breaks run → startsBreak text = true
  blanks : ∀ run, t.lexeme = .blanks run → startsBlank text = true
  not_expression : ∀ e, t.lexeme ≠ .expression e
  colon : t.lexeme = .mark .colon → text.head? = some ':'
  of_break : startsBreak text = true → ∃ run, t.lexeme = .breaks run
  of_end : startsExpressionEnd text = true → t.lexeme = .expressionEnd
  of_nil : text = [] → t.lexeme = .streamEnd

theorem startsExpressionEnd_of_break {text : List Char} (h : startsBreak text = true) :
    startsExpressionEnd text = false := by
  unfold startsBreak at h
  split at h
  · rfl
  · rfl
  · simp at h

theorem startsExpressionEnd_of_blank {c : Char} {rest : List Char}
    (h : startsBlank (c :: rest) = true) : startsExpressionEnd (c :: rest) = false := by
  rcases eq_of_startsBlank h with rfl | rfl | rfl <;> rfl

theorem eq_colon_of_ofChar? {c : Char} (h : Lexeme.ofChar? c = some (.mark .colon)) : c = ':' := by
  unfold Lexeme.ofChar? at h
  split at h <;> simp_all

/-- A token of another class than line breaks, white space and ends, before a text that starts with
none. -/
theorem opens_of_visible {c : Char} {rest : List Char} {t : Token}
    (hb : startsBreak (c :: rest) = false) (he : startsExpressionEnd (c :: rest) = false)
    (ht : t.isTrivia = false) (hexpr : ∀ e, t.lexeme ≠ .expression e)
    (hcolon : t.lexeme = .mark .colon → c = ':') : t.Opens (c :: rest) where
  breaks run hr := by simp [isTrivia, hr, Lexeme.isTrivia] at ht
  blanks run hr := by simp [isTrivia, hr, Lexeme.isTrivia] at ht
  not_expression := hexpr
  colon hc := by rw [hcolon hc, List.head?_cons]
  of_break h := by simp [hb] at h
  of_end h := by simp [he] at h
  of_nil h := by simp at h

theorem opens_step (line : Nat) (c : Char) (rest : List Char) :
    ∀ t ∈ (step line c rest).tokens.head?, t.Opens (c :: rest) := by
  have hs := stepCase_step line c rest
  generalize step line c rest = s at hs
  intro t ht
  cases hs with
  | breaks hb =>
    obtain rfl := Option.some.inj ht
    constructor <;> simp [hb, startsExpressionEnd_of_break hb]
  | blanks hb hw =>
    obtain rfl := Option.some.inj ht
    constructor <;> simp [hb, hw, startsExpressionEnd_of_blank hw]
  | comment =>
    obtain rfl := Option.some.inj ht
    constructor <;> simp [startsBreak, startsExpressionEnd]
  | quoted =>
    unfold quotedStep at ht
    split at ht
    · simp at ht
    · obtain rfl := Option.some.inj ht
      exact opens_of_visible rfl rfl rfl (by simp) (by simp)
  | ending =>
    obtain rfl := Option.some.inj ht
    constructor <;> simp [startsBreak]
  | @mark _ _ l hl he =>
    obtain rfl := Option.some.inj ht
    refine opens_of_visible ?_ he (not_isTrivia_of_ofChar? hl) ?_ ?_
    · refine Bool.eq_false_iff.mpr fun hb => ?_
      rcases eq_of_startsBreak hb with rfl | rfl <;> simp [Lexeme.ofChar?] at hl
    · rcases end_or_mark_of_ofChar? hl with rfl | ⟨m, rfl⟩ <;> simp
    · rintro rfl
      exact eq_colon_of_ofChar? hl
  | @expression _ _ key ho hk =>
    obtain ⟨l, hl⟩ : ∃ l, t = ⟨.word key, l⟩ := by
      unfold expressionStep at ht
      split at ht <;> exact ⟨line, (Option.some.inj ht).symm⟩
    rw [hl]
    exact opens_of_visible ho.not_break ho.not_end rfl (by simp) (by simp)
  | word ho hk =>
    obtain rfl := Option.some.inj ht
    exact opens_of_visible ho.not_break ho.not_end rfl (by simp) (by simp)

/-- The first token of a scan opens its text. -/
theorem opens_of_head?_ofChars (line : Nat) (text : List Char) :
    ∀ t ∈ (Scan.ofChars line text).tokens.head?, t.Opens text := by
  intro t ht
  fun_induction Scan.ofChars line text with
  | case1 line =>
    obtain rfl := Option.some.inj ht
    constructor <;> simp [startsBreak, startsExpressionEnd]
  | case2 line c rest e he => exact opens_step line c rest t ht
  | case3 line c rest next left hn ih =>
    obtain ⟨u, tokens, hu⟩ := exists_tokens_of_step hn
    refine opens_step line c rest t ?_
    rw [Scan.after, hu] at ht
    rwa [hu]

theorem opens_of_head?_placedFrom {line : Nat} {text : List Char} :
    ∀ q ∈ (placedFrom line text).head?, q.text = text ∧ q.token.Opens text := by
  intro q hq
  refine ⟨text_of_head?_placedFrom hq, opens_of_head?_ofChars line text q.token ?_⟩
  rw [← map_token_placedFrom, List.head?_map, hq]
  rfl

/-! ## Steps and scans -/

section next

variable {text left : List Char} {t : Token} {ps : List Placed} (hps : ps.IsChain Placed.Obeys)
  (hopens : ∀ q ∈ ps.head?, q.text = left ∧ q.token.Opens left)

include hps hopens

/-- A token obeys its class before what opens the text after it. -/
theorem obeys_cons (hclass : t.InClass left) (hnext : ∀ u : Token, u.Opens left → t.MayPrecede u) :
    (placeAll text [t] ++ ps).IsChain Placed.Obeys :=
  hps.cons fun q hq => ⟨by rw [(hopens q hq).1]; exact hclass, hnext q.token (hopens q hq).2⟩

theorem obeys_of_step {line after : Nat} {c : Char} {rest : List Char}
    (hn : (step line c rest).next = .ok (after, left)) :
    (placeAll (c :: rest) (step line c rest).tokens ++ ps).IsChain Placed.Obeys := by
  have hs := stepCase_step line c rest
  generalize step line c rest = s at hn hs
  -- A run takes all that its condition holds of, so what it leaves opens with something else.
  cases hs with
  | breaks hb =>
    obtain rfl := Step.one_next hn
    refine obeys_cons hps hopens (inClass_breaks _ line hb) fun u hu run hr => ?_
    exact absurd (hu.breaks run hr) (Bool.eq_false_iff.mp (splitWhile_stops rfl (c :: rest)))
  | blanks hb hw =>
    obtain rfl := Step.one_next hn
    refine obeys_cons hps hopens (inClass_blanks line hw) fun u hu run hr => ?_
    exact absurd (hu.blanks run hr) (Bool.eq_false_iff.mp (splitWhile_stops rfl (c :: rest)))
  | comment =>
    obtain rfl := Step.one_next hn
    refine obeys_cons hps hopens (inClass_comment rest _ line) fun u hu => ?_
    rcases comment_left rest with hnil | hbreak
    · exact .inr (hu.of_nil hnil)
    · exact .inl (hu.of_break hbreak)
  | quoted =>
    obtain ⟨span, hq, -, ht⟩ := quotedStep_of_next hn
    rw [ht]
    exact obeys_cons hps hopens (inClass_quoted left line hq) fun u hu => trivial
  | ending => exact obeys_cons hps hopens trivial fun u hu => trivial
  | @mark _ _ l hl he =>
    refine obeys_cons hps hopens (inClass_of_ofChar? left line hl) fun u hu => ?_
    rcases end_or_mark_of_ofChar? hl with rfl | ⟨m, rfl⟩ <;> trivial
  | @expression _ _ key ho hk =>
    obtain ⟨text, ht⟩ := eq_append_of_expressionKeyOf? hk
    have hmem := Keys.mem_of_expressionKeyOf? hk
    rw [drop_of_eq_append ht] at hn ⊢
    obtain ⟨taken, he, htokens⟩ := expressionStep_of_next hn
    rw [ht, htokens]
    -- The key is ended by its colon, the expression by its end; the colon obeys nothing.
    refine .cons_cons ⟨?_, trivial⟩ (.cons_cons ⟨trivial, trivial⟩
      (obeys_cons hps hopens (inClass_expression line he) fun u hu => ?_))
    · simpa [source, Lexeme.source] using inClass_key hmem line text
    · exact hu.of_end (expression?_eq_some he).2
  | word ho hk =>
    obtain rfl := Step.one_next hn
    exact obeys_cons hps hopens (inClass_word line ho) fun u hu => trivial

end next

/-- Each token of a scan obeys its class before the next one. -/
theorem obeys_placedFrom (line : Nat) (text : List Char) :
    (placedFrom line text).IsChain Placed.Obeys := by
  fun_induction placedFrom line text with
  | case1 line => exact .singleton _
  | case2 line c rest e he =>
    cases stepFails_step he with
    | string htext ht => rw [ht]; exact .nil
    | @expression key rest' hk htext ht =>
      rw [ht, htext]
      refine .cons_cons ⟨?_, trivial⟩ (.singleton _)
      simpa [source, Lexeme.source] using inClass_key hk line rest'
  | case3 line c rest next left hn ih => exact obeys_of_step ih opens_of_head?_placedFrom hn

/-- The classes of the tokens of a source.  Between the start and the end of the stream, which stand
nowhere else, each token is at its place what its class says, with what may follow it. -/
theorem classes_of_tokenize {source : String} {tokens : List Token}
    (h : tokenize source = .ok tokens) :
    (∃ body last, tokens = ⟨.streamStart, 1⟩ :: (body ++ [⟨.streamEnd, last⟩]) ∧
      ∀ t ∈ body, t.lexeme ≠ .streamStart ∧ t.lexeme ≠ .streamEnd) ∧
    (placed source).map Placed.token = tokens ∧
    (placed source).IsChain Placed.Abuts ∧
    (placed source).IsChain Placed.Obeys := by
  refine ⟨?_, ?_, isChain_placed source, ?_⟩
  · obtain ⟨body, last, ht, hs⟩ := tokenize_eq_ok h
    exact ⟨body, last, ht, hs.not_stream⟩
  · rw [map_token_placed]
    exact (tokenize_eq_ok_iff.mp h).2
  · exact (obeys_placedFrom 1 source.toList).cons fun q hq => ⟨trivial, trivial⟩

end LookML.Token

namespace LookML

open Token

/-- A carriage return by itself and one before a line feed, marks within a comment and within a
word, an escaped quote, a `;` by itself, and an expression with one. -/
def Samples.edges : String :=
  "\r\t\r\n\n#c;[\n\x00a#[;\"b:\"q\\\"\r\" ; sql:a;b ;;"

theorem classes_of_tokenize_edges :
    (tokenize Samples.edges).toOption.map (List.map Token.lexeme) =
      some [.streamStart, .blanks "\r\t", .breaks "\r\n\n", .comment "c;[", .breaks "\n",
        .word "\x00a#[;\"b", .mark .colon, .quoted "q\\\"\r" "q\"\r", .blanks " ",
        .expressionEnd, .blanks " ", .word "sql", .mark .colon, .expression "a;b ",
        .expressionEnd, .streamEnd] ∧
    ∃ tokens, tokenize Samples.edges = .ok tokens ∧
      (placed Samples.edges).map Placed.token = tokens ∧
      (placed Samples.edges).IsChain Placed.Abuts ∧
      (placed Samples.edges).IsChain Placed.Obeys := by
  refine ⟨by decide +kernel, ?_⟩
  have hok : (tokenize Samples.edges).isOk = true := by decide +kernel
  cases ht : tokenize Samples.edges with
  | error e => simp [ht, Except.isOk, Except.toBool] at hok
  | ok tokens => exact ⟨tokens, rfl, (classes_of_tokenize ht).2⟩

end LookML

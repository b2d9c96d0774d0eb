import LookML.Proofs.Parser.Lossless
import LookML.Syntax.Walk

/-!
# Leaves — every leaf of a parsed document is a run of its tokens

The tokens of a document are cut into runs, one for each leaf of its walk and in the same order:
the trivia before the leaf, the tokens of its value, and the trivia after it (`Covers`).  A leaf has
the line of the first token of its value.  What leaves say about their trivia and their lines
follows from this cut.
-/

namespace LookML

/-! ## Leaves and their tokens -/

/-- The leaves among some parts. -/
def Part.leaves (parts : List Part) : List Leaf :=
  parts.filterMap leaf?

namespace Part

@[simp] theorem leaves_nil : leaves [] = [] := rfl

@[simp] theorem leaves_cons (part : Part) (parts : List Part) :
    leaves (part :: parts) = part.leaf?.toList ++ leaves parts := by
  cases part <;> rfl

@[simp] theorem leaves_append (a b : List Part) : leaves (a ++ b) = leaves a ++ leaves b :=
  List.filterMap_append

@[simp] theorem leaves_ofLeaf? (leaf? : Option Leaf) : leaves (ofLeaf? leaf?) = leaf?.toList := by
  cases leaf? <;> rfl

end Part

theorem isTrivia_of_significant {run : List Token} (h : Token.significant run = []) :
    ∀ t ∈ run, t.isTrivia = true := by
  simpa [Token.significant, Token.isTrivia] using h

/-- The leaf that a token is, with nothing around it.  The end of an expression is a part of its
leaf, and trivia goes to other leaves. -/
def Leaf.ofToken? (t : Token) : Option Leaf :=
  match t.lexeme with
  | .word text => some { Leaf.word text with line? := some t.line }
  | .quoted raw text => some { Leaf.quotedRaw text raw with line? := some t.line }
  | .expression text => some { Leaf.expressionOf text with line? := some t.line }
  | .mark m => some { Leaf.mark m with line? := some t.line }
  | _ => none

theorem Leaf.ofToken?_of_isTrivia {t : Token} (h : t.isTrivia = true) : ofToken? t = none := by
  obtain ⟨lexeme, line⟩ := t
  cases lexeme <;> first | rfl | simp [Token.isTrivia, Lexeme.isTrivia] at h

theorem Leaf.filterMap_ofToken?_eq_nil {run : List Token} (h : ∀ t ∈ run, t.isTrivia = true) :
    run.filterMap ofToken? = [] :=
  List.filterMap_eq_nil_iff.mpr fun t ht => ofToken?_of_isTrivia (h t ht)

/-- The tokens that a leaf is read from: trivia, the tokens of its value, and trivia.  A quoted
literal that is read has a raw text. -/
inductive Leaf.ReadFrom (leaf : Leaf) : List Token → Prop where
  | intro {before more after : List Token} {first : Token}
      (isTrivia_before : ∀ t ∈ before, t.isTrivia = true)
      (before_eq : Token.sourceAll before = leaf.before)
      (written_eq : Token.sourceAll (first :: more) = leaf.written)
      (has_raw : leaf.form ≠ .quoted none)
      (line_eq : leaf.line? = some first.line)
      (isTrivia_after : ∀ t ∈ after, t.isTrivia = true)
      (after_eq : Token.sourceAll after = leaf.after)
      (leaf_eq : (first :: more).filterMap ofToken? = [{ leaf with before := "", after := "" }]) :
      ReadFrom leaf (before ++ (first :: more ++ after))

theorem Leaf.ReadFrom.sourceAll {leaf : Leaf} {tokens : List Token} (h : leaf.ReadFrom tokens) :
    Token.sourceAll tokens = leaf.print := by
  obtain ⟨-, hb, hw, -, -, -, ha⟩ := h
  rw [Token.sourceAll_append, Token.sourceAll_append, hb, hw, ha, print, String.append_assoc]

theorem Leaf.ReadFrom.form_ne {leaf : Leaf} {tokens : List Token} (h : leaf.ReadFrom tokens) :
    leaf.form ≠ .quoted none := by
  obtain ⟨-, -, -, hraw, -, -, -⟩ := h
  exact hraw

/-- A leaf is the leaf of its tokens, with its trivia around it. -/
theorem Leaf.ReadFrom.filterMap_ofToken? {leaf : Leaf} {tokens : List Token}
    (h : leaf.ReadFrom tokens) :
    tokens.filterMap ofToken? = [{ leaf with before := "", after := "" }] := by
  obtain ⟨hbt, -, -, -, -, hat, -, hleaf⟩ := h
  rw [List.filterMap_append, List.filterMap_append, filterMap_ofToken?_eq_nil hbt,
    filterMap_ofToken?_eq_nil hat, hleaf]
  rfl

/-- A cut of tokens into the runs that some leaves are read from. -/
inductive Covers : List Leaf → List Token → Prop where
  | nil : Covers [] []
  | cons {leaf : Leaf} {leaves : List Leaf} {run tokens : List Token} (h : leaf.ReadFrom run)
      (rest : Covers leaves tokens) : Covers (leaf :: leaves) (run ++ tokens)

namespace Covers

variable {leaves more : List Leaf} {tokens rest : List Token}

theorem append (h : Covers leaves tokens) (h' : Covers more rest) :
    Covers (leaves ++ more) (tokens ++ rest) := by
  induction h with
  | nil => exact h'
  | cons hl _ ih =>
    rw [List.cons_append, List.append_assoc]
    exact .cons hl ih

/-- The runs up to a leaf, its own and those after it. -/
theorem split {earlier later : List Leaf} {leaf : Leaf}
    (h : Covers (earlier ++ leaf :: later) tokens) :
    ∃ front run back, tokens = front ++ (run ++ back) ∧ Covers earlier front ∧
      leaf.ReadFrom run ∧ Covers later back := by
  induction earlier generalizing tokens with
  | nil =>
    cases h with
    | cons hl hrest => exact ⟨[], _, _, rfl, .nil, hl, hrest⟩
  | cons first earlier ih =>
    cases h with
    | cons hl hrest =>
      obtain ⟨front, run, back, rfl, hfront, hrun, hback⟩ := ih hrest
      exact ⟨_, run, back, (List.append_assoc ..).symm, .cons hl hfront, hrun, hback⟩

/-- Each leaf of a cut has a run that it is read from. -/
theorem exists_readFrom {leaf : Leaf} (h : Covers leaves tokens) (hl : leaf ∈ leaves) :
    ∃ run, run <:+: tokens ∧ leaf.ReadFrom run := by
  obtain ⟨earlier, later, rfl⟩ := List.append_of_mem hl
  obtain ⟨front, run, back, rfl, -, hrun, -⟩ := h.split
  exact ⟨run, ⟨front, back, List.append_assoc ..⟩, hrun⟩

/-- Leaves are those of their tokens, with trivia around them. -/
theorem filterMap_ofToken? (h : Covers leaves tokens) : tokens.filterMap Leaf.ofToken? =
    leaves.map fun leaf => { leaf with before := "", after := "" } := by
  induction h with
  | nil => rfl
  | cons hl _ ih =>
    rw [List.filterMap_append, hl.filterMap_ofToken?, ih]
    rfl

/-- The source of the runs is what the leaves print. -/
theorem sourceAll (h : Covers leaves tokens) :
    Token.sourceAll tokens = String.join (leaves.map Leaf.print) := by
  induction h with
  | nil => rfl
  | cons hl _ ih =>
    rw [Token.sourceAll_append, hl.sourceAll, ih]
    simp

end Covers

/-- The tokens `before` begin with runs that `leaves` are read from, and `after` follows them. -/
def Yields (before : List Token) (leaves : List Leaf) (after : List Token) : Prop :=
  ∃ taken, before = taken ++ after ∧ Covers leaves taken

namespace Yields

variable {a b c : List Token} {leaves more : List Leaf}

theorem refl (a : List Token) : Yields a [] a :=
  ⟨[], rfl, .nil⟩

theorem trans (h : Yields a leaves b) (h' : Yields b more c) : Yields a (leaves ++ more) c := by
  obtain ⟨x, rfl, hx⟩ := h
  obtain ⟨y, rfl, hy⟩ := h'
  exact ⟨x ++ y, (List.append_assoc ..).symm, hx.append hy⟩

/-- A leaf is read from trivia, the tokens of its value, and trivia. -/
theorem leaf {leaf : Leaf} {first : Token} (tokens : List Token)
    (hb : Reads a leaf.before [] (first :: (tokens ++ b)))
    (hw : Token.sourceAll (first :: tokens) = leaf.written) (hr : leaf.form ≠ .quoted none)
    (hl : leaf.line? = some first.line) (ha : Reads b leaf.after [] c)
    (hleaf : (first :: tokens).filterMap Leaf.ofToken? =
      [{ leaf with before := "", after := "" }]) : Yields a [leaf] c := by
  obtain ⟨before, rfl, hb, hb'⟩ := hb
  obtain ⟨after, rfl, ha, ha'⟩ := ha
  refine ⟨before ++ (first :: tokens ++ after) ++ [], by simp, ?_⟩
  exact .cons (.intro (isTrivia_of_significant hb') hb hw hr hl (isTrivia_of_significant ha') ha
    hleaf) .nil

end Yields

namespace Parser

open Production

variable {p q : Parser}

/-! ## Single leaves -/

/-- A mark with the trivia around it. -/
theorem yields_of_mark {m : Mark} {before after : String} {line : Nat} {a c : List Token}
    (hb : Reads a before [] p.rest) (h : mark m p = .matched line q)
    (ha : Reads q.rest after [] c) :
    Yields a [{ Leaf.mark m with before, after, line? := some line }] c := by
  rw [mark_eq_matched h] at hb
  exact .leaf [] hb (by simp [Token.sourceAll]; rfl) (by simp [Leaf.mark]) rfl ha rfl

theorem yields_of_comma {leaf : Leaf} (h : comma p = .matched leaf q) :
    Yields p.rest [leaf] q.rest := by
  obtain ⟨q, hb, rfl⟩ := attempt_eq_matched h
  simp only [bind_eq_matched, pure_apply, Reply.matched.injEq] at hb
  obtain ⟨before, p₁, h₁, line, p₂, h₂, after, p₃, h₃, rfl, rfl⟩ := hb
  have hbefore := reads_of_trivia h₁
  have hafter := reads_of_trivia h₃
  exact yields_of_mark hbefore h₂ hafter

theorem yields_of_key {k c : Leaf} (h : key p = .matched (k, c) q) :
    Yields p.rest [k, c] q.rest := by
  obtain ⟨q, hb, rfl⟩ := attempt_eq_matched h
  simp only [bind_eq_matched, pure_apply, Reply.matched.injEq, Prod.mk.injEq] at hb
  obtain ⟨before, p₁, h₁, leaf, p₂, h₂, colonBefore, p₃, h₃, line, p₄, h₄, after, p₅, h₅,
    ⟨rfl, rfl⟩, rfl⟩ := hb
  obtain ⟨text, l, rfl, hw⟩ := word_eq_matched h₂
  have hbefore := reads_of_trivia h₁
  rw [hw] at hbefore
  have hkey : Yields p.rest [{ Leaf.word text with before, line? := some l }] p₂.rest :=
    .leaf [] hbefore (by simp [Token.sourceAll]; rfl) (by simp [Leaf.word]) rfl (.refl _) rfl
  have hafter := reads_of_trivia h₅
  exact hkey.trans (yields_of_mark (reads_of_trivia h₃) h₄ hafter)

theorem yields_of_bracket {m : Mark} {leaf : Leaf} (h : bracket m p = .matched leaf q) :
    Yields p.rest [leaf] q.rest := by
  unfold bracket at h
  simp only [bind_eq_matched, pure_apply, Reply.matched.injEq] at h
  obtain ⟨before, p₁, h₁, line, p₂, h₂, after, p₃, h₃, rfl, rfl⟩ := h
  exact yields_of_mark (reads_of_trivia h₁) h₂ (reads_of_lineTrivia h₃)

theorem yields_of_value {leaf : Leaf} (h : value p = .matched leaf q) :
    Yields p.rest [leaf] q.rest := by
  obtain ⟨q, hb, rfl⟩ := attempt_eq_matched h
  simp only [bind_eq_matched, pure_apply, Reply.matched.injEq] at hb
  obtain ⟨before, p₁, h₁, leaf, p₂, h₂, rfl, rfl⟩ := hb
  have hbefore := reads_of_trivia h₁
  cases literal_eq_matched h₂ with
  | word hr ht =>
    rw [hr] at hbefore
    have hafter := reads_of_trivia ht
    exact .leaf [] hbefore (by simp [Token.sourceAll]; rfl) (by simp [Leaf.word]) rfl hafter
      rfl
  | quoted hr ht =>
    rw [hr] at hbefore
    have hafter := reads_of_lineTrivia ht
    exact .leaf [] hbefore (by simp [Token.sourceAll]; rfl) (by simp [Leaf.quotedRaw]) rfl
      hafter rfl
  | @expression text after line last p₃ _ hr ht =>
    rw [hr] at hbefore
    have hafter := reads_of_lineTrivia ht
    refine .leaf [⟨.expressionEnd, last⟩] hbefore ?_ (by simp [Leaf.expressionOf]) rfl hafter rfl
    show _ = (Leaf.expressionOf text).written
    rw [Leaf.written_expressionOf]
    simp [Token.sourceAll, Token.source, Lexeme.source]

/-! ## Pairs and lists -/

theorem yields_of_pair {pair : Pair} (h : Parser.pair p = .matched pair q) :
    Yields p.rest (Part.leaves pair.walk) q.rest := by
  obtain ⟨q, hb, rfl⟩ := attempt_eq_matched h
  simp only [bind_eq_matched, pure_apply, Reply.matched.injEq] at hb
  obtain ⟨⟨k, c⟩, p₁, h₁, v, p₂, h₂, rfl, rfl⟩ := hb
  have hr := (yields_of_key h₁).trans (yields_of_value h₂)
  exact hr

def ListEntry.walk : ListEntry → List Part
  | pair p => p.walk
  | value v => [.leaf v]

theorem yields_of_listEntry {entry : ListEntry} (h : listEntry p = .matched entry q) :
    Yields p.rest (Part.leaves entry.walk) q.rest := by
  obtain ⟨-, ⟨pair, hp, rfl⟩ | ⟨p₁, leaf, hrest, hv, rfl⟩⟩ := listEntry_eq_matched h
  · exact yields_of_pair hp
  · rw [← hrest]
    exact yields_of_value hv

section entries

variable {α : Type} {as : ListEntry → Except Fault α} {walk : α → List Part}

theorem yields_of_moreEntries (has : ∀ {e a}, as e = .ok a → e.walk = walk a) {fuel : Nat}
    {more : List (Leaf × α)} {trailing? : Option Leaf}
    (h : moreEntries as fuel p = .matched (more, trailing?) q) :
    Yields p.rest
      (Part.leaves (Entries.walkRest (more.map Prod.fst) (more.map fun e => walk e.2)) ++
        trailing?.toList) q.rest := by
  induction fuel generalizing p more trailing? with
  | zero => simp [moreEntries, mismatch] at h
  | succ fuel ih =>
    obtain ⟨rfl, rfl, rfl⟩ | ⟨leaf, hc, rfl, rfl⟩ |
      ⟨leaf, p₁, entry, p₂, a, rest, hc, he, ha, hrest, rfl⟩ := moreEntries_eq_matched h
    · exact .refl _
    · exact yields_of_comma hc
    · have hr := ((yields_of_comma hc).trans (yields_of_listEntry he)).trans (ih hrest)
      rw [has ha] at hr
      simpa [Entries.walkRest, Part.leaf?] using hr

theorem yields_of_entriesFrom (has : ∀ {e a}, as e = .ok a → e.walk = walk a)
    {gather : List α → Entries} {first : α} {v : ListValues}
    (h : entriesFrom as gather first p = .matched v q) :
    ∃ more : List (Leaf × α), v.entries = gather (first :: more.map Prod.snd) ∧
      Yields p.rest
        (Part.leaves (Entries.walkRest v.separators (more.map fun e => walk e.2)) ++
          v.trailing?.toList) q.rest := by
  obtain ⟨more, hmore, he, hs⟩ := entriesFrom_eq_matched h
  refine ⟨more, he, ?_⟩
  rw [hs]
  exact yields_of_moreEntries has hmore

end entries

theorem walk_of_asPair {e : ListEntry} {pair : Pair} (h : e.asPair = .ok pair) :
    e.walk = pair.walk := by
  rw [asPair_eq_ok h, ListEntry.walk]

theorem walk_of_asValue {e : ListEntry} {leaf : Leaf} (h : e.asValue = .ok leaf) :
    e.walk = [.leaf leaf] := by
  rw [asValue_eq_ok h, ListEntry.walk]

theorem yields_of_listValues {v : ListValues} (h : listValues p = .matched v q) :
    Yields p.rest (Part.leaves (Entries.walkJoined v.separators v.entries.walkEach) ++
      v.trailing?.toList) q.rest := by
  obtain ⟨rfl, rfl⟩ | ⟨first, p₁, he, hmore⟩ | ⟨first, p₁, he, hmore⟩ := listValues_eq_matched h
  · exact .refl _
  · obtain ⟨entries, separators, trailing?⟩ := v
    obtain ⟨more, rfl, hr⟩ := yields_of_entriesFrom walk_of_asPair hmore
    simpa [Entries.walkEach, Entries.walkJoined, Function.comp_def, ListEntry.walk, Part.leaf?]
      using (yields_of_listEntry he).trans hr
  · obtain ⟨entries, separators, trailing?⟩ := v
    obtain ⟨more, rfl, hr⟩ := yields_of_entriesFrom walk_of_asValue hmore
    simpa [Entries.walkEach, Entries.walkJoined, Function.comp_def, ListEntry.walk, Part.leaf?]
      using (yields_of_listEntry he).trans hr

theorem yields_of_optional_comma {leaf? : Option Leaf}
    (h : Production.optional comma p = .matched leaf? q) :
    Yields p.rest leaf?.toList q.rest := by
  obtain ⟨leaf, hc, rfl⟩ | ⟨hrest, rfl⟩ := optional_comma_eq_matched h
  · exact yields_of_comma hc
  · rw [← hrest]
    exact .refl _

theorem yields_of_listing {l : Listing} (h : listing p = .matched l q) :
    Yields p.rest (Part.leaves l.walk) q.rest := by
  obtain ⟨q, hb, rfl⟩ := attempt_eq_matched h
  simp only [bind_eq_matched, pure_apply, Reply.matched.injEq] at hb
  obtain ⟨⟨k, c⟩, p₁, h₁, before, p₂, h₂, line, p₃, h₃, leading?, p₄, h₄, v, p₅, h₅, closing, p₆,
    h₆, rfl, rfl⟩ := hb
  have ho : Yields p₁.rest [{ Leaf.mark .bracketOpen with before, line? := some line }] p₃.rest :=
    yields_of_mark (reads_of_trivia h₂) h₃ (.refl _)
  have hr := (((((yields_of_key h₁).trans ho).trans (yields_of_optional_comma h₄)).trans
    (yields_of_listValues h₅)).trans (yields_of_bracket h₆))
  simpa [Listing.walk, Part.leaf?] using hr

/-! ## Blocks and containers -/

theorem yields_of_optional_word {leaf? : Option Leaf}
    (h : Production.optional word p = .matched leaf? q) :
    Yields p.rest leaf?.toList q.rest := by
  obtain ⟨leaf, hw, rfl⟩ | ⟨hu, rfl⟩ := optional_eq_matched.mp h
  · obtain ⟨text, line, rfl, hr⟩ := word_eq_matched hw
    rw [hr]
    exact .leaf [] (.refl _) (by simp [Token.sourceAll]; rfl) (by simp [Leaf.word]) rfl (.refl _)
      rfl
  · rw [rest_of_word_unmatched hu]
    exact .refl _

/-- A production of containers whose tokens are those of their leaves. -/
def YieldsContainers (container : Production Container) : Prop :=
  ∀ {p q : Parser} {c : Container}, container p = .matched c q →
    Yields p.rest (Part.leaves c.walk) q.rest

theorem yields_of_blockOf {container : Production Container} (hc : YieldsContainers container)
    {b : Block} (h : blockOf container p = .matched b q) :
    Yields p.rest (Part.leaves b.walk) q.rest := by
  obtain ⟨q, hb, rfl⟩ := attempt_eq_matched h
  simp only [bind_eq_matched, pure_apply, Reply.matched.injEq] at hb
  obtain ⟨⟨k, c⟩, p₁, h₁, name?, p₂, h₂, opening, p₃, h₃, inner, p₄, h₄, closing, p₅, h₅, rfl, rfl⟩
    := hb
  have hr := ((((yields_of_key h₁).trans (yields_of_optional_word h₂)).trans
    (yields_of_bracket h₃)).trans (hc h₄)).trans (yields_of_bracket h₅)
  simpa [Block.walk, Part.leaf?] using hr

theorem yields_of_itemOf {container : Production Container} (hc : YieldsContainers container)
    (hs : Scripted container) {item : Item} (h : itemOf container p = .matched item q) :
    Yields p.rest (Part.leaves item.walk) q.rest := by
  obtain ⟨b, hb, rfl⟩ | ⟨p₁, hrest, ⟨pair, hp, rfl⟩ | ⟨l, hl, rfl⟩⟩ := itemOf_eq_matched hs h
  · exact yields_of_blockOf hc hb
  · rw [← hrest]
    exact yields_of_pair hp
  · rw [← hrest]
    exact yields_of_listing hl

theorem yields_of_items {item : Production Item}
    (hi : ∀ {p q : Parser} {i : Item}, item p = .matched i q →
      Yields p.rest (Part.leaves i.walk) q.rest)
    {fuel : Nat} {list : List Item} (h : items item fuel p = .matched list q) :
    Yields p.rest (Part.leaves (Item.walkAll list)) q.rest := by
  induction fuel generalizing p list with
  | zero => simp [items, mismatch] at h
  | succ fuel ih =>
    obtain ⟨rfl, rfl⟩ | ⟨first, p₁, rest, hfirst, hrest, rfl⟩ := items_eq_matched h
    · exact .refl _
    · rw [Item.walkAll, Part.leaves_append]
      exact (hi hfirst).trans (ih hrest)

theorem yieldsContainers_containerWithin (fuel : Nat) :
    YieldsContainers (containerWithin fuel) := by
  induction fuel with
  | zero =>
    intro p q c h
    simp [containerWithin, mismatch] at h
  | succ fuel ih =>
    intro p q c h
    have hs := scriptedContainerWithin fuel
    obtain ⟨list, p₁, hlist, hrest, hc⟩ := containerOf_eq_matched (scriptedItemOf hs) h
    have hr := yields_of_items (yields_of_itemOf ih hs) hlist
    obtain ⟨items, topLevel⟩ := c
    rw [← Container.items_of hc, ← hrest] at hr
    exact hr

/-! ## Documents -/

/-- A document is read from trivia, the runs of its leaves, and trivia. -/
theorem yields_of_document {d : Document} {line : Nat} {tokens : List Token}
    (hp : p.rest = ⟨.streamStart, line⟩ :: tokens) (h : document p = .matched d q) :
    ∃ before run after, tokens = before ++ (run ++ (after ++ q.rest)) ∧
      (∀ t ∈ before, t.isTrivia = true) ∧ Token.sourceAll before = d.before ∧
      Covers d.leaves run ∧
      (∀ t ∈ after, t.isTrivia = true) ∧ Token.sourceAll after = d.after := by
  obtain ⟨p₁, p₂, p₃, p₄, rfl, -, h₁, h₂, h₃, hq, -⟩ := document_eq_matched hp h
  obtain ⟨before, hb, hbs, hbt⟩ := reads_of_trivia h₁
  obtain ⟨run, hr, hcovers⟩ := yieldsContainers_containerWithin _ h₂
  obtain ⟨after, ha, has, hat⟩ := reads_of_trivia h₃
  refine ⟨before, run, after, ?_, isTrivia_of_significant hbt, hbs, hcovers,
    isTrivia_of_significant hat, has⟩
  rw [hb, hr, ha, hq]

end Parser

/-- The tokens of a source that parses are those of its document: trivia, the runs of its leaves,
and trivia.  Together they are the source. -/
theorem leaves_of_parse {source : String} {d : Document} (h : parse source = .ok d) :
    ∃ before run after last, tokenize source =
        .ok (⟨.streamStart, 1⟩ :: (before ++ (run ++ (after ++ [⟨.streamEnd, last⟩])))) ∧
      Token.sourceAll (before ++ (run ++ after)) = source ∧
      (∀ t ∈ before, t.isTrivia = true) ∧ Token.sourceAll before = d.before ∧
      Covers d.leaves run ∧
      (∀ t ∈ after, t.isTrivia = true) ∧ Token.sourceAll after = d.after := by
  obtain ⟨body, last, q, ht, hspells, hq, hrest⟩ := document_of_parse h
  obtain ⟨⟨taken, hreads, -, hsig⟩, -⟩ :=
    Parser.reads_of_document (Parser.rest_ofTokens _) hq
  obtain ⟨before, run, after, hyields, hleaves⟩ :=
    Parser.yields_of_document (Parser.rest_ofTokens _) hq
  rw [hrest] at hreads hyields
  -- Both accounts of the document cover the body, up to the end of the stream.
  obtain rfl := List.append_cancel_right hreads
  obtain rfl : body = before ++ (run ++ after) :=
    List.append_cancel_right (hyields.trans (by simp))
  have hsource := String.toList_inj.mp (toList_sourceAll_of_phrases hspells hsig)
  exact ⟨before, run, after, last, by rw [ht]; simp, hsource, hleaves⟩

end LookML

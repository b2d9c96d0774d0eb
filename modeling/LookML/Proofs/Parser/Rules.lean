import LookML.Parser.Grammar
import LookML.Proofs.Parser.Script

/-!
# Rules — how the rules of the grammar are put together

Every rule has a script, so it keeps tokens and depth and never moves the cursor back.  A rule that
matches is taken apart into the rules that it tried: the loops over items and entries into one turn
and the rest, the choices into the alternative that matched.
-/

namespace LookML.Parser

open Production

variable {α : Type} {p q : Parser}

/-! ## Rules as scripts

Each script is put together as its rule is, so what a rule looks at and where it goes from there
can be read off its script.
-/

def scriptedTrivia : Scripted trivia := .readTrivia false

def scriptedLineTrivia : Scripted lineTrivia := .readTrivia true

def scriptedMark (m : Mark) : Scripted (mark m) := .take _

def scriptedWord : Scripted word := .take _

def scriptedComesNext (m : Mark) : Scripted (comesNext m) :=
  .looking (.compare (fun token => token.lexeme == .mark m) true) id

def scriptedAtStreamEnd : Scripted atStreamEnd :=
  .looking .nextSignificant (·.all fun token : Token => token.lexeme == .streamEnd)

def scriptedComma : Scripted comma :=
  .attempt _ <| .bind scriptedTrivia fun _ => .bind (scriptedMark _) fun _ =>
    .bind scriptedTrivia fun _ => .pure _

def scriptedKey : Scripted key :=
  .attempt _ <| .bind scriptedTrivia fun _ => .bind scriptedWord fun _ =>
    .bind scriptedTrivia fun _ => .bind (scriptedMark _) fun _ => .bind scriptedTrivia fun _ =>
      .pure _

def scriptedBracket (m : Mark) : Scripted (bracket m) :=
  .bind scriptedTrivia fun _ => .bind (scriptedMark _) fun _ => .bind scriptedLineTrivia fun _ =>
    .pure _

def scriptedExpressionEnd : Scripted expressionEnd := .take _

def scriptedLiteral : Scripted literal :=
  .bind (.looking .peek id) fun token? =>
    match token? with
    | none => .mismatch
    | some ⟨.word _, _⟩ => .bind .skip fun _ => .bind scriptedTrivia fun _ => .pure _
    | some ⟨.quoted _ _, _⟩ => .bind .skip fun _ => .bind scriptedLineTrivia fun _ => .pure _
    | some ⟨.expression _, _⟩ =>
      .bind .skip fun _ => .bind (.orFail scriptedExpressionEnd _) fun _ =>
        .bind scriptedLineTrivia fun _ => .pure _
    | some ⟨.streamStart, _⟩ | some ⟨.streamEnd, _⟩ | some ⟨.expressionEnd, _⟩
    | some ⟨.mark _, _⟩ | some ⟨.blanks _, _⟩ | some ⟨.breaks _, _⟩ | some ⟨.comment _, _⟩ =>
      .mismatch

def scriptedValue : Scripted value :=
  .attempt _ <| .bind scriptedTrivia fun _ => .bind scriptedLiteral fun _ => .pure _

def scriptedPair : Scripted pair :=
  .attempt _ <| .bind scriptedKey fun _ => .bind scriptedValue fun _ => .pure _

def scriptedPlainEntry (entry : ListEntry) : Scripted (plainEntry entry) where
  script :=
    if entry.valueLeaf.isExpression then
      (Scripted.looked .errorLine fun line =>
        .failAt .expressionInList (entry.valueLeaf.line?.getD line)).script
    else
      (Scripted.pure entry).script
  reply_eq := by
    funext p
    unfold plainEntry
    split <;> rfl

def scriptedListEntry : Scripted listEntry :=
  .bind (.orElse (.map _ scriptedPair) (.orFail (.map _ scriptedValue) _)) scriptedPlainEntry

def scriptedPick (as : ListEntry → Except Fault α) (entry : ListEntry) :
    Scripted (pick as entry) where
  script :=
    match as entry with
    | .ok value => (Scripted.pure value).script
    | .error fault => (Scripted.fail fault).script
  reply_eq := by
    unfold pick
    cases as entry with
    | ok value => exact (Scripted.pure value).reply_eq
    | error fault => exact (Scripted.fail fault).reply_eq

def scriptedBeforeStreamEnd : Scripted beforeStreamEnd :=
  .bind scriptedAtStreamEnd fun ends => .ite (ends = true) (.fail _) (.pure _)

def scriptedMoreEntries (as : ListEntry → Except Fault α) :
    (fuel : Nat) → Scripted (moreEntries as fuel)
  | 0 => .mismatch
  | fuel + 1 =>
    .bind (scriptedComesNext _) fun ends => .ite (ends = true) (.pure _) <|
      .bind scriptedBeforeStreamEnd fun _ => .bind (.orFail scriptedComma _) fun _ =>
        .bind (scriptedComesNext _) fun ends => .ite (ends = true) (.pure _) <|
          .bind scriptedBeforeStreamEnd fun _ => .bind scriptedListEntry fun _ =>
            .bind (scriptedPick _ _) fun _ => .bind (scriptedMoreEntries as fuel) fun _ => .pure _

def scriptedEntriesFrom (as : ListEntry → Except Fault α) (gather : List α → Entries)
    (first : α) : Scripted (entriesFrom as gather first) :=
  .bind (.looked .remaining fun fuel => scriptedMoreEntries as (fuel + 1)) fun _ => .pure _

def scriptedListValues : Scripted listValues :=
  .bind (scriptedComesNext _) fun ends => .ite (ends = true) (.pure _) <|
    .bind scriptedBeforeStreamEnd fun _ => .bind scriptedListEntry fun entry =>
      match entry with
      | .pair _ => scriptedEntriesFrom _ _ _
      | .value _ => scriptedEntriesFrom _ _ _

def scriptedListing : Scripted listing :=
  .attempt _ <| .bind scriptedKey fun _ => .bind scriptedTrivia fun _ =>
    .bind (scriptedMark _) fun _ => .bind (.optional scriptedComma) fun _ =>
      .bind scriptedListValues fun _ => .bind (scriptedBracket _) fun _ => .pure _

section blocks

variable {container : Production Container} {item : Production Item}

def scriptedBlockOf (h : Scripted container) : Scripted (blockOf container) :=
  .attempt _ <| .bind scriptedKey fun _ => .bind (.optional scriptedWord) fun _ =>
    .bind (scriptedBracket _) fun _ => .bind h fun _ => .bind (scriptedBracket _) fun _ => .pure _

def scriptedNoItem : Scripted (noItem : Production α) :=
  .looked .progressToken fun token? => .fail (.noItem ((token?.map found).getD "end of stream"))

def scriptedItemOf (h : Scripted container) : Scripted (itemOf container) :=
  .orElse (.map _ (scriptedBlockOf h)) <| .orElse (.map _ scriptedPair) <|
    .orElse (.map _ scriptedListing) scriptedNoItem

def scriptedAtContainerEnd : Scripted atContainerEnd :=
  .looking .nextSignificant (·.all fun token : Token =>
    token.lexeme == .streamEnd || token.lexeme == .mark .braceClose)

def scriptedItems (h : Scripted item) : (fuel : Nat) → Scripted (items item fuel)
  | 0 => .mismatch
  | fuel + 1 =>
    .bind scriptedAtContainerEnd fun ends => .ite (ends = true) (.pure _) <|
      .bind h fun _ => .bind (scriptedItems h fuel) fun _ => .pure _

def scriptedChecked (items : List Item) : Scripted (checked items) where
  script := .act (.look .depth) fun depth =>
    .stop (((Container.of items (depth == 1)).map some).mapError .duplicate)
  reply_eq := by
    funext p
    rw [Script.reply, Operation.act, Look.see, checked]
    cases Container.of items (p.depth == 1) <;> rfl

def scriptedContainerOf (h : Scripted item) : Scripted (containerOf item) :=
  .attempt _ <| .bind (.looked .remaining fun fuel => scriptedItems h (fuel + 1)) scriptedChecked

def scriptedContainerWithin : (fuel : Nat) → Scripted (containerWithin fuel)
  | 0 => .mismatch
  | fuel + 1 => scriptedContainerOf (scriptedItemOf (scriptedContainerWithin fuel))

end blocks

def scriptedContainer : Scripted container :=
  .looked .remaining fun fuel => scriptedContainerWithin (fuel + 1)

def scriptedNothingLeft : Scripted nothingLeft :=
  .bind (.looking .peek id) fun token? =>
    match token? with
    | none => .pure _
    | some token => .ite (token.lexeme ≠ .streamEnd) (.failAt _ _) (.pure _)

def scriptedDocument : Scripted document :=
  .bind (.looking .size id) fun _ => .bind (.record _) fun _ => .bind (.optional (.take _)) fun _ =>
    .bind scriptedTrivia fun _ => .bind scriptedContainer fun _ => .bind scriptedTrivia fun _ =>
      .bind scriptedNothingLeft fun _ => .bind (.record _) fun _ => .pure _

/-! ## Single tokens -/

theorem remaining_eq (p : Parser) : p.remaining = p.rest.length := by
  simp [remaining, rest]

theorem peek?_of_rest {t : Token} {tokens : List Token} (h : p.rest = t :: tokens) :
    p.peek? = some t := by
  rw [peek?_eq_head?, h, List.head?_cons]

theorem rest_seek_one {t : Token} {tokens : List Token} (h : p.rest = t :: tokens) :
    (p.seek 1).rest = tokens := by
  rw [rest_seek, h, List.drop_one, List.tail_cons]

theorem take_eq_matched {accept : Token → Option α} {a : α}
    (h : take accept p = .matched a q) : ∃ t, p.rest = t :: q.rest ∧ accept t = some a := by
  unfold take at h
  split at h
  · rename_i value hv
    obtain ⟨rfl, rfl⟩ := Reply.matched.inj h
    obtain ⟨t, ht, ha⟩ := Option.bind_eq_some_iff.mp hv
    rw [peek?_eq_head?, List.head?_eq_some_iff] at ht
    obtain ⟨ys, hys⟩ := ht
    exact ⟨t, by rw [rest_seek, hys, List.drop_one, List.tail_cons], ha⟩
  · simp at h

theorem take_eq_unmatched {accept : Token → Option α} (h : take accept p = .unmatched q) :
    q = p := by
  unfold take at h
  split at h
  · simp at h
  · exact (Reply.unmatched.inj h).symm

theorem mark_eq_matched {m : Mark} {line : Nat} (h : mark m p = .matched line q) :
    p.rest = ⟨.mark m, line⟩ :: q.rest := by
  obtain ⟨⟨lexeme, l⟩, hr, ha⟩ := take_eq_matched h
  obtain ⟨rfl, rfl⟩ : lexeme = .mark m ∧ l = line := by simpa using ha
  exact hr

theorem word_eq_matched {leaf : Leaf} (h : word p = .matched leaf q) :
    ∃ text line, leaf = { Leaf.word text with line? := some line } ∧
      p.rest = ⟨.word text, line⟩ :: q.rest := by
  obtain ⟨⟨lexeme, line⟩, hr, ha⟩ := take_eq_matched h
  cases lexeme <;> simp only [Option.some.injEq, reduceCtorEq] at ha
  exact ⟨_, line, ha.symm, hr⟩

theorem rest_of_word_unmatched (h : word p = .unmatched q) : q.rest = p.rest := by
  rw [take_eq_unmatched h]

theorem expressionEnd_eq_matched {u : Unit} (h : expressionEnd p = .matched u q) :
    ∃ line, p.rest = ⟨.expressionEnd, line⟩ :: q.rest := by
  obtain ⟨⟨lexeme, line⟩, hr, ha⟩ := take_eq_matched h
  by_cases he : lexeme = .expressionEnd
  · exact ⟨line, he ▸ hr⟩
  · simp [he] at ha

/-! ## Values -/

theorem literal_of_rest {t : Token} {tokens : List Token} (h : p.rest = t :: tokens) :
    literal p = match t.lexeme with
      | .word text =>
        .matched { Leaf.word text with
          after := ((p.seek 1).readTrivia false).1, line? := some t.line }
          ((p.seek 1).readTrivia false).2
      | .quoted raw text =>
        .matched { Leaf.quotedRaw text raw with
          after := ((p.seek 1).readTrivia true).1, line? := some t.line }
          ((p.seek 1).readTrivia true).2
      | .expression text =>
        (orFail expressionEnd .openExpression >>= fun _ => lineTrivia >>= fun after =>
          pure { Leaf.expressionOf text with after, line? := some t.line }) (p.seek 1)
      | _ => .unmatched p := by
  unfold literal
  rw [bind_of_matched (show looking peek? p = .matched (some t) p by
    rw [looking, peek?_of_rest h])]
  cases t with
  | mk lexeme line => cases lexeme <;> rfl

theorem literal_of_nil (h : p.rest = []) : literal p = .unmatched p := by
  unfold literal
  rw [bind_of_matched (show looking peek? p = .matched none p by
    rw [looking, peek?_eq_head?, h, List.head?_nil])]
  rfl

/-- The forms of a value, each with the tokens that it is read from. -/
inductive LiteralCase (p : Parser) : Leaf → Parser → Prop where
  | word {text after : String} {line : Nat} {p₁ q : Parser}
      (rest_eq : p.rest = ⟨.word text, line⟩ :: p₁.rest)
      (trivia_eq : trivia p₁ = .matched after q) :
      LiteralCase p { Leaf.word text with after, line? := some line } q
  | quoted {raw text after : String} {line : Nat} {p₁ q : Parser}
      (rest_eq : p.rest = ⟨.quoted raw text, line⟩ :: p₁.rest)
      (trivia_eq : lineTrivia p₁ = .matched after q) :
      LiteralCase p { Leaf.quotedRaw text raw with after, line? := some line } q
  | expression {text after : String} {line last : Nat} {p₁ q : Parser}
      (rest_eq : p.rest = ⟨.expression text, line⟩ :: ⟨.expressionEnd, last⟩ :: p₁.rest)
      (trivia_eq : lineTrivia p₁ = .matched after q) :
      LiteralCase p { Leaf.expressionOf text with after, line? := some line } q

theorem literal_eq_matched {leaf : Leaf} (h : literal p = .matched leaf q) :
    LiteralCase p leaf q := by
  cases hp : p.rest with
  | nil => simp [literal_of_nil hp] at h
  | cons t tokens =>
    have hs := rest_seek_one hp
    rw [literal_of_rest hp] at h
    obtain ⟨lexeme, line⟩ := t
    cases lexeme <;> simp only [Reply.matched.injEq, reduceCtorEq] at h
    case word text =>
      obtain ⟨rfl, rfl⟩ := h
      exact .word (hp.trans (hs ▸ rfl)) rfl
    case quoted raw text =>
      obtain ⟨rfl, rfl⟩ := h
      exact .quoted (hp.trans (hs ▸ rfl)) rfl
    case expression text =>
      simp only [bind_eq_matched, pure_apply, Reply.matched.injEq] at h
      obtain ⟨u, p₁, h₁, after, p₂, h₂, rfl, rfl⟩ := h
      obtain ⟨last, he⟩ := expressionEnd_eq_matched (orFail_eq_matched.mp h₁)
      rw [hs] at he
      exact .expression (he ▸ hp) h₂

/-! ## Lists -/

theorem plainEntry_eq_matched {entry e : ListEntry} (h : plainEntry entry p = .matched e q) :
    entry.valueLeaf.isExpression = false ∧ e = entry ∧ q = p := by
  unfold plainEntry at h
  split at h
  · simp [failAt] at h
  · rename_i hx
    obtain ⟨rfl, rfl⟩ := Reply.matched.inj h
    exact ⟨by simpa using hx, rfl, rfl⟩

/-- An entry is read as a pair, or from the same place as a value; its value is no expression. -/
theorem listEntry_eq_matched {entry : ListEntry} (h : listEntry p = .matched entry q) :
    entry.valueLeaf.isExpression = false ∧
      ((∃ pair, Parser.pair p = .matched pair q ∧ entry = .pair pair) ∨
        ∃ p₁ leaf, p₁.rest = p.rest ∧ value p₁ = .matched leaf q ∧ entry = .value leaf) := by
  unfold listEntry at h
  obtain ⟨e, p₁, h₁, h₂⟩ := bind_eq_matched.mp h
  obtain ⟨hx, rfl, rfl⟩ := plainEntry_eq_matched h₂
  rw [orElse_eq_matched] at h₁
  simp only [map_eq_matched, map_eq_unmatched, orFail_eq_matched] at h₁
  refine ⟨hx, h₁.imp_right ?_⟩
  rintro ⟨p₀, hu, leaf, hv, rfl⟩
  exact ⟨p₀, leaf, rest_of_attempt_unmatched scriptedPair hu, hv, rfl⟩

theorem pick_eq_matched {as : ListEntry → Except Fault α} {entry : ListEntry} {a : α}
    (h : pick as entry p = .matched a q) : as entry = .ok a ∧ q = p := by
  unfold pick at h
  cases hv : as entry with
  | ok value =>
    rw [hv] at h
    obtain ⟨rfl, rfl⟩ := Reply.matched.inj h
    exact ⟨rfl, rfl⟩
  | error fault => simp [hv, fail] at h

theorem asPair_eq_ok {entry : ListEntry} {pair : Pair} (h : entry.asPair = .ok pair) :
    entry = .pair pair := by
  cases entry <;> simp only [ListEntry.asPair, Except.ok.injEq, reduceCtorEq] at h
  rw [h]

theorem asValue_eq_ok {entry : ListEntry} {leaf : Leaf} (h : entry.asValue = .ok leaf) :
    entry = .value leaf := by
  cases entry <;> simp only [ListEntry.asValue, Except.ok.injEq, reduceCtorEq] at h
  rw [h]

theorem beforeStreamEnd_eq_matched {u : Unit} (h : beforeStreamEnd p = .matched u q) : q = p := by
  obtain ⟨ends, p₁, h₁, h₂⟩ := bind_eq_matched.mp h
  obtain ⟨-, rfl⟩ := Reply.matched.inj h₁
  cases ends with
  | true => simp [fail] at h₂
  | false => exact (Reply.matched.inj h₂).2.symm

/-- A list goes on with nothing, with a comma that ends it, or with a comma and an entry. -/
theorem moreEntries_eq_matched {as : ListEntry → Except Fault α} {fuel : Nat}
    {more : List (Leaf × α)} {trailing? : Option Leaf}
    (h : moreEntries as (fuel + 1) p = .matched (more, trailing?) q) :
    (more = [] ∧ trailing? = none ∧ q = p) ∨
      (∃ leaf, comma p = .matched leaf q ∧ more = [] ∧ trailing? = some leaf) ∨
        ∃ leaf p₁ entry p₂ a rest, comma p = .matched leaf p₁ ∧
          listEntry p₁ = .matched entry p₂ ∧ as entry = .ok a ∧
          moreEntries as fuel p₂ = .matched (rest, trailing?) q ∧ more = (leaf, a) :: rest := by
  obtain ⟨ends, p₁, h₁, h₂⟩ := bind_eq_matched.mp h
  obtain ⟨-, rfl⟩ := Reply.matched.inj h₁
  cases ends with
  | true =>
    cases h₂
    exact .inl ⟨rfl, rfl, rfl⟩
  | false =>
    -- No bracket comes next, so there is a comma or an error.
    obtain ⟨u, p₂, h₃, h₄⟩ := bind_eq_matched.mp h₂
    obtain rfl := beforeStreamEnd_eq_matched h₃
    obtain ⟨leaf, p₃, h₅, h₆⟩ := bind_eq_matched.mp h₄
    have hc := orFail_eq_matched.mp h₅
    obtain ⟨ends, p₄, h₇, h₈⟩ := bind_eq_matched.mp h₆
    obtain ⟨-, rfl⟩ := Reply.matched.inj h₇
    cases ends with
    | true =>
      cases h₈
      exact .inr (.inl ⟨leaf, hc, rfl, rfl⟩)
    | false =>
      -- Nor does one come behind the comma, so there is an entry.
      simp only [Bool.false_eq_true, if_false, bind_eq_matched, pure_apply, Reply.matched.injEq,
        Prod.mk.injEq] at h₈
      obtain ⟨u, p₅, h₉, entry, p₆, h₁₀, a, p₇, h₁₁, ⟨rest, t⟩, p₈, h₁₂, ⟨rfl, rfl⟩, rfl⟩ := h₈
      obtain rfl := beforeStreamEnd_eq_matched h₉
      obtain ⟨ha, rfl⟩ := pick_eq_matched h₁₁
      exact .inr (.inr ⟨leaf, _, entry, _, a, rest, hc, h₁₀, ha, h₁₂, rfl⟩)

theorem entriesFrom_eq_matched {as : ListEntry → Except Fault α} {gather : List α → Entries}
    {first : α} {v : ListValues} (h : entriesFrom as gather first p = .matched v q) :
    ∃ more : List (Leaf × α), moreEntries as (p.remaining + 1) p = .matched (more, v.trailing?) q ∧
      v.entries = gather (first :: more.map Prod.snd) ∧ v.separators = more.map Prod.fst := by
  obtain ⟨⟨more, trailing?⟩, p₁, h₁, h₂⟩ := bind_eq_matched.mp h
  cases h₂
  exact ⟨more, h₁, rfl, rfl⟩

/-- A list is empty, or the kind of its first entry is the kind of all. -/
theorem listValues_eq_matched {v : ListValues} (h : listValues p = .matched v q) :
    (v = ⟨.values [], [], none⟩ ∧ q = p) ∨
      (∃ first p₁, listEntry p = .matched (.pair first) p₁ ∧
        entriesFrom ListEntry.asPair .pairs first p₁ = .matched v q) ∨
        ∃ first p₁, listEntry p = .matched (.value first) p₁ ∧
          entriesFrom ListEntry.asValue .values first p₁ = .matched v q := by
  obtain ⟨ends, p₁, h₁, h₂⟩ := bind_eq_matched.mp h
  obtain ⟨-, rfl⟩ := Reply.matched.inj h₁
  cases ends with
  | true =>
    cases h₂
    exact .inl ⟨rfl, rfl⟩
  | false =>
    obtain ⟨u, p₂, h₃, h₄⟩ := bind_eq_matched.mp h₂
    obtain rfl := beforeStreamEnd_eq_matched h₃
    obtain ⟨entry, p₃, h₅, h₆⟩ := bind_eq_matched.mp h₄
    cases entry with
    | pair first => exact .inr (.inl ⟨first, p₃, h₅, h₆⟩)
    | value first => exact .inr (.inr ⟨first, p₃, h₅, h₆⟩)

theorem optional_comma_eq_matched {leaf? : Option Leaf}
    (h : Production.optional comma p = .matched leaf? q) :
    (∃ leaf, comma p = .matched leaf q ∧ leaf? = some leaf) ∨
      (q.rest = p.rest ∧ leaf? = none) :=
  (optional_eq_matched.mp h).imp_right <| And.imp_left <|
    rest_of_attempt_unmatched scriptedComma

/-! ## Items and containers -/

/-- An item is a block, or from the same place a pair or a list. -/
theorem itemOf_eq_matched {container : Production Container} (hc : Scripted container)
    {item : Item} (h : itemOf container p = .matched item q) :
    (∃ block, blockOf container p = .matched block q ∧ item = .block block) ∨
      ∃ p₁, p₁.rest = p.rest ∧
        ((∃ pair, Parser.pair p₁ = .matched pair q ∧ item = .pair pair) ∨
          ∃ list, listing p₁ = .matched list q ∧ item = .listing list) := by
  unfold itemOf at h
  simp only [orElse_eq_matched, map_eq_matched, map_eq_unmatched] at h
  -- Where a rule does not match, the next one starts where it did.
  obtain hb | ⟨p₁, hu, hp | ⟨p₂, hu', hl | ⟨p₃, -, hn⟩⟩⟩ := h
  · exact .inl hb
  · exact .inr ⟨p₁, rest_of_attempt_unmatched (scriptedBlockOf hc) hu, .inl hp⟩
  · exact .inr ⟨p₂, (rest_of_attempt_unmatched scriptedPair hu').trans
      (rest_of_attempt_unmatched (scriptedBlockOf hc) hu), .inr hl⟩
  · simp [noItem, fail] at hn

theorem items_eq_matched {item : Production Item} {fuel : Nat} {list : List Item}
    (h : items item (fuel + 1) p = .matched list q) :
    (list = [] ∧ q = p) ∨
      ∃ first p₁ rest, item p = .matched first p₁ ∧ items item fuel p₁ = .matched rest q ∧
        list = first :: rest := by
  obtain ⟨ends, p₁, h₁, h₂⟩ := bind_eq_matched.mp h
  obtain ⟨-, rfl⟩ := Reply.matched.inj h₁
  cases ends with
  | true =>
    cases h₂
    exact .inl ⟨rfl, rfl⟩
  | false =>
    simp only [Bool.false_eq_true, if_false, bind_eq_matched, pure_apply,
      Reply.matched.injEq] at h₂
    obtain ⟨first, p₂, h₃, rest, p₃, h₄, rfl, rfl⟩ := h₂
    exact .inr ⟨first, p₂, rest, h₃, h₄, rfl⟩

theorem checked_eq_matched {list : List Item} {c : Container}
    (h : checked list p = .matched c q) : Container.of list (p.depth == 1) = .ok c ∧ q = p := by
  unfold checked at h
  split at h
  · rename_i container hc
    obtain ⟨rfl, rfl⟩ := Reply.matched.inj h
    exact ⟨hc, rfl⟩
  · simp at h

/-- A container is made of the items that are read, and is the root if nothing is around it. -/
theorem containerOf_eq_matched {item : Production Item} (hi : Scripted item) {c : Container}
    (h : containerOf item p = .matched c q) :
    ∃ list p₁, items item ((p.enter "container").remaining + 1) (p.enter "container") =
        .matched list p₁ ∧ q.rest = p₁.rest ∧ Container.of list (p.depth == 0) = .ok c := by
  obtain ⟨q, hb, rfl⟩ := attempt_eq_matched h
  obtain ⟨list, p₁, h₁, h₂⟩ := bind_eq_matched.mp hb
  obtain ⟨hc, rfl⟩ := checked_eq_matched h₂
  have hd : q.depth = p.depth + 1 := ((scriptedItems hi _).kept h₁).2
  exact ⟨list, q, h₁, rfl, by simpa [hd] using hc⟩

end LookML.Parser

import LookML.Parse
import LookML.Proofs.Parser.Reply

/-!
# Blame — a parser that fails points to a line of its tokens

A production that fails names a line: of the farthest token, of the token or the value it stumbles
over, or of the key that is there again.  All of them are lines of tokens, for every item has the
line of its key.  `Blames` says so of a production together with what it makes, in terms of any
property of lines that the first line has and the lines of the tokens.
-/

namespace LookML

/-- Whether an error points to a line that has `P`. -/
def ParseError.PointsTo (P : Nat → Prop) (e : ParseError) : Prop :=
  ∃ line, e.line? = some line ∧ P line

/-- Whether a leaf is read from a line that has `P`. -/
def Leaf.ReadOn (P : Nat → Prop) (leaf : Leaf) : Prop :=
  ∃ line, leaf.line? = some line ∧ P line

theorem Container.mem_of_firstRepeat? {seen : List String} {items : List Item} {item : Item}
    (h : firstRepeat? seen items = some item) : item ∈ items := by
  -- The keys seen so far grow along the items.
  induction items generalizing seen with
  | nil => cases h
  | cons first rest ih =>
    rw [firstRepeat?] at h
    split at h
    · obtain rfl := Option.some.inj h
      exact List.mem_cons_self
    · exact List.mem_cons_of_mem _ (ih h)

/-- A repeated key is that of an item. -/
theorem Container.exists_of_eq_error {items : List Item} {topLevel : Bool} {e : DuplicateKey}
    (h : Container.of items topLevel = .error e) : ∃ item ∈ items, e = ⟨item.key, item.line?⟩ := by
  unfold Container.of at h
  split at h
  · cases h
  · cases hr : firstRepeat? [] items with
    | none => simp [hr] at h
    | some item =>
      rw [hr] at h
      exact ⟨item, mem_of_firstRepeat? hr, (Except.error.inj h).symm⟩

namespace Parser

open Production

variable {P : Nat → Prop} {α β : Type}

/-- The first line has `P`, and so have the lines that the tokens of a parser are on. -/
structure StandsOn (P : Nat → Prop) (p : Parser) : Prop where
  first : P 1
  tokens (i : Nat) (token : Token) : p.tokens[i]? = some token → P token.line

/-- Whether a reply leaves the parser on lines that have `P`, and points to one of them if it is a
failure.  A result has `post`. -/
def Reply.Blames (P : Nat → Prop) (post : α → Prop) : Reply α → Prop
  | matched a q => StandsOn P q ∧ post a
  | unmatched q => StandsOn P q
  | failed e _ => e.PointsTo P

/-- Whether a production has only such replies where the tokens are on lines that have `P`. -/
def Blames (P : Nat → Prop) (x : Production α) (post : α → Prop) : Prop :=
  ∀ p, StandsOn P p → (x p).Blames P post

/-! ## Ways to combine productions -/

/-- Only the tokens of a parser matter. -/
theorem StandsOn.congr {p q : Parser} (hp : StandsOn P p) (h : q.tokens = p.tokens) :
    StandsOn P q :=
  ⟨hp.first, by simpa only [h] using hp.tokens⟩

theorem StandsOn.errorLine {p : Parser} (hp : StandsOn P p) : P p.errorLine := by
  unfold Parser.errorLine progressToken?
  split
  · rename_i token ht
    exact hp.tokens _ token ht
  · exact hp.first

namespace Blames

variable {x y : Production α} {f : α → Production β} {post : α → Prop} {next : β → Prop}

theorem pure {a : α} (h : post a) : Blames P (pure a) post :=
  fun _ hp => ⟨hp, h⟩

theorem bind (hx : Blames P x post) (hf : ∀ a, post a → Blames P (f a) next) :
    Blames P (x >>= f) next := by
  intro p hp
  have hreply := hx p hp
  cases hr : x p with
  | matched a q =>
    rw [hr] at hreply
    rw [bind_of_matched hr]
    exact hf a hreply.2 q hreply.1
  | unmatched q =>
    rw [hr] at hreply
    rwa [bind_of_unmatched hr]
  | failed e q =>
    rw [hr] at hreply
    rwa [bind_of_failed hr]

theorem map (hx : Blames P x post) {g : α → β} (h : ∀ a, post a → next (g a)) :
    Blames P (g <$> x) next :=
  hx.bind fun a ha => .pure (h a ha)

theorem mismatch : Blames P (Production.mismatch : Production α) post :=
  fun _ hp => hp

theorem failAt (fault : Fault) {line : Nat} (h : P line) :
    Blames P (Production.failAt fault line : Production α) post :=
  fun _ _ => ⟨line, rfl, h⟩

theorem fail (fault : Fault) : Blames P (Production.fail fault : Production α) post :=
  fun p hp => ⟨p.errorLine, rfl, hp.errorLine⟩

theorem looking {f : Parser → α} (h : ∀ p, StandsOn P p → post (f p)) :
    Blames P (Production.looking f) post :=
  fun p hp => ⟨hp, h p hp⟩

theorem look (f : Parser → α) : Blames P (Production.looking f) fun _ => True :=
  .looking fun _ _ => trivial

theorem peek : Blames P (Production.looking (·.peek?)) fun token? =>
    ∀ token ∈ token?, P token.line :=
  .looking fun p hp token ht => hp.tokens p.index token ht

/-- A production may be chosen by what is seen at its start. -/
theorem looked {g : β → Production α} (f : Parser → β) (hg : ∀ b, Blames P (g b) post) :
    Blames P (fun p => g (f p) p) post :=
  fun p hp => hg (f p) p hp

theorem skip : Blames P Production.skip fun _ => True :=
  fun _ hp => ⟨hp.congr rfl, trivial⟩

theorem record (entry : Entry) : Blames P (Production.record entry) fun _ => True :=
  fun _ hp => ⟨hp.congr rfl, trivial⟩

theorem trivia : Blames P Production.trivia fun _ => True :=
  fun _ hp => ⟨hp.congr rfl, trivial⟩

theorem lineTrivia : Blames P Production.lineTrivia fun _ => True :=
  fun _ hp => ⟨hp.congr rfl, trivial⟩

theorem take {accept : Token → Option α}
    (h : ∀ token a, P token.line → accept token = some a → post a) :
    Blames P (Production.take accept) post := by
  intro p hp
  rw [Production.take]
  cases ht : p.peek? with
  | none => exact hp
  | some token =>
    rw [Option.bind_some]
    cases ha : accept token with
    | none => exact hp
    | some a => exact ⟨hp.congr rfl, h token a (hp.tokens _ token ht) ha⟩

theorem orElse (hx : Blames P x post) (hy : Blames P y post) : Blames P (x.orElse y) post := by
  intro p hp
  have hreply := hx p hp
  cases hr : x p with
  | matched a q =>
    rw [hr] at hreply
    rwa [orElse_of_matched hr]
  | unmatched q =>
    rw [hr] at hreply
    rw [orElse_of_unmatched hr]
    exact hy q hreply
  | failed e q =>
    rw [hr] at hreply
    rwa [orElse_of_failed hr]

theorem orFail (hx : Blames P x post) (fault : Fault) : Blames P (x.orFail fault) post :=
  hx.orElse (.fail fault)

theorem optional (hx : Blames P x post) :
    Blames P (Production.optional x) fun a? => ∀ a ∈ a?, post a := by
  intro p hp
  have hreply := hx p hp
  unfold Production.optional
  cases hr : x p with
  | matched a q =>
    rw [hr] at hreply
    exact ⟨hreply.1, by simpa using hreply.2⟩
  | unmatched q =>
    rw [hr] at hreply
    exact ⟨hreply, by simp⟩
  | failed e q => rwa [hr] at hreply

/-- An attempt keeps the tokens, also where it goes back to its start. -/
theorem attempt (rule : String) (hx : Blames P x post) :
    Blames P (Production.attempt rule x) post := by
  intro p hp
  have hreply := hx (p.enter rule) (hp.congr rfl)
  cases hr : x (p.enter rule) with
  | matched a q =>
    rw [hr] at hreply
    rw [attempt_of_matched hr]
    exact ⟨hreply.1.congr rfl, hreply.2⟩
  | unmatched q =>
    rw [hr] at hreply
    rw [attempt_of_unmatched hr]
    exact StandsOn.congr hreply rfl
  | failed e q =>
    rw [hr] at hreply
    rwa [attempt_of_failed hr]

end Blames

/-! ## The rules of the grammar -/

theorem blames_mark (m : Mark) : Blames P (mark m) fun _ => True :=
  .take fun _ _ _ _ => trivial

theorem blames_word : Blames P word (Leaf.ReadOn P) := by
  refine .take fun token leaf ht ha => ?_
  split at ha
  · obtain rfl := Option.some.inj ha
    exact ⟨token.line, rfl, ht⟩
  · cases ha

theorem blames_comma : Blames P comma fun _ => True :=
  .attempt _ <| .bind .trivia fun _ _ => .bind (blames_mark _) fun _ _ =>
    .bind .trivia fun _ _ => .pure trivial

/-- A key has the line of its word. -/
theorem blames_key : Blames P key fun kc => kc.1.ReadOn P :=
  .attempt _ <| .bind .trivia fun _ _ => .bind blames_word fun _ hk => .bind .trivia fun _ _ =>
    .bind (blames_mark _) fun _ _ => .bind .trivia fun _ _ => .pure hk

theorem blames_bracket (m : Mark) : Blames P (bracket m) fun _ => True :=
  .bind .trivia fun _ _ => .bind (blames_mark _) fun _ _ => .bind .lineTrivia fun _ _ =>
    .pure trivial

theorem blames_literal : Blames P literal (Leaf.ReadOn P) := by
  refine .bind .peek fun token? ht => ?_
  rcases token? with _ | ⟨lexeme, line⟩
  · exact .mismatch
  -- The leaf has the line of the token that was seen, not of what is read after it.
  have hline : P line := ht _ rfl
  cases lexeme
  case word => exact .bind .skip fun _ _ => .bind .trivia fun _ _ => .pure ⟨line, rfl, hline⟩
  case quoted => exact .bind .skip fun _ _ => .bind .lineTrivia fun _ _ => .pure ⟨line, rfl, hline⟩
  case expression =>
    exact .bind .skip fun _ _ => .bind (.orFail (.take fun _ _ _ _ => trivial) _) fun _ _ =>
      .bind .lineTrivia fun _ _ => .pure ⟨line, rfl, hline⟩
  all_goals exact .mismatch

theorem blames_value : Blames P value (Leaf.ReadOn P) :=
  .attempt _ <| .bind .trivia fun _ _ => .bind blames_literal fun _ hv => .pure hv

theorem blames_pair :
    Blames P pair fun pair => pair.key.ReadOn P ∧ pair.value.ReadOn P :=
  .attempt _ <| .bind blames_key fun _ hk => .bind blames_value fun _ hv => .pure ⟨hk, hv⟩

/-- An entry is refused on the line of its value. -/
theorem blames_plainEntry {entry : ListEntry} (he : entry.valueLeaf.ReadOn P) :
    Blames P (plainEntry entry) fun _ => True := by
  -- The value was read, so its own line is the one that is named.
  obtain ⟨line, hline, hP⟩ := he
  unfold plainEntry
  rw [hline]
  intro p hp
  dsimp only
  split
  · exact ⟨line, rfl, hP⟩
  · exact ⟨hp, trivial⟩

theorem blames_listEntry : Blames P listEntry fun _ => True := by
  have hpair : Blames P (ListEntry.pair <$> pair) fun entry => entry.valueLeaf.ReadOn P :=
    .map blames_pair fun _ h => h.2
  have hvalue : Blames P (ListEntry.value <$> value) fun entry => entry.valueLeaf.ReadOn P :=
    .map blames_value fun _ h => h
  exact .bind (.orElse hpair (.orFail hvalue _)) fun _ he => blames_plainEntry he

theorem blames_pick (as : ListEntry → Except Fault α) (entry : ListEntry) :
    Blames P (pick as entry) fun _ => True := by
  unfold pick
  split
  · exact .pure trivial
  · exact .fail _

theorem blames_beforeStreamEnd : Blames P beforeStreamEnd fun _ => True := by
  refine .bind (.look _) fun ends _ => ?_
  cases ends
  · exact .pure trivial
  · exact .fail _

theorem blames_moreEntries (as : ListEntry → Except Fault α) (fuel : Nat) :
    Blames P (moreEntries as fuel) fun _ => True := by
  induction fuel with
  | zero => exact .mismatch
  | succ fuel ih =>
    refine .bind (.look _) fun ends _ => ?_
    cases ends with
    | true => exact .pure trivial
    | false =>
      refine .bind blames_beforeStreamEnd fun _ _ => .bind (.orFail blames_comma _)
        fun _ _ => .bind (.look _) fun ends _ => ?_
      cases ends with
      | true => exact .pure trivial
      | false =>
        exact .bind blames_beforeStreamEnd fun _ _ => .bind blames_listEntry fun _ _ =>
          .bind (blames_pick _ _) fun _ _ => .bind ih fun _ _ => .pure trivial

theorem blames_entriesFrom (as : ListEntry → Except Fault α) (gather : List α → Entries)
    (first : α) : Blames P (entriesFrom as gather first) fun _ => True :=
  .bind (.looked (·.remaining + 1) (blames_moreEntries as)) fun _ _ => .pure trivial

theorem blames_listValues : Blames P listValues fun _ => True := by
  refine .bind (.look _) fun ends _ => ?_
  cases ends with
  | true => exact .pure trivial
  | false =>
    refine .bind blames_beforeStreamEnd fun _ _ => .bind blames_listEntry
      fun entry _ => ?_
    cases entry <;> exact blames_entriesFrom _ _ _

theorem blames_listing : Blames P listing fun list => list.key.ReadOn P :=
  .attempt _ <| .bind blames_key fun _ hk => .bind .trivia fun _ _ =>
    .bind (blames_mark _) fun _ _ => .bind (.optional blames_comma) fun _ _ =>
      .bind blames_listValues fun _ _ => .bind (blames_bracket _) fun _ _ => .pure hk

theorem blames_blockOf {container : Production Container}
    (hc : Blames P container fun _ => True) :
    Blames P (blockOf container) fun block => block.key.ReadOn P :=
  .attempt _ <| .bind blames_key fun _ hk => .bind (.optional blames_word) fun _ _ =>
    .bind (blames_bracket _) fun _ _ => .bind hc fun _ _ => .bind (blames_bracket _) fun _ _ =>
      .pure hk

theorem blames_itemOf {container : Production Container}
    (hc : Blames P container fun _ => True) :
    Blames P (itemOf container) fun item => item.keyLeaf.ReadOn P :=
  .orElse (.map (blames_blockOf hc) fun _ h => h) <|
    .orElse (.map blames_pair fun _ h => h.1) <|
      .orElse (.map blames_listing fun _ h => h) <|
        .looked progressToken? fun token? =>
          .fail (.noItem ((token?.map found).getD "end of stream"))

theorem blames_items {item : Production Item}
    (hi : Blames P item fun item => item.keyLeaf.ReadOn P) (fuel : Nat) :
    Blames P (items item fuel) fun list => ∀ item ∈ list, item.keyLeaf.ReadOn P := by
  induction fuel with
  | zero => exact .mismatch
  | succ fuel ih =>
    refine .bind (.look _) fun ends _ => ?_
    cases ends with
    | true => exact .pure (by simp)
    | false =>
      exact .bind hi fun _ hfirst => .bind ih fun _ hrest =>
        .pure (List.forall_mem_cons.mpr ⟨hfirst, hrest⟩)

/-- A repeated key is on the line of its item. -/
theorem blames_checked {list : List Item} (h : ∀ item ∈ list, item.keyLeaf.ReadOn P) :
    Blames P (checked list) fun _ => True := by
  intro p hp
  unfold checked
  cases hc : Container.of list (p.depth == 1) with
  | ok container => exact ⟨hp, trivial⟩
  | error e =>
    obtain ⟨item, hitem, rfl⟩ := Container.exists_of_eq_error hc
    exact h item hitem

theorem blames_containerWithin (fuel : Nat) :
    Blames P (containerWithin fuel) fun _ => True := by
  induction fuel with
  | zero => exact .mismatch
  | succ fuel ih =>
    exact .attempt _ <| .bind (.looked (·.remaining + 1) (blames_items (blames_itemOf ih)))
      fun _ hlist => blames_checked hlist

theorem blames_nothingLeft : Blames P nothingLeft fun _ => True := by
  refine .bind .peek fun token? ht => ?_
  rcases token? with _ | token
  · exact .pure trivial
  · dsimp only
    split
    · exact .failAt _ (ht token rfl)
    · exact .pure trivial

theorem blames_document : Blames P document fun _ => True := by
  refine .bind (.look _) fun _ _ => .bind (.record _) fun _ _ =>
    .bind (.optional (.take fun _ _ _ _ => trivial)) fun _ _ => .bind .trivia fun _ _ =>
      .bind (.looked (·.remaining + 1) blames_containerWithin) fun _ _ =>
        .bind .trivia fun _ _ => .bind blames_nothingLeft fun _ _ =>
          .bind (.record _) fun _ _ => .pure trivial

end Parser

/-- A sequence of tokens that is no document is refused on a line of one of them. -/
theorem pointsTo_of_parseTokens {P : Nat → Prop} (h1 : P 1) {tokens : List Token}
    (ht : ∀ token ∈ tokens, P token.line) {e : ParseError}
    (h : (parseTokens tokens).1 = .error e) : e.PointsTo P := by
  have hstands : Parser.StandsOn P (.ofTokens tokens) := by
    refine ⟨h1, fun i token htoken => ht token ?_⟩
    exact List.mem_of_getElem? (by simpa [Parser.ofTokens] using htoken)
  have hreply := Parser.blames_document _ hstands
  unfold parseTokens at h
  cases hr : Parser.document (.ofTokens tokens) with
  | matched d q => simp [hr] at h
  | failed e' q =>
    rw [hr] at h hreply
    obtain rfl := Except.error.inj h
    exact hreply
  | unmatched q =>
    -- A document that does not match is an error at the farthest token.
    rw [hr] at h hreply
    obtain rfl := Except.error.inj h
    exact ⟨_, rfl, Parser.StandsOn.errorLine hreply⟩

end LookML

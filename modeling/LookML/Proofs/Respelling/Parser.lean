import LookML.Proofs.Parser.Reply
import LookML.Proofs.Respelling.Scan
import LookML.Proofs.Respelling.Tree

/-!
# Respelled parses — respelled tokens are parsed as the respelled tree

No production looks at more of a token than its kind, its line and its text, and what it makes of
the texts commutes with respelling.  So a production that reads respelled tokens takes the same
path, and answers with the respelled value, with no match, or with an error of the same kind.
-/

namespace LookML

/-! ## Errors -/

/-- A fault without the text of the token that it found. -/
def Fault.kind : Fault → Fault
  | noValue _ => noValue ""
  | noItem _ => noItem ""
  | leftOver _ => leftOver ""
  | fault => fault

/-- Whether an error is the same as another in a respelled source: of the same kind, on the same
line and over the same key. -/
inductive ParseError.Respelled (r : Respelling) : ParseError → ParseError → Prop where
  | lexical (e : LexError) : Respelled r (.lexical e) (.lexical e)
  | grammatical {e e' : SyntaxError} (line : e'.line = e.line)
      (kind : e'.fault.kind = e.fault.kind) : Respelled r (.grammatical e) (.grammatical e')
  | duplicate (e : DuplicateKey) : Respelled r (.duplicate e) (.duplicate (r.duplicate e))

namespace Parser

open Production

variable (r : Respelling)

/-! ## Respelled parsers -/

/-- A parser at the same place in the respelled tokens. -/
def respell (p : Parser) : Parser :=
  { p with tokens := p.tokens.map r.token }

variable {r} {p q : Parser}

theorem rest_respell : (p.respell r).rest = p.rest.map r.token := by
  simp [respell, rest, List.map_drop]

theorem seek_respell (n : Nat) : (p.respell r).seek n = (p.seek n).respell r := by
  simp [respell, seek]

theorem isTrivia_token (t : Token) : (r.token t).isTrivia = t.isTrivia := by
  obtain ⟨lexeme, line⟩ := t
  cases lexeme <;> rfl

theorem keepsTrivia_token (onlyLines : Bool) (t : Token) :
    keepsTrivia onlyLines (r.token t) = keepsTrivia onlyLines t := by
  obtain ⟨lexeme, line⟩ := t
  cases onlyLines <;> cases lexeme <;> rfl

theorem run_respell {keep : Token → Bool} (h : ∀ t, keep (r.token t) = keep t) :
    (p.respell r).run keep = (p.run keep).map r.token := by
  rw [run_eq_takeWhile, run_eq_takeWhile, rest_respell, List.takeWhile_map]
  congr 1
  congr 1
  funext t
  exact h t

theorem peek?_respell : (p.respell r).peek? = p.peek?.map r.token := by
  simp [respell, peek?]

theorem nextSignificant?_respell :
    (p.respell r).nextSignificant? = p.nextSignificant?.map r.token := by
  simp only [nextSignificant?, run_respell isTrivia_token, List.length_map]
  simp [respell]

theorem remaining_respell : (p.respell r).remaining = p.remaining := by
  simp [respell, remaining]

theorem errorLine_respell : (p.respell r).errorLine = p.errorLine := by
  have h : (p.respell r).progressToken? = p.progressToken?.map r.token := by
    simp [respell, progressToken?]
  unfold errorLine
  rw [h]
  cases p.progressToken? <;> rfl

/-- Trivia stands for the respelled text. -/
theorem source_token {t : Token} (h : t.isTrivia = true) :
    (r.token t).source = r.text t.source := by
  obtain ⟨lexeme, line⟩ := t
  have hash : r.text "#" = "#" := r.text_eq_self_of_all (by decide)
  cases lexeme <;> simp [Token.isTrivia, Lexeme.isTrivia] at h
  · rfl
  · rfl
  · simp only [Respelling.token, Respelling.lexeme, Token.source, Lexeme.source, r.text_append,
      hash]

theorem sourceAll_map {tokens : List Token} (h : ∀ t ∈ tokens, t.isTrivia = true) :
    Token.sourceAll (tokens.map r.token) = r.text (Token.sourceAll tokens) := by
  induction tokens with
  | nil => rfl
  | cons t tokens ih =>
    rw [List.map_cons, Token.sourceAll_cons, Token.sourceAll_cons, r.text_append,
      source_token (h t (by simp)), ih fun t ht => h t (by simp [ht])]

theorem readTrivia_respell (onlyLines : Bool) : (p.respell r).readTrivia onlyLines =
    (r.text (p.readTrivia onlyLines).1, (p.readTrivia onlyLines).2.respell r) := by
  have hrun : ∀ t ∈ p.run (keepsTrivia onlyLines), t.isTrivia = true := by
    intro t ht
    rw [run_eq_takeWhile] at ht
    have := List.mem_takeWhile_imp ht
    cases onlyLines with
    | true => exact Lexeme.isTrivia_of_isLineTrivia this
    | false => exact this
  unfold readTrivia
  rw [run_respell (keepsTrivia_token onlyLines)]
  simp only [sourceAll_map hrun, List.length_map, seek_respell]

/-! ## Respelled replies -/

variable {α β γ δ : Type}

variable (r) in
/-- Whether a reply over respelled tokens is another reply, respelled by `g`. -/
inductive Replies (g : α → β) : Reply α → Reply β → Prop where
  | matched (a : α) (q : Parser) : Replies g (.matched a q) (.matched (g a) (q.respell r))
  | unmatched (q : Parser) : Replies g (.unmatched q) (.unmatched (q.respell r))
  | failed {e e' : ParseError} (q : Parser) (h : e.Respelled r e') :
      Replies g (.failed e q) (.failed e' (q.respell r))

variable (r) in
/-- Over respelled tokens, the second production replies as the first, respelled by `g`. -/
def Respells (g : α → β) (x : Production α) (y : Production β) : Prop :=
  ∀ p, Replies r g (x p) (y (p.respell r))

namespace Respells

variable {g : α → β} {h : γ → δ} {x x' : Production α} {y y' : Production β}

theorem pure (a : α) : Respells r g (pure a) (pure (g a)) :=
  fun p => .matched a p

theorem pure_of_eq {a : α} {b : β} (hb : b = g a) :
    Respells r g (Pure.pure a) (Pure.pure b) :=
  hb ▸ .pure a

theorem bind {f : α → Production γ} {k : β → Production δ} (hx : Respells r g x y)
    (hf : ∀ a, Respells r h (f a) (k (g a))) : Respells r h (x >>= f) (y >>= k) := by
  intro p
  have hp := hx p
  generalize hr : x p = reply at hp
  generalize hr' : y (p.respell r) = reply' at hp
  cases hp with
  | matched a q =>
    rw [bind_of_matched hr, bind_of_matched hr']
    exact hf a q
  | unmatched q =>
    rw [bind_of_unmatched hr, bind_of_unmatched hr']
    exact .unmatched q
  | failed q he =>
    rw [bind_of_failed hr, bind_of_failed hr']
    exact .failed q he

theorem map {f : α → γ} {k : β → δ} (hx : Respells r g x y) (hf : ∀ a, k (g a) = h (f a)) :
    Respells r h (f <$> x) (k <$> y) :=
  hx.bind fun a => .pure_of_eq (hf a)

theorem orElse (hx : Respells r g x y) (hx' : Respells r g x' y') :
    Respells r g (x.orElse x') (y.orElse y') := by
  intro p
  have hp := hx p
  generalize hr : x p = reply at hp
  generalize hr' : y (p.respell r) = reply' at hp
  cases hp with
  | matched a q =>
    rw [orElse_of_matched hr, orElse_of_matched hr']
    exact .matched a q
  | unmatched q =>
    rw [orElse_of_unmatched hr, orElse_of_unmatched hr']
    exact hx' q
  | failed q he =>
    rw [orElse_of_failed hr, orElse_of_failed hr']
    exact .failed q he

theorem optional (hx : Respells r g x y) :
    Respells r (Option.map g) (Production.optional x) (Production.optional y) := by
  intro p
  have hp := hx p
  unfold Production.optional
  generalize x p = reply at hp
  generalize y (p.respell r) = reply' at hp
  cases hp with
  | matched a q => exact .matched (some a) q
  | unmatched q => exact .matched none q
  | failed q he => exact .failed q he

theorem attempt (rule : String) (hx : Respells r g x y) :
    Respells r g (attempt rule x) (attempt rule y) := by
  intro p
  have hp := hx (p.enter rule)
  have henter : (p.enter rule).respell r = (p.respell r).enter rule := rfl
  rw [henter] at hp
  generalize hr : x (p.enter rule) = reply at hp
  generalize hr' : y ((p.respell r).enter rule) = reply' at hp
  cases hp with
  | matched a q =>
    rw [attempt_of_matched hr, attempt_of_matched hr']
    exact .matched a q.leave
  | unmatched q =>
    rw [attempt_of_unmatched hr, attempt_of_unmatched hr']
    exact .unmatched (p.rewind rule q)
  | failed q he =>
    rw [attempt_of_failed hr, attempt_of_failed hr']
    exact .failed q.leave he

theorem mismatch : Respells r g mismatch mismatch :=
  fun p => .unmatched p

theorem failAt (fault : Fault) (line : Nat) :
    Respells r g (failAt fault line) (failAt fault line) :=
  fun p => .failed p (.grammatical rfl rfl)

theorem fail {fault fault' : Fault} (hk : fault'.kind = fault.kind) :
    Respells r g (fail fault) (fail fault') :=
  fun p => .failed p (.grammatical errorLine_respell hk)

theorem orFail (hx : Respells r g x y) (fault : Fault) :
    Respells r g (x.orFail fault) (y.orFail fault) :=
  hx.orElse (.fail rfl)

theorem looking {f : Parser → α} {k : Parser → β} (hf : ∀ p, k (p.respell r) = g (f p)) :
    Respells r g (looking f) (looking k) := by
  intro p
  unfold Production.looking
  rw [hf p]
  exact .matched (f p) p

theorem record (entry : Entry) : Respells r id (record entry) (record entry) :=
  fun p => .matched () (p.note entry)

theorem skip : Respells r id skip skip := by
  intro p
  unfold Production.skip
  rw [seek_respell]
  exact .matched () (p.seek 1)

theorem take {accept : Token → Option α} {accept' : Token → Option β}
    (ha : ∀ t, accept' (r.token t) = (accept t).map g) :
    Respells r g (take accept) (take accept') := by
  intro p
  unfold Production.take
  rw [peek?_respell]
  cases p.peek? with
  | none => exact .unmatched p
  | some t =>
    simp only [Option.map_some, Option.bind_some, ha]
    cases accept t with
    | none => exact .unmatched p
    | some a =>
      simp only [Option.map_some, seek_respell]
      exact .matched a (p.seek 1)

end Respells

/-! ## Leaves -/

theorem respells_trivia : Respells r r.text trivia trivia := by
  intro p
  unfold trivia reading
  rw [readTrivia_respell]
  exact .matched _ _

theorem respells_lineTrivia : Respells r r.text lineTrivia lineTrivia := by
  intro p
  unfold lineTrivia reading
  rw [readTrivia_respell]
  exact .matched _ _

theorem respells_mark (m : Mark) : Respells r id (mark m) (mark m) := by
  apply Respells.take
  rintro ⟨lexeme, line⟩
  cases lexeme <;> simp [Respelling.token, Respelling.lexeme]

theorem respells_word : Respells r r.leaf word word := by
  apply Respells.take
  rintro ⟨lexeme, line⟩
  cases lexeme <;> simp [Respelling.token, Respelling.lexeme, Respelling.leaf, Respelling.form,
    Leaf.word]

theorem respells_comma : Respells r r.leaf comma comma :=
  .attempt _ <| respells_trivia.bind fun _ => (respells_mark .comma).bind fun _ =>
    respells_trivia.bind fun _ => .pure_of_eq (r.leaf_mark ..).symm

/-- What two leaves become. -/
def leaves (r : Respelling) (pair : Leaf × Leaf) : Leaf × Leaf :=
  (r.leaf pair.1, r.leaf pair.2)

theorem respells_key : Respells r (leaves r) key key :=
  .attempt _ <| respells_trivia.bind fun _ => respells_word.bind fun _ =>
    respells_trivia.bind fun _ => (respells_mark .colon).bind fun _ =>
      respells_trivia.bind fun _ => .pure_of_eq (by rw [id, leaves, r.leaf_mark]; rfl)

theorem respells_bracket (m : Mark) : Respells r r.leaf (bracket m) (bracket m) :=
  respells_trivia.bind fun _ => (respells_mark m).bind fun _ => respells_lineTrivia.bind fun _ =>
    .pure_of_eq (r.leaf_mark ..).symm

theorem respells_expressionEnd : Respells r id expressionEnd expressionEnd := by
  apply Respells.take
  rintro ⟨lexeme, line⟩
  cases lexeme <;> simp [Respelling.token, Respelling.lexeme]

theorem respells_literal : Respells r r.leaf literal literal := by
  unfold literal
  refine Respells.bind (.looking fun _ => peek?_respell) fun token? => ?_
  cases token? with
  | none => exact .mismatch
  | some token =>
    obtain ⟨lexeme, line⟩ := token
    cases lexeme with
    | word text => exact Respells.skip.bind fun _ => respells_trivia.bind fun _ => .pure _
    | quoted raw text => exact Respells.skip.bind fun _ => respells_lineTrivia.bind fun _ => .pure _
    | expression text =>
      refine Respells.skip.bind fun _ => (respells_expressionEnd.orFail _).bind fun _ =>
        respells_lineTrivia.bind fun after => ?_
      exact .pure_of_eq (r.leaf_expressionOf text "" after (some line)).symm
    | _ => exact .mismatch

theorem respells_value : Respells r r.leaf value value :=
  .attempt _ <| respells_trivia.bind fun _ => respells_literal.bind fun _ => .pure _

/-! ## Pairs and lists -/

theorem respells_pair : Respells r (Pair.map r.leaf) pair pair :=
  .attempt _ <| respells_key.bind fun _ => respells_value.bind fun _ => .pure _

def ListEntry.map (f : Leaf → Leaf) : ListEntry → ListEntry
  | pair p => pair (p.map f)
  | value v => value (f v)

def ListValues.map (f : Leaf → Leaf) (values : ListValues) : ListValues where
  entries := values.entries.map f
  separators := values.separators.map f
  trailing? := values.trailing?.map f

theorem respells_plainEntry (entry : ListEntry) :
    Respells r (ListEntry.map r.leaf) (plainEntry entry) (plainEntry (entry.map r.leaf)) := by
  intro p
  have hleaf : (entry.map r.leaf).valueLeaf = r.leaf entry.valueLeaf := by cases entry <;> rfl
  unfold plainEntry
  rw [hleaf, r.isExpression_leaf, errorLine_respell]
  split
  · exact Respells.failAt _ _ p
  · exact .matched _ p

theorem respells_listEntry : Respells r (ListEntry.map r.leaf) listEntry listEntry := by
  have hpair : Respells r (ListEntry.map r.leaf) (ListEntry.pair <$> pair)
      (ListEntry.pair <$> pair) := respells_pair.map fun _ => rfl
  have hvalue : Respells r (ListEntry.map r.leaf) (ListEntry.value <$> value)
      (ListEntry.value <$> value) := respells_value.map fun _ => rfl
  exact (hpair.orElse (hvalue.orFail _)).bind respells_plainEntry

theorem respells_comesNext (m : Mark) : Respells r id (comesNext m) (comesNext m) := by
  apply Respells.looking
  intro p
  rw [nextSignificant?_respell]
  cases p.nextSignificant? with
  | none => rfl
  | some token =>
    obtain ⟨lexeme, line⟩ := token
    cases lexeme <;> rfl

theorem respells_atStreamEnd : Respells r id atStreamEnd atStreamEnd := by
  apply Respells.looking
  intro p
  rw [nextSignificant?_respell]
  cases p.nextSignificant? with
  | none => rfl
  | some token =>
    obtain ⟨lexeme, line⟩ := token
    cases lexeme <;> rfl

theorem respells_beforeStreamEnd : Respells r id beforeStreamEnd beforeStreamEnd :=
  respells_atStreamEnd.bind fun atEnd => by
    cases atEnd with
    | false => exact .pure ()
    | true => exact .fail rfl

section entries

variable {f : α → α} {as : ListEntry → Except Fault α}

theorem respells_pick (has : ∀ entry, as (entry.map r.leaf) = (as entry).map f)
    (entry : ListEntry) : Respells r f (pick as entry) (pick as (entry.map r.leaf)) := by
  unfold pick
  rw [has]
  cases as entry with
  | ok value => exact .pure value
  | error fault => exact .fail rfl

/-- What a row of entries and a last comma become. -/
def ListEntry.mapMore (f : Leaf → Leaf) (g : α → α) (row : List (Leaf × α) × Option Leaf) :
    List (Leaf × α) × Option Leaf :=
  (row.1.map (Prod.map f g), row.2.map f)

theorem respells_moreEntries (has : ∀ entry, as (entry.map r.leaf) = (as entry).map f) :
    ∀ fuel, Respells r (ListEntry.mapMore r.leaf f) (moreEntries as fuel) (moreEntries as fuel)
  | 0 => .mismatch
  | fuel + 1 => by
    refine (respells_comesNext .bracketClose).bind fun closes => ?_
    cases closes with
    | true => exact .pure_of_eq rfl
    | false =>
      refine respells_beforeStreamEnd.bind fun _ => (respells_comma.orFail _).bind fun comma =>
        (respells_comesNext .bracketClose).bind fun closes => ?_
      cases closes with
      | true => exact .pure_of_eq rfl
      | false =>
        exact respells_beforeStreamEnd.bind fun _ => respells_listEntry.bind fun entry =>
          (respells_pick has entry).bind fun value =>
            (respells_moreEntries has fuel).bind fun more => .pure_of_eq rfl

theorem respells_entriesFrom (has : ∀ entry, as (entry.map r.leaf) = (as entry).map f)
    {gather : List α → Entries} (hg : ∀ as, gather (as.map f) = (gather as).map r.leaf)
    (first : α) : Respells r (ListValues.map r.leaf) (entriesFrom as gather first)
      (entriesFrom as gather (f first)) := by
  refine Respells.bind (g := ListEntry.mapMore r.leaf f) (fun p => ?_) fun more => ?_
  · rw [remaining_respell]
    exact respells_moreEntries has _ p
  · apply Respells.pure_of_eq
    simp [ListValues.map, ← hg, Function.comp_def]

end entries

theorem respells_listValues : Respells r (ListValues.map r.leaf) listValues listValues := by
  refine (respells_comesNext .bracketClose).bind fun closes => ?_
  cases closes with
  | true => exact .pure_of_eq rfl
  | false =>
    refine respells_beforeStreamEnd.bind fun _ => respells_listEntry.bind fun entry => ?_
    cases entry with
    | pair p =>
      exact respells_entriesFrom (fun entry => by cases entry <;> rfl) (fun _ => rfl) p
    | value v =>
      exact respells_entriesFrom (fun entry => by cases entry <;> rfl) (fun _ => rfl) v

theorem respells_listing : Respells r (Listing.map r.leaf) listing listing :=
  .attempt _ <| respells_key.bind fun _ => respells_trivia.bind fun before =>
    (respells_mark .bracketOpen).bind fun line => respells_comma.optional.bind fun _ =>
      respells_listValues.bind fun values => (respells_bracket .bracketClose).bind fun _ =>
        .pure_of_eq <| by
          simp only [Listing.map]
          congr 1
          exact (r.leaf_mark .bracketOpen before "" (some line)).symm

/-! ## Blocks and containers -/

section inner

variable {inner : Production Container} (hinner : Respells r (Container.map r.leaf) inner inner)
include hinner

theorem respells_blockOf : Respells r (Block.map r.leaf) (blockOf inner) (blockOf inner) :=
  .attempt _ <| respells_key.bind fun _ => respells_word.optional.bind fun _ =>
    (respells_bracket .braceOpen).bind fun _ => hinner.bind fun _ =>
      (respells_bracket .braceClose).bind fun _ => .pure_of_eq (by rw [Block.map])

theorem respells_itemOf : Respells r (Item.map r.leaf) (itemOf inner) (itemOf inner) := by
  have hblock : Respells r (Item.map r.leaf) (Item.block <$> blockOf inner)
      (Item.block <$> blockOf inner) := (respells_blockOf hinner).map fun _ => by rw [Item.map]
  have hpair : Respells r (Item.map r.leaf) (Item.pair <$> pair) (Item.pair <$> pair) :=
    respells_pair.map fun _ => by rw [Item.map]
  have hlisting : Respells r (Item.map r.leaf) (Item.listing <$> listing)
      (Item.listing <$> listing) := respells_listing.map fun _ => by rw [Item.map]
  have hnone : Respells r (Item.map r.leaf) noItem noItem :=
    fun p => .failed p (.grammatical errorLine_respell rfl)
  exact hblock.orElse (hpair.orElse (hlisting.orElse hnone))

end inner

theorem respells_atContainerEnd : Respells r id atContainerEnd atContainerEnd := by
  apply Respells.looking
  intro p
  rw [nextSignificant?_respell]
  cases p.nextSignificant? with
  | none => rfl
  | some token =>
    obtain ⟨lexeme, line⟩ := token
    cases lexeme <;> rfl

theorem respells_items {one : Production Item} (hone : Respells r (Item.map r.leaf) one one) :
    ∀ fuel, Respells r (Item.mapAll r.leaf) (items one fuel) (items one fuel)
  | 0 => .mismatch
  | fuel + 1 => by
    refine respells_atContainerEnd.bind fun atEnd => ?_
    cases atEnd with
    | true => exact .pure_of_eq rfl
    | false =>
      exact hone.bind fun _ => (respells_items hone fuel).bind fun _ =>
        .pure_of_eq (by rw [Item.mapAll])

theorem respells_checked (members : List Item) :
    Respells r (Container.map r.leaf) (checked members) (checked (Item.mapAll r.leaf members)) := by
  intro p
  unfold checked
  rw [show (p.respell r).depth = p.depth from rfl, r.of_mapAll]
  cases Container.of members (p.depth == 1) with
  | ok container => exact .matched container p
  | error e => exact .failed p (.duplicate e)

theorem respells_containerOf {one : Production Item}
    (hone : Respells r (Item.map r.leaf) one one) :
    Respells r (Container.map r.leaf) (containerOf one) (containerOf one) := by
  refine .attempt _ (Respells.bind (g := Item.mapAll r.leaf) (fun p => ?_) respells_checked)
  rw [remaining_respell]
  exact respells_items hone _ p

theorem respells_containerWithin :
    ∀ fuel, Respells r (Container.map r.leaf) (containerWithin fuel) (containerWithin fuel)
  | 0 => .mismatch
  | fuel + 1 => respells_containerOf (respells_itemOf (respells_containerWithin fuel))

theorem respells_container : Respells r (Container.map r.leaf) container container := by
  intro p
  unfold container
  rw [remaining_respell]
  exact respells_containerWithin _ p

/-! ## Documents -/

theorem respells_nothingLeft : Respells r id nothingLeft nothingLeft := by
  refine Respells.bind (.looking fun _ => peek?_respell) fun token? => ?_
  cases token? with
  | none => exact .pure ()
  | some token =>
    obtain ⟨lexeme, line⟩ := token
    have hfault (a b : String) : Respells r id (failAt (.leftOver a) line : Production Unit)
        (failAt (.leftOver b) line) := fun p => .failed p (.grammatical rfl rfl)
    cases lexeme <;> first | exact .pure () | exact hfault _ _

theorem respells_streamStart : Respells r id streamStart streamStart := by
  apply Respells.take
  rintro ⟨lexeme, line⟩
  cases lexeme <;> simp [Respelling.token, Respelling.lexeme]

theorem respells_document : Respells r r.document document document := by
  have hsize (p : Parser) : (p.respell r).tokens.size = id p.tokens.size := by simp [respell]
  refine Respells.bind (Respells.looking hsize) fun _ => (Respells.record _).bind fun _ =>
    respells_streamStart.optional.bind fun _ => respells_trivia.bind fun _ =>
      respells_container.bind fun inner => respells_trivia.bind fun _ =>
        respells_nothingLeft.bind fun _ => ?_
  have hcount : (inner.map r.leaf).items.length = inner.items.length := by
    obtain ⟨items, topLevel⟩ := inner
    rw [Container.map, Item.mapAll_eq_map, List.length_map]
  rw [hcount]
  exact (Respells.record _).bind fun _ => .pure_of_eq rfl

end Parser

end LookML

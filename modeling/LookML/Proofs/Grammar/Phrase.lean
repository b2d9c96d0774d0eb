import LookML.Syntax.Tree

/-!
# Phrases — the derivations of the grammar

    container = { item }
    item = key [ word ] "{" container "}" | key value | key "[" [ "," ] [ entries [ "," ] ] "]"
    key = word ":"
    value = word | quoted | expression ";;"
    entries = scalar { "," scalar } | key scalar { "," key scalar }
    scalar = word | quoted

A phrase is a derivation of an item: each of its parts is the choice of a rule.  Its lexemes are
the sentence it derives.  A sentence has one derivation at most, `lexemesAll_inj`.
-/

namespace LookML

/-! ## Derivations -/

/-- A value that may stand in a list. -/
inductive Scalar where
  | word (text : String)
  | quoted (raw text : String)
deriving DecidableEq, Repr

/-- The value of a pair that is an item. -/
inductive Datum where
  | scalar (scalar : Scalar)
  | expression (text : String)
deriving DecidableEq, Repr

/-- The entries of a list that has some: the first and those after it. -/
inductive Row where
  | values (first : Scalar) (more : List Scalar)
  | pairs (first : String × Scalar) (more : List (String × Scalar))
deriving DecidableEq, Repr

/-- A derivation of an item.  A list may have a comma before its entries and, if it has entries,
one after them. -/
inductive Phrase where
  | pair (key : String) (value : Datum)
  | listing (key : String) (leading : Bool) (row? : Option (Row × Bool))
  | block (key : String) (name? : Option String) (items : List Phrase)

/-! ## Sentences -/

def Scalar.lexeme : Scalar → Lexeme
  | word text => .word text
  | quoted raw text => .quoted raw text

def Datum.lexemes : Datum → List Lexeme
  | scalar s => [s.lexeme]
  | expression text => [.expression text, .expressionEnd]

/-- A key and its colon. -/
def Lexeme.key (key : String) : List Lexeme :=
  [.word key, .mark .colon]

/-- A mark that may be missing. -/
def Lexeme.markIf (m : Mark) (present : Bool) : List Lexeme :=
  if present then [.mark m] else []

namespace Row

def pairLexemes (pair : String × Scalar) : List Lexeme :=
  Lexeme.key pair.1 ++ [pair.2.lexeme]

/-- Entries that each have a comma before them. -/
def behindCommas {α : Type} (code : α → List Lexeme) (entries : List α) : List Lexeme :=
  entries.flatMap fun entry => .mark .comma :: code entry

/-- The lexemes of the entries of a list, with the commas between them. -/
def lexemes : Row → List Lexeme
  | values first more => first.lexeme :: behindCommas (fun s => [s.lexeme]) more
  | pairs first more => pairLexemes first ++ behindCommas pairLexemes more

end Row

/-- The lexemes of what stands in a list after its first comma. -/
def Row.lexemes? : Option (Row × Bool) → List Lexeme
  | some (row, trailing) => row.lexemes ++ Lexeme.markIf .comma trailing
  | none => []

namespace Phrase

mutual

def lexemes : Phrase → List Lexeme
  | pair key value => Lexeme.key key ++ value.lexemes
  | listing key leading row? =>
    Lexeme.key key ++ .mark .bracketOpen :: (Lexeme.markIf .comma leading ++ Row.lexemes? row? ++
      [.mark .bracketClose])
  | block key name? items =>
    Lexeme.key key ++ name?.toList.map .word ++ .mark .braceOpen :: (lexemesAll items ++
      [.mark .braceClose])

def lexemesAll : List Phrase → List Lexeme
  | [] => []
  | item :: items => item.lexemes ++ lexemesAll items

end

def key : Phrase → String
  | pair key _ | listing key _ _ | block key _ _ => key

/-! ## Repeated keys -/

/-- Whether a key that is no plural key stands twice among `items`. -/
def RepeatsKey (items : List Phrase) : Prop :=
  ¬ ((items.map key).filter (!Keys.isPlural ·)).Nodup

instance (items : List Phrase) : Decidable (RepeatsKey items) :=
  inferInstanceAs (Decidable (¬ _))

mutual

/-- Whether a braced container in an item repeats a key. -/
def HasRepeat : Phrase → Prop
  | pair .. | listing .. => False
  | block _ _ items => RepeatsKey items ∨ AnyRepeat items

/-- Whether a braced container in a row of items repeats a key. -/
def AnyRepeat : List Phrase → Prop
  | [] => False
  | item :: items => HasRepeat item ∨ AnyRepeat items

end

end Phrase

/-! ## One derivation: values and entries

A code is read off the front of a sentence: where two sentences are equal, so are the parts that
they begin with and what follows them. -/

theorem Scalar.lexeme_injective {s t : Scalar} (h : s.lexeme = t.lexeme) : s = t := by
  cases s <;> cases t <;> simp_all [lexeme]

theorem Datum.lexemes_append_inj {d e : Datum} {r r' : List Lexeme}
    (h : d.lexemes ++ r = e.lexemes ++ r') : d = e ∧ r = r' := by
  rcases d with s | text <;> rcases e with t | text'
  · simp only [lexemes, List.singleton_append, List.cons.injEq] at h
    exact ⟨congrArg scalar (Scalar.lexeme_injective h.1), h.2⟩
  · cases s <;> simp [lexemes, Scalar.lexeme] at h
  · cases t <;> simp [lexemes, Scalar.lexeme] at h
  · simpa [lexemes] using h

namespace Row

theorem scalar_append_inj {s t : Scalar} {r r' : List Lexeme}
    (h : [s.lexeme] ++ r = [t.lexeme] ++ r') : s = t ∧ r = r' := by
  simp only [List.singleton_append, List.cons.injEq] at h
  exact ⟨Scalar.lexeme_injective h.1, h.2⟩

theorem pairLexemes_append_inj {s t : String × Scalar} {r r' : List Lexeme}
    (h : pairLexemes s ++ r = pairLexemes t ++ r') : s = t ∧ r = r' := by
  simp only [pairLexemes, Lexeme.key, List.cons_append, List.nil_append, List.cons.injEq,
    Lexeme.word.injEq, true_and] at h
  exact ⟨Prod.ext h.1 (Scalar.lexeme_injective h.2.1), h.2.2⟩

/-- The end of a list: a comma if there is one, the closing bracket, and what follows. -/
def ending (trailing : Bool) (r : List Lexeme) : List Lexeme :=
  Lexeme.markIf .comma trailing ++ .mark .bracketClose :: r

theorem ending_inj {t t' : Bool} {r r' : List Lexeme} (h : ending t r = ending t' r') :
    t = t' ∧ r = r' := by
  cases t <;> cases t' <;> simp_all [ending, Lexeme.markIf]

variable {α : Type} {code : α → List Lexeme}

theorem behindCommas_append_inj
    (inj : ∀ {a b : α} {r r' : List Lexeme}, code a ++ r = code b ++ r' → a = b ∧ r = r')
    (opens : ∀ (a : α) (r : List Lexeme), (code a ++ r).head? ≠ some (.mark .bracketClose))
    {xs ys : List α} {t t' : Bool} {r r' : List Lexeme}
    (h : behindCommas code xs ++ ending t r = behindCommas code ys ++ ending t' r') :
    xs = ys ∧ t = t' ∧ r = r' := by
  -- After a comma, a closing bracket ends the list and anything else is the next entry.
  induction xs generalizing ys with
  | nil =>
    cases ys with
    | nil => exact ⟨rfl, ending_inj h⟩
    | cons y ys =>
      cases t with
      | false => simp [behindCommas, ending, Lexeme.markIf] at h
      | true =>
        simp only [behindCommas, ending, Lexeme.markIf, List.flatMap_nil, List.flatMap_cons,
          List.nil_append, if_true, List.cons_append, List.append_assoc,
          List.cons.injEq, true_and] at h
        exact absurd (congrArg List.head? h).symm (opens y _)
  | cons x xs ih =>
    cases ys with
    | nil =>
      cases t' with
      | false => simp [behindCommas, ending, Lexeme.markIf] at h
      | true =>
        simp only [behindCommas, ending, Lexeme.markIf, List.flatMap_nil, List.flatMap_cons,
          List.nil_append, if_true, List.cons_append, List.append_assoc,
          List.cons.injEq, true_and] at h
        exact absurd (congrArg List.head? h) (opens x _)
    | cons y ys =>
      simp only [behindCommas, List.flatMap_cons, List.cons_append, List.append_assoc,
        List.cons.injEq, true_and] at h
      obtain ⟨rfl, hs⟩ := inj h
      obtain ⟨rfl, rest⟩ := ih hs
      exact ⟨rfl, rest⟩

/-- What follows the first scalar of a row of values is no colon. -/
theorem head?_behindCommas_append_ending (xs : List α) (t : Bool) (r : List Lexeme) :
    (behindCommas code xs ++ ending t r).head? ≠ some (.mark .colon) := by
  cases xs <;> cases t <;> simp [behindCommas, ending, Lexeme.markIf]

theorem head?_scalar (s : Scalar) (r : List Lexeme) :
    ([s.lexeme] ++ r).head? ≠ some (.mark .bracketClose) := by
  cases s <;> simp [Scalar.lexeme]

theorem head?_pairLexemes (p : String × Scalar) (r : List Lexeme) :
    (pairLexemes p ++ r).head? ≠ some (.mark .bracketClose) := by
  simp [pairLexemes, Lexeme.key]

theorem lexemes_append_inj {a b : Row} {t t' : Bool} {r r' : List Lexeme}
    (h : a.lexemes ++ ending t r = b.lexemes ++ ending t' r') : a = b ∧ t = t' ∧ r = r' := by
  cases a with
  | values first more =>
    cases b with
    | values first' more' =>
      obtain ⟨rfl, hs⟩ := scalar_append_inj (by simpa [lexemes] using h)
      obtain ⟨rfl, rest⟩ := behindCommas_append_inj scalar_append_inj head?_scalar hs
      exact ⟨rfl, rest⟩
    | pairs first' more' =>
      simp only [lexemes, pairLexemes, Lexeme.key, List.cons_append, List.cons.injEq] at h
      exact absurd (congrArg List.head? h.2) (head?_behindCommas_append_ending more t r)
  | pairs first more =>
    cases b with
    | values first' more' =>
      simp only [lexemes, pairLexemes, Lexeme.key, List.cons_append, List.cons.injEq] at h
      exact absurd (congrArg List.head? h.2).symm (head?_behindCommas_append_ending more' t' r')
    | pairs first' more' =>
      obtain ⟨rfl, hs⟩ := pairLexemes_append_inj (by simpa [lexemes] using h)
      obtain ⟨rfl, rest⟩ := behindCommas_append_inj pairLexemes_append_inj head?_pairLexemes hs
      exact ⟨rfl, rest⟩

/-- A row of entries begins with a word or a quoted literal. -/
theorem lexemes_eq_cons (row : Row) : ∃ (s : Scalar) (r : List Lexeme),
    row.lexemes = s.lexeme :: r := by
  cases row with
  | values first more => exact ⟨first, _, rfl⟩
  | pairs first more => exact ⟨.word first.1, _, rfl⟩

theorem lexemes?_append_inj {a b : Option (Row × Bool)} {r r' : List Lexeme}
    (h : lexemes? a ++ .mark .bracketClose :: r = lexemes? b ++ .mark .bracketClose :: r') :
    a = b ∧ r = r' := by
  rcases a with _ | ⟨row, t⟩ <;> rcases b with _ | ⟨row', t'⟩
  · simpa [lexemes?] using h
  · obtain ⟨s, m, hs⟩ := row'.lexemes_eq_cons
    cases s <;> simp [lexemes?, hs, Scalar.lexeme] at h
  · obtain ⟨s, m, hs⟩ := row.lexemes_eq_cons
    cases s <;> simp [lexemes?, hs, Scalar.lexeme] at h
  · simp only [lexemes?, List.append_assoc] at h
    obtain ⟨rfl, rfl, rfl⟩ := lexemes_append_inj h
    exact ⟨rfl, rfl⟩

/-- What stands in a list after its first comma begins with no comma. -/
theorem head?_lexemes? (a : Option (Row × Bool)) (r : List Lexeme) :
    (lexemes? a ++ .mark .bracketClose :: r).head? ≠ some (.mark .comma) := by
  rcases a with _ | ⟨row, t⟩
  · simp [lexemes?]
  · obtain ⟨s, m, hs⟩ := row.lexemes_eq_cons
    cases s <;> simp [lexemes?, hs, Scalar.lexeme]

theorem markIf_lexemes?_append_inj {l l' : Bool} {a b : Option (Row × Bool)} {r r' : List Lexeme}
    (h : Lexeme.markIf .comma l ++ (lexemes? a ++ .mark .bracketClose :: r) =
      Lexeme.markIf .comma l' ++ (lexemes? b ++ .mark .bracketClose :: r')) :
    l = l' ∧ a = b ∧ r = r' := by
  cases l <;> cases l' <;> simp only [Lexeme.markIf, if_true, Bool.false_eq_true, if_false,
    List.nil_append, List.singleton_append, List.cons.injEq, true_and] at h
  · exact ⟨rfl, lexemes?_append_inj h⟩
  · exact absurd (congrArg List.head? h) (head?_lexemes? a r)
  · exact absurd (congrArg List.head? h).symm (head?_lexemes? b r')
  · exact ⟨rfl, lexemes?_append_inj h⟩

end Row

/-! ## One derivation: items -/

namespace Phrase

/-- What may follow an item: anything but an opening brace. -/
def Follows (rest : List Lexeme) : Prop :=
  rest.head? ≠ some (.mark .braceOpen)

/-- What may follow a container: nothing, a closing brace, or the end of the stream. -/
def Closes (rest : List Lexeme) : Prop :=
  rest = [] ∨ rest.head? = some (.mark .braceClose) ∨ rest.head? = some .streamEnd

theorem Closes.follows {r : List Lexeme} (h : Closes r) : Follows r := by
  rcases h with rfl | h | h <;> simp_all [Follows]

/-- An item begins with its key. -/
theorem lexemes_eq_cons (p : Phrase) : ∃ r, p.lexemes = .word p.key :: .mark .colon :: r := by
  cases p <;> exact ⟨_, rfl⟩

theorem lexemesAll_cons (item : Phrase) (items : List Phrase) :
    lexemesAll (item :: items) = item.lexemes ++ lexemesAll items := rfl

theorem length_le_lexemesAll (items : List Phrase) :
    items.length ≤ (lexemesAll items).length := by
  induction items with
  | nil => exact Nat.zero_le _
  | cons item items ih =>
    obtain ⟨r, hr⟩ := item.lexemes_eq_cons
    simp only [lexemesAll_cons, hr, List.length_append, List.length_cons]
    omega

theorem length_lexemes_le {item : Phrase} {items : List Phrase} (h : item ∈ items) :
    item.lexemes.length ≤ (lexemesAll items).length := by
  induction items with
  | nil => simp at h
  | cons other items ih =>
    rw [lexemesAll_cons, List.length_append]
    rcases List.mem_cons.mp h with rfl | h
    · exact Nat.le_add_right _ _
    · exact Nat.le_trans (ih h) (Nat.le_add_left _ _)

/-- What follows an item in a container that ends as it may. -/
theorem follows_lexemesAll_append (items : List Phrase) {r : List Lexeme} (h : Closes r) :
    Follows (lexemesAll items ++ r) := by
  cases items with
  | nil => exact h.follows
  | cons item items =>
    obtain ⟨m, hm⟩ := item.lexemes_eq_cons
    simp [lexemesAll_cons, hm, Follows]

mutual

/-- An item is read off the front of a sentence, if no brace follows it. -/
theorem lexemes_append_inj : ∀ (p q : Phrase) {r r' : List Lexeme}, Follows r → Follows r' →
    p.lexemes ++ r = q.lexemes ++ r' → p = q ∧ r = r'
  | .pair k d, .pair k' d', r, r', _, _, h => by
    simp only [lexemes, Lexeme.key, List.cons_append, List.nil_append, List.cons.injEq,
      Lexeme.word.injEq, true_and] at h
    obtain ⟨rfl, hd⟩ := h
    obtain ⟨rfl, rfl⟩ := Datum.lexemes_append_inj hd
    exact ⟨rfl, rfl⟩
  | .pair k d, .listing k' l a, r, r', _, _, h => by
    rcases d with (w | ⟨raw, w⟩) | w <;>
      simp [lexemes, Lexeme.key, Datum.lexemes, Scalar.lexeme] at h
  | .listing k l a, .pair k' d, r, r', _, _, h => by
    rcases d with (w | ⟨raw, w⟩) | w <;>
      simp [lexemes, Lexeme.key, Datum.lexemes, Scalar.lexeme] at h
  | .pair k d, .block k' n items, r, r', hr, _, h => by
    -- A word that a brace follows would be a name, which `Follows` rules out.
    rcases d with (w | ⟨raw, w⟩) | w <;> rcases n with _ | n <;>
      simp [lexemes, Lexeme.key, Datum.lexemes, Scalar.lexeme] at h
    exact absurd (by rw [h.2.2]; rfl) hr
  | .block k n items, .pair k' d, r, r', _, hr', h => by
    rcases d with (w | ⟨raw, w⟩) | w <;> rcases n with _ | n <;>
      simp [lexemes, Lexeme.key, Datum.lexemes, Scalar.lexeme] at h
    exact absurd (by rw [← h.2.2]; rfl) hr'
  | .listing k l a, .listing k' l' a', r, r', _, _, h => by
    simp only [lexemes, Lexeme.key, List.cons_append, List.nil_append, List.append_assoc,
      List.cons.injEq, Lexeme.word.injEq, true_and] at h
    obtain ⟨rfl, hl⟩ := h
    obtain ⟨rfl, rfl, rfl⟩ := Row.markIf_lexemes?_append_inj hl
    exact ⟨rfl, rfl⟩
  | .listing k l a, .block k' n items, r, r', _, _, h => by
    rcases n with _ | n <;> simp [lexemes, Lexeme.key] at h
  | .block k n items, .listing k' l a, r, r', _, _, h => by
    rcases n with _ | n <;> simp [lexemes, Lexeme.key] at h
  | .block k n items, .block k' n' items', r, r', _, _, h => by
    have inner (h : lexemesAll items ++ .mark .braceClose :: r =
        lexemesAll items' ++ .mark .braceClose :: r') : items = items' ∧ r = r' := by
      obtain ⟨rfl, hr⟩ := lexemesAll_append_inj items items' (.inr (.inl rfl)) (.inr (.inl rfl)) h
      exact ⟨rfl, (List.cons.inj hr).2⟩
    rcases n with _ | n <;> rcases n' with _ | n' <;>
      simp only [lexemes, Lexeme.key, Option.toList, List.map_nil, List.map_cons, List.cons_append,
        List.nil_append, List.append_assoc, List.cons.injEq, Lexeme.word.injEq, true_and,
        reduceCtorEq, and_false, false_and] at h
    · obtain ⟨rfl, hi⟩ := h
      obtain ⟨rfl, rfl⟩ := inner hi
      exact ⟨rfl, rfl⟩
    · obtain ⟨rfl, rfl, hi⟩ := h
      obtain ⟨rfl, rfl⟩ := inner hi
      exact ⟨rfl, rfl⟩

/-- A container is read off the front of a sentence, if it ends as a container may. -/
theorem lexemesAll_append_inj : ∀ (ps qs : List Phrase) {r r' : List Lexeme}, Closes r → Closes r' →
    lexemesAll ps ++ r = lexemesAll qs ++ r' → ps = qs ∧ r = r'
  | [], [], _, _, _, _, h => ⟨rfl, h⟩
  | [], q :: qs, r, r', hr, _, h => by
    obtain ⟨m, hm⟩ := q.lexemes_eq_cons
    obtain rfl : r = _ := h
    simp [Closes, lexemesAll, hm] at hr
  | p :: ps, [], r, r', _, hr', h => by
    obtain ⟨m, hm⟩ := p.lexemes_eq_cons
    obtain rfl : _ = r' := h
    simp [Closes, lexemesAll, hm] at hr'
  | p :: ps, q :: qs, r, r', hr, hr', h => by
    simp only [lexemesAll, List.append_assoc] at h
    obtain ⟨rfl, hs⟩ := lexemes_append_inj p q (follows_lexemesAll_append ps hr)
      (follows_lexemesAll_append qs hr') h
    obtain ⟨rfl, rfl⟩ := lexemesAll_append_inj ps qs hr hr' hs
    exact ⟨rfl, rfl⟩

end

/-- A sentence has one derivation at most. -/
theorem lexemesAll_inj {ps qs : List Phrase} (h : lexemesAll ps = lexemesAll qs) : ps = qs :=
  (lexemesAll_append_inj ps qs (.inl rfl) (.inl rfl) (congrArg (· ++ []) h)).1

end Phrase

/-! ## The phrases of a tree -/

/-- A leaf as a value that may stand in a list. -/
def Leaf.scalar (leaf : Leaf) : Scalar :=
  match leaf.form with
  | .quoted (some raw) => .quoted raw leaf.value
  | .quoted none => .quoted (Text.escape leaf.value) leaf.value
  | _ => .word leaf.value

/-- A leaf as the value of a pair. -/
def Leaf.datum (leaf : Leaf) : Datum :=
  match leaf.form with
  | .expression left right => .expression (left ++ leaf.value ++ right)
  | _ => .scalar leaf.scalar

/-- An expression as the source has it stands for its text. -/
theorem Leaf.datum_expressionOf (text : String) :
    (Leaf.expressionOf text).datum = .expression text := by
  refine congrArg Datum.expression (String.toList_inj.mp ?_)
  simp only [expressionOf, String.toList_append, String.toList_ofList]
  rw [List.append_assoc, Text.dropTrailing_append_takeTrailing, List.takeWhile_append_dropWhile]

def Pair.scalar (pair : Pair) : String × Scalar :=
  (pair.key.value, pair.value.scalar)

/-- The entries of a list, if there are some. -/
def Entries.row? : Entries → Option Row
  | values (first :: more) => some (.values first.scalar (more.map Leaf.scalar))
  | pairs (first :: more) => some (.pairs first.scalar (more.map Pair.scalar))
  | values [] | pairs [] => none

def Pair.phrase (pair : Pair) : Phrase :=
  .pair pair.key.value pair.value.datum

def Listing.phrase (listing : Listing) : Phrase :=
  .listing listing.key.value listing.leading?.isSome
    (listing.entries.row?.map (·, listing.trailing?.isSome))

mutual

def Block.phrase : Block → Phrase
  | ⟨key, _, name?, _, container, _⟩ =>
    .block key.value (name?.map Leaf.value) container.phrases

def Container.phrases : Container → List Phrase
  | ⟨items, _⟩ => Item.phraseAll items

def Item.phraseAll : List Item → List Phrase
  | [] => []
  | item :: items => item.phrase :: Item.phraseAll items

def Item.phrase : Item → Phrase
  | .pair pair => pair.phrase
  | .listing listing => listing.phrase
  | .block block => block.phrase

end

/-- The items of a document as phrases. -/
def Document.phrases (document : Document) : List Phrase :=
  document.container.phrases

theorem Item.phraseAll_eq_map (items : List Item) : phraseAll items = items.map phrase := by
  induction items with
  | nil => rfl
  | cons item items ih => rw [phraseAll, ih, List.map_cons]

theorem Item.key_phrase (item : Item) : item.phrase.key = item.key := by
  rcases item with pair | listing | ⟨key, colon, name?, opening, container, closing⟩
  · rfl
  · rfl
  · simp only [phrase, Block.phrase, Phrase.key, Item.key, keyLeaf]

/-! ## Repeated keys of a tree -/

namespace Container

theorem firstRepeat?_eq_none {seen : List String} {items : List Item} :
    firstRepeat? seen items = none ↔
      (∀ item ∈ items, Keys.isPlural item.key = false → item.key ∉ seen) ∧
        ((items.map Item.key).filter (!Keys.isPlural ·)).Nodup := by
  induction items generalizing seen with
  | nil => simp [firstRepeat?]
  | cons item items ih =>
    unfold firstRepeat?
    cases hp : Keys.isPlural item.key with
    | true =>
      -- A plural key is seen, which matters to no key that is checked.
      simp only [Bool.not_true, Bool.and_false, Bool.false_eq_true, if_false, ih, List.map_cons,
        List.filter_cons, hp, List.mem_cons, not_or, forall_eq_or_imp, reduceCtorEq,
        false_implies, true_and]
      refine and_congr_left fun _ => forall_congr' fun other => imp_congr_right fun _ =>
        ⟨fun h hf => (h hf).2, fun h hf => ⟨fun he => ?_, h hf⟩⟩
      simp [he, hp] at hf
    | false =>
      by_cases hs : item.key ∈ seen
      · simp [hs, hp]
      · simp only [List.contains_eq_mem, hs, decide_false, Bool.false_and, Bool.false_eq_true,
          if_false, ih, List.map_cons, List.filter_cons, hp, Bool.not_false, if_true,
          List.nodup_cons, List.mem_cons, not_or, forall_eq_or_imp, not_false_eq_true,
          true_implies, true_and, List.mem_filter, List.mem_map]
        constructor
        · rintro ⟨h, hn⟩
          exact ⟨fun o ho hf => (h o ho hf).2, fun ⟨⟨o, ho, he⟩, _⟩ => (h o ho (he ▸ hp)).1 he, hn⟩
        · rintro ⟨h, hx, hn⟩
          exact ⟨fun o ho hf => ⟨fun he => hx ⟨⟨o, ho, he⟩, trivial⟩, h o ho hf⟩, hn⟩

/-- Items form a container unless they repeat a key below the root. -/
theorem of_eq_ok_iff {items : List Item} {topLevel : Bool} :
    (∃ c, of items topLevel = .ok c) ↔
      (topLevel = false → ¬ Phrase.RepeatsKey (Item.phraseAll items)) := by
  have hkeys : (Item.phraseAll items).map Phrase.key = items.map Item.key := by
    rw [Item.phraseAll_eq_map, List.map_map]
    exact List.map_congr_left fun item _ => item.key_phrase
  unfold of
  cases topLevel with
  | true => simp
  | false =>
    have hn : firstRepeat? [] items = none ↔ _ := firstRepeat?_eq_none
    rw [Phrase.RepeatsKey, hkeys]
    cases hf : firstRepeat? [] items with
    | none => simpa using (hn.mp hf).2
    | some item => simpa [hf] using hn

end Container

end LookML

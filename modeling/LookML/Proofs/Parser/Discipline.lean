import LookML.Proofs.Parser.Loops

/-!
# Discipline — how a parser may be used

Whatever is asked of a parser, its cursor stays among the tokens and its progress is the farthest
place reached, also after it has come back from an attempt, and within a rule as well, since a rule
is a script of its own.  A rule leaves the depth as it is, goes back to its start where it does not
match, and forward where it does (`inOrder_of_points`).
-/

namespace LookML.Parser

open Production

variable {α β : Type} {p q : Parser}

/-! ## Rules -/

/-- The rules that a parser may be asked for. -/
inductive Rule where
  | comma
  | key
  | value
  | pair
  | listing
  | listValues
  | block
  | container
  | document
deriving DecidableEq, Repr

namespace Rule

/-- What a rule matches with. -/
def Result : Rule → Type
  | comma | value => Leaf
  | key => Leaf × Leaf
  | pair => Pair
  | listing => Listing
  | listValues => ListValues
  | block => Block
  | container => Container
  | document => Document

def production : (rule : Rule) → Production rule.Result
  | comma => Parser.comma
  | key => Parser.key
  | value => Parser.value
  | pair => Parser.pair
  | listing => Parser.listing
  | listValues => Parser.listValues
  | block => Parser.block
  | container => Parser.container
  | document => Parser.document

/-- Whether a rule reads at least one token where it matches.  The others may match with nothing
read; they match or fail. -/
def consumes : Rule → Bool
  | listValues | container | document => false
  | comma | key | value | pair | listing | block => true

/-- Each rule with its script. -/
def scripted : (rule : Rule) → Scripted rule.production
  | comma => scriptedComma
  | key => scriptedKey
  | value => scriptedValue
  | pair => scriptedPair
  | listing => scriptedListing
  | listValues => scriptedListValues
  | block => scriptedBlockOf scriptedContainer
  | container => scriptedContainer
  | document => scriptedDocument

/-- What a rule asks of a parser, one operation at a time. -/
def script (rule : Rule) : Script rule.Result :=
  rule.scripted.script

theorem reply_script (rule : Rule) : rule.script.reply = rule.production :=
  rule.scripted.reply_eq

theorem consumes_production {rule : Rule} (h : rule.consumes = true) :
    Consumes rule.production := by
  cases rule with
  | comma => exact consumes_comma
  | key => exact consumes_key
  | value => exact consumes_value
  | pair => exact consumes_pair
  | listing => exact consumes_listing
  | block => exact consumes_block
  | listValues | container | document => cases h

theorem concludes_production {rule : Rule} (h : rule.consumes = false) (p : Parser) :
    Concludes rule.production p := by
  cases rule with
  | comma | key | value | pair | listing | block => cases h
  | listValues => exact concludes_listValues
  | container => exact concludes_container
  | document => exact concludes_document

end Rule

/-! ## What a production leaves -/

/-- What a production does to the cursor and the depth of a parser. -/
structure LeavesInOrder (x : Production α) (p : Parser) : Prop where
  depth : (x p).next.depth = p.depth
  /-- Without a match, the cursor is where it was. -/
  index_eq : ∀ q, x p = .unmatched q → q.index = p.index
  /-- With a match, it has not moved back. -/
  index_le : ∀ a q, x p = .matched a q → p.index ≤ q.index

theorem index_of_attempt_unmatched {x : Production α} {rule : String}
    (h : attempt rule x p = .unmatched q) : q.index = p.index := by
  obtain ⟨r, -, rfl⟩ := attempt_eq_unmatched h
  rfl

theorem Scripted.index_le {x : Production α} (hx : Scripted x) (h : InBounds p) {a : α}
    (hm : x p = .matched a q) : p.index ≤ q.index := by
  have hle := (hx.advances h).index_le
  rwa [hm] at hle

theorem leavesInOrder_attempt (rule : String) {x : Production α} (hx : Scripted x)
    (h : InBounds p) : LeavesInOrder (attempt rule x) p where
  depth := ((hx.attempt rule).keeps p).2
  index_eq _ := index_of_attempt_unmatched
  index_le _ _ := (hx.attempt rule).index_le h

theorem Rule.leavesInOrder (rule : Rule) (h : InBounds p) : LeavesInOrder rule.production p where
  depth := (rule.scripted.keeps p).2
  index_le _ _ := rule.scripted.index_le h
  index_eq q hq := by
    cases rule with
    | comma | key | value | pair | listing | block => exact index_of_attempt_unmatched hq
    | listValues | container | document => exact absurd hq (concludes_production rfl p q)

/-- With fewer tokens left, the cursor is farther on. -/
theorem index_lt_of_length_lt (ht : q.tokens = p.tokens) (h : q.rest.length < p.rest.length) :
    p.index < q.index := by
  simp only [rest, ht, List.length_drop] at h
  omega

theorem Rule.index_lt {rule : Rule} (hc : rule.consumes = true) {a : rule.Result}
    (h : rule.production p = .matched a q) : p.index < q.index :=
  index_lt_of_length_lt (rule.scripted.kept h).1 (consumes_production hc h)

/-! ## Every point of a script -/

theorem farthest_append (a b : List Parser) :
    farthest (a ++ b) = max (farthest a) (farthest b) := by
  induction a with
  | nil => simp
  | cons p a ih => rw [List.cons_append, farthest_cons, farthest_cons, ih, Nat.max_assoc]

section points

variable {tokens : List Token} {s : Script α} {before after : List Parser}

theorem inBounds_of_points (h : s.points (ofTokens tokens) = before ++ p :: after) :
    InBounds p := by
  obtain ⟨ht, hi, hp⟩ := s.tracks_points tokens before p after h
  have hsize : p.tokens.size = tokens.length := by simp [ht]
  have hfar : p.index ≤ farthest (before ++ [p]) := by
    rw [farthest_append, farthest_cons]
    omega
  exact ⟨rfl, by omega, by omega⟩

/-- A script that is begun at a point of another one goes on from what was reached there. -/
theorem tracks_append_points (h : s.points (ofTokens tokens) = before ++ p :: after)
    (t : Script β) : Tracks tokens (before ++ t.points p) := by
  obtain ⟨more, hmore⟩ := List.head?_eq_some_iff.mp (t.head?_points p)
  have hhead := s.head?_points (ofTokens tokens)
  have hs := s.isChain_points (inBounds_ofTokens tokens)
  have ht := t.isChain_points (inBounds_of_points h)
  rw [h, List.append_cons] at hs
  rw [hmore] at ht ⊢
  apply tracks_of_isChain
  · rw [h] at hhead
    cases before <;> exact hhead
  · -- The points of the second script begin with the last one of the first.
    rw [List.append_cons]
    exact hs.left_of_append.append_overlap ht (by simp)

end points

/-- At every point of every script, the cursor is among the tokens, progress is the farthest place
so far and has not decreased.  So it is at every point that a rule passes which is asked for there,
up to where the rule leaves the parser; and whatever rule is asked for, or whatever is tried, leaves
the parser in order. -/
theorem inOrder_of_points {tokens : List Token} (s : Script α) {before after : List Parser}
    (h : s.points (ofTokens tokens) = before ++ p :: after) :
    p.index ≤ tokens.length ∧
      p.progress = min (farthest (before ++ [p])) (tokens.length - 1) ∧
      (∀ q ∈ before, q.progress ≤ p.progress) ∧
      (∀ rule : Rule, rule.script.reply = rule.production ∧
        Tracks tokens (before ++ rule.script.points p) ∧
        (rule.script.points p).getLast? = some (rule.production p).next ∧
        LeavesInOrder rule.production p ∧
        (rule.consumes = true → ∀ a q, rule.production p = .matched a q → p.index < q.index) ∧
        (rule.consumes = false → ∀ q, rule.production p ≠ .unmatched q)) ∧
      ∀ (β : Type) (rule : String) (body : Script β),
        LeavesInOrder (attempt rule body.reply) p := by
  have hb := inBounds_of_points h
  obtain ⟨-, hi, hp⟩ := s.tracks_points tokens before p after h
  refine ⟨hi, hp, fun q hq => ?_, fun rule => ?_, fun β rule body => ?_⟩
  · -- The points up to `q` are among those up to `p`.
    obtain ⟨first, more, rfl⟩ := List.append_of_mem hq
    have hsplit : s.points (ofTokens tokens) = first ++ q :: (more ++ p :: after) := by
      simpa using h
    rw [hp, (s.tracks_points tokens _ _ _ hsplit).2.2]
    simp only [farthest_append, farthest_cons, farthest_nil]
    omega
  · have hlast := rule.script.getLast?_points p
    rw [rule.reply_script] at hlast
    exact ⟨rule.reply_script, tracks_append_points h rule.script, hlast, rule.leavesInOrder hb,
      fun hc _ _ => Rule.index_lt hc, fun hc => Rule.concludes_production hc p⟩
  · exact leavesInOrder_attempt rule ⟨body, rfl⟩ hb

/-- Reads two tokens in vain. -/
def Samples.vain : Script Unit :=
  .backtrack "pair" (.act (.seek 2) fun _ => .stop (.ok none)) fun answer => .stop answer

/-- Back at the first of two tokens, progress still points at the second, and a rule goes on from
there. -/
theorem inOrder_of_points_vain :
    ∃ before p, Samples.vain.points (ofTokens [⟨.word "a", 1⟩, ⟨.streamEnd, 1⟩]) = before ++ [p] ∧
      before.map index = [0, 0, 2] ∧ p.index = 0 ∧ p.progress = 1 ∧ farthest (before ++ [p]) = 2 ∧
      p.progress = min (farthest (before ++ [p])) (2 - 1) ∧
      Tracks [⟨.word "a", 1⟩, ⟨.streamEnd, 1⟩] (before ++ Rule.document.script.points p) ∧
      LeavesInOrder Parser.document p := by
  let start := ofTokens [⟨.word "a", 1⟩, ⟨.streamEnd, 1⟩]
  let sought := (start.enter "pair").seek 2
  have h : Samples.vain.points start =
      [start, start.enter "pair", sought] ++ [start.rewind "pair" sought] := rfl
  have hall := inOrder_of_points Samples.vain h
  obtain ⟨-, htracks, -, horder, -⟩ := hall.2.2.2.1 .document
  exact ⟨_, _, h, rfl, rfl, rfl, rfl, hall.2.1, htracks, horder⟩

/-- A block that is not closed does not match, and progress stays at the end it has seen. -/
example : (Rule.block.script.points (ofTokens [⟨.word "a", 1⟩, ⟨.mark .colon, 1⟩,
    ⟨.mark .braceOpen, 1⟩, ⟨.word "b", 1⟩, ⟨.mark .colon, 1⟩, ⟨.word "c", 1⟩,
    ⟨.streamEnd, 1⟩])).getLast?.map (fun p => (p.index, p.progress)) = some (0, 6) := by
  decide +kernel

end LookML.Parser

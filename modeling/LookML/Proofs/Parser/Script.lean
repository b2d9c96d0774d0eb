import LookML.Proofs.Parser.Reply
import Mathlib.Data.List.Chain

/-!
# Scripts — what a parser goes through, one operation at a time

A script asks operations of a parser, each chosen by what the ones before it returned; it may call
other scripts, and try them with `backtrack`.  What one operation does to the cursor and the
progress (`Moves`) gives what holds at every point of a script: the cursor is among the tokens, and
progress is the farthest place reached so far.  A production is scripted by a script that makes its
replies, and the ways to combine productions are ways to combine their scripts.
-/

namespace LookML.Parser

variable {α β : Type} {p q r : Parser}

/-! ## Operations -/

/-- What may be seen of a parser without moving it. -/
inductive Look : Type → Type where
  | peek : Look (Option Token)
  | peekMany (n : Nat) : Look (List Token)
  | compare (accept : Token → Bool) (skipTrivia : Bool) : Look Bool
  | index : Look Nat
  | progress : Look Nat
  -- The rest is seen by the rules only.
  | nextSignificant : Look (Option Token)
  | progressToken : Look (Option Token)
  | errorLine : Look Nat
  | depth : Look Nat
  | size : Look Nat
  | remaining : Look Nat

/-- What a look sees. -/
def Look.see : Look α → Parser → α
  | peek, p => p.peek?
  | peekMany n, p => p.peekMany n
  | compare accept skipTrivia, p => p.compare accept skipTrivia
  | index, p => p.index
  | progress, p => p.progress
  | nextSignificant, p => p.nextSignificant?
  | progressToken, p => p.progressToken?
  | errorLine, p => p.errorLine
  | depth, p => p.depth
  | size, p => p.tokens.size
  | remaining, p => p.remaining

/-- What may be asked of a parser, with the type of what it returns. -/
inductive Operation : Type → Type 1 where
  | look {α : Type} (look : Look α) : Operation α
  | seek (n : Nat) : Operation Unit
  | read : Operation (Option Token)
  | readMany (n : Nat) : Operation (List Token)
  | readValue : Operation (Except ParseError String)
  | readTrivia (onlyLines : Bool) : Operation String
  /-- Writes to the log. -/
  | note (entry : Entry) : Operation Unit

/-- What an operation returns, and the parser it leaves. -/
def Operation.act : Operation α → Parser → α × Parser
  | look l, p => (l.see p, p)
  | seek n, p => ((), p.seek n)
  | read, p => p.read?
  | readMany n, p => p.readMany n
  | readValue, p => p.readValue
  | readTrivia onlyLines, p => p.readTrivia onlyLines
  | note entry, p => ((), p.note entry)

theorem next_read? (p : Parser) : p.read?.2 = p ∨ p.read?.2 = p.seek 1 := by
  unfold read?
  cases p.peek? with
  | none => exact .inl rfl
  | some token => exact .inr rfl

theorem next_readValue (p : Parser) : p.readValue.2 = p.read?.2 := by
  unfold readValue
  rcases p.read? with ⟨_ | token, q⟩
  · rfl
  · dsimp only
    split <;> rfl

/-- An operation moves the cursor on or leaves it where it is. -/
theorem Operation.next_act (op : Operation α) (p : Parser) :
    (op.act p).2 = p ∨ (∃ n, (op.act p).2 = p.seek n) ∨ ∃ entry, (op.act p).2 = p.note entry := by
  cases op with
  | look l => exact .inl rfl
  | seek n => exact .inr (.inl ⟨n, rfl⟩)
  | read => exact (next_read? p).imp_right fun h => .inl ⟨1, h⟩
  | readMany n => exact .inr (.inl ⟨_, rfl⟩)
  | readValue =>
    have h := next_read? p
    rw [← next_readValue] at h
    exact h.imp_right fun h => .inl ⟨1, h⟩
  | readTrivia onlyLines => exact .inr (.inl ⟨_, rfl⟩)
  | note entry => exact .inr (.inr ⟨entry, rfl⟩)

/-! ## Scripts -/

/-- What a reply says, without the parser that it leaves. -/
def Reply.answer : Reply α → Except ParseError (Option α)
  | matched value _ => .ok (some value)
  | unmatched _ => .ok none
  | failed e _ => .error e

/-- Operations, calls and attempts, each chosen by what the ones before it returned. -/
inductive Script : Type → Type 1 where
  | stop {α : Type} (answer : Except ParseError (Option α)) : Script α
  | act {α β : Type} (op : Operation β) (next : β → Script α) : Script α
  | call {α β : Type} (body : Script β) (next : Except ParseError (Option β) → Script α) : Script α
  | backtrack {α β : Type} (rule : String) (body : Script β)
      (next : Except ParseError (Option β) → Script α) : Script α

namespace Script

/-- The reply with which a script ends. -/
def reply : {α : Type} → Script α → Production α
  | _, stop (.ok (some value)), p => .matched value p
  | _, stop (.ok none), p => .unmatched p
  | _, stop (.error e), p => .failed e p
  | _, act op next, p => (next (op.act p).1).reply (op.act p).2
  | _, call body next, p => (next (body.reply p).answer).reply (body.reply p).next
  | _, backtrack rule body next, p =>
    (next (Production.attempt rule body.reply p).answer).reply
      (Production.attempt rule body.reply p).next

/-- The parser at every point of a script, in order. -/
def points : {α : Type} → Script α → Parser → List Parser
  | _, stop _, p => [p]
  | _, act op next, p => p :: (next (op.act p).1).points (op.act p).2
  | _, call body next, p =>
    body.points p ++ (next (body.reply p).answer).points (body.reply p).next
  | _, backtrack rule body next, p =>
    p :: (body.points (p.enter rule) ++
      (next (Production.attempt rule body.reply p).answer).points
        (Production.attempt rule body.reply p).next)

theorem head?_points (s : Script α) (p : Parser) : (s.points p).head? = some p := by
  induction s generalizing p with
  | stop => rfl
  | act => rfl
  | call body next ihb => rw [points, List.head?_append, ihb]; rfl
  | backtrack => rfl

theorem getLast?_points (s : Script α) (p : Parser) :
    (s.points p).getLast? = some (s.reply p).next := by
  induction s generalizing p with
  | stop answer => rcases answer with e | _ | value <;> rfl
  | act op next ih => rw [points, reply, List.getLast?_cons, ih]; rfl
  | call body next ihb ih => rw [points, reply, List.getLast?_append, ih]; rfl
  | backtrack rule body next ihb ih =>
    rw [points, reply, List.getLast?_cons, List.getLast?_append, ih]; rfl

end Script

/-! ## One move -/

/-- What one operation does: the cursor is among the tokens, and progress goes along with it, short
of the end. -/
structure Moves (p q : Parser) : Prop where
  tokens : q.tokens = p.tokens
  index_le : q.index ≤ p.tokens.size
  progress : q.progress = min (max p.progress q.index) (p.tokens.size - 1)

/-- Whether the cursor is among the tokens and progress is not behind it. -/
abbrev InBounds (p : Parser) : Prop :=
  Moves p p

theorem Moves.inBounds (h : Moves p q) : InBounds q := by
  obtain ⟨ht, hi, hp⟩ := h
  exact ⟨rfl, ht ▸ hi, by rw [ht]; omega⟩

theorem inBounds_ofTokens (tokens : List Token) : InBounds (ofTokens tokens) :=
  ⟨rfl, Nat.zero_le _, by simp [ofTokens]⟩

/-- A parser in bounds moves to one at the same place. -/
theorem InBounds.moves_of_eq (h : InBounds p) (ht : q.tokens = p.tokens) (hi : q.index = p.index)
    (hp : q.progress = p.progress) : Moves p q :=
  ⟨ht, hi ▸ h.index_le, hi ▸ hp.trans h.progress⟩

theorem moves_seek (p : Parser) (n : Nat) : Moves p (p.seek n) :=
  ⟨rfl, Nat.min_le_right _ _, rfl⟩

theorem InBounds.act (h : InBounds p) (op : Operation α) : Moves p (op.act p).2 := by
  rcases op.next_act p with he | ⟨n, he⟩ | ⟨entry, he⟩
  · rwa [he]
  · exact he ▸ moves_seek p n
  · exact he ▸ h.moves_of_eq rfl rfl rfl

theorem InBounds.enter (h : InBounds p) (rule : String) : Moves p (p.enter rule) :=
  h.moves_of_eq rfl rfl rfl

/-! ## From the start of a script to its end -/

/-- What a production does from start to end: the cursor comes to stand in bounds and not before
its start, and progress does not decrease. -/
structure Advances (p q : Parser) : Prop where
  tokens : q.tokens = p.tokens
  inBounds : InBounds q
  index_le : p.index ≤ q.index
  progress_le : p.progress ≤ q.progress

theorem InBounds.advances (h : InBounds p) : Advances p p :=
  ⟨rfl, h, Nat.le_refl _, Nat.le_refl _⟩

theorem Advances.trans (h : Advances p q) (h' : Advances q r) : Advances p r :=
  ⟨h'.tokens.trans h.tokens, h'.inBounds, Nat.le_trans h.index_le h'.index_le,
    Nat.le_trans h.progress_le h'.progress_le⟩

theorem InBounds.advances_act (h : InBounds p) (op : Operation α) :
    Advances p (op.act p).2 := by
  have hm := h.act op
  refine ⟨hm.tokens, hm.inBounds, ?_, ?_⟩
  · rcases op.next_act p with he | ⟨n, he⟩ | ⟨entry, he⟩
    · rw [he]
    · have := h.index_le
      rw [he, Parser.seek]
      dsimp only
      omega
    · rw [he]
      rfl
  · have := h.progress
    rw [hm.progress]
    omega

/-- Coming back from an attempt is a move: its start is behind progress by then. -/
theorem Advances.moves_attempt {x : Production α} {rule : String} (h : InBounds p)
    (hx : Advances (p.enter rule) (x (p.enter rule)).next) :
    Moves (x (p.enter rule)).next (Production.attempt rule x p).next := by
  obtain ⟨ht, hb, -, hp⟩ := hx
  rw [attempt_eq]
  cases hr : x (p.enter rule) with
  | matched a q =>
    rw [hr] at hb
    exact hb.moves_of_eq rfl rfl rfl
  | failed e q =>
    rw [hr] at hb
    exact hb.moves_of_eq rfl rfl rfl
  | unmatched q =>
    rw [hr] at ht hb hp
    have htokens : q.tokens = p.tokens := ht
    -- The cursor goes back, and progress stays ahead of where it goes.
    refine ⟨rfl, htokens ▸ h.index_le, ?_⟩
    show q.progress = min (max q.progress p.index) (q.tokens.size - 1)
    have hstart := h.progress
    have hprogress : q.progress = min (max q.progress q.index) (q.tokens.size - 1) := hb.progress
    have hle : p.progress ≤ q.progress := hp
    rw [htokens] at hprogress ⊢
    omega

theorem Advances.attempt {x : Production α} {rule : String} (h : InBounds p)
    (hx : Advances (p.enter rule) (x (p.enter rule)).next) :
    Advances p (Production.attempt rule x p).next := by
  have hm := hx.moves_attempt h
  obtain ⟨ht, hb, hi, hp⟩ := hx
  refine ⟨hm.tokens.trans ht, hm.inBounds, ?_, ?_⟩
  · rw [attempt_eq]
    cases hr : x (p.enter rule) with
    | matched a q => rwa [hr] at hi
    | failed e q => rwa [hr] at hi
    | unmatched q => exact Nat.le_refl _
  · have hle : p.progress ≤ (x (p.enter rule)).next.progress := hp
    have hprogress := hb.progress
    rw [hm.progress]
    omega

namespace Script

/-- Every script comes out at the depth at which it started, however it ends. -/
theorem keeps (s : Script α) : Keeps s.reply := by
  induction s with
  | stop answer =>
    intro p
    rcases answer with e | _ | value <;> exact .refl p
  | act op next ih =>
    intro p
    refine Kept.trans ?_ (ih (op.act p).1 (op.act p).2)
    rcases op.next_act p with he | ⟨n, he⟩ | ⟨entry, he⟩ <;> rw [he]
    · exact .refl p
    · exact .seek p n
    · exact ⟨rfl, rfl⟩
  | call body next ihb ih => exact fun p => (ihb p).trans (ih _ _)
  | backtrack rule body next ihb ih => exact fun p => (ihb.attempt rule p).trans (ih _ _)

theorem advances (s : Script α) (h : InBounds p) : Advances p (s.reply p).next := by
  induction s generalizing p with
  | stop answer => rcases answer with e | _ | value <;> exact h.advances
  | act op next ih =>
    have hop := h.advances_act op
    exact hop.trans (ih _ hop.inBounds)
  | call body next ihb ih =>
    have hbody := ihb h
    exact hbody.trans (ih _ hbody.inBounds)
  | backtrack rule body next ihb ih =>
    have hbody := (ihb (h.enter rule).inBounds).attempt h
    exact hbody.trans (ih _ hbody.inBounds)

end Script

/-! ## Every point of a script -/

namespace Script

/-- The points of two scripts, if the second starts with a move from the end of the first. -/
theorem isChain_append {s : Script α} {t : Script β} (hs : (s.points p).IsChain Moves)
    (ht : (t.points q).IsChain Moves) (h : Moves (s.reply p).next q) :
    (s.points p ++ t.points q).IsChain Moves := by
  refine hs.append ht fun a ha b hb => ?_
  rw [getLast?_points] at ha
  rw [head?_points] at hb
  exact Option.some.inj ha ▸ Option.some.inj hb ▸ h

/-- The points of a script follow one another by moves. -/
theorem isChain_points (s : Script α) (h : InBounds p) : (s.points p).IsChain Moves := by
  -- Induction on the script, from any parser in bounds: each part starts where the last one ended.
  induction s generalizing p with
  | stop => exact .singleton _
  | act op next ih =>
    have hop := h.act op
    refine (ih _ hop.inBounds).cons fun q hq => ?_
    rw [head?_points] at hq
    exact Option.some.inj hq ▸ hop
  | call body next ihb ih =>
    have hbody := (body.advances h).inBounds
    exact isChain_append (ihb h) (ih _ hbody) hbody
  | backtrack rule body next ihb ih =>
    have henter := h.enter rule
    -- Whether the attempt comes back or not, what follows it is one move away.
    have hleave := (body.advances henter.inBounds).moves_attempt h
    refine (isChain_append (ihb henter.inBounds) (ih _ hleave.inBounds) hleave).cons
      fun q hq => ?_
    rw [List.head?_append, head?_points] at hq
    exact Option.some.inj hq ▸ henter

end Script

/-- The farthest place of a cursor among some points. -/
def farthest (points : List Parser) : Nat :=
  points.foldr (fun p far => max p.index far) 0

@[simp] theorem farthest_nil : farthest [] = 0 := rfl

@[simp] theorem farthest_cons (p : Parser) (points : List Parser) :
    farthest (p :: points) = max p.index (farthest points) := rfl

/-- Along moves, progress is the farthest place so far, short of the end.  `far` is the farthest
place before the first point. -/
theorem progress_of_isChain {points before after : List Parser} (far : Nat)
    (hc : (p :: points).IsChain Moves) (hi : p.index ≤ p.tokens.size)
    (hp : p.progress = min (max far p.index) (p.tokens.size - 1))
    (h : p :: points = before ++ q :: after) :
    q.tokens = p.tokens ∧ q.index ≤ p.tokens.size ∧
      q.progress = min (max far (farthest (before ++ [q]))) (p.tokens.size - 1) := by
  -- `far` grows by each point that is passed.
  induction before generalizing p points far with
  | nil =>
    obtain ⟨rfl, -⟩ := List.cons.inj h
    exact ⟨rfl, hi, by simpa using hp⟩
  | cons first before ih =>
    obtain ⟨rfl, hrest⟩ := List.cons.inj h
    cases points with
    | nil => simp at hrest
    | cons p' points =>
      obtain ⟨hm, hc⟩ := List.isChain_cons_cons.mp hc
      obtain ⟨ht, hi, hq⟩ := ih (max far p.index) hc (hm.tokens ▸ hm.index_le)
        (by rw [hm.progress, hm.tokens, hp]; omega) hrest
      rw [hm.tokens] at ht hi hq
      exact ⟨ht, hi, by rw [hq, List.cons_append, farthest_cons, Nat.max_assoc]⟩

/-- Whether, at each of some points of a parser over `tokens`, the cursor is among the tokens and
progress is the farthest place so far, short of the end. -/
def Tracks (tokens : List Token) (points : List Parser) : Prop :=
  ∀ before p after, points = before ++ p :: after →
    p.tokens = tokens.toArray ∧ p.index ≤ tokens.length ∧
      p.progress = min (farthest (before ++ [p])) (tokens.length - 1)

theorem tracks_of_isChain {tokens : List Token} {points : List Parser}
    (hhead : points.head? = some (ofTokens tokens)) (hc : points.IsChain Moves) :
    Tracks tokens points := by
  obtain ⟨more, rfl⟩ := List.head?_eq_some_iff.mp hhead
  intro before p after h
  simpa [ofTokens] using progress_of_isChain 0 hc (Nat.zero_le _) (by simp [ofTokens]) h

theorem Script.tracks_points (tokens : List Token) (s : Script α) :
    Tracks tokens (s.points (ofTokens tokens)) :=
  tracks_of_isChain (s.head?_points _) (s.isChain_points (inBounds_ofTokens tokens))

/-! ## Scripted productions -/

/-- A script that makes the replies of a production. -/
structure Scripted (x : Production α) where
  script : Script α
  reply_eq : script.reply = x

namespace Scripted

theorem keeps {x : Production α} (hx : Scripted x) : Keeps x := by
  obtain ⟨s, rfl⟩ := hx
  exact s.keeps

/-- Where a production matches, tokens and depth are those of its start. -/
theorem kept {x : Production α} {a : α} (hx : Scripted x) (h : x p = .matched a q) :
    Kept p q := by
  have hk := hx.keeps p
  rwa [h] at hk

theorem advances {x : Production α} (hx : Scripted x) (h : InBounds p) :
    Advances p (x p).next := by
  obtain ⟨s, rfl⟩ := hx
  exact s.advances h

/-- A production may stop with any answer. -/
def stop (answer : Except ParseError (Option α)) : Scripted (Script.stop answer).reply :=
  ⟨.stop answer, rfl⟩

def pure (a : α) : Scripted (pure a : Production α) :=
  .stop (.ok (some a))

def mismatch : Scripted (Production.mismatch : Production α) :=
  .stop (.ok none)

def failAt (fault : Fault) (line : Nat) :
    Scripted (Production.failAt fault line : Production α) :=
  .stop (.error (.grammatical ⟨fault, line⟩))

/-- A production may be chosen by what is seen at its start. -/
def looked (look : Look β) {x : β → Production α} (hx : ∀ b, Scripted (x b)) :
    Scripted fun p => x (look.see p) p where
  script := .act (.look look) fun b => (hx b).script
  reply_eq := funext fun p => congrFun (hx (look.see p)).reply_eq p

/-- What is seen may be made something of. -/
def looking (look : Look β) (f : β → α) : Scripted (Production.looking fun p => f (look.see p)) :=
  looked look fun b => pure (f b)

/-- One of two productions may be chosen beforehand. -/
def ite (c : Prop) [Decidable c] {x y : Production α} (hx : Scripted x) (hy : Scripted y) :
    Scripted (if c then x else y) where
  script := if c then hx.script else hy.script
  reply_eq := by rw [apply_ite Script.reply, hx.reply_eq, hy.reply_eq]

def fail (fault : Fault) : Scripted (Production.fail fault : Production α) :=
  looked .errorLine fun line => failAt fault line

def readTrivia (onlyLines : Bool) : Scripted (Production.reading (Parser.readTrivia onlyLines)) :=
  ⟨.act (.readTrivia onlyLines) fun text => .stop (.ok (some text)), rfl⟩

def skip : Scripted Production.skip :=
  ⟨.act (.seek 1) fun _ => .stop (.ok (some ())), rfl⟩

def record (entry : Entry) : Scripted (Production.record entry) :=
  ⟨.act (.note entry) fun _ => .stop (.ok (some ())), rfl⟩

/-- Behind a call, a script goes on where the production has come to. -/
theorem reply_call {x : Production α} (hx : Scripted x)
    (next : Except ParseError (Option α) → Script β) (p : Parser) :
    (Script.call hx.script next).reply p = (next (x p).answer).reply (x p).next := by
  rw [Script.reply, hx.reply_eq]

def bind {x : Production α} {f : α → Production β} (hx : Scripted x)
    (hf : ∀ a, Scripted (f a)) : Scripted (x >>= f) where
  script := .call hx.script fun
    | .ok (some a) => (hf a).script
    | .ok none => .stop (.ok none)
    | .error e => .stop (.error e)
  reply_eq := by
    funext p
    rw [hx.reply_call]
    cases h : x p with
    | matched a q => rw [bind_of_matched h]; exact congrFun (hf a).reply_eq q
    | unmatched q => rw [bind_of_unmatched h]; rfl
    | failed e q => rw [bind_of_failed h]; rfl

def map (f : α → β) {x : Production α} (hx : Scripted x) : Scripted (f <$> x) :=
  hx.bind fun a => .pure (f a)

def take (accept : Token → Option α) : Scripted (Production.take accept) where
  script := .act (.look .peek) fun token? =>
    match token?.bind accept with
    | some value => .act (.seek 1) fun _ => .stop (.ok (some value))
    | none => .stop (.ok none)
  reply_eq := by
    funext p
    rw [Script.reply, Operation.act, Look.see, Production.take]
    cases p.peek?.bind accept <;> rfl

def orElse {x y : Production α} (hx : Scripted x) (hy : Scripted y) : Scripted (x.orElse y) where
  script := .call hx.script fun
    | .ok (some a) => .stop (.ok (some a))
    | .ok none => hy.script
    | .error e => .stop (.error e)
  reply_eq := by
    funext p
    rw [hx.reply_call]
    cases h : x p with
    | matched a q => rw [orElse_of_matched h]; rfl
    | unmatched q => rw [orElse_of_unmatched h]; exact congrFun hy.reply_eq q
    | failed e q => rw [orElse_of_failed h]; rfl

def orFail {x : Production α} (hx : Scripted x) (fault : Fault) : Scripted (x.orFail fault) :=
  hx.orElse (.fail fault)

def optional {x : Production α} (hx : Scripted x) : Scripted (Production.optional x) where
  script := .call hx.script fun
    | .ok value? => .stop (.ok (some value?))
    | .error e => .stop (.error e)
  reply_eq := by
    funext p
    rw [hx.reply_call, Production.optional]
    cases x p <;> rfl

def attempt {x : Production α} (rule : String) (hx : Scripted x) :
    Scripted (Production.attempt rule x) where
  script := .backtrack rule hx.script .stop
  reply_eq := by
    funext p
    rw [Script.reply, hx.reply_eq]
    cases Production.attempt rule x p <;> rfl

end Scripted

/-- An attempt that does not match leaves the cursor where it was. -/
theorem rest_of_attempt_unmatched {x : Production α} {rule : String}
    (hx : Scripted (Production.attempt rule x))
    (h : Production.attempt rule x p = .unmatched q) : q.rest = p.rest := by
  have ht := (hx.keeps p).1
  rw [h] at ht
  obtain ⟨r, -, rfl⟩ := attempt_eq_unmatched h
  show r.tokens.toList.drop p.index = p.tokens.toList.drop p.index
  rw [show r.tokens = p.tokens from ht]

end LookML.Parser

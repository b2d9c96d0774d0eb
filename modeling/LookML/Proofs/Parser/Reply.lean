import LookML.Parser.Grammar

/-!
# Replies — what a production answers, and what it leaves as it is

A sequence of productions matches where each of them does, one after the other, and stops with the
first that does not.  Whatever the reply, a production leaves the tokens and the depth of its
parser as they are (`Keeps`), and an attempt that does not match leaves the cursor where it was.
-/

namespace LookML.Parser

open Production

variable {α β : Type} {p q r : Parser}

/-! ## Sequences -/

theorem bind_eq_matched {x : Production α} {f : α → Production β} {b : β} :
    (x >>= f) p = .matched b r ↔ ∃ a q, x p = .matched a q ∧ f a q = .matched b r := by
  show andThen x f p = _ ↔ _
  unfold andThen
  cases x p with
  | matched a q =>
    exact ⟨fun h => ⟨a, q, rfl, h⟩, fun ⟨a', q', h, h'⟩ => by cases h; exact h'⟩
  | unmatched q => simp
  | failed e q => simp

theorem bind_of_matched {x : Production α} {f : α → Production β} {a : α}
    (h : x p = .matched a q) : (x >>= f) p = f a q := by
  show andThen x f p = _
  rw [andThen, h]

theorem bind_of_unmatched {x : Production α} {f : α → Production β}
    (h : x p = .unmatched q) : (x >>= f) p = .unmatched q := by
  show andThen x f p = _
  rw [andThen, h]

theorem bind_of_failed {x : Production α} {f : α → Production β} {e : ParseError}
    (h : x p = .failed e q) : (x >>= f) p = .failed e q := by
  show andThen x f p = _
  rw [andThen, h]

@[simp] theorem pure_apply (a : α) : (pure a : Production α) p = .matched a p := rfl

theorem map_eq_matched {f : α → β} {x : Production α} {b : β} :
    (f <$> x) p = .matched b r ↔ ∃ a, x p = .matched a r ∧ b = f a := by
  show (x >>= fun a => pure (f a)) p = _ ↔ _
  rw [bind_eq_matched]
  constructor
  · rintro ⟨a, q, hx, h⟩
    cases h
    exact ⟨a, hx, rfl⟩
  · rintro ⟨a, hx, rfl⟩
    exact ⟨a, r, hx, rfl⟩

theorem map_eq_unmatched {f : α → β} {x : Production α} :
    (f <$> x) p = .unmatched r ↔ x p = .unmatched r := by
  show (x >>= fun a => pure (f a)) p = _ ↔ _
  cases hx : x p with
  | matched a q => simp [bind_of_matched hx]
  | unmatched q => simp [bind_of_unmatched hx]
  | failed e q => simp [bind_of_failed hx]

/-! ## Choices -/

theorem orElse_eq_matched {x y : Production α} {a : α} :
    x.orElse y p = .matched a r ↔
      x p = .matched a r ∨ ∃ q, x p = .unmatched q ∧ y q = .matched a r := by
  unfold orElse
  cases x p <;> simp

theorem orElse_of_matched {x y : Production α} {a : α} (h : x p = .matched a q) :
    x.orElse y p = .matched a q := by
  rw [orElse, h]

theorem orElse_of_unmatched {x y : Production α} (h : x p = .unmatched q) :
    x.orElse y p = y q := by
  rw [orElse, h]

theorem orElse_of_failed {x y : Production α} {e : ParseError} (h : x p = .failed e q) :
    x.orElse y p = .failed e q := by
  rw [orElse, h]

theorem orFail_eq_matched {x : Production α} {fault : Fault} {a : α} :
    x.orFail fault p = .matched a r ↔ x p = .matched a r := by
  simp [orFail, orElse_eq_matched, fail]

theorem optional_eq_matched {x : Production α} {a? : Option α} :
    Production.optional x p = .matched a? r ↔
      (∃ a, x p = .matched a r ∧ a? = some a) ∨ (x p = .unmatched r ∧ a? = none) := by
  unfold Production.optional
  cases x p with
  | matched a q =>
    simp only [Reply.matched.injEq, reduceCtorEq, false_and, or_false]
    exact ⟨fun h => ⟨a, ⟨rfl, h.2⟩, h.1.symm⟩, fun ⟨_, ⟨ha, hq⟩, h⟩ => ⟨by rw [h, ha], hq⟩⟩
  | unmatched q =>
    simp only [Reply.matched.injEq, Reply.unmatched.injEq, reduceCtorEq, false_and, exists_false,
      false_or]
    exact ⟨fun h => ⟨h.2, h.1.symm⟩, fun h => ⟨h.2.symm, h.1⟩⟩
  | failed e q => simp

/-! ## Attempts -/

/-- A parser one rule deeper. -/
def enter (rule : String) (p : Parser) : Parser :=
  { p with depth := p.depth + 1 }.note (.entered rule p.depth p.index)

@[simp] theorem rest_enter (rule : String) : (p.enter rule).rest = p.rest := rfl

@[simp] theorem depth_enter (rule : String) : (p.enter rule).depth = p.depth + 1 := rfl

/-- A parser one rule less deep. -/
def leave (p : Parser) : Parser :=
  { p with depth := p.depth - 1 }

@[simp] theorem rest_leave : p.leave.rest = p.rest := rfl

@[simp] theorem depth_leave : p.leave.depth = p.depth - 1 := rfl

/-- A parser one rule less deep and back at the cursor of `start`. -/
def rewind (start : Parser) (rule : String) (p : Parser) : Parser :=
  { p.note (.rewound rule start.depth start.index) with index := start.index, depth := p.depth - 1 }

@[simp] theorem depth_rewind (rule : String) : (q.rewind rule p).depth = p.depth - 1 := rfl

theorem attempt_eq (rule : String) (x : Production α) (p : Parser) :
    attempt rule x p = match x (p.enter rule) with
      | .matched value next => .matched value next.leave
      | .unmatched next => .unmatched (p.rewind rule next)
      | .failed e next => .failed e next.leave := rfl

theorem attempt_of_matched {x : Production α} {rule : String} {a : α}
    (h : x (p.enter rule) = .matched a q) : attempt rule x p = .matched a q.leave := by
  rw [attempt_eq, h]

theorem attempt_of_unmatched {x : Production α} {rule : String}
    (h : x (p.enter rule) = .unmatched q) :
    attempt rule x p = .unmatched (p.rewind rule q) := by
  rw [attempt_eq, h]

theorem attempt_of_failed {x : Production α} {rule : String} {e : ParseError}
    (h : x (p.enter rule) = .failed e q) : attempt rule x p = .failed e q.leave := by
  rw [attempt_eq, h]

theorem attempt_eq_matched {x : Production α} {rule : String} {a : α}
    (h : attempt rule x p = .matched a r) :
    ∃ q, x (p.enter rule) = .matched a q ∧ r = q.leave := by
  rw [attempt_eq] at h
  cases hr : x (p.enter rule) with
  | matched b q =>
    rw [hr] at h
    cases h
    exact ⟨q, rfl, rfl⟩
  | unmatched q => simp [hr] at h
  | failed e q => simp [hr] at h

theorem attempt_eq_unmatched {x : Production α} {rule : String}
    (h : attempt rule x p = .unmatched r) :
    ∃ q, x (p.enter rule) = .unmatched q ∧ r = p.rewind rule q := by
  rw [attempt_eq] at h
  cases hr : x (p.enter rule) with
  | matched b q => simp [hr] at h
  | unmatched q =>
    rw [hr] at h
    cases h
    exact ⟨q, rfl, rfl⟩
  | failed e q => simp [hr] at h

/-! ## What stays -/

/-- A parser over the same tokens at the same depth. -/
def Kept (p q : Parser) : Prop :=
  q.tokens = p.tokens ∧ q.depth = p.depth

theorem Kept.refl (p : Parser) : Kept p p := ⟨rfl, rfl⟩

theorem Kept.trans (h : Kept p q) (h' : Kept q r) : Kept p r :=
  ⟨h'.1.trans h.1, h'.2.trans h.2⟩

theorem Kept.seek (p : Parser) (n : Nat) : Kept p (p.seek n) := ⟨rfl, rfl⟩

/-- A production that, whatever its reply, leaves the tokens and the depth as they are. -/
def Keeps (x : Production α) : Prop :=
  ∀ p, Kept p (x p).next

/-- An attempt comes back to the depth it started from. -/
theorem Keeps.attempt {x : Production α} (rule : String) (hx : Keeps x) :
    Keeps (Production.attempt rule x) := by
  intro p
  obtain ⟨ht, hd⟩ := hx (p.enter rule)
  rw [depth_enter] at hd
  cases hr : x (p.enter rule) with
  | matched a q =>
    rw [attempt_of_matched hr]
    rw [hr] at ht hd
    exact ⟨ht, by simp [Reply.next, show q.depth = p.depth + 1 from hd]⟩
  | unmatched q =>
    rw [attempt_of_unmatched hr]
    rw [hr] at ht hd
    exact ⟨ht, by simp [Reply.next, show q.depth = p.depth + 1 from hd]⟩
  | failed e q =>
    rw [attempt_of_failed hr]
    rw [hr] at ht hd
    exact ⟨ht, by simp [Reply.next, show q.depth = p.depth + 1 from hd]⟩

end LookML.Parser

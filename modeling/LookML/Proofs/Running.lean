/-!
# Running — computations that may fail and keep a state

Builders and projections both run over a state and may stop with an error.  Their runs are taken
apart here, one lemma for each way that such a computation is put together.
-/

namespace LookML

variable {ε σ α β : Type}

/-- A sequence goes on with the second part where the first succeeds. -/
theorem run_bind (x : ExceptT ε (StateM σ) α) (f : α → ExceptT ε (StateM σ) β) (s : σ) :
    (x >>= f).run.run s = match x.run.run s with
      | (.ok a, after) => (f a).run.run after
      | (.error e, after) => (.error e, after) := by
  show (do let r ← x.run; ExceptT.bindCont f r : StateM σ _).run s = _
  rw [StateT.run_bind]
  rcases x.run.run s with ⟨_ | a, after⟩ <;> rfl

theorem run_bind_eq_ok {x : ExceptT ε (StateM σ) α} {f : α → ExceptT ε (StateM σ) β} {b : β}
    {s t : σ} : (x >>= f).run.run s = (.ok b, t) ↔
      ∃ a r, x.run.run s = (.ok a, r) ∧ (f a).run.run r = (.ok b, t) := by
  rw [run_bind]
  rcases x.run.run s with ⟨e | a, after⟩
  · constructor
    · intro h
      cases h
    · rintro ⟨a, r, h, -⟩
      cases h
  · constructor
    · exact fun h => ⟨a, after, rfl, h⟩
    · rintro ⟨a', r, h, hf⟩
      cases h
      exact hf

theorem run_pure_eq_ok {a b : α} {s t : σ} :
    (pure a : ExceptT ε (StateM σ) α).run.run s = (.ok b, t) ↔ a = b ∧ s = t := by
  show ((Except.ok a, s) : Except ε α × σ) = (.ok b, t) ↔ _
  simp

theorem run_map_eq_ok {x : ExceptT ε (StateM σ) α} {f : α → β} {b : β} {s t : σ} :
    (f <$> x).run.run s = (.ok b, t) ↔ ∃ a, x.run.run s = (.ok a, t) ∧ f a = b := by
  show (x >>= fun a => pure (f a)).run.run s = _ ↔ _
  rw [run_bind_eq_ok]
  constructor
  · rintro ⟨a, r, hx, h⟩
    obtain ⟨rfl, rfl⟩ := run_pure_eq_ok.mp h
    exact ⟨a, hx, rfl⟩
  · rintro ⟨a, hx, rfl⟩
    exact ⟨a, t, hx, rfl⟩

theorem run_get (f : σ → ExceptT ε (StateM σ) α) (s : σ) :
    (get >>= f).run.run s = (f s).run.run s := rfl

/-! ## Success -/

/-- From every state, a computation succeeds with a result of this kind. -/
def Returns (x : ExceptT ε (StateM σ) α) (post : α → Prop) : Prop :=
  ∀ s, ∃ a t, x.run.run s = (.ok a, t) ∧ post a

section success

variable {x : ExceptT ε (StateM σ) α} {post : α → Prop}

theorem returns_pure {a : α} (h : post a) : Returns (pure a : ExceptT ε (StateM σ) α) post :=
  fun s => ⟨a, s, rfl, h⟩

theorem Returns.bind {f : α → ExceptT ε (StateM σ) β} {next : β → Prop} (hx : Returns x post)
    (hf : ∀ a, post a → Returns (f a) next) : Returns (x >>= f) next := by
  intro s
  obtain ⟨a, r, hrun, ha⟩ := hx s
  obtain ⟨b, t, hnext, hb⟩ := hf a ha r
  exact ⟨b, t, run_bind_eq_ok.mpr ⟨a, r, hrun, hnext⟩, hb⟩

theorem Returns.mono {weaker : α → Prop} (hx : Returns x post) (h : ∀ a, post a → weaker a) :
    Returns x weaker := by
  intro s
  obtain ⟨a, t, hrun, ha⟩ := hx s
  exact ⟨a, t, hrun, h a ha⟩

theorem returns_get : Returns (get : ExceptT ε (StateM σ) σ) fun _ => True :=
  fun s => ⟨s, s, rfl, trivial⟩

theorem returns_modify (f : σ → σ) :
    Returns (modify f : ExceptT ε (StateM σ) PUnit) fun _ => True :=
  fun s => ⟨⟨⟩, f s, rfl, trivial⟩

end success

/-! ## Results -/

section results

variable {m : Type → Type} [Monad m]

/-- Whether `x` has the result `a`, whatever else it does. -/
def HasResult (x : m α) (a : α) : Prop :=
  (fun _ => a) <$> x = x

theorem hasResult_pure [LawfulMonad m] (a : α) : HasResult (pure a : m α) a :=
  map_pure _ a

theorem HasResult.bind [LawfulMonad m] {x : m α} {f : α → m β} {a : α} {b : β}
    (hx : HasResult x a) (hf : HasResult (f a) b) : HasResult (x >>= f) b := by
  -- What comes next does not look at the result of `x`.
  have hxf : x >>= f = x >>= fun _ => f a :=
    calc
      x >>= f = (fun _ => a) <$> x >>= f := congrArg (· >>= f) hx.symm
      _ = x >>= fun _ => f a := bind_map_left ..
  show (fun _ => b) <$> (x >>= f) = x >>= f
  rw [hxf, map_bind]
  exact bind_congr fun _ => hf

theorem hasResult_id_iff {x : Id α} {a : α} : HasResult x a ↔ x = a :=
  eq_comm

theorem HasResult.run_eq {x : StateM σ α} {a : α} (h : HasResult x a) (s : σ) :
    (x.run s).1 = a := by
  have hx : x.run s = ((fun _ => a) <$> x).run s := congrArg (·.run s) h.symm
  rw [hx]
  rfl

end results

/-- What is computed from a result that is known to be there. -/
theorem exists_of_map_toOption {result : Except ε α} {f : α → β} {b : β}
    (h : result.toOption.map f = some b) : ∃ a, result = .ok a ∧ f a = b := by
  cases result with
  | error e => cases h
  | ok a => exact ⟨a, rfl, Option.some.inj h⟩

theorem exists_of_isOk {result : Except ε α} (h : result.isOk = true) :
    ∃ a, result = .ok a := by
  cases result with
  | error e => cases h
  | ok a => exact ⟨a, rfl⟩

end LookML

import LookML.Proofs.Parser.Consumption

/-!
# Loops — the loops of the grammar end by themselves

The loops over items and entries, and the containers nested in one another, are bounded by the
number of tokens left.  As each of their rules reads at least one token where it matches, the bound
is never met: no loop stops for lack of it, and any larger one gives the same reply.
-/

namespace LookML.Parser

open Production

variable {α β : Type} {p q : Parser}

/-! ## Rules that read something -/

/-- A production that reads at least one token where it matches. -/
def Consumes (x : Production α) : Prop :=
  ∀ {p q : Parser} {a : α}, x p = .matched a q → q.rest.length < p.rest.length

theorem length_lt_of_reads {a b : List Token} {s : String} {l : List Lexeme}
    (h : Reads a s l b) (hl : l ≠ []) : b.length < a.length := by
  have hle := h.length_le
  have hpos := List.length_pos_iff.mpr hl
  omega

theorem Phrase.lexemes_ne_nil (phrase : Phrase) : phrase.lexemes ≠ [] := by
  obtain ⟨rest, hr⟩ := phrase.lexemes_eq_cons
  simp [hr]

theorem consumes_comma : Consumes comma :=
  fun h => length_lt_of_reads (reads_of_comma h) (by simp)

theorem consumes_key : Consumes key :=
  fun {_ _ kc} h =>
    length_lt_of_reads (reads_of_key (k := kc.1) (c := kc.2) h) (by simp [Lexeme.key])

theorem consumes_value : Consumes value := by
  intro p q leaf h
  refine length_lt_of_reads (reads_of_value h) ?_
  cases leaf.datum <;> simp [Datum.lexemes]

theorem consumes_pair : Consumes pair :=
  fun h => length_lt_of_reads (reads_of_pair h) (Phrase.lexemes_ne_nil _)

theorem consumes_listing : Consumes listing :=
  fun h => length_lt_of_reads (reads_of_listing h) (Phrase.lexemes_ne_nil _)

theorem consumes_block : Consumes block :=
  fun h => length_lt_of_reads (reads_of_blockOf readsContainers_container h)
    (Phrase.lexemes_ne_nil _)

theorem consumes_itemOf {container : Production Container} (hc : ReadsContainers container)
    (hs : Scripted container) : Consumes (itemOf container) :=
  fun h => length_lt_of_reads (reads_of_itemOf hc hs h) (Phrase.lexemes_ne_nil _)

/-! ## Rules that always answer -/

/-- A production that matches or fails from here. -/
def Concludes (x : Production α) (p : Parser) : Prop :=
  ∀ q, x p ≠ .unmatched q

namespace Concludes

theorem of_matched {x : Production α} {a : α} (h : x p = .matched a q) : Concludes x p := by
  intro r hr
  simp [h] at hr

theorem of_failed {x : Production α} {e : ParseError} (h : x p = .failed e q) : Concludes x p := by
  intro r hr
  simp [h] at hr

theorem of_apply {x y : Production α} (h : Concludes y p) (hxy : x p = y p) : Concludes x p := by
  intro q hq
  exact h q (hxy ▸ hq)

theorem bind {x : Production α} {f : α → Production β} (hx : Concludes x p)
    (hf : ∀ a q, x p = .matched a q → Concludes (f a) q) : Concludes (x >>= f) p := by
  intro r hr
  cases h : x p with
  | matched a q =>
    rw [bind_of_matched h] at hr
    exact hf a q h r hr
  | unmatched q => exact hx q h
  | failed e q => simp [bind_of_failed h] at hr

theorem orElse {x y : Production α} (hy : ∀ q, x p = .unmatched q → Concludes y q) :
    Concludes (x.orElse y) p := by
  intro r hr
  cases h : x p with
  | matched a q => simp [orElse_of_matched h] at hr
  | unmatched q =>
    rw [orElse_of_unmatched h] at hr
    exact hy q h r hr
  | failed e q => simp [orElse_of_failed h] at hr

theorem orFail {x : Production α} (fault : Fault) : Concludes (x.orFail fault) p :=
  orElse fun _ _ => of_failed rfl

theorem optional (x : Production α) : Concludes (Production.optional x) p := by
  intro r hr
  unfold Production.optional at hr
  cases h : x p <;> simp [h] at hr

theorem attempt {x : Production α} {rule : String} (hx : Concludes x (p.enter rule)) :
    Concludes (Production.attempt rule x) p := by
  intro r hr
  obtain ⟨q, hq, -⟩ := attempt_eq_unmatched hr
  exact hx q hq

end Concludes

theorem concludes_pick (as : ListEntry → Except Fault α) (entry : ListEntry) :
    Concludes (pick as entry) p := by
  unfold pick
  split
  · exact .of_matched rfl
  · exact .of_failed rfl

theorem concludes_beforeStreamEnd : Concludes beforeStreamEnd p := by
  refine .bind (.of_matched rfl) fun ends q _ => ?_
  cases ends
  · exact .of_matched rfl
  · exact .of_failed rfl

theorem concludes_listEntry : Concludes listEntry p := by
  refine .bind (.orElse fun q _ => .orFail _) fun entry q _ => ?_
  intro r hr
  unfold plainEntry at hr
  split at hr <;> simp [failAt, result] at hr

theorem concludes_moreEntries (as : ListEntry → Except Fault α) {fuel : Nat}
    (hf : p.rest.length < fuel) : Concludes (moreEntries as fuel) p := by
  induction fuel generalizing p with
  | zero => exact absurd hf (Nat.not_lt_zero _)
  | succ fuel ih =>
    refine .bind (.of_matched rfl) fun ends p₁ h₁ => ?_
    obtain ⟨-, rfl⟩ := Reply.matched.inj h₁
    cases ends with
    | true => exact .of_matched rfl
    | false =>
      refine .bind concludes_beforeStreamEnd fun _ p₂ h₂ => ?_
      obtain rfl := beforeStreamEnd_eq_matched h₂
      refine .bind (.orFail _) fun comma p₃ h₃ => .bind (.of_matched rfl) fun ends p₄ h₄ => ?_
      obtain ⟨-, rfl⟩ := Reply.matched.inj h₄
      -- The comma leaves fewer tokens, and the entry after it no more.
      have hcomma := consumes_comma (orFail_eq_matched.mp h₃)
      cases ends with
      | true => exact .of_matched rfl
      | false =>
        refine .bind concludes_beforeStreamEnd fun _ p₅ h₅ => ?_
        obtain rfl := beforeStreamEnd_eq_matched h₅
        refine .bind concludes_listEntry fun entry p₆ h₆ => ?_
        have hentry := (reads_of_listEntry h₆).length_le
        refine .bind (concludes_pick as entry) fun a p₇ h₇ => ?_
        obtain ⟨-, rfl⟩ := pick_eq_matched h₇
        exact .bind (ih (by omega)) fun _ _ _ => .of_matched rfl

theorem concludes_entriesFrom (as : ListEntry → Except Fault α) (gather : List α → Entries)
    (first : α) : Concludes (entriesFrom as gather first) p := by
  have hmore : Concludes (moreEntries as (p.remaining + 1)) p :=
    concludes_moreEntries as (by rw [remaining_eq]; exact Nat.lt_succ_self _)
  exact .bind (hmore.of_apply rfl) fun _ _ _ => .of_matched rfl

theorem concludes_listValues : Concludes listValues p := by
  refine .bind (.of_matched rfl) fun ends q _ => ?_
  cases ends with
  | true => exact .of_matched rfl
  | false =>
    refine .bind concludes_beforeStreamEnd fun _ _ _ => .bind concludes_listEntry
      fun entry _ _ => ?_
    cases entry <;> exact concludes_entriesFrom _ _ _

theorem concludes_itemOf (container : Production Container) : Concludes (itemOf container) p :=
  .orElse fun _ _ => .orElse fun _ _ => .orElse fun _ _ => .of_failed rfl

theorem concludes_items {item : Production Item} (hc : ∀ p, Concludes item p)
    (hlt : Consumes item) {fuel : Nat} (hf : p.rest.length < fuel) :
    Concludes (items item fuel) p := by
  induction fuel generalizing p with
  | zero => exact absurd hf (Nat.not_lt_zero _)
  | succ fuel ih =>
    refine .bind (.of_matched rfl) fun ends p₁ h₁ => ?_
    obtain ⟨-, rfl⟩ := Reply.matched.inj h₁
    cases ends with
    | true => exact .of_matched rfl
    | false =>
      refine .bind (hc _) fun first p₂ h₂ => ?_
      have hfirst := hlt h₂
      exact .bind (ih (by omega)) fun _ _ _ => .of_matched rfl

theorem concludes_containerOf {item : Production Item} (hc : ∀ p, Concludes item p)
    (hlt : Consumes item) : Concludes (containerOf item) p := by
  have hitems : Concludes (items item ((p.enter "container").remaining + 1))
      (p.enter "container") :=
    concludes_items hc hlt (by rw [remaining_eq]; exact Nat.lt_succ_self _)
  refine .attempt <| .bind (hitems.of_apply rfl) fun members q _ => ?_
  intro r hr
  unfold checked at hr
  split at hr <;> simp at hr

theorem container_apply (p : Parser) :
    container p = containerOf (itemOf (containerWithin p.remaining)) p := rfl

theorem consumes_itemOf_containerWithin (fuel : Nat) :
    Consumes (itemOf (containerWithin fuel)) :=
  consumes_itemOf (readsContainers_containerWithin fuel) (scriptedContainerWithin fuel)

theorem concludes_container : Concludes container p := by
  have hcontainer : Concludes (containerOf (itemOf (containerWithin p.remaining))) p :=
    concludes_containerOf (fun _ => concludes_itemOf _) (consumes_itemOf_containerWithin _)
  exact hcontainer.of_apply (container_apply p)

theorem concludes_nothingLeft : Concludes nothingLeft p := by
  refine .bind (.of_matched rfl) fun token? q _ => ?_
  cases token? with
  | none => exact .of_matched rfl
  | some token =>
    dsimp only
    split
    · exact .of_failed rfl
    · exact .of_matched rfl

theorem concludes_document : Concludes document p :=
  .bind (.of_matched rfl) fun _ _ _ => .bind (.of_matched rfl) fun _ _ _ =>
    .bind (.optional _) fun _ _ _ => .bind (.of_matched rfl) fun _ _ _ =>
      .bind concludes_container fun _ _ _ => .bind (.of_matched rfl) fun _ _ _ =>
        .bind concludes_nothingLeft fun _ _ _ => .bind (.of_matched rfl) fun _ _ _ =>
          .of_matched rfl

/-! ## Any larger bound -/

theorem bind_congr {x y : Production α} {f g : α → Production β} (hx : x p = y p)
    (hf : ∀ a q, x p = .matched a q → f a q = g a q) : (x >>= f) p = (y >>= g) p := by
  cases h : x p with
  | matched a q =>
    rw [bind_of_matched h, bind_of_matched (hx ▸ h)]
    exact hf a q h
  | unmatched q => rw [bind_of_unmatched h, bind_of_unmatched (hx ▸ h)]
  | failed e q => rw [bind_of_failed h, bind_of_failed (hx ▸ h)]

theorem attempt_congr {x y : Production α} {rule : String}
    (h : x (p.enter rule) = y (p.enter rule)) : attempt rule x p = attempt rule y p := by
  rw [attempt_eq, attempt_eq, h]

/-- With more turns than there are tokens left, a list goes on in the same way. -/
theorem moreEntries_congr (as : ListEntry → Except Fault α) {fuel fuel' : Nat}
    (hf : p.rest.length < fuel) (hf' : p.rest.length < fuel') :
    moreEntries as fuel p = moreEntries as fuel' p := by
  -- Each turn takes a comma at least, so the turns left stay more than the tokens left.
  induction fuel generalizing p fuel' with
  | zero => exact absurd hf (Nat.not_lt_zero _)
  | succ fuel ih =>
    cases fuel' with
    | zero => exact absurd hf' (Nat.not_lt_zero _)
    | succ fuel' =>
      refine bind_congr rfl fun ends p₁ h₁ => ?_
      obtain ⟨-, rfl⟩ := Reply.matched.inj h₁
      cases ends with
      | true => rfl
      | false =>
        refine bind_congr rfl fun _ p₂ h₂ => ?_
        obtain rfl := beforeStreamEnd_eq_matched h₂
        refine bind_congr rfl fun comma p₃ h₃ => bind_congr rfl fun ends p₄ h₄ => ?_
        obtain ⟨-, rfl⟩ := Reply.matched.inj h₄
        have hcomma := consumes_comma (orFail_eq_matched.mp h₃)
        cases ends with
        | true => rfl
        | false =>
          refine bind_congr rfl fun _ p₅ h₅ => ?_
          obtain rfl := beforeStreamEnd_eq_matched h₅
          refine bind_congr rfl fun entry p₆ h₆ => bind_congr rfl fun a p₇ h₇ => ?_
          have hentry := (reads_of_listEntry h₆).length_le
          obtain ⟨-, rfl⟩ := pick_eq_matched h₇
          exact bind_congr (ih (by omega) (by omega)) fun _ _ _ => rfl

/-- Items that agree wherever no more tokens are left make the same containers, with more turns than
there are tokens left. -/
theorem items_congr {item item' : Production Item} (hlt : Consumes item) {fuel fuel' : Nat}
    (hi : ∀ q : Parser, q.rest.length ≤ p.rest.length → item q = item' q)
    (hf : p.rest.length < fuel) (hf' : p.rest.length < fuel') :
    items item fuel p = items item' fuel' p := by
  -- As above: each item takes a token at least.
  induction fuel generalizing p fuel' with
  | zero => exact absurd hf (Nat.not_lt_zero _)
  | succ fuel ih =>
    cases fuel' with
    | zero => exact absurd hf' (Nat.not_lt_zero _)
    | succ fuel' =>
      refine bind_congr rfl fun ends p₁ h₁ => ?_
      obtain ⟨-, rfl⟩ := Reply.matched.inj h₁
      cases ends with
      | true => rfl
      | false =>
        refine bind_congr (hi _ (Nat.le_refl _)) fun first p₂ h₂ => ?_
        have hfirst := hlt h₂
        have hrest : items item fuel p₂ = items item' fuel' p₂ :=
          ih (fun q hq => hi q (by omega)) (by omega) (by omega)
        exact bind_congr hrest fun _ _ _ => rfl

/-- A block is the same over containers that agree where fewer tokens are left. -/
theorem blockOf_congr {c c' : Production Container}
    (hc : ∀ q : Parser, q.rest.length < p.rest.length → c q = c' q) :
    blockOf c p = blockOf c' p := by
  refine attempt_congr <| bind_congr rfl fun ⟨k, colon⟩ p₁ h₁ => bind_congr rfl
    fun name? p₂ h₂ => bind_congr rfl fun opening p₃ h₃ => ?_
  have hkey := consumes_key h₁
  rw [rest_enter] at hkey
  have hname := (reads_of_optional_word h₂).length_le
  have hopening := (reads_of_bracket h₃).length_le
  exact bind_congr (hc p₃ (by omega)) fun _ _ _ => rfl

theorem itemOf_congr {c c' : Production Container}
    (hc : ∀ q : Parser, q.rest.length < p.rest.length → c q = c' q) : itemOf c p = itemOf c' p := by
  have hblock : (Item.block <$> blockOf c) p = (Item.block <$> blockOf c') p :=
    bind_congr (blockOf_congr hc) fun _ _ _ => rfl
  rw [itemOf, itemOf, orElse, orElse, hblock]

theorem containerOf_congr {item item' : Production Item} (hlt : Consumes item)
    (hi : ∀ q : Parser, q.rest.length ≤ p.rest.length → item q = item' q) :
    containerOf item p = containerOf item' p := by
  refine attempt_congr <| bind_congr ?_ fun _ _ _ => rfl
  have hf : (p.enter "container").rest.length < (p.enter "container").remaining + 1 := by
    rw [remaining_eq]
    exact Nat.lt_succ_self _
  exact items_congr hlt hi hf hf

/-- Containers may be nested as deep as there are tokens left, and no deeper bound matters. -/
theorem containerWithin_congr {fuel fuel' : Nat} (hf : p.rest.length < fuel)
    (hf' : p.rest.length < fuel') : containerWithin fuel p = containerWithin fuel' p := by
  induction fuel generalizing p fuel' with
  | zero => exact absurd hf (Nat.not_lt_zero _)
  | succ fuel ih =>
    cases fuel' with
    | zero => exact absurd hf' (Nat.not_lt_zero _)
    | succ fuel' =>
      exact containerOf_congr (consumes_itemOf_containerWithin fuel) fun q hq =>
        itemOf_congr fun r hr => ih (by omega) (by omega)

/-- A container is made of items that hold containers of the same kind, however deep. -/
theorem container_eq : container = containerOf (itemOf container) := by
  funext p
  rw [container_apply]
  refine containerOf_congr (consumes_itemOf_containerWithin _) fun q hq => itemOf_congr
    fun r hr => ?_
  -- Inside a block, fewer tokens are left.
  rw [container]
  apply containerWithin_congr <;> rw [remaining_eq] <;> omega

end LookML.Parser

import LookML.Proofs.Projection.Distinct
import LookML.Proofs.Projection.Reuse

/-!
# Below the root — the plain data of items and of containers in blocks

Below the root a key that is taken is always an error, so a projection there never warns and ends
in the same way at any depth (`Steady`).  An item and a container in a block have plain data of
their own, wherever they stand.
-/

namespace LookML

/-- The plain data of an item: where it stands does not matter (`Projector.runs_item`). -/
def Item.project (item : Item) : Except ProjectionError Value :=
  ((Projector.item item).run.run { depth := 1 }).1.map Prod.snd

/-- The fields of a container in a block, before the name of the block is put among them: where it
stands does not matter (`Projector.runs_container`). -/
def Container.project (container : Container) : Except ProjectionError (Object Value) :=
  ((Projector.container container).run.run { depth := 1 }).1

namespace Projector

variable {α β : Type} {depth least : Nat}

/-- Whether `x` ends in the same way from every depth but the `least`, without a warning. -/
def Steady (least : Nat) (x : Projecting α) : Prop :=
  ∃ result, ∀ depth, least ≤ depth → Runs depth x result []

theorem steady_pure (a : α) : Steady least (pure a) :=
  ⟨_, fun depth _ => runs_pure depth a⟩

theorem steady_throw (e : ProjectionError) : Steady least (throw e : Projecting α) :=
  ⟨_, fun depth _ => runs_throw depth e⟩

theorem Steady.bind {x : Projecting α} {f : α → Projecting β} (hx : Steady least x)
    (hf : ∀ a, Steady least (f a)) : Steady least (x >>= f) := by
  obtain ⟨result, hrun⟩ := hx
  cases result with
  | error e => exact ⟨_, fun depth hd => (hrun depth hd).stop f⟩
  | ok a =>
    obtain ⟨next, hnext⟩ := hf a
    exact ⟨_, fun depth hd => (hrun depth hd).bind (hnext depth hd)⟩

/-- Below the root a key that is taken is an error, at any depth. -/
theorem runs_merge_taken {target : Object Value} {key : String} (hd : 2 ≤ depth)
    (hp : Keys.isPlural key = false) (hk : key ∈ target.keys) (value : Value)
    (line? : Option Nat) : Runs depth (merge target key value line?) (.error ⟨key, line?⟩) [] := by
  intro warnings
  have hroot : depth ≠ 1 := by omega
  unfold merge
  rw [if_neg (by simp [hp]), if_pos (Object.contains_iff_mem.mpr hk), run_get, if_neg hroot]
  rfl

/-- At the root a key that is taken is declared again, with a warning. -/
theorem runs_merge_again {target : Object Value} {key : String}
    (hp : Keys.isPlural key = false) (hk : key ∈ target.keys) (value : Value)
    (line? : Option Nat) :
    Runs 1 (merge target key value line?) (.ok (target.insert key value)) [key] := by
  intro warnings
  unfold merge
  rw [if_neg (by simp [hp]), if_pos (Object.contains_iff_mem.mpr hk), run_get, if_pos rfl]
  rfl

theorem merge_new {target : Object Value} {key : String} (hp : Keys.isPlural key = false)
    (hk : key ∉ target.keys) (value : Value) (line? : Option Nat) :
    merge target key value line? = pure (target.insert key value) := by
  unfold merge
  rw [if_neg (by simp [hp]), Object.contains_eq_false hk, if_neg (by simp)]

theorem merge_plural {target : Object Value} {key : String} (hp : Keys.isPlural key = true)
    (value : Value) (line? : Option Nat) : merge target key value line? =
      match gather target (Keys.pluralize key) value with
      | some target => pure target
      | none => throw ⟨Keys.pluralize key, line?⟩ := by
  unfold merge
  refine (if_pos hp).trans ?_
  cases gather target (Keys.pluralize key) value <;> rfl

theorem steady_merge (target : Object Value) (key : String) (value : Value)
    (line? : Option Nat) : Steady 2 (merge target key value line?) := by
  cases hp : Keys.isPlural key with
  | true =>
    rw [merge_plural hp]
    cases gather target (Keys.pluralize key) value with
    | some fields => exact steady_pure fields
    | none => exact steady_throw _
  | false =>
    by_cases hk : key ∈ target.keys
    · exact ⟨_, fun depth hd => runs_merge_taken hd hp hk value line?⟩
    · rw [merge_new hp hk]
      exact steady_pure _

theorem steady_container_of_items {c : Container} (h : Steady 2 (items {} c.items)) :
    Steady 1 (container c) := by
  obtain ⟨result, hrun⟩ := h
  exact ⟨result, fun depth hd => runs_container_of_items (hrun (depth + 1) (Nat.succ_le_succ hd))⟩

mutual

theorem steady_item : ∀ i : Item, Steady 1 (item i)
  | .pair p => steady_pure (pair p)
  | .listing l => steady_pure (listing l)
  | .block ⟨_, _, _, _, ⟨inner, _⟩, _⟩ =>
    (steady_container_of_items (steady_items inner {})).bind fun _ => steady_pure _

theorem steady_items : ∀ (list : List Item) (target : Object Value), Steady 2 (items target list)
  | [], target => steady_pure target
  | first :: rest, target => by
    obtain ⟨result, hrun⟩ := steady_item first
    have hfirst : Steady 2 (item first) := ⟨result, fun depth hd => hrun depth (by omega)⟩
    exact hfirst.bind fun entry =>
      (steady_merge target entry.1 entry.2 first.line?).bind fun target =>
        steady_items rest target

end

/-- A container in a block is projected alike wherever it stands, without a warning. -/
theorem runs_container (c : Container) (hd : 0 < depth) :
    Runs depth (container c) c.project [] := by
  obtain ⟨result, hrun⟩ := steady_container_of_items (steady_items c.items {})
  have hresult : c.project = result := by
    rw [Container.project, (hrun 1 (Nat.le_refl 1)).run_eq rfl]
  rw [hresult]
  exact hrun depth hd

theorem runs_block (b : Block) (hd : 0 < depth) : Runs depth (item (.block b))
    (b.container.project.map fun fields => (b.key.value, .object (named b.name? fields))) [] := by
  obtain ⟨key, colon, name?, opening, inner, closing⟩ := b
  exact (runs_container inner hd).map _

end Projector

/-- A block has the plain data of its container, with its name among the fields. -/
theorem Item.project_block (b : Block) : (Item.block b).project =
    b.container.project.map fun fields => .object (Projector.named b.name? fields) := by
  rw [project, (Projector.runs_block b Nat.one_pos).run_eq rfl]
  cases b.container.project <;> rfl

namespace Projector

variable {depth : Nat} {target merged : Object Value} {i : Item} {value : Value}
  {rest : List Item} {result : Except ProjectionError (Object Value)} {new more : List String}

/-- An item is projected alike in every container, under its key and without a warning. -/
theorem runs_item (i : Item) (hd : 0 < depth) :
    Runs depth (item i) (i.project.map fun value => (i.key, value)) [] := by
  cases i with
  | pair p => exact runs_pure depth (pair p)
  | listing l => exact runs_pure depth (listing l)
  | block b =>
    have hrun := runs_block b hd
    rw [Item.project_block]
    cases hb : b.container.project <;> rwa [hb] at hrun

theorem runs_item_of_project (hd : 0 < depth) (hv : i.project = .ok value) :
    Runs depth (item i) (.ok (i.key, value)) [] := by
  have hrun := runs_item i hd
  rwa [hv] at hrun

/-- An item that is projected is merged before the items after it. -/
theorem runs_items_cons (hd : 0 < depth) (hv : i.project = .ok value)
    (hm : Runs depth (merge target i.key value i.line?) (.ok merged) new)
    (hr : Runs depth (items merged rest) result more) :
    Runs depth (items target (i :: rest)) result (more ++ new) := by
  have hrun := (runs_item_of_project hd hv).bind (f := fun entry => do
    let target ← merge target entry.1 entry.2 i.line?
    items target rest) (hm.bind hr)
  rwa [List.append_nil] at hrun

/-- An item that cannot be merged ends the row. -/
theorem runs_items_stop {e : ProjectionError} (hd : 0 < depth) (hv : i.project = .ok value)
    (hm : Runs depth (merge target i.key value i.line?) (.error e) new) (rest : List Item) :
    Runs depth (items target (i :: rest)) (.error e) new := by
  have hrun := (runs_item_of_project hd hv).bind (f := fun entry => do
    let target ← merge target entry.1 entry.2 i.line?
    items target rest) (hm.stop _)
  rwa [List.append_nil] at hrun

end Projector

end LookML

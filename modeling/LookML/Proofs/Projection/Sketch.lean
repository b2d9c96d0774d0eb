import LookML.Projection
import LookML.Proofs.Grammar.Phrase
import LookML.Proofs.Running

/-!
# Sketches — what a tree says, however it is written

A sketch keeps the keys, names and values of a tree and forgets how they are written.  A
projection reads nothing else: it follows `Sketch.value` and `Sketch.fields`, which need no state,
and errs over the same key (`project_eq`).
-/

namespace LookML

/-- What an item says. -/
inductive Sketch where
  | pair (key text : String)
  | listing (key : String) (items : List Value)
  | block (key : String) (name? : Option String) (items : List Sketch)

namespace Sketch

def key : Sketch → String
  | pair key _ | listing key _ | block key _ _ => key

/-! ## Plain data -/

/-- The fields with a value under a key merged in, or the key that is taken. -/
def merge (atRoot : Bool) (target : Object Value) (key : String) (value : Value) :
    Except String (Object Value) :=
  if Keys.isPlural key then
    match Projector.gather target (Keys.pluralize key) value with
    | some target => .ok target
    | none => .error (Keys.pluralize key)
  else if target.contains key && !atRoot then
    .error key
  else
    .ok (target.insert key value)

/-- The fields of a block, with its name among them. -/
def named (name? : Option String) (fields : Object Value) : Object Value :=
  match name? with
  | some name => fields.insert "name" (.string name)
  | none => fields

mutual

/-- The plain data of an item. -/
def value : Sketch → Except String Value
  | pair _ text => .ok (.string text)
  | listing _ items => .ok (.list items)
  | block _ name? items => do
    let inner ← fields false {} items
    return .object (named name? inner)

/-- The fields with a row of items merged in. -/
def fields (atRoot : Bool) (target : Object Value) : List Sketch → Except String (Object Value)
  | [] => return target
  | first :: rest => do
    let value ← first.value
    let target ← merge atRoot target first.key value
    fields atRoot target rest

end

end Sketch

/-! ## The sketch of a tree -/

mutual

def Block.sketch : Block → Sketch
  | ⟨key, _, name?, _, container, _⟩ =>
    .block key.value (name?.map Leaf.value) container.sketch

def Container.sketch : Container → List Sketch
  | ⟨items, _⟩ => Item.sketchAll items

def Item.sketchAll : List Item → List Sketch
  | [] => []
  | item :: items => item.sketch :: Item.sketchAll items

def Item.sketch : Item → Sketch
  | .pair pair => .pair pair.key.value pair.value.value
  | .listing listing => .listing listing.key.value (Projector.entries listing.entries)
  | .block block => block.sketch

end

/-- What a document says. -/
def Document.sketch (document : Document) : List Sketch :=
  document.container.sketch

theorem Item.key_sketch (item : Item) : item.sketch.key = item.key := by
  rcases item with pair | listing | ⟨key, colon, name?, opening, container, closing⟩
  · rfl
  · rfl
  · simp only [sketch, Block.sketch, Sketch.key, Item.key, keyLeaf]

/-! ## Projections follow sketches -/

namespace Projector

variable {α β : Type} {depth : Nat}

/-- A projection that is `depth` containers deep answers as `spec`, and stays that deep. -/
def Follows (depth : Nat) (x : Projecting α) (spec : Except String α) : Prop :=
  ∀ state : Projector, state.depth = depth →
    (x.run.run state).1.mapError ProjectionError.key = spec ∧ (x.run.run state).2.depth = depth

theorem follows_pure (a : α) : Follows depth (pure a) (.ok a) :=
  fun _ hs => ⟨rfl, hs⟩

theorem Follows.bind {x : Projecting α} {spec : Except String α} {f : α → Projecting β}
    {g : α → Except String β} (hx : Follows depth x spec)
    (hf : ∀ a, Follows depth (f a) (g a)) : Follows depth (x >>= f) (spec >>= g) := by
  intro state hs
  obtain ⟨hresult, hdepth⟩ := hx state hs
  rw [run_bind]
  cases hr : x.run.run state with
  | mk result after =>
    rw [hr] at hresult hdepth
    subst hresult
    cases result with
    | error e => exact ⟨rfl, hdepth⟩
    | ok a => exact hf a after hdepth

theorem Follows.congr {x : Projecting α} {spec spec' : Except String α}
    (h : Follows depth x spec) (hs : spec = spec') : Follows depth x spec' :=
  hs ▸ h

theorem run_nested (x : Projecting α) (state : Projector) : (nested x).run.run state =
    ((x.run.run { state with depth := state.depth + 1 }).1,
      { (x.run.run { state with depth := state.depth + 1 }).2 with
        depth := (x.run.run { state with depth := state.depth + 1 }).2.depth - 1 }) := rfl

theorem Follows.nested {x : Projecting α} {spec : Except String α}
    (h : Follows (depth + 1) x spec) : Follows depth (nested x) spec := by
  intro state hs
  obtain ⟨hresult, hdepth⟩ := h { state with depth := state.depth + 1 } (by rw [hs])
  exact ⟨hresult, (congrArg (· - 1) hdepth).trans (Nat.add_sub_cancel depth 1)⟩

theorem follows_merge (target : Object Value) (key : String) (value : Value) (line? : Option Nat) :
    Follows depth (merge target key value line?)
      (Sketch.merge (depth == 1) target key value) := by
  intro state hs
  unfold merge Sketch.merge
  split
  · cases gather target (Keys.pluralize key) value <;> exact ⟨rfl, hs⟩
  · cases target.contains key with
    | false => exact ⟨rfl, hs⟩
    | true =>
      rw [if_pos rfl, run_get]
      -- A key that is there is taken, except at the root.
      by_cases hd : depth = 1
      · rw [if_pos (hs.trans hd), hd]
        exact ⟨rfl, hs.trans hd⟩
      · rw [if_neg (hs ▸ hd), Bool.true_and, beq_eq_false_iff_ne.mpr hd]
        exact ⟨rfl, hs⟩

theorem follows_container {list : List Item} (topLevel : Bool)
    (h : Follows (depth + 1) (items {} list)
      (Sketch.fields (depth + 1 == 1) {} (Item.sketchAll list))) :
    Follows depth (container ⟨list, topLevel⟩)
      (Sketch.fields (depth == 0) {} (Item.sketchAll list)) := by
  rw [show (depth + 1 == 1) = (depth == 0) by simp] at h
  cases list with
  | nil => exact follows_pure ({} : Object Value)
  | cons first rest => exact h.nested

theorem named_eq (name? : Option Leaf) (fields : Object Value) :
    named name? fields = Sketch.named (name?.map Leaf.value) fields := by
  cases name? <;> rfl

mutual

/-- An item in a container is projected to its key and what it says. -/
theorem follows_item : ∀ (i : Item) {depth : Nat}, 0 < depth →
    Follows depth (item i) (i.sketch.value >>= fun v => .ok (i.key, v))
  | .pair p, _, _ => follows_pure (pair p)
  | .listing l, _, _ => follows_pure (listing l)
  | .block ⟨key, colon, name?, opening, ⟨inner, topLevel⟩, closing⟩, depth, h => by
    have hinner := follows_container topLevel
      (follows_items inner {} (Nat.succ_pos depth))
    rw [show (depth == 0) = false by simpa using Nat.ne_of_gt h] at hinner
    refine (hinner.bind fun fields => follows_pure _).congr ?_
    simp only [Item.sketch, Block.sketch, Container.sketch, Sketch.value, bind_assoc, named_eq]
    rfl

/-- A row of items is merged as what they say. -/
theorem follows_items : ∀ (list : List Item) (target : Object Value) {depth : Nat}, 0 < depth →
    Follows depth (items target list)
      (Sketch.fields (depth == 1) target (Item.sketchAll list))
  | [], target, _, _ => follows_pure target
  | first :: rest, target, depth, h => by
    refine ((follows_item first h).bind fun entry =>
      (follows_merge target entry.1 entry.2 first.line?).bind fun target =>
        follows_items rest target h).congr ?_
    simp only [Item.sketchAll, Sketch.fields, bind_assoc, Item.key_sketch]
    rfl

end

/-- A document is projected to what it says, or errs over the same key. -/
theorem project_eq (d : Document) :
    d.project.1.mapError ProjectionError.key =
      (Sketch.fields true {} d.sketch).map Value.object := by
  obtain ⟨⟨list, topLevel⟩, before, after⟩ := d
  have h := (follows_container topLevel
    (follows_items list {} Nat.one_pos) {} rfl).1
  simp only [Document.sketch, Container.sketch]
  rw [show Sketch.fields true {} (Item.sketchAll list) = _ from h.symm]
  show (((container ⟨list, topLevel⟩).run.run {}).1.map Value.object).mapError _ = _
  cases ((container ⟨list, topLevel⟩).run.run {}).1 <;> rfl

end Projector

/-- Documents that say the same have the same plain data, or err over the same key. -/
theorem Document.project_congr {d e : Document} (h : d.sketch = e.sketch) :
    d.project.1.mapError ProjectionError.key = e.project.1.mapError ProjectionError.key := by
  rw [Projector.project_eq, Projector.project_eq, h]

end LookML

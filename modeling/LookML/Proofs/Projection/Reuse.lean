import LookML.Proofs.Projection.Sketch

/-!
# Reuse — a projector that has finished is as good as new

A projection reads nothing of its state but the depth, and takes nothing back.  So from all states
of one depth it runs alike (`Runs`): it ends in the same way, adds the same warnings to those that
are there, and is then as deep as before, whether it has succeeded or failed.
-/

namespace LookML

namespace Projector

variable {α β : Type} {depth : Nat}

/-! ## Runs from one depth -/

/-- From every state of this depth, `x` ends with `result`, adds the warnings `new`, latest first,
and is as deep as before. -/
def Runs (depth : Nat) (x : Projecting α) (result : Except ProjectionError α)
    (new : List String) : Prop :=
  ∀ warnings, x.run.run ⟨depth, warnings⟩ = (result, ⟨depth, new ++ warnings⟩)

section runs

variable {x : Projecting α} {f : α → Projecting β} {a : α} {e : ProjectionError}
  {result : Except ProjectionError α} {next : Except ProjectionError β} {new more : List String}

theorem runs_pure (depth : Nat) (a : α) : Runs depth (pure a) (.ok a) [] :=
  fun _ => rfl

theorem runs_throw (depth : Nat) (e : ProjectionError) :
    Runs depth (throw e : Projecting α) (.error e) [] :=
  fun _ => rfl

theorem runs_warn (depth : Nat) (key : String) : Runs depth (warn key) (.ok ()) [key] :=
  fun _ => rfl

/-- The warnings of the second part are later than those of the first. -/
theorem Runs.bind (hx : Runs depth x (.ok a) new) (hf : Runs depth (f a) next more) :
    Runs depth (x >>= f) next (more ++ new) := by
  intro warnings
  rw [run_bind, hx warnings, List.append_assoc]
  exact hf (new ++ warnings)

/-- What fails goes no further. -/
theorem Runs.stop (hx : Runs depth x (.error e) new) (f : α → Projecting β) :
    Runs depth (x >>= f) (.error e) new := by
  intro warnings
  rw [run_bind, hx warnings]

theorem Runs.map (hx : Runs depth x result new) (g : α → β) :
    Runs depth (x >>= fun a => pure (g a)) (result.map g) new := by
  cases result with
  | error e => exact hx.stop _
  | ok a => exact hx.bind (f := fun a => pure (g a)) (runs_pure depth (g a))

theorem Runs.nested (hx : Runs (depth + 1) x result new) : Runs depth (nested x) result new := by
  intro warnings
  rw [run_nested, hx warnings]
  rfl

/-- A run from a state is the run from its depth, with the earlier warnings behind its own. -/
theorem Runs.run_eq (hx : Runs depth x result new) {s : Projector} (hs : s.depth = depth) :
    x.run.run s = (result, { s with warnings := new ++ s.warnings }) := by
  subst hs
  exact hx s.warnings

theorem Runs.run_start (hx : Runs 0 x result new) : x.run.run {} = (result, ⟨0, new⟩) := by
  rw [hx.run_eq rfl, List.append_nil]

end runs

/-! ## Everything runs -/

/-- Whether `x` runs from every depth. -/
def Settles (x : Projecting α) : Prop :=
  ∀ depth, ∃ result new, Runs depth x result new

section settles

variable {x : Projecting α}

theorem settles_pure (a : α) : Settles (pure a) :=
  fun depth => ⟨_, _, runs_pure depth a⟩

theorem settles_throw (e : ProjectionError) : Settles (throw e : Projecting α) :=
  fun depth => ⟨_, _, runs_throw depth e⟩

theorem settles_warn (key : String) : Settles (warn key) :=
  fun depth => ⟨_, _, runs_warn depth key⟩

theorem Settles.bind {f : α → Projecting β} (hx : Settles x) (hf : ∀ a, Settles (f a)) :
    Settles (x >>= f) := by
  intro depth
  obtain ⟨result, new, hrun⟩ := hx depth
  cases result with
  | error e => exact ⟨_, _, hrun.stop f⟩
  | ok a =>
    obtain ⟨next, more, hnext⟩ := hf a depth
    exact ⟨_, _, hrun.bind hnext⟩

/-- What comes next may depend on how deep the state is. -/
theorem settles_depth {f : Nat → Projecting α} (hf : ∀ depth, Settles (f depth)) :
    Settles (get >>= fun s => f s.depth) := by
  intro depth
  obtain ⟨result, new, hrun⟩ := hf depth depth
  exact ⟨result, new, fun warnings => hrun warnings⟩

theorem Settles.depth_eq (hx : Settles x) (s : Projector) :
    (x.run.run s).2.depth = s.depth := by
  obtain ⟨result, new, hrun⟩ := hx s.depth
  rw [hrun.run_eq rfl]

end settles

theorem settles_merge (target : Object Value) (key : String) (value : Value)
    (line? : Option Nat) : Settles (merge target key value line?) := by
  unfold merge
  split
  · cases gather target (Keys.pluralize key) value with
    | some fields => exact settles_pure fields
    | none => exact settles_throw _
  · split
    · -- Whether the key is taken is decided by the depth alone.
      have hf (depth : Nat) : Settles (if depth = 1 then do
          warn key
          return target.insert key value
        else throw ⟨key, line?⟩) := by
        split
        · exact (settles_warn key).bind fun _ => settles_pure _
        · exact settles_throw _
      exact settles_depth hf
    · exact settles_pure _

/-- The items of a container run one deeper; where there are none, it makes no difference. -/
theorem runs_container_of_items {c : Container} {result : Except ProjectionError (Object Value)}
    {new : List String} (h : Runs (depth + 1) (items {} c.items) result new) :
    Runs depth (container c) result new := by
  obtain ⟨_ | ⟨first, rest⟩, topLevel⟩ := c
  · intro warnings
    have hrun : ((.ok {}, ⟨depth + 1, warnings⟩) : Except ProjectionError (Object Value) ×
        Projector) = (result, ⟨depth + 1, new ++ warnings⟩) := h warnings
    obtain ⟨rfl, hstate⟩ := Prod.mk.inj hrun
    rw [← (Projector.mk.inj hstate).2]
    rfl
  · exact h.nested

theorem settles_container_of_items {c : Container} (h : Settles (items {} c.items)) :
    Settles (container c) := by
  intro depth
  obtain ⟨result, new, hrun⟩ := h (depth + 1)
  exact ⟨result, new, runs_container_of_items hrun⟩

mutual

theorem settles_item : ∀ i : Item, Settles (item i)
  | .pair p => settles_pure (pair p)
  | .listing l => settles_pure (listing l)
  | .block ⟨_, _, _, _, ⟨inner, _⟩, _⟩ =>
    (settles_container_of_items (settles_items inner {})).bind fun _ => settles_pure _

theorem settles_items : ∀ (list : List Item) (target : Object Value), Settles (items target list)
  | [], target => settles_pure target
  | first :: rest, target =>
    (settles_item first).bind fun entry =>
      (settles_merge target entry.1 entry.2 first.line?).bind fun target =>
        settles_items rest target

end

theorem settles_block (b : Block) : Settles (block b) :=
  settles_item (.block b)

theorem settles_container (c : Container) : Settles (container c) :=
  settles_container_of_items (settles_items c.items {})

theorem settles_document (d : Document) : Settles (document d) :=
  settles_container d.container

end Projector

/-! ## One projector for many documents -/

/-- The plain data of documents, projected in turn from one state, and the state after them. -/
def Projector.documents (state : Projector) :
    List Document → List (Except ProjectionError Value) × Projector
  | [] => ([], state)
  | first :: rest =>
    let (result, after) := (document first).run.run state
    let (results, last) := after.documents rest
    (result.map .object :: results, last)

namespace Projector

/-- A document is projected from a state at the start as from a new one, which has no warnings. -/
theorem run_document (d : Document) (warnings : List String) :
    (document d).run.run ⟨0, warnings⟩ =
      (((document d).run.run {}).1, ⟨0, d.project.2.reverse ++ warnings⟩) := by
  obtain ⟨result, new, hrun⟩ := settles_document d 0
  unfold Document.project
  rw [hrun.run_start, hrun warnings, List.reverse_reverse]

/-- Documents that are projected in turn with one projector, some of which may fail, give what each
of them gives with a new one, and the warnings of each; and whatever a projector visits, from any
depth, it is then as deep as before. -/
theorem documents_eq_map_project :
    (∀ list : List Document, documents {} list =
      (list.map fun d => d.project.1,
        { depth := 0, warnings := (list.flatMap fun d => d.project.2).reverse })) ∧
    ∀ s : Projector,
      (∀ d, ((document d).run.run s).2.depth = s.depth) ∧
      (∀ c, ((container c).run.run s).2.depth = s.depth) ∧
      (∀ b, ((block b).run.run s).2.depth = s.depth) ∧
      ∀ i, ((item i).run.run s).2.depth = s.depth := by
  have hfrom (list : List Document) (warnings : List String) : documents ⟨0, warnings⟩ list =
      (list.map fun d => d.project.1,
        ⟨0, (list.flatMap fun d => d.project.2).reverse ++ warnings⟩) := by
    induction list generalizing warnings with
    | nil => rfl
    | cons first rest ih =>
      rw [documents, run_document]
      dsimp only
      rw [ih, List.map_cons, List.flatMap_cons, List.reverse_append, List.append_assoc]
      rfl
  refine ⟨fun list => ?_, fun s => ⟨fun d => ?_, fun c => ?_, fun b => ?_, fun i => ?_⟩⟩
  · rw [hfrom list [], List.append_nil]
  · exact (settles_document d).depth_eq s
  · exact (settles_container c).depth_eq s
  · exact (settles_block b).depth_eq s
  · exact (settles_item i).depth_eq s

end Projector

end LookML

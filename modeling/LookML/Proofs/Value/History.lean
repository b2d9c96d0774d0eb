import LookML.Proofs.Value.Entries
import Mathlib.Data.List.DropRight

/-!
# Histories — an object as a map that keeps the order of insertion

An object is made by inserting, by writing to what is there and by removing.  The life of a key is
the part of a history that begins with the first insertion of the key since it was last removed.
What an object holds follows from the lives of its keys (`Object.Follows`): a key is there if it is
alive, its value is the one last written in its life, and keys stand in the order in which their
lives began.  Each operation keeps it so.
-/

namespace LookML

namespace Object

variable {α : Type}

/-! ## Operations -/

/-- What changes an object. -/
inductive Operation (α : Type) where
  | insert (key : String) (value : α)
  /-- Writes to the value that is found under a key, if one is. -/
  | write (key : String) (value : α)
  | remove (key : String)
deriving DecidableEq, Repr

namespace Operation

/-- What an operation makes of an object. -/
def act (object : Object α) : Operation α → Object α
  | insert key value => object.insert key value
  | write key value => object.set key value
  | remove key => (object.remove key).2

/-- The key that an operation is about. -/
def key : Operation α → String
  | insert key _ | write key _ | remove key => key

def inserts (key : String) : Operation α → Bool
  | insert k _ => k == key
  | _ => false

def removes (key : String) : Operation α → Bool
  | remove k => k == key
  | _ => false

/-- The value that an operation gives to a key. -/
def written? (key : String) : Operation α → Option α
  | insert k value | write k value => if k = key then some value else none
  | remove _ => none

theorem inserts_insert (key : String) (value : α) : (insert key value).inserts key = true :=
  beq_self_eq_true key

theorem removes_remove (key : String) : (remove key : Operation α).removes key = true :=
  beq_self_eq_true key

theorem written?_of_inserts {key : String} {op : Operation α} (h : op.inserts key = true) :
    ∃ value, op = insert key value ∧ op.written? key = some value := by
  cases op with
  | insert k value =>
    obtain rfl := beq_iff_eq.mp h
    exact ⟨value, rfl, if_pos rfl⟩
  | write k value => cases h
  | remove k => cases h

/-- An operation on another key neither inserts a key nor removes or writes it. -/
theorem untouched {key : String} {op : Operation α} (h : op.key ≠ key) :
    op.inserts key = false ∧ op.removes key = false ∧ op.written? key = none := by
  cases op <;> simp_all [inserts, removes, written?, Operation.key]

end Operation

/-- The object that operations leave, one after the other. -/
def run (object : Object α) (ops : List (Operation α)) : Object α :=
  ops.foldl Operation.act object

theorem run_concat (object : Object α) (ops : List (Operation α)) (last : Operation α) :
    object.run (ops ++ [last]) = last.act (object.run ops) := by
  rw [run, List.foldl_append]
  rfl

/-- The history of an object that is collected from entries: they are inserted in turn. -/
def collected (entries : List (String × α)) : List (Operation α) :=
  entries.map fun entry => .insert entry.1 entry.2

theorem ofList_eq_run (entries : List (String × α)) :
    ofList entries = run {} (collected entries) := by
  rw [run, collected, List.foldl_map]
  rfl

/-! ## Lives of keys -/

/-- The operations from the first insertion of a key on since it was last removed.  Before it is
inserted the key is missing, and nothing is written to it. -/
def life (key : String) (history : List (Operation α)) : List (Operation α) :=
  (history.rtakeWhile (!·.removes key)).dropWhile (!·.inserts key)

/-- The value last written under a key in its life. -/
def lastWritten? (key : String) (history : List (Operation α)) : Option α :=
  ((life key history).filterMap (·.written? key)).getLast?

/-- How many operations stand before the life of a key. -/
def birth (key : String) (history : List (Operation α)) : Nat :=
  history.length - (life key history).length

section lives

variable {key : String} {history : List (Operation α)} {last : Operation α}

theorem length_life_le (key : String) (history : List (Operation α)) :
    (life key history).length ≤ history.length :=
  ((List.dropWhile_suffix _).trans (List.rtakeWhile_suffix _ _)).length_le

/-- A life ends where the key is removed. -/
theorem life_of_removes (h : last.removes key = true) : life key (history ++ [last]) = [] := by
  rw [life, List.rtakeWhile_concat, if_neg (by simp [h]), List.dropWhile_nil]

/-- A life goes on until the key is removed, and begins with an insertion. -/
theorem life_concat (h : last.removes key = false) : life key (history ++ [last]) =
    if (life key history).isEmpty then (if last.inserts key then [last] else [])
    else life key history ++ [last] := by
  rw [life, List.rtakeWhile_concat, if_pos (by simp [h]), List.dropWhile_append, life]
  cases hi : last.inserts key <;> simp [hi]

theorem life_of_ne_nil (h : last.removes key = false) (hl : life key history ≠ []) :
    life key (history ++ [last]) = life key history ++ [last] := by
  rw [life_concat h, if_neg (List.isEmpty_iff.not.mpr hl)]

theorem life_of_eq_nil (h : last.removes key = false) (hl : life key history = []) :
    life key (history ++ [last]) = if last.inserts key then [last] else [] := by
  rw [life_concat h, if_pos (List.isEmpty_iff.mpr hl)]

/-- A key has a value exactly while it is alive. -/
theorem lastWritten?_eq_none_iff : lastWritten? key history = none ↔ life key history = [] := by
  rw [lastWritten?, List.getLast?_eq_none_iff]
  constructor
  · intro h
    cases hl : life key history with
    | nil => rfl
    | cons first rest =>
      have hfirst : first.inserts key = true := by
        have := List.head?_dropWhile_not (!·.inserts key) (history.rtakeWhile (!·.removes key))
        rw [show List.dropWhile _ _ = _ from hl] at this
        simpa using this
      obtain ⟨value, -, hvalue⟩ := Operation.written?_of_inserts hfirst
      rw [hl, List.filterMap_cons_some hvalue] at h
      cases h
  · intro hl
    rw [hl, List.filterMap_nil]

/-- What is written in a life that goes on counts, or else what was written before. -/
theorem lastWritten?_of_ne_nil (h : last.removes key = false) (hl : life key history ≠ []) :
    lastWritten? key (history ++ [last]) =
      (last.written? key).or (lastWritten? key history) := by
  rw [lastWritten?, life_of_ne_nil h hl, List.filterMap_append, List.getLast?_append]
  cases hw : last.written? key with
  | none => simp [hw, lastWritten?]
  | some value => simp [hw]

theorem lastWritten?_insert (key : String) (value : α) (history : List (Operation α)) :
    lastWritten? key (history ++ [.insert key value]) = some value := by
  have hw : (Operation.insert key value).written? key = some value := if_pos rfl
  by_cases hl : life key history = []
  · rw [lastWritten?, life_of_eq_nil rfl hl, if_pos (Operation.inserts_insert key value),
      List.filterMap_cons_some hw]
    rfl
  · rw [lastWritten?_of_ne_nil rfl hl, hw, Option.some_or]

/-- Writing to a missing key writes nothing. -/
theorem lastWritten?_write (key : String) (value : α) (history : List (Operation α)) :
    lastWritten? key (history ++ [.write key value]) =
      (lastWritten? key history).map fun _ => value := by
  by_cases hl : life key history = []
  · rw [lastWritten?_eq_none_iff.mpr hl, Option.map_none, lastWritten?_eq_none_iff,
      life_of_eq_nil rfl hl]
    rfl
  · obtain ⟨old, hold⟩ := Option.ne_none_iff_exists'.mp (lastWritten?_eq_none_iff.not.mpr hl)
    have hw : (Operation.write key value).written? key = some value := if_pos rfl
    rw [lastWritten?_of_ne_nil rfl hl, hw, hold]
    rfl

theorem lastWritten?_remove (key : String) (history : List (Operation α)) :
    lastWritten? key (history ++ [.remove key]) = none := by
  rw [lastWritten?_eq_none_iff, life_of_removes (Operation.removes_remove key)]

/-- An operation on another key changes no value. -/
theorem lastWritten?_of_ne (h : last.key ≠ key) :
    lastWritten? key (history ++ [last]) = lastWritten? key history := by
  obtain ⟨hi, hr, hw⟩ := Operation.untouched h
  by_cases hl : life key history = []
  · rw [lastWritten?_eq_none_iff.mpr hl, lastWritten?_eq_none_iff, life_of_eq_nil hr hl, hi]
    rfl
  · rw [lastWritten?_of_ne_nil hr hl, hw, Option.none_or]

/-- While it lives, a key keeps its birth. -/
theorem birth_of_ne_nil (h : last.removes key = false) (hl : life key history ≠ []) :
    birth key (history ++ [last]) = birth key history := by
  rw [birth, birth, life_of_ne_nil h hl, List.length_append, List.length_append,
    List.length_singleton, Nat.add_sub_add_right]

theorem birth_lt_length (hl : life key history ≠ []) : birth key history < history.length := by
  have hpos := List.length_pos_iff.mpr hl
  have hle := length_life_le key history
  rw [birth]
  omega

/-- A key that is missing is born when it is inserted. -/
theorem birth_insert (hl : life key history = []) (value : α) :
    birth key (history ++ [.insert key value]) = history.length := by
  rw [birth, life_of_eq_nil rfl hl, if_pos (Operation.inserts_insert key value),
    List.length_append]
  rfl

end lives

/-! ## What an object holds -/

/-- Whether an object holds what its history says. -/
structure Follows (object : Object α) (history : List (Operation α)) : Prop where
  get?_eq (key : String) : object.get? key = lastWritten? key history
  /-- The keys stand in the order in which their lives began. -/
  inOrder : object.keys.Pairwise fun a b => birth a history < birth b history

namespace Follows

variable {object : Object α} {history : List (Operation α)} {last : Operation α} {key : String}

theorem empty : ({} : Object α).Follows [] where
  get?_eq _ := rfl
  inOrder := .nil

/-- No key was born twice. -/
theorem nodup (h : object.Follows history) : object.keys.Nodup := by
  apply h.inOrder.imp
  rintro a b hlt rfl
  exact Nat.lt_irrefl _ hlt

theorem mem_keys_iff (h : object.Follows history) :
    key ∈ object.keys ↔ life key history ≠ [] := by
  rw [ne_eq, ← lastWritten?_eq_none_iff, ← h.get?_eq, get?_eq_none_iff, not_not]

/-- Keys that go on living stay in order. -/
theorem pairwise_birth (h : object.Follows history) {keys : List String}
    (hsub : keys.Sublist object.keys) (hlive : ∀ key ∈ keys, last.removes key = false) :
    keys.Pairwise fun a b => birth a (history ++ [last]) < birth b (history ++ [last]) := by
  refine (h.inOrder.sublist hsub).imp_of_mem fun {a b} ha hb hlt => ?_
  rwa [birth_of_ne_nil (hlive a ha) (h.mem_keys_iff.mp (hsub.subset ha)),
    birth_of_ne_nil (hlive b hb) (h.mem_keys_iff.mp (hsub.subset hb))]

theorem insert (h : object.Follows history) (key : String) (value : α) :
    (object.insert key value).Follows (history ++ [.insert key value]) where
  get?_eq k := by
    rw [get?_insert]
    by_cases hk : k = key
    · rw [if_pos hk, hk, lastWritten?_insert]
    · rw [if_neg hk, lastWritten?_of_ne (Ne.symm hk), h.get?_eq]
  inOrder := by
    have hold : object.keys.Pairwise fun a b => birth a (history ++ [.insert key value]) <
        birth b (history ++ [.insert key value]) :=
      h.pairwise_birth (List.Sublist.refl _) fun _ _ => rfl
    rw [keys_insert]
    by_cases hk : key ∈ object.keys
    · rwa [if_pos (contains_iff_mem.mpr hk)]
    · -- The new key is born after all that are alive.
      have hdead : life key history = [] := not_not.mp (mt h.mem_keys_iff.mpr hk)
      rw [if_neg (mt contains_iff_mem.mp hk), List.pairwise_append]
      refine ⟨hold, List.pairwise_singleton _ _, fun a ha b hb => ?_⟩
      have halive := h.mem_keys_iff.mp ha
      rw [List.mem_singleton.mp hb, birth_insert hdead, birth_of_ne_nil rfl halive]
      exact birth_lt_length halive

theorem write (h : object.Follows history) (key : String) (value : α) :
    (object.set key value).Follows (history ++ [.write key value]) where
  get?_eq k := by
    rw [get?_set, h.get?_eq, h.get?_eq]
    by_cases hk : k = key
    · rw [if_pos hk, hk, lastWritten?_write]
    · rw [if_neg hk, lastWritten?_of_ne (Ne.symm hk)]
  inOrder := by
    rw [keys_set]
    exact h.pairwise_birth (List.Sublist.refl _) fun _ _ => rfl

theorem remove (h : object.Follows history) (key : String) :
    (object.remove key).2.Follows (history ++ [.remove key]) where
  get?_eq k := by
    rw [get?_remove h.nodup]
    by_cases hk : k = key
    · rw [if_pos hk, hk, lastWritten?_remove]
    · rw [if_neg hk, lastWritten?_of_ne (Ne.symm hk), h.get?_eq]
  inOrder := by
    rw [keys_remove h.nodup]
    refine h.pairwise_birth List.filter_sublist fun k hk => ?_
    have hne := (List.mem_filter.mp hk).2
    rw [bne_iff_ne] at hne
    exact beq_eq_false_iff_ne.mpr (Ne.symm hne)

/-- Every operation keeps an object to its history. -/
theorem act (h : object.Follows history) (op : Operation α) :
    (op.act object).Follows (history ++ [op]) := by
  cases op with
  | insert key value => exact h.insert key value
  | write key value => exact h.write key value
  | remove key => exact h.remove key

end Follows

theorem follows_run (history : List (Operation α)) : (run {} history).Follows history := by
  induction history using List.reverseRecOn with
  | nil => exact .empty
  | append_singleton history last ih =>
    rw [run_concat]
    exact ih.act last

/-- An object that is collected from entries and then changed by operations has distinct keys, each
with the value last written in its life, in the order in which their lives began.  Removing a key
returns its value and leaves the other entries as they stand. -/
theorem ordered_run_ofList (entries : List (String × α)) (ops : List (Operation α)) :
    let object := (ofList entries).run ops
    let history := collected entries ++ ops
    object.keys.Nodup ∧ (∀ key, object.get? key = lastWritten? key history) ∧
      (object.keys.Pairwise fun a b => birth a history < birth b history) ∧
      ∀ key, object.remove key =
        (object.get? key, ⟨object.entries.filter fun entry => entry.1 != key⟩) := by
  intro object history
  have hrun : object = run {} history := by
    rw [run, List.foldl_append]
    exact congrArg (run · ops) (ofList_eq_run entries)
  have h : object.Follows history := hrun ▸ follows_run history
  refine ⟨h.nodup, h.get?_eq, h.inOrder, fun key => ?_⟩
  exact Prod.ext (remove_fst object key) (congrArg mk (entries_remove h.nodup key))

/-- A key that is inserted again after it was removed goes to the end. -/
example : run {} [.insert "a" 1, .insert "b" 2, .write "c" 3, .remove "a", .insert "a" 4,
    .write "b" 5] = ⟨[("b", 5), ("a", 4)]⟩ := by
  decide

end Object

end LookML

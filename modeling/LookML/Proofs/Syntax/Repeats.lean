import LookML.Syntax.Tree
import Mathlib.Data.List.Count

/-!
# Repeats — a container is refused over its earliest repeat

An item repeats an item before it if it has the key of that item and the key is no plural key.
A container below the root is refused exactly if one of its items does, and the first that does is
the one that is named.  Counting the keys in a hash map comes to the same, whatever the hash.
-/

namespace LookML

namespace Container

variable {items done rest : List Item} {item other : Item} {i j : Nat}

/-! ## Repeats -/

/-- Whether an item stands at a place behind another with its key, which is no plural key. -/
structure RepeatsAt (items : List Item) (j : Nat) (item : Item) : Prop where
  here : items[j]? = some item
  single : Keys.isPlural item.key = false
  earlier : ∃ i < j, ∃ first, items[i]? = some first ∧ first.key = item.key

/-- Whether an item is the first that repeats one before it. -/
structure FirstRepeat (items : List Item) (j : Nat) (item : Item) : Prop
    extends RepeatsAt items j item where
  least : ∀ i < j, ∀ other, ¬ RepeatsAt items i other

theorem FirstRepeat.unique (h : FirstRepeat items j item) (h' : FirstRepeat items i other) :
    item = other := by
  obtain hlt | rfl | hlt := Nat.lt_trichotomy i j
  · exact absurd h'.toRepeatsAt (h.least i hlt other)
  · exact Option.some.inj (h.here.symm.trans h'.here)
  · exact absurd h.toRepeatsAt (h'.least j hlt item)

/-- An item behind others repeats one of them if its key is among theirs. -/
theorem repeatsAt_length_iff : RepeatsAt (done ++ item :: rest) done.length other ↔
    other = item ∧ Keys.isPlural item.key = false ∧ item.key ∈ done.map Item.key := by
  have hhere : (done ++ item :: rest)[done.length]? = some item := by simp
  constructor
  · rintro ⟨h, hsingle, i, hi, first, hfirst, hkey⟩
    obtain rfl : item = other := Option.some.inj (hhere.symm.trans h)
    rw [List.getElem?_append_left hi] at hfirst
    exact ⟨rfl, hsingle, hkey ▸ List.mem_map_of_mem (List.mem_of_getElem? hfirst)⟩
  · rintro ⟨rfl, hsingle, hmem⟩
    obtain ⟨first, hfirst, hkey⟩ := List.mem_map.mp hmem
    obtain ⟨i, hi, rfl⟩ := List.getElem_of_mem hfirst
    refine ⟨hhere, hsingle, i, hi, done[i], ?_, hkey⟩
    rw [List.getElem?_append_left hi, List.getElem?_eq_getElem hi]

/-- The check of the rest, where no item that is done repeats another, finds the first repeat. -/
theorem firstRepeat?_of_done (h : ∀ i < done.length, ∀ other, ¬ RepeatsAt (done ++ rest) i other) :
    (∀ item, firstRepeat? (done.map Item.key).reverse rest = some item →
      ∃ j, FirstRepeat (done ++ rest) j item) ∧
    (firstRepeat? (done.map Item.key).reverse rest = none →
      ∀ j other, ¬ RepeatsAt (done ++ rest) j other) := by
  induction rest generalizing done with
  | nil =>
    refine ⟨nofun, fun _ j other hr => ?_⟩
    obtain ⟨hj, -⟩ := List.getElem?_eq_some_iff.mp hr.here
    rw [List.append_nil] at hj
    exact h j hj other hr
  | cons item rest ih =>
    rw [firstRepeat?]
    by_cases hc : item.key ∈ done.map Item.key ∧ Keys.isPlural item.key = false
    · have hat : RepeatsAt (done ++ item :: rest) done.length item :=
        repeatsAt_length_iff.mpr ⟨rfl, hc.2, hc.1⟩
      rw [if_pos (by simpa using hc)]
      refine ⟨fun found hfound => ?_, nofun⟩
      obtain rfl := Option.some.inj hfound
      exact ⟨done.length, hat, h⟩
    · rw [if_neg (by simpa using hc)]
      -- The item is done, and repeats none before it.
      have hsplit : done ++ item :: rest = (done ++ [item]) ++ rest := by simp
      have hseen : item.key :: (done.map Item.key).reverse =
          ((done ++ [item]).map Item.key).reverse := by simp
      rw [hseen, hsplit]
      refine ih fun i hi other hr => ?_
      rw [List.length_append, List.length_singleton, Nat.lt_succ_iff_lt_or_eq] at hi
      rw [← hsplit] at hr
      obtain hlt | rfl := hi
      · exact h i hlt other hr
      · obtain ⟨-, hsingle, hmem⟩ := repeatsAt_length_iff.mp hr
        exact hc ⟨hmem, hsingle⟩

theorem firstRepeat?_eq_some_iff : firstRepeat? [] items = some item ↔
    ∃ j, FirstRepeat items j item := by
  obtain ⟨hsome, hnone⟩ := @firstRepeat?_of_done [] items nofun
  refine ⟨hsome item, fun ⟨j, hj⟩ => ?_⟩
  cases hfound : firstRepeat? [] items with
  | none => exact absurd hj.toRepeatsAt (hnone hfound j item)
  | some found =>
    obtain ⟨i, hi⟩ := hsome found hfound
    rw [hi.unique hj]

theorem firstRepeat?_eq_none_iff_forall : firstRepeat? [] items = none ↔
    ∀ j other, ¬ RepeatsAt items j other := by
  obtain ⟨hsome, hnone⟩ := @firstRepeat?_of_done [] items nofun
  refine ⟨hnone, fun h => ?_⟩
  cases hfound : firstRepeat? [] items with
  | none => rfl
  | some found =>
    obtain ⟨i, hi⟩ := hsome found hfound
    exact absurd hi.toRepeatsAt (h i found)

/-! ## Counting -/

section counting

variable [Hashable String]

/-- The first of `items` whose key is no plural key and is counted more than once, by a hash map
that has the counts of the keys before them. -/
def firstExcess? (counts : Std.HashMap String Nat) : List Item → Option Item
  | [] => none
  | item :: rest =>
    let counts := counts.insert item.key (counts.getD item.key 0 + 1)
    if counts.getD item.key 0 > 1 && !Keys.isPlural item.key then some item
    else firstExcess? counts rest

/-- The container of `items`, checked by counting their keys in a hash map. -/
def counted (items : List Item) (topLevel : Bool) : Except DuplicateKey Container :=
  if topLevel then .ok ⟨items, true⟩
  else
    match firstExcess? ∅ items with
    | some item => .error ⟨item.key, item.line?⟩
    | none => .ok ⟨items, false⟩

/-- Where the map counts the keys that were seen, counting on finds what looking them up finds. -/
theorem firstExcess?_eq {counts : Std.HashMap String Nat} {seen : List String}
    (h : ∀ key, counts.getD key 0 = seen.count key) :
    firstExcess? counts items = firstRepeat? seen items := by
  induction items generalizing counts seen with
  | nil => rfl
  | cons item rest ih =>
    have hcount (key : String) : (counts.insert item.key (counts.getD item.key 0 + 1)).getD key 0 =
        (item.key :: seen).count key := by
      rw [Std.HashMap.getD_insert, List.count_cons, h, h]
      by_cases hk : item.key = key
      · rw [if_pos (beq_iff_eq.mpr hk), if_pos (beq_iff_eq.mpr hk), hk]
      · rw [if_neg (by simpa using hk), if_neg (by simpa using hk), Nat.add_zero]
    have htest : decide ((item.key :: seen).count item.key > 1) = seen.contains item.key := by
      rw [List.count_cons_self, List.contains_eq_mem]
      exact decide_eq_decide.mpr (by rw [← List.count_pos_iff]; omega)
    rw [firstExcess?, firstRepeat?, hcount, htest, ih hcount]

theorem counted_eq_of (items : List Item) (topLevel : Bool) :
    counted items topLevel = of items topLevel := by
  have hempty : ∀ key, (∅ : Std.HashMap String Nat).getD key 0 = [].count key := by simp
  rw [counted, firstExcess?_eq hempty]
  rfl

end counting

/-! ## The check -/

theorem of_eq_error_iff {topLevel : Bool} {e : DuplicateKey} : of items topLevel = .error e ↔
    topLevel = false ∧ ∃ j item, FirstRepeat items j item ∧ e = ⟨item.key, item.line?⟩ := by
  cases topLevel with
  | true => simp [of]
  | false =>
    rw [of, if_neg Bool.false_ne_true, exists_comm]
    simp only [exists_and_right, ← firstRepeat?_eq_some_iff]
    cases firstRepeat? [] items <;> simp [eq_comm]

theorem of_eq_ok_iff_forall {topLevel : Bool} {c : Container} : of items topLevel = .ok c ↔
    c = ⟨items, topLevel⟩ ∧ (topLevel = true ∨ ∀ j item, ¬ RepeatsAt items j item) := by
  cases topLevel with
  | true => simp [of, eq_comm]
  | false =>
    rw [of, if_neg Bool.false_ne_true, ← firstRepeat?_eq_none_iff_forall]
    cases firstRepeat? [] items <;> simp [eq_comm]

/-- A container is refused exactly if it is not the root and one of its items repeats another, over
the key and the line of the first item that does, whose key is no plural key.  Else it has the given
items and level.  Counting keys in a hash map comes to the same, however they are hashed. -/
theorem of_finds_firstRepeat (items : List Item) (topLevel : Bool) :
    (∀ e, of items topLevel = .error e ↔
      topLevel = false ∧ ∃ j item, FirstRepeat items j item ∧ e = ⟨item.key, item.line?⟩) ∧
    (∀ c, of items topLevel = .ok c ↔
      c = ⟨items, topLevel⟩ ∧ (topLevel = true ∨ ∀ j item, ¬ RepeatsAt items j item)) ∧
    (∀ e, of items topLevel = .error e → Keys.isPlural e.key = false) ∧
    ∀ hash : Hashable String, @counted hash items topLevel = of items topLevel := by
  refine ⟨fun e => of_eq_error_iff, fun c => of_eq_ok_iff_forall, fun e h => ?_,
    fun hash => counted_eq_of items topLevel⟩
  obtain ⟨-, j, item, hj, rfl⟩ := of_eq_error_iff.mp h
  exact hj.single

/-- The line is that of the first repeat; the plural key that is repeated before it is passed
over. -/
example : of ([("view", 1), ("view", 2), ("type", 3), ("sql", 4), ("sql", 5), ("type", 6)].map
    fun entry => .pair { key := { Leaf.word entry.1 with line? := some entry.2 }, value := .word "a" })
    false = .error ⟨"sql", some 5⟩ := by
  rfl

end Container

end LookML

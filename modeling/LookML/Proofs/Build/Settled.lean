import LookML.Proofs.Build.Shape
import LookML.Proofs.Projection.Distinct

/-!
# Settled data — plain data with the names of its blocks last

A block that is loaded has its name as its last field, wherever the name stood before.  Settling
plain data moves the name of each block there.  The data is the same up to the order of entries,
and it is written as the same text.
-/

namespace LookML

/-! ## The same data -/

namespace Value

mutual

/-- Equal up to the order of the entries of objects. -/
inductive Same : Value → Value → Prop where
  | string (text : String) : Same (string text) (string text)
  | list {xs ys : List Value} (h : SameAll xs ys) : Same (list xs) (list ys)
  | object {xs ys zs : List (String × Value)} (h : SameEntries xs ys) (hp : ys.Perm zs) :
      Same (object ⟨xs⟩) (object ⟨zs⟩)

inductive SameAll : List Value → List Value → Prop where
  | nil : SameAll [] []
  | cons {x y : Value} {xs ys : List Value} (h : Same x y) (hs : SameAll xs ys) :
      SameAll (x :: xs) (y :: ys)

inductive SameEntries : List (String × Value) → List (String × Value) → Prop where
  | nil : SameEntries [] []
  | cons {key : String} {x y : Value} {xs ys : List (String × Value)} (h : Same x y)
      (hs : SameEntries xs ys) : SameEntries ((key, x) :: xs) ((key, y) :: ys)

end

mutual

theorem Same.refl : ∀ value : Value, value.Same value
  | string text => .string text
  | list items => .list (SameAll.refl items)
  | object ⟨entries⟩ => .object (SameEntries.refl entries) (.refl _)

theorem SameAll.refl : ∀ items : List Value, SameAll items items
  | [] => .nil
  | value :: items => .cons (Same.refl value) (SameAll.refl items)

theorem SameEntries.refl : ∀ entries : List (String × Value), SameEntries entries entries
  | [] => .nil
  | (_, value) :: entries => .cons (Same.refl value) (SameEntries.refl entries)

end

/-- A change of order before the values are compared is one after. -/
theorem SameEntries.perm {xs xs' ys : List (String × Value)} (hp : xs'.Perm xs)
    (h : SameEntries xs ys) : ∃ ys', SameEntries xs' ys' ∧ ys'.Perm ys := by
  induction hp generalizing ys with
  | nil => exact ⟨ys, h, .refl _⟩
  | cons entry hp ih =>
    cases h with
    | cons hv hs =>
      obtain ⟨ys', hs', hperm⟩ := ih hs
      exact ⟨_, .cons hv hs', hperm.cons _⟩
  | swap a b xs =>
    rcases h with _ | ⟨ha, _ | ⟨hb, hs⟩⟩
    exact ⟨_, .cons hb (.cons ha hs), .swap _ _ _⟩
  | trans h1 h2 ih1 ih2 =>
    obtain ⟨ys', hs', hp'⟩ := ih2 h
    obtain ⟨ys'', hs'', hp''⟩ := ih1 hs'
    exact ⟨ys'', hs'', hp''.trans hp'⟩

/-! ## Settling -/

/-- The fields of a block under `key`, with the name that they give it last. -/
def nameLast (key : String) (fields : List (String × Value)) : List (String × Value) :=
  match Builder.nameOf? key ⟨fields⟩ with
  | some name => (fields.filter fun field => field.1 != "name") ++ [("name", string name)]
  | none => fields

mutual

/-- The fields of a block under `parent?`, or of the root, with their values settled. -/
def settleFields (parent? : Option String) : List (String × Value) → List (String × Value)
  | [] => []
  | (key, value) :: rest => (key, value.settle parent? key) :: settleFields parent? rest

/-- The field `key` of a block under `parent?` with the name of each block in it last. -/
def settle (parent? : Option String) (key : String) : Value → Value
  | string text => string text
  | list items =>
    if Keys.expands parent? key then
      if Keys.singularize key ≠ "filters" then
        list (settleAll parent? (Keys.singularize key) items)
      else
        match Builder.filterForm items with
        | .blocks named => list (settleFilters named items)
        | .pairs | .loose => list items
    else list items
  | object ⟨fields⟩ => object ⟨nameLast key (settleFields (some key) fields)⟩

/-- Siblings under a plural key, settled. -/
def settleAll (parent? : Option String) (key : String) : List Value → List Value
  | [] => []
  | value :: rest => value.settle parent? key :: settleAll parent? key rest

/-- Gathered filters that are blocks, settled.  They keep their names where they are. -/
def settleFilters (named : Bool) : List Value → List Value
  | [] => []
  | object ⟨fields⟩ :: rest =>
    object ⟨settleFields (some (if named then "filter" else "filters")) fields⟩ ::
      settleFilters named rest
  | value :: rest => value :: settleFilters named rest

end

theorem keys_settleFields (parent? : Option String) (fields : List (String × Value)) :
    (settleFields parent? fields).map Prod.fst = fields.map Prod.fst := by
  induction fields with
  | nil => rfl
  | cons field fields ih => rw [settleFields, List.map_cons, ih, List.map_cons]

theorem string?_settle (parent? : Option String) (key : String) (value : Value) :
    (value.settle parent? key).string? = value.string? := by
  cases value with
  | string text => rw [settle]
  | object fields => rw [settle]; rfl
  | list items =>
    rw [settle]
    split
    · split
      · rfl
      · split <;> rfl
    · rfl

theorem name_settleFields (parent? : Option String) (fields : List (String × Value)) :
    (Object.get? ⟨settleFields parent? fields⟩ "name").bind string? =
      (Object.get? ⟨fields⟩ "name").bind string? := by
  unfold Object.get?
  induction fields with
  | nil => rfl
  | cons field fields ih =>
    obtain ⟨key, value⟩ := field
    rw [settleFields, List.lookup_cons, List.lookup_cons]
    cases "name" == key with
    | true => simp [string?_settle]
    | false => exact ih

/-- Settling the fields of a block keeps its name. -/
theorem nameOf?_settleFields (parent? : Option String) (key : String)
    (fields : List (String × Value)) :
    Builder.nameOf? key ⟨settleFields parent? fields⟩ = Builder.nameOf? key ⟨fields⟩ := by
  unfold Builder.nameOf?
  rw [name_settleFields]

theorem get?_of_nameOf? {key name : String} {fields : Object Value}
    (h : Builder.nameOf? key fields = some name) : fields.get? "name" = some (string name) := by
  unfold Builder.nameOf? at h
  split at h
  · cases h
  · obtain ⟨value, hget, hs⟩ := Option.bind_eq_some_iff.mp h
    cases value with
    | string text => rw [hget, Option.some.inj hs]
    | list items => cases hs
    | object inner => cases hs

/-- The name is moved, and nothing else happens to the fields. -/
theorem perm_nameLast {fields : List (String × Value)} (h : (fields.map Prod.fst).Nodup)
    (key : String) : (nameLast key fields).Perm fields := by
  unfold nameLast
  cases hn : Builder.nameOf? key ⟨fields⟩ with
  | none => exact .refl _
  | some name =>
    obtain ⟨a, b, rfl, ha, hb, -⟩ := Object.split_of_get? h (get?_of_nameOf? hn)
    have hothers {fields : List (String × Value)} (hf : "name" ∉ fields.map Prod.fst) :
        fields.filter (fun field => field.1 != "name") = fields := by
      refine List.filter_eq_self.mpr fun field hmem => bne_iff_ne.mpr fun he => ?_
      exact hf (he ▸ List.mem_map_of_mem hmem)
    dsimp only
    rw [List.filter_append, List.filter_cons_of_neg (by simp), hothers ha, hothers hb,
      List.append_assoc]
    exact .append_left a List.perm_append_comm

mutual

theorem same_settle : ∀ (value : Value) (parent? : Option String) (key : String),
    value.IsDistinct → (value.settle parent? key).Same value
  | string text, _, _, _ => by
    rw [settle]
    exact .string text
  | list items, parent?, key, h => by
    rw [settle]
    split
    · split
      · exact .list (same_settleAll items parent? _ h)
      · split
        · exact .list (same_settleFilters items _ h)
        · exact .refl _
        · exact .refl _
    · exact .refl _
  | object ⟨fields⟩, parent?, key, h => by
    rw [settle]
    have hkeys : ((settleFields (some key) fields).map Prod.fst).Nodup := by
      rw [keys_settleFields]
      exact h.1
    obtain ⟨ys, hs, hp⟩ := (same_settleFields fields (some key) h.2).perm (perm_nameLast hkeys key)
    exact .object hs hp

theorem same_settleFields : ∀ (fields : List (String × Value)) (parent? : Option String),
    EntriesDistinct fields → SameEntries (settleFields parent? fields) fields
  | [], _, _ => .nil
  | (key, value) :: rest, parent?, h =>
    .cons (same_settle value parent? key h.1) (same_settleFields rest parent? h.2)

theorem same_settleAll : ∀ (items : List Value) (parent? : Option String) (key : String),
    AllDistinct items → SameAll (settleAll parent? key items) items
  | [], _, _, _ => .nil
  | value :: rest, parent?, key, h =>
    .cons (same_settle value parent? key h.1) (same_settleAll rest parent? key h.2)

theorem same_settleFilters : ∀ (items : List Value) (named : Bool),
    AllDistinct items → SameAll (settleFilters named items) items
  | [], _, _ => .nil
  | object ⟨fields⟩ :: rest, named, h =>
    .cons (.object (same_settleFields fields _ h.1.2) (.refl _))
      (same_settleFilters rest named h.2)
  | string _ :: rest, named, h => .cons (.refl _) (same_settleFilters rest named h.2)
  | list _ :: rest, named, h => .cons (.refl _) (same_settleFilters rest named h.2)

end

end Value

/-! ## Building settled data -/

namespace Builder

open Value

variable (place : Place)

theorem members_filter (fields : List (String × Value)) :
    members place true (fields.filter fun field => field.1 != "name") =
      members place true fields := by
  induction fields with
  | nil => rfl
  | cons field fields ih =>
    obtain ⟨key, value⟩ := field
    by_cases hk : key = "name"
    · subst hk
      rw [List.filter_cons_of_neg (by simp), ih, members]
      simp
    · rw [List.filter_cons_of_pos (by simpa using hk), members, members, ih]

/-- Moving the name of a block changes nothing inside it. -/
theorem members_nameLast (key : String) (fields : List (String × Value)) :
    members place (nameOf? key ⟨fields⟩).isSome (nameLast key fields) =
      members place (nameOf? key ⟨fields⟩).isSome fields := by
  unfold nameLast
  cases nameOf? key ⟨fields⟩ with
  | none => rfl
  | some name =>
    simp only [Option.isSome_some]
    rw [← members_filter, ← members_filter place fields]
    simp

theorem nameOf?_nameLast (key : String) (fields : List (String × Value)) :
    nameOf? key ⟨nameLast key fields⟩ = nameOf? key ⟨fields⟩ := by
  unfold nameLast
  cases hn : nameOf? key ⟨fields⟩ with
  | none => exact hn
  | some name =>
    unfold nameOf? at hn ⊢
    split at hn
    · cases hn
    · rename_i hkey
      rw [if_neg hkey, Object.get?_last (by simp)]
      rfl

theorem noteExpansion_settleAll (parent? : Option String) (single key : String)
    (items : List Value) :
    noteExpansion key (settleAll parent? single items) = noteExpansion key items := by
  have hlength : (settleAll parent? single items).length = items.length := by
    induction items with
    | nil => rfl
    | cons value items ih => simp [settleAll, ih]
  rw [noteExpansion, noteExpansion, hlength]

theorem noteExpansion_settleFilters (named : Bool) (key : String) (items : List Value) :
    noteExpansion key (settleFilters named items) = noteExpansion key items := by
  have hlength : (settleFilters named items).length = items.length := by
    induction items with
    | nil => rfl
    | cons value items ih =>
      unfold settleFilters
      split <;> simp_all
  rw [noteExpansion, noteExpansion, hlength]

theorem contains_settleFields (parent? : Option String) (fields : List (String × Value))
    (key : String) : Object.contains ⟨settleFields parent? fields⟩ key =
      Object.contains ⟨fields⟩ key := by
  have hkeys (fields : List (String × Value)) : Object.contains ⟨fields⟩ key =
      (fields.map Prod.fst).any (· == key) := by
    simp [Object.contains, Function.comp_def]
  rw [hkeys, hkeys, keys_settleFields]

/-- Settled filters are written in the same form. -/
theorem filterForm_settleFilters (named : Bool) (items : List Value) :
    filterForm (settleFilters named items) = filterForm items := by
  rcases items with _ | ⟨value, rest⟩
  · rw [settleFilters]
  · cases value with
    | object fields =>
      obtain ⟨fields⟩ := fields
      rw [settleFilters]
      simp [filterForm, Value.object?, contains_settleFields]
    | string text => simp [settleFilters, filterForm]
    | list items => simp [settleFilters, filterForm]

theorem blockAround_congr {key : String} {name? : Option String}
    {content content' : Place → Building (List Item)}
    (h : content (place.inside key) = content' (place.inside key)) :
    blockAround place key name? content = blockAround place key name? content' := by
  unfold blockAround
  rw [h]

mutual

theorem members_settleFields : ∀ (fields : List (String × Value)) (place : Place) (skip : Bool),
    members place skip (settleFields place.parent? fields) = members place skip fields
  | [], _, _ => by rw [settleFields]
  | (key, value) :: rest, place, skip => by
    rw [settleFields, members, members, members_settleFields rest, member_settle value]

/-- A settled value is written as the value. -/
theorem member_settle : ∀ (value : Value) (place : Place) (key : String),
    member place key (value.settle place.parent? key) = member place key value
  | .string text, _, _ => by rw [settle]
  | .list items, place, key => by
    have hexpands : Keys.expands place.parent? key = place.expands key := rfl
    rw [settle, hexpands]
    cases hx : place.expands key with
    | false => rw [if_neg (by simp)]
    | true =>
      rw [if_pos rfl]
      by_cases hf : Keys.singularize key = "filters"
      · rw [if_neg (not_not.mpr hf)]
        cases hform : filterForm items with
        | blocks named =>
          dsimp only
          rw [member, member, hx, if_pos rfl, if_pos rfl, if_neg (not_not.mpr hf),
            if_neg (not_not.mpr hf), filterForm_settleFilters, hform, noteExpansion_settleFilters]
          dsimp only
          rw [filterBlocks_settleFilters items]
        | pairs => rfl
        | loose => rfl
      · rw [if_pos hf, member, member, hx, if_pos rfl, if_pos rfl, if_pos hf, if_pos hf,
          noteExpansion_settleAll, siblings_settleAll items]
  | .object ⟨fields⟩, place, key => by
    rw [settle, member, member, nameOf?_nameLast, nameOf?_settleFields]
    have hinside := members_nameLast (place.inside key) key (settleFields (some key) fields)
    rw [nameOf?_settleFields] at hinside
    congr 1
    exact blockAround_congr place
      (hinside.trans (members_settleFields fields (place.inside key) _))

theorem siblings_settleAll : ∀ (items : List Value) (place : Place) (key : String),
    siblings place key (settleAll place.parent? key items) = siblings place key items
  | [], _, _ => by rw [settleAll]
  | value :: rest, place, key => by
    rw [settleAll, siblings, siblings, siblings_settleAll rest, member_settle value]

theorem filterBlocks_settleFilters : ∀ (items : List Value) (place : Place) (named : Bool),
    filterBlocks place named (settleFilters named items) = filterBlocks place named items
  | [], _, _ => by rw [settleFilters]
  | .object ⟨fields⟩ :: rest, place, named => by
    rw [settleFilters, filterBlocks, filterBlocks, name_settleFields,
      filterBlocks_settleFilters rest]
    congr 1
    exact blockAround_congr place (members_settleFields fields (place.inside _) _)
  | .string text :: rest, _, _ => by simp [settleFilters, filterBlocks]
  | .list items :: rest, _, _ => by simp [settleFilters, filterBlocks]

end

end Builder

end LookML

import LookML.Syntax.Tree

/-!
# Equality of syntax trees — decided part by part
-/

namespace LookML

mutual

def Block.decideEq : (a b : Block) → Decidable (a = b)
  | ⟨key, colon, name, opening, container, closing⟩,
    ⟨key', colon', name', opening', container', closing'⟩ =>
    match Container.decideEq container container' with
    | isTrue h =>
      if hs : key = key' ∧ colon = colon' ∧ name = name' ∧ opening = opening' ∧
          closing = closing' then
        isTrue (by simp [h, hs])
      else
        isFalse fun e => hs (by cases e; exact ⟨rfl, rfl, rfl, rfl, rfl⟩)
    | isFalse h => isFalse (by simp [h])

def Container.decideEq : (a b : Container) → Decidable (a = b)
  | ⟨items, topLevel⟩, ⟨items', topLevel'⟩ =>
    match Item.decideEqAll items items' with
    | isTrue h =>
      if ht : topLevel = topLevel' then isTrue (by simp [h, ht]) else isFalse (by simp [ht])
    | isFalse h => isFalse (by simp [h])

def Item.decideEqAll : (a b : List Item) → Decidable (a = b)
  | [], [] => isTrue rfl
  | [], _ :: _ => isFalse (by simp)
  | _ :: _, [] => isFalse (by simp)
  | a :: as, b :: bs =>
    match Item.decideEq a b with
    | isTrue h =>
      match Item.decideEqAll as bs with
      | isTrue hs => isTrue (by simp [h, hs])
      | isFalse hs => isFalse (by simp [hs])
    | isFalse h => isFalse (by simp [h])

def Item.decideEq : (a b : Item) → Decidable (a = b)
  | .pair p, .pair q => if h : p = q then isTrue (by simp [h]) else isFalse (by simp [h])
  | .listing l, .listing m => if h : l = m then isTrue (by simp [h]) else isFalse (by simp [h])
  | .block b, .block c =>
    match Block.decideEq b c with
    | isTrue h => isTrue (by simp [h])
    | isFalse h => isFalse (by simp [h])
  | .pair _, .listing _ | .pair _, .block _ | .listing _, .pair _ | .listing _, .block _
  | .block _, .pair _ | .block _, .listing _ => isFalse (by simp)

end

instance : DecidableEq Block := Block.decideEq

instance : DecidableEq Container := Container.decideEq

instance : DecidableEq Item := Item.decideEq

deriving instance DecidableEq for Document

end LookML

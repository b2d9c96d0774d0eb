/-!
# Objects — values under keys, in order of insertion

An object is a row of entries.  Looking up a key finds its first entry; inserting keeps the place
of a key that is there and adds a new one at the end.  An object made by insertion has each key
once, one made of its entries may repeat a key.
-/

namespace LookML

/-- Values under keys, in order. -/
structure Object (α : Type) where
  entries : List (String × α) := []
deriving DecidableEq, Repr, Inhabited

namespace Object

variable {α : Type}

def get? (object : Object α) (key : String) : Option α :=
  object.entries.lookup key

def contains (object : Object α) (key : String) : Bool :=
  object.entries.any fun entry => entry.1 == key

def size (object : Object α) : Nat :=
  object.entries.length

def isEmpty (object : Object α) : Bool :=
  object.entries.isEmpty

def keys (object : Object α) : List String :=
  object.entries.map Prod.fst

/-- The entries with the value of the first entry for `key` replaced. -/
def setFirst (key : String) (value : α) : List (String × α) → List (String × α)
  | [] => []
  | (k, v) :: rest => if k = key then (k, value) :: rest else (k, v) :: setFirst key value rest

/-- Replaces the value of a key that is there. -/
def set (object : Object α) (key : String) (value : α) : Object α :=
  ⟨setFirst key value object.entries⟩

/-- Puts a value under a key: in the place of the key if it is there, else at the end. -/
def insert (object : Object α) (key : String) (value : α) : Object α :=
  if object.contains key then object.set key value else ⟨object.entries ++ [(key, value)]⟩

/-- The value of the first entry for `key`, and the entries without it. -/
def removeFirst (key : String) : List (String × α) → Option α × List (String × α)
  | [] => (none, [])
  | (k, v) :: rest =>
    if k = key then (some v, rest)
    else ((removeFirst key rest).1, (k, v) :: (removeFirst key rest).2)

/-- Takes out the first entry for a key, and returns its value. -/
def remove (object : Object α) (key : String) : Option α × Object α :=
  ((removeFirst key object.entries).1, ⟨(removeFirst key object.entries).2⟩)

/-- The object of `entries`, inserted in turn. -/
def ofList (entries : List (String × α)) : Object α :=
  entries.foldl (fun object entry => object.insert entry.1 entry.2) {}

/-- Setting a value keeps the keys. -/
theorem keys_set (object : Object α) (key : String) (value : α) :
    (object.set key value).keys = object.keys := by
  obtain ⟨entries⟩ := object
  simp only [set, keys]
  induction entries with
  | nil => rfl
  | cons entry rest ih =>
    unfold setFirst
    split <;> simp [ih]

/-- Inserting adds a key only where it is missing. -/
theorem keys_insert (object : Object α) (key : String) (value : α) :
    (object.insert key value).keys =
      if object.contains key then object.keys else object.keys ++ [key] := by
  unfold insert
  split
  · exact keys_set object key value
  · simp [keys]

end Object

end LookML

import LookML.Proofs.Build.Reload
import LookML.Value.Json

/-!
# JSON — plain data to JSON and back

A value whose objects have distinct keys comes back from JSON as it was, and every value that is
loaded is one.  A JSON value without numbers, booleans and nulls comes back from plain data.  Its
`leaves`, in the order in which they are written and each with the nearest key around it, tell the
rest: the first leaf that plain data has no form for is the one that is refused.
-/

namespace LookML

/-! ## Leaves -/

namespace Json

/-- Whether plain data has no form for a JSON value: a number, a boolean or a null. -/
def isUnsupported : Json → Bool
  | null | boolean _ | number _ => true
  | string _ | array _ | object _ => false

mutual

/-- The leaves of a JSON value in the order in which they are written, each with the nearest key
around it.  The key around the whole value is `key`. -/
def leaves (key : String) : Json → List (String × Json)
  | array items => leavesAll key items
  | object ⟨fields⟩ => leavesEach fields
  | null => [(key, null)]
  | boolean value => [(key, boolean value)]
  | number text => [(key, number text)]
  | string text => [(key, string text)]

def leavesAll (key : String) : List Json → List (String × Json)
  | [] => []
  | item :: items => item.leaves key ++ leavesAll key items

/-- The leaves of the values of some entries, whose keys are nearer than any around them. -/
def leavesEach : List (String × Json) → List (String × Json)
  | [] => []
  | (key, value) :: fields => value.leaves key ++ leavesEach fields

end

mutual

/-- Whether every object in a JSON value has distinct keys. -/
def IsDistinct : Json → Prop
  | null | boolean _ | number _ | string _ => True
  | array items => AllDistinct items
  | object ⟨fields⟩ => (fields.map Prod.fst).Nodup ∧ EachDistinct fields

def AllDistinct : List Json → Prop
  | [] => True
  | item :: items => item.IsDistinct ∧ AllDistinct items

def EachDistinct : List (String × Json) → Prop
  | [] => True
  | (_, value) :: fields => value.IsDistinct ∧ EachDistinct fields

end

/-- The first leaf that plain data has no form for. -/
def firstUnsupported? (leaves : List (String × Json)) : Option (String × Json) :=
  leaves.find? fun leaf => leaf.2.isUnsupported

theorem firstUnsupported?_append (a b : List (String × Json)) :
    firstUnsupported? (a ++ b) = (firstUnsupported? a).or (firstUnsupported? b) :=
  List.find?_append

end Json

namespace Value

open Json (firstUnsupported?)

/-! ## From plain data and back -/

theorem keys_toJsonFields (fields : List (String × Value)) :
    (toJsonFields fields).map Prod.fst = fields.map Prod.fst := by
  induction fields with
  | nil => rfl
  | cons entry fields ih =>
    obtain ⟨key, value⟩ := entry
    simp [toJsonFields, ih]

mutual

theorem ofJsonUnder_toJson : ∀ (value : Value) (key : String), value.IsDistinct →
    ofJsonUnder key value.toJson = .ok value
  | string text, key, _ => rfl
  | list items, key, h => by
    rw [toJson, ofJsonUnder, ofJsonItems_toJsonItems items key h]
    rfl
  | object ⟨fields⟩, key, h => by
    have hkeys : ((toJsonFields fields).map Prod.fst).Nodup := by
      rw [keys_toJsonFields]
      exact h.1
    rw [toJson, Object.ofList_eq hkeys, ofJsonUnder, ofJsonFields_toJsonFields fields h.2]
    show Except.ok (object (.ofList fields)) = _
    rw [Object.ofList_eq h.1]

theorem ofJsonItems_toJsonItems : ∀ (items : List Value) (key : String), AllDistinct items →
    ofJsonItems key (toJsonItems items) = .ok items
  | [], _, _ => rfl
  | item :: items, key, h => by
    rw [toJsonItems, ofJsonItems, ofJsonUnder_toJson item key h.1,
      ofJsonItems_toJsonItems items key h.2]
    rfl

theorem ofJsonFields_toJsonFields : ∀ fields : List (String × Value), EntriesDistinct fields →
    ofJsonFields (toJsonFields fields) = .ok fields
  | [], _ => rfl
  | (key, value) :: fields, h => by
    rw [toJsonFields, ofJsonFields, ofJsonUnder_toJson value key h.1,
      ofJsonFields_toJsonFields fields h.2]
    rfl

end

/-! ## From JSON and back -/

mutual

/-- A JSON value without leaves that plain data has no form for is plain data.  It comes back as it
was if its keys are distinct. -/
theorem ofJsonUnder_eq_ok : ∀ (json : Json) (key : String),
    firstUnsupported? (json.leaves key) = none →
      ∃ value, ofJsonUnder key json = .ok value ∧ (json.IsDistinct → value.toJson = json)
  | .null, _, h | .boolean _, _, h | .number _, _, h => by cases h
  | .string text, _, _ => ⟨.string text, rfl, fun _ => rfl⟩
  | .array items, key, h => by
    obtain ⟨values, hvalues, hback⟩ := ofJsonItems_eq_ok items key h
    refine ⟨.list values, by rw [ofJsonUnder, hvalues]; rfl, fun hd => ?_⟩
    rw [toJson, hback hd]
  | .object ⟨fields⟩, key, h => by
    obtain ⟨entries, hentries, hkeys, hback⟩ := ofJsonFields_eq_ok fields h
    refine ⟨.object (.ofList entries), by rw [ofJsonUnder, hentries]; rfl, fun hd => ?_⟩
    -- Nothing is overwritten on the way there or back, for the keys are the same.
    rw [Object.ofList_eq (hkeys ▸ hd.1), toJson, hback hd.2, Object.ofList_eq hd.1]

theorem ofJsonItems_eq_ok : ∀ (items : List Json) (key : String),
    firstUnsupported? (Json.leavesAll key items) = none →
      ∃ values, ofJsonItems key items = .ok values ∧
        (Json.AllDistinct items → toJsonItems values = items)
  | [], _, _ => ⟨[], rfl, fun _ => rfl⟩
  | item :: items, key, h => by
    rw [Json.leavesAll, Json.firstUnsupported?_append, Option.or_eq_none_iff] at h
    obtain ⟨value, hvalue, hback⟩ := ofJsonUnder_eq_ok item key h.1
    obtain ⟨values, hvalues, hbacks⟩ := ofJsonItems_eq_ok items key h.2
    refine ⟨value :: values, by rw [ofJsonItems, hvalue, hvalues]; rfl, fun hd => ?_⟩
    rw [toJsonItems, hback hd.1, hbacks hd.2]

theorem ofJsonFields_eq_ok : ∀ fields : List (String × Json),
    firstUnsupported? (Json.leavesEach fields) = none →
      ∃ entries, ofJsonFields fields = .ok entries ∧
        entries.map Prod.fst = fields.map Prod.fst ∧
        (Json.EachDistinct fields → toJsonFields entries = fields)
  | [], _ => ⟨[], rfl, rfl, fun _ => rfl⟩
  | (key, json) :: fields, h => by
    rw [Json.leavesEach, Json.firstUnsupported?_append, Option.or_eq_none_iff] at h
    obtain ⟨value, hvalue, hback⟩ := ofJsonUnder_eq_ok json key h.1
    obtain ⟨entries, hentries, hkeys, hbacks⟩ := ofJsonFields_eq_ok fields h.2
    refine ⟨(key, value) :: entries, by rw [ofJsonFields, hvalue, hentries]; rfl,
      by simp [hkeys], fun hd => ?_⟩
    rw [toJsonFields, hback hd.1, hbacks hd.2]

end

/-- The error for a leaf that plain data has no form for. -/
def refusal (leaf : String × Json) : BuildError :=
  .unsupported leaf.1 leaf.2.kind

mutual

/-- A JSON value is refused for the first leaf that plain data has no form for. -/
theorem ofJsonUnder_eq_error : ∀ (json : Json) (key : String) {leaf : String × Json},
    firstUnsupported? (json.leaves key) = some leaf →
      ofJsonUnder key json = .error (refusal leaf)
  | .null, key, leaf, h | .boolean _, key, leaf, h | .number _, key, leaf, h => by
    obtain rfl := Option.some.inj h
    rfl
  | .string text, key, leaf, h => by cases h
  | .array items, key, leaf, h => by
    rw [ofJsonUnder, ofJsonItems_eq_error items key h]
    rfl
  | .object ⟨fields⟩, key, leaf, h => by
    rw [ofJsonUnder, ofJsonFields_eq_error fields h]
    rfl

theorem ofJsonItems_eq_error : ∀ (items : List Json) (key : String) {leaf : String × Json},
    firstUnsupported? (Json.leavesAll key items) = some leaf →
      ofJsonItems key items = .error (refusal leaf)
  | [], _, _, h => by cases h
  | item :: items, key, leaf, h => by
    rw [Json.leavesAll, Json.firstUnsupported?_append] at h
    rw [ofJsonItems]
    -- The first item is refused, or it is plain data and one of the others is refused.
    cases hitem : firstUnsupported? (item.leaves key) with
    | some first =>
      rw [hitem] at h
      obtain rfl := Option.some.inj h
      rw [ofJsonUnder_eq_error item key hitem]
      rfl
    | none =>
      rw [hitem, Option.none_or] at h
      obtain ⟨value, hvalue, -⟩ := ofJsonUnder_eq_ok item key hitem
      rw [hvalue, ofJsonItems_eq_error items key h]
      rfl

theorem ofJsonFields_eq_error : ∀ (fields : List (String × Json)) {leaf : String × Json},
    firstUnsupported? (Json.leavesEach fields) = some leaf →
      ofJsonFields fields = .error (refusal leaf)
  | [], _, h => by cases h
  | (key, json) :: fields, leaf, h => by
    rw [Json.leavesEach, Json.firstUnsupported?_append] at h
    rw [ofJsonFields]
    cases hfield : firstUnsupported? (json.leaves key) with
    | some first =>
      rw [hfield] at h
      obtain rfl := Option.some.inj h
      rw [ofJsonUnder_eq_error json key hfield]
      rfl
    | none =>
      rw [hfield, Option.none_or] at h
      obtain ⟨value, hvalue, -⟩ := ofJsonUnder_eq_ok json key hfield
      rw [hvalue, ofJsonFields_eq_error fields h]
      rfl

end

theorem ofJson_eq_error_iff {json : Json} {e : BuildError} : ofJson json = .error e ↔
    ∃ leaf, firstUnsupported? (json.leaves "") = some leaf ∧ e = refusal leaf := by
  cases h : firstUnsupported? (json.leaves "") with
  | some leaf =>
    rw [ofJson, ofJsonUnder_eq_error json "" h]
    simp [eq_comm]
  | none =>
    obtain ⟨value, hvalue, -⟩ := ofJsonUnder_eq_ok json "" h
    rw [ofJson, hvalue]
    simp

/-- Plain data and JSON.  A value whose objects have distinct keys comes back from JSON as it was,
entry by entry, and every value that is loaded is one.  A JSON value of strings, arrays and objects
comes back from plain data as it was.  Any other JSON value is refused for the first of its leaves
that is a number, a boolean or a null, under the nearest key around that leaf. -/
theorem ofJson_inverts_toJson :
    (∀ value : Value, value.IsDistinct → ofJson value.toJson = .ok value) ∧
    (∀ source value, load source = .ok value → value.IsDistinct) ∧
    (∀ json : Json, json.IsDistinct → (∀ leaf ∈ json.leaves "", leaf.2.isUnsupported = false) →
      ∃ value, ofJson json = .ok value ∧ value.toJson = json) ∧
    ∀ json e, ofJson json = .error e ↔ ∃ leaf,
      (json.leaves "").find? (fun leaf => leaf.2.isUnsupported) = some leaf ∧
        e = .unsupported leaf.1 leaf.2.kind := by
  refine ⟨fun value h => ofJsonUnder_toJson value "" h, ?_, ?_, fun json e => ofJson_eq_error_iff⟩
  · intro source value h
    obtain ⟨fields, rfl, hfields⟩ := isDistinct_load h
    exact hfields
  · intro json hd hleaves
    have hnone : firstUnsupported? (json.leaves "") = none :=
      List.find?_eq_none.mpr fun leaf hleaf => by simp [hleaves leaf hleaf]
    obtain ⟨value, hvalue, hback⟩ := ofJsonUnder_eq_ok json "" hnone
    exact ⟨value, hvalue, hback hd⟩

end Value

/-- Keys that stand again in other objects, an empty list and an empty object. -/
def Samples.exchanged : Value :=
  .object ⟨[("views", .list [.object ⟨[("name", .string "v"), ("views", .list [])]⟩]),
    ("name", .object ⟨[]⟩)]⟩

/-- A number in an array in an array, and a null before it in another object. -/
def Samples.refused : Json :=
  .object ⟨[("a", .array [.object ⟨[("b", .string "c")]⟩, .array [.number "1"]]), ("d", .null)]⟩

theorem Value.ofJson_inverts_toJson_exchanged :
    (Samples.exchanged.IsDistinct ∧ ofJson Samples.exchanged.toJson = .ok Samples.exchanged) ∧
    (∃ value, load "view: v \x7b name: w view: v \x7b\x7d \x7d" = .ok value ∧ value.IsDistinct) ∧
    (∃ value, ofJson Samples.exchanged.toJson = .ok value ∧
      value.toJson = Samples.exchanged.toJson) ∧
    ofJson Samples.refused = .error (.unsupported "a" "number") := by
  have hd : Samples.exchanged.IsDistinct := by
    simp [Samples.exchanged, IsDistinct, AllDistinct, EntriesDistinct]
  have hjson : Samples.exchanged.toJson.IsDistinct := by
    simp [Samples.exchanged, toJson, toJsonItems, toJsonFields, Object.ofList, Object.insert,
      Object.contains, Json.IsDistinct, Json.AllDistinct, Json.EachDistinct]
  refine ⟨⟨hd, ofJson_inverts_toJson.1 _ hd⟩, ?_, ?_, ?_⟩
  · have hok : (load "view: v \x7b name: w view: v \x7b\x7d \x7d").isOk = true := by decide +kernel
    obtain ⟨value, hvalue⟩ := exists_of_isOk hok
    exact ⟨value, hvalue, ofJson_inverts_toJson.2.1 _ value hvalue⟩
  · exact ofJson_inverts_toJson.2.2.1 _ hjson (by decide +kernel)
  · exact (ofJson_inverts_toJson.2.2.2 _ _).mpr ⟨("a", .number "1"), rfl, rfl⟩

end LookML

import LookML.Proofs.Build.Faithful
import LookML.Proofs.Projection.Grouping
import LookML.Trace

/-!
# Redeclaring — the root keeps the last declaration of a key

At the root a key that is not plural may be declared again: the last value stays, in the place of
the first, and there is one warning for each declaration but the first.  Nothing else warns, so
these are all the warnings of a load (`load_of_root`).
-/

namespace LookML

/-! ## Keys at the root -/

namespace Item

/-- The keys that are not plural and have been declared before, by the keys `seen` or by an item
before, one for each such item. -/
def redeclared (seen : List String) : List Item → List String
  | [] => []
  | item :: rest =>
    (if !Keys.isPlural item.key && seen.contains item.key then [item.key] else []) ++
      redeclared (item.key :: seen) rest

/-- Whether no item of a row stands under the plural spelling of the key of another one. -/
def OwnSlots (items : List Item) : Prop :=
  ∀ i ∈ items, ∀ j ∈ items, Keys.isPlural i.key = false → Keys.isPlural j.key = true →
    i.key ≠ Keys.pluralize j.key

instance (items : List Item) : Decidable (OwnSlots items) :=
  inferInstanceAs (Decidable (∀ i ∈ items, ∀ j ∈ items, Keys.isPlural i.key = false →
    Keys.isPlural j.key = true → i.key ≠ Keys.pluralize j.key))

theorem reverse_redeclared_cons (seen : List String) (item : Item) (rest : List Item) :
    (redeclared seen (item :: rest)).reverse =
      (redeclared (item.key :: seen) rest).reverse ++ redeclared seen [item] := by
  simp only [redeclared, List.reverse_append, List.append_nil]
  split <;> rfl

end Item

/-! ## Declarations at the root -/

variable {fields : Object Value} {ds : List Declaration} {d : Declaration} {seen : List String}

/-- Whether no declaration stands under the plural spelling of the key of another one. -/
abbrev Declaration.OwnSlots (ds : List Declaration) : Prop :=
  Item.OwnSlots (ds.map Declaration.item)

theorem Declaration.OwnSlots.slot_ne (h : OwnSlots ds) {o p : Declaration} (ho : o ∈ ds)
    (hp : p ∈ ds) (hop : Keys.isPlural o.key = false) (hpp : Keys.isPlural p.key = true) :
    p.slot ≠ o.key := by
  rw [slot_of_isPlural hpp]
  exact (h o.item (List.mem_map_of_mem ho) p.item (List.mem_map_of_mem hp) hop hpp).symm

namespace Object.Holds

/-- At the root every declaration is merged, with a warning if its key has been declared. -/
theorem runs_merge_root (h : fields.Holds ds) (hslots : Declaration.OwnSlots (ds ++ [d]))
    (hseen : ∀ key, key ∈ seen ↔ key ∈ ds.map Declaration.key) :
    ∃ merged, Projector.Runs 1 (Projector.merge fields d.key d.value d.item.line?) (.ok merged)
        (Item.redeclared seen [d.item]) ∧
      merged.Holds (ds ++ [d]) := by
  have hlast : d ∈ ds ++ [d] := by simp
  have hbefore {e : Declaration} (he : e ∈ ds) : e ∈ ds ++ [d] := List.mem_append_left _ he
  have hnew : Item.redeclared seen [d.item] =
      if !Keys.isPlural d.key && seen.contains d.key then [d.key] else [] :=
    List.append_nil _
  rw [hnew]
  cases hp : Keys.isPlural d.key with
  | true =>
    refine ⟨_, ?_, h.insert_plural hp⟩
    have hgather := h.gather_eq_some hp fun o ho hop hslot =>
      absurd hslot.symm (hslots.slot_ne (hbefore ho) hlast hop hp)
    rw [Declaration.slot_of_isPlural hp] at hgather ⊢
    rw [Projector.merge_plural hp, hgather]
    exact Projector.runs_pure 1 _
  | false =>
    refine ⟨_, ?_, h.insert_own hp fun p hpm hpp => hslots.slot_ne hlast (hbefore hpm) hp hpp⟩
    -- A slot of the key is that of an item with this key.
    have hkeys : d.key ∈ fields.keys ↔ d.key ∈ seen := by
      rw [h.mem_keys_iff, hseen, List.mem_map]
      refine exists_congr fun e => and_congr_right fun he => ?_
      cases hep : Keys.isPlural e.key with
      | true =>
        exact iff_of_false (hslots.slot_ne hlast (hbefore he) hp hep)
          (Declaration.ne_of_isPlural hep hp)
      | false => rw [Declaration.slot_of_not_isPlural hep]
    by_cases hk : d.key ∈ fields.keys
    · rw [if_pos (by simpa using hkeys.mp hk)]
      exact Projector.runs_merge_again hp hk d.value _
    · rw [Projector.merge_new hp hk, if_neg (by simpa using fun hs => hk (hkeys.mpr hs))]
      exact Projector.runs_pure 1 _

/-- At the root a row of declarations is merged, with a warning for each key that is declared
again. -/
theorem runs_root (h : fields.Holds ds) {rest : List Declaration}
    (hslots : Declaration.OwnSlots (ds ++ rest))
    (hseen : ∀ key, key ∈ seen ↔ key ∈ ds.map Declaration.key) :
    ∃ result, Projector.Runs 1 (Projector.items fields (rest.map Declaration.item)) (.ok result)
        (Item.redeclared seen (rest.map Declaration.item)).reverse ∧
      result.Holds (ds ++ rest) := by
  induction rest generalizing fields ds seen with
  | nil =>
    rw [List.append_nil]
    exact ⟨fields, Projector.runs_pure 1 fields, h⟩
  | cons d rest ih =>
    have hsplit : ds ++ d :: rest = ds ++ [d] ++ rest := by simp
    rw [hsplit] at hslots ⊢
    have hfirst : Declaration.OwnSlots (ds ++ [d]) := by
      intro i hi j hj
      rw [Declaration.OwnSlots, List.map_append] at hslots
      exact hslots i (List.mem_append_left _ hi) j (List.mem_append_left _ hj)
    obtain ⟨merged, hmerge, hmerged⟩ := h.runs_merge_root hfirst hseen
    have hseen' : ∀ key, key ∈ d.item.key :: seen ↔ key ∈ (ds ++ [d]).map Declaration.key := by
      intro key
      rw [List.mem_cons, hseen, List.map_append, List.mem_append, or_comm]
      exact or_congr_right List.mem_singleton.symm
    obtain ⟨result, hrun, hresult⟩ := ih hmerged hslots hseen'
    refine ⟨result, ?_, hresult⟩
    rw [List.map_cons, Item.reverse_redeclared_cons]
    exact Projector.runs_items_cons Nat.one_pos d.project_eq hmerge hrun

end Object.Holds

/-! ## Loading -/

/-- Where the containers below the root are projected, so are its items. -/
theorem Item.exists_project {items : List Item}
    (h : ∀ c, .container c ∈ Item.walkAll items → ∃ fields, c.project = .ok fields) :
    ∀ i ∈ items, ∃ value, i.project = .ok value := by
  intro i hi
  cases i with
  | pair p => exact ⟨_, rfl⟩
  | listing l => exact ⟨_, rfl⟩
  | block b =>
    obtain ⟨fields, hfields⟩ := h b.container (container_mem_walkAll hi rfl)
    rw [project_block, hfields]
    exact ⟨_, rfl⟩

/-- The warnings among the events of a load are those of the projection. -/
theorem Loaded.filter_events (loaded : Loaded) :
    loaded.events.filter (·.level = .warn) = loaded.warnings.map Event.ofWarning := by
  have htokens : (loaded.parsed.tokens.map Event.ofToken).filter (·.level = .warn) = [] := by
    simp [Event.ofToken]
  have hlog : (loaded.parsed.log.map Event.ofEntry).filter (·.level = .warn) = [] := by
    rw [List.filter_eq_nil_iff]
    intro event hevent
    obtain ⟨entry, -, rfl⟩ := List.mem_map.mp hevent
    cases entry <;> simp [Event.ofEntry, Event.ofRule]
  rw [events, List.filter_append, List.filter_append, htokens, hlog, List.nil_append,
    List.nil_append]
  simp [Event.ofWarning]

/-- A source loads if the containers below its root are projected and no key of its root is the
plural spelling of another one.  The root has an entry for each slot, in the order in which these
first come: with all values of a plural key, and with the last value of any other key.  The warnings
are one for each item that declares a key again. -/
theorem load_of_root {source : String} {d : Document} (h : parse source = .ok d)
    (hc : ∀ c, .container c ∈ Item.walkAll d.container.items → ∃ fields, c.project = .ok fields)
    (hslots : Item.OwnSlots d.container.items) :
    ∃ ds fields, ds.map Declaration.item = d.container.items ∧
      load source = .ok (.object fields) ∧
      fields.keys = (ds.map Declaration.slot).eraseDups ∧
      (∀ e ∈ ds, Keys.isPlural e.key = true →
        fields.get? e.slot = some (.list (Declaration.values e.key ds))) ∧
      (∀ e ∈ ds, Keys.isPlural e.key = false →
        fields.get? e.key = (Declaration.values e.key ds).getLast?) ∧
      (loadLogged source).events.filter (·.level = .warn) =
        (Item.redeclared [] d.container.items).map Event.ofWarning := by
  obtain ⟨ds, hds⟩ := Declaration.exists_map_item (Item.exists_project hc)
  have hslots' : Declaration.OwnSlots ds := by rwa [Declaration.OwnSlots, hds]
  have hseen : ∀ key, key ∈ ([] : List String) ↔
      key ∈ ([] : List Declaration).map Declaration.key := by simp
  obtain ⟨fields, hrun, hfields⟩ := Object.Holds.nil.runs_root hslots' hseen
  rw [hds] at hrun
  rw [List.nil_append] at hfields
  have hproject : d.project = (.ok (.object fields), Item.redeclared [] d.container.items) := by
    have hdocument := (Projector.runs_container_of_items hrun).run_start
    unfold Document.project Projector.document
    rw [hdocument]
    exact congrArg (Prod.mk _) (List.reverse_reverse _)
  refine ⟨ds, fields, hds, ?_, hfields.keys_eq, fun e he hp => ?_, fun e he hp =>
    hfields.kept e he hp fun p hpm hpp => hslots'.slot_ne he hpm hp hpp, ?_⟩
  · rw [load_eq, h]
    dsimp only
    rw [hproject]
    rfl
  · have hlisted : Declaration.listed e.slot ds = [] := Declaration.listed_eq_nil fun o ho hop hk =>
      hslots'.slot_ne ho he hop hp hk.symm
    rw [hfields.gathered e he hp, hlisted, List.nil_append]
  · rw [Loaded.filter_events]
    have hwarnings : (loadLogged source).warnings = d.project.2 := by
      unfold loadLogged
      dsimp only
      rw [show (parseLogged source).result = .ok d from h]
    rw [hwarnings, hproject]

/-- A key that is declared again at the root, among blocks with a plural key. -/
def Samples.redeclared : String :=
  "view: v \x7b\x7d label: a view: w \x7b label: c \x7d label: b"

theorem load_of_root_redeclared : ∃ d fields, parse Samples.redeclared = .ok d ∧
    (∀ c, .container c ∈ Item.walkAll d.container.items → ∃ fields, c.project = .ok fields) ∧
    Item.OwnSlots d.container.items ∧ load Samples.redeclared = .ok (.object fields) ∧
    (loadLogged Samples.redeclared).events.filter (·.level = .warn) =
      [Event.ofWarning "label"] := by
  have h : (parse Samples.redeclared).toOption.map (fun d =>
      ((Item.walkAll d.container.items).all fun part => match part with
        | .container c => c.project.isOk
        | _ => true, decide (Item.OwnSlots d.container.items),
        Item.redeclared [] d.container.items)) = some (true, true, ["label"]) := by
    decide +kernel
  obtain ⟨d, hd, h⟩ := exists_of_map_toOption h
  obtain ⟨hall, h⟩ := Prod.mk.inj h
  obtain ⟨hslots, hwarn⟩ := Prod.mk.inj h
  have hc : ∀ c, .container c ∈ Item.walkAll d.container.items → ∃ fields, c.project = .ok fields :=
    fun c hmem => exists_of_isOk (List.all_eq_true.mp hall (.container c) hmem)
  obtain ⟨ds, fields, -, hload, -, -, -, hevents⟩ := load_of_root hd hc (of_decide_eq_true hslots)
  rw [hwarn] at hevents
  exact ⟨d, fields, hd, hc, of_decide_eq_true hslots, hload, hevents⟩

end LookML

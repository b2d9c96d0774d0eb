import LookML.Load
import LookML.Proofs.Build.Building
import LookML.Proofs.Build.Misreading

/-!
# Faithful dumps — when a built document loads as what it says

A builder checks that keys, names and expressions read back as they are written.  It does not
check that an expression key stands over an expression, and that is all it misses: a built document
reads back exactly if its expression keys are in place, and then loading it ends as projecting it.
-/

namespace LookML

/-- Whether loading a source ends as a projection does: in the same data, or over the same key. -/
def LoadsAs (source : String) (projected : Except ProjectionError Value) : Prop :=
  match load source, projected with
  | .ok value, .ok value' => value = value'
  | .error (.projection e), .error e' => e.key = e'.key
  | _, _ => False

theorem load_eq (source : String) :
    load source = match parse source with
      | .ok document => document.project.1.mapError .projection
      | .error e => .error (.parse e) := by
  unfold load loadLogged parse
  dsimp only
  cases (parseLogged source).result <;> rfl

theorem dump_eq (value : Value) :
    dump value = ((value.build {}).1.map Document.print).mapError .build := rfl

/-- A source that is parsed as a document that says the same loads as that document. -/
theorem loadsAs_of_parse {source : String} {d e : Document} (he : parse source = .ok e)
    (hs : e.sketch = d.sketch) : LoadsAs source d.project.1 := by
  have h := Document.project_congr hs
  unfold LoadsAs
  rw [load_eq, he]
  cases hd : d.project.1 <;> cases he : e.project.1 <;> simp_all [Except.mapError]

theorem LoadsAs.load_eq_ok {source : String} {value : Value} (h : LoadsAs source (.ok value)) :
    load source = .ok value := by
  unfold LoadsAs at h
  split at h
  · rename_i loaded value' hload hvalue
    rw [hload, h, Except.ok.inj hvalue]
  · rename_i hvalue
    cases hvalue
  · exact h.elim

/-- A tidy document with its keys in place loads as what projecting it gives. -/
theorem Document.IsTidy.loadsAs {d : Document} (h : d.IsTidy) (hp : d.KeysInPlace) :
    LoadsAs d.print d.project.1 := by
  obtain ⟨e, he, hs⟩ := h.parse_print hp
  exact loadsAs_of_parse he hs

theorem Value.isTidy_of_build_default {value : Value} {d : Document}
    (h : (value.build {}).1 = .ok d) : d.IsTidy :=
  isTidy_of_build (by simp [isLayout]) h

/-- A built document is read back as it is exactly if its expression keys are in place.  Then
loading it gives what projecting it gives, or fails over the same key. -/
theorem Value.loadsAs_of_build {value : Value} {d : Document} (h : (value.build {}).1 = .ok d) :
    ((∃ e, parse d.print = .ok e ∧ e.sketch = d.sketch) ↔ d.KeysInPlace) ∧
      (d.KeysInPlace → LoadsAs d.print d.project.1) := by
  have htidy := isTidy_of_build_default h
  exact ⟨htidy.parse_print_iff, htidy.loadsAs⟩

/-- A named block with an expression that is trimmed as it is written, and a list. -/
def Samples.namedView : Value :=
  .single "views" (.list [.object ⟨[("sql", .string " a "), ("tags", .list [.string "x y"]),
    ("name", .string "v")]⟩])

theorem loadsAs_of_build_namedView :
    ∃ d, (Samples.namedView.build {}).1 = .ok d ∧ LoadsAs d.print d.project.1 := by
  have h : (Samples.namedView.build {}).1 = .ok _ := rfl
  exact ⟨_, h, (Value.loadsAs_of_build h).2
    ⟨⟨rfl, fun _ => rfl, ⟨rfl, trivial⟩, trivial⟩, trivial⟩⟩

/-- Fields whose last two declare the first two again.  The first is a block under an expression
key, so its text takes in what follows. -/
def Samples.declaredAgain : Value :=
  .object ⟨[("sql", .object {}), ("x", .string ";; #"), ("sql", .string "a"), ("x", .string "b")]⟩

-- At the root, a key that is declared again hides what was misread under it: what is dumped loads
-- as the document projects.
example :
    ((dump Samples.declaredAgain).toOption.bind fun source => (load source).toOption) =
      some (.object ⟨[("sql", .string "a"), ("x", .string "b")]⟩) ∧
    ((Samples.declaredAgain.build {}).1.toOption.bind fun d => d.project.1.toOption) =
      some (.object ⟨[("sql", .string "a"), ("x", .string "b")]⟩) := by
  decide +kernel

/-- A block under an expression key. -/
def Samples.expressionBlock : Value :=
  .single "sql" (.object {})

/-- It is built, but what is written is no source. -/
theorem not_loadsAs_expressionBlock : ∃ d, (Samples.expressionBlock.build {}).1 = .ok d ∧
    ¬ d.KeysInPlace ∧ (∃ e, load d.print = .error (.parse e)) ∧ ¬ LoadsAs d.print d.project.1 := by
  cases h : (Samples.expressionBlock.build {}).1 with
  | error e => cases h
  | ok d =>
    have hprint : d.print = "sql: \x7b\x7d" := by
      have hd := congrArg (fun built => built.toOption.map Document.print) h
      exact (Option.some.inj hd).symm
    have hparse : (parse "sql: \x7b\x7d").isOk = false := by decide +kernel
    cases hp : parse "sql: \x7b\x7d" with
    | ok e => simp [hp, Except.isOk, Except.toBool] at hparse
    | error e =>
      have hload : load d.print = .error (.parse e) := by rw [hprint, load_eq, hp]
      have hnot : ¬ LoadsAs d.print d.project.1 := by simp [LoadsAs, hload]
      have htidy := Value.isTidy_of_build_default h
      exact ⟨d, rfl, fun hk => hnot (htidy.loadsAs hk), ⟨e, hload⟩, hnot⟩

end LookML

import StackCompiler.Compilation
import StackCompiler.Proofs.Steps

/-!
# Inputs that cannot be loaded

An input is not loaded if its class belongs to an input that is loaded before it, or if its text
cannot be parsed. Such an input leaves no trace: the others are compiled as if it were not there.

* **`compile_isolates`**: inputs that cannot be loaded do not matter to the others.
-/

namespace StackCompiler

/-- Why an input is not loaded: its class is taken, or its text cannot be parsed. -/
def SourceInput.loadError? (before : List SourceInput) (input : SourceInput) :
    Option CompileError :=
  match before.find? fun other => unitClassName other.name == unitClassName input.name with
  | some other =>
    some (.units ("two units map to class `" ++ unitClassName input.name ++ "` (" ++
      Loader.describe other.path ++ " and " ++ Loader.describe input.path ++ ")"))
  | none =>
    match SourceUnit.parse input.name input.text with
    | .error e => some e
    | .ok _ => none

theorem SourceInput.class_ne_of_loadError? {before : List SourceInput} {input : SourceInput}
    (h : input.loadError? before = none) :
    ∀ other ∈ before, unitClassName other.name ≠ unitClassName input.name := by
  intro other hother heq
  unfold SourceInput.loadError? at h
  split at h
  · cases h
  · rename_i hfind
    exact absurd (beq_iff_eq.mpr heq) (List.find?_eq_none.mp hfind other hother)

/-- The errors of inputs in order. For the later ones, only those that are loaded count. -/
def loadErrors (before : List SourceInput) : List SourceInput → List (Option CompileError)
  | [] => []
  | input :: rest =>
    match input.loadError? before with
    | some e => some e :: loadErrors before rest
    | none => none :: loadErrors (before ++ [input]) rest

/-- What belongs to the inputs that have no error. -/
def survivors {α : Type} (errors : List (Option CompileError)) (xs : List α) : List α :=
  ((errors.zip xs).filter (·.1.isNone)).map Prod.snd

section Survivors

variable {α : Type} {errors : List (Option CompileError)} {x : α} {xs : List α}

@[simp] theorem survivors_none_cons : survivors (none :: errors) (x :: xs) =
    x :: survivors errors xs :=
  rfl

@[simp] theorem survivors_some_cons {e : CompileError} :
    survivors (some e :: errors) (x :: xs) = survivors errors xs :=
  rfl

end Survivors

/-! ## Loaders -/

theorem SourceUnit.parse_name {name source : String} {unit : SourceUnit}
    (h : SourceUnit.parse name source = .ok unit) : unit.name = name := by
  obtain ⟨tree, -, htree⟩ := Except.bind_eq_ok.mp h
  obtain ⟨⟨node, children⟩, -, hunit⟩ := Except.bind_eq_ok.mp htree
  obtain ⟨items, -, hunit⟩ := Except.bind_eq_ok.mp hunit
  cases hunit
  rfl

namespace Loader

variable {l : Loader} {before : List SourceInput} {input : SourceInput}

/-- The units of the loader are those of some inputs, in order. -/
def Holds (l : Loader) (before : List SourceInput) : Prop :=
  l.units.map (fun loaded => (loaded.path, loaded.unit.name)) =
    before.map fun input => (input.path, input.name)

theorem holds_empty : Holds .empty [] := rfl

theorem Holds.owner (h : l.Holds before) (className : String) :
    (l.owner? className).map LoadedUnit.path =
      (before.find? fun other => unitClassName other.name == className).map SourceInput.path := by
  have hfind := congrArg (List.find? fun p => unitClassName p.2 == className) h
  rw [List.find?_map, List.find?_map] at hfind
  have hpath := congrArg (Option.map Prod.fst) hfind
  rw [Option.map_map, Option.map_map] at hpath
  exact hpath

theorem Holds.add_error (h : l.Holds before) {e : CompileError}
    (he : input.loadError? before = some e) :
    l.add input.name input.text input.path = .error e := by
  have howner := h.owner (unitClassName input.name)
  unfold SourceInput.loadError? at he
  dsimp only [Loader.add]
  cases hfind : before.find? fun other => unitClassName other.name == unitClassName input.name with
  | some other =>
    rw [hfind] at howner he
    obtain ⟨loaded, hloaded, hpath⟩ := Option.map_eq_some_iff.mp howner
    rw [hloaded]
    cases he
    show Except.error _ = Except.error _
    rw [hpath]
  | none =>
    rw [hfind] at howner he
    rw [Option.map_eq_none_iff.mp howner]
    cases hparse : SourceUnit.parse input.name input.text with
    | error e' =>
      simp only [hparse] at he
      cases he
      rfl
    | ok unit =>
      simp only [hparse] at he
      cases he

theorem Holds.add_ok (h : l.Holds before) (he : input.loadError? before = none) :
    ∃ unit l', l.add input.name input.text input.path = .ok (unit, l') ∧
      SourceUnit.parse input.name input.text = .ok unit ∧ l'.Holds (before ++ [input]) := by
  have howner := h.owner (unitClassName input.name)
  unfold SourceInput.loadError? at he
  dsimp only [Loader.add]
  cases hfind : before.find? fun other => unitClassName other.name == unitClassName input.name with
  | some other =>
    rw [hfind] at he
    cases he
  | none =>
    rw [hfind] at howner he
    rw [Option.map_eq_none_iff.mp howner]
    cases hparse : SourceUnit.parse input.name input.text with
    | error e' =>
      simp only [hparse] at he
      cases he
    | ok unit =>
      refine ⟨unit, ⟨l.units ++ [⟨input.path, unit⟩]⟩, rfl, rfl, ?_⟩
      unfold Holds at h ⊢
      simp only [List.map_append, h, List.map_cons, List.map_nil, SourceUnit.parse_name hparse]

end Loader

/-! ## All inputs -/

section Inputs

variable {l : Loader} {before inputs : List SourceInput}

/-- The inputs that are loaded are loaded in the same way without the others. -/
theorem loadAll_survivors (h : l.Holds before) :
    loadAll l (survivors (loadErrors before inputs) inputs) =
        survivors (loadErrors before inputs) (loadAll l inputs) ∧
      loadedUnits (survivors (loadErrors before inputs) (loadAll l inputs)) =
        loadedUnits (loadAll l inputs) := by
  induction inputs generalizing l before with
  | nil => exact ⟨rfl, rfl⟩
  | cons input rest ih =>
    cases he : input.loadError? before with
    | some e =>
      simp only [loadErrors, he, loadAll, h.add_error he, survivors_some_cons]
      exact ih h
    | none =>
      obtain ⟨unit, l', hadd, -, hl'⟩ := h.add_ok he
      obtain ⟨hload, hunits⟩ := ih hl'
      simp only [loadErrors, he, loadAll, hadd, survivors_none_cons, hload]
      exact ⟨trivial, congrArg (unit :: ·) hunits⟩

/-- An input with an error has no analysis and no files, and one without is analysed. -/
def UnitResult.ComesOf : SourceInput × Option CompileError → UnitResult → Prop
  | (input, some e), r => r = ⟨input, none, some e, [], statsOf input none 0⟩
  | (input, none), r => r.input = input ∧ r.analysis.isSome = true

variable (exports : ExportTable) (options : CompileOptions)

theorem compileUnit_analysed (index : Nat) (input : SourceInput) (unit : SourceUnit) :
    UnitResult.ComesOf (input, none) (compileUnit exports options index input unit) := by
  dsimp only [compileUnit]
  split_ifs
  · rcases emitUnit _ _ options with ⟨analysis, e | emitted⟩
    · exact ⟨rfl, rfl⟩
    · exact ⟨rfl, rfl⟩
  · exact ⟨rfl, rfl⟩

/-- The results of the inputs that are loaded do not count the others. -/
theorem compileLoaded_survivors (h : l.Holds before) (index : Nat) :
    survivors (loadErrors before inputs)
        (compileLoaded exports options index (inputs.zip (loadAll l inputs))) =
      compileLoaded exports options index ((survivors (loadErrors before inputs) inputs).zip
        (survivors (loadErrors before inputs) (loadAll l inputs))) := by
  induction inputs generalizing l before index with
  | nil => rfl
  | cons input rest ih =>
    cases he : input.loadError? before with
    | some e =>
      simp only [loadErrors, he, loadAll, h.add_error he, List.zip_cons_cons, compileLoaded,
        survivors_some_cons]
      exact ih h index
    | none =>
      obtain ⟨unit, l', hadd, -, hl'⟩ := h.add_ok he
      simp only [loadErrors, he, loadAll, hadd, List.zip_cons_cons, compileLoaded,
        survivors_none_cons, ih hl' (index + 1)]

/-- An input that cannot be loaded has only its error for a result; all others are analysed. -/
theorem compileLoaded_outcome (h : l.Holds before) (index : Nat) :
    List.Forall₂ UnitResult.ComesOf (inputs.zip (loadErrors before inputs))
      (compileLoaded exports options index (inputs.zip (loadAll l inputs))) := by
  induction inputs generalizing l before index with
  | nil => exact .nil
  | cons input rest ih =>
    cases he : input.loadError? before with
    | some e =>
      simp only [loadErrors, he, loadAll, h.add_error he, List.zip_cons_cons, compileLoaded]
      exact .cons rfl (ih h index)
    | none =>
      obtain ⟨unit, l', hadd, -, hl'⟩ := h.add_ok he
      simp only [loadErrors, he, loadAll, hadd, List.zip_cons_cons, compileLoaded]
      exact .cons (compileUnit_analysed exports options index input unit) (ih hl' (index + 1))

end Inputs

/-- **Inputs that cannot be loaded do not matter to the others.** Those that are loaded get the
results that they have without the others, and each of the others gets the error that keeps it from
being loaded, no analysis and no files. -/
theorem compile_isolates (inputs : List SourceInput) (options : CompileOptions) :
    survivors (loadErrors [] inputs) (compile inputs options) =
        compile (survivors (loadErrors [] inputs) inputs) options ∧
      List.Forall₂ UnitResult.ComesOf (inputs.zip (loadErrors [] inputs))
        (compile inputs options) := by
  refine ⟨?_, compileLoaded_outcome _ options Loader.holds_empty 0⟩
  dsimp only [compile]
  obtain ⟨hload, hunits⟩ := loadAll_survivors Loader.holds_empty
  rw [compileLoaded_survivors _ options Loader.holds_empty, hload, hunits]

end StackCompiler

import StackCompiler.Proofs.TypeSafety

/-!
# Local variables

Slots of a frame are given back when a scope ends, and used again. What is made of a unit with
nothing wrong in it never mixes up the variables that share a slot: whatever reads a variable finds
what was last written for that variable. What callers pass stands at the start of the frame, in the
order in which every call pushes it.

* **`generated_methods_disciplined`**: all methods of a unit use their frames so.
-/

namespace StackCompiler

open List

/-! ## What callers pass -/

/-- What callers pass to a method, and the first slot that it takes: parameters and captured
variables to a function, behind the arguments of the program in `main`; the new record and a value
for each field to a constructor. -/
inductive SourceUnit.Passes (unit : SourceUnit) (a : Analysis) :
    MethodOrigin → Nat → List (Subject × Kind) → Prop
  | function {id : FnId} {args : List (Subject × Kind)}
      (h : List.Forall₂ (fun x arg => ∃ symbol, a.symbols[x]? = some symbol ∧
        Kind.ofTy? symbol.ty = some arg.2 ∧
          arg.1 = .symbol x) (unit.paramsOf id ++ a.captures id) args) :
      Passes unit a (.function id) (if id = FnId.main then 1 else 0) args
  | record {info : RecordInfo} {args : List (Subject × Kind)} (hinfo : info ∈ a.declaredRecords)
      (h : List.Forall₂ (fun field arg => Kind.ofTy? field.2 = some arg.2 ∧ arg.1 = .field field.1)
        info.fields args) :
      Passes unit a (.record info.decl) 0 ((.self, .reference) :: args)

section

variable {unit : SourceUnit} {a : Analysis}

theorem Param.map_symbol_of_checked {id : FnId} {params : List Param} {tys : List Ty}
    (h : List.Forall₂ (Param.Checked (a.view .top) id) params tys) :
    params.map Param.symbol = (params.filterMap Param.symbol).map some := by
  induction h with
  | nil => rfl
  | cons hparam _ ih =>
    obtain ⟨x, symbol, hx, -⟩ := hparam
    rw [map_cons, filterMap_cons_some hx, map_cons, hx, ih]

theorem Analysis.Sound.paramsOf_arguments (h : a.Sound unit.items) (id : FnId) :
    List.Forall₂ (fun x arg => ∃ symbol, a.symbols[x]? = some symbol ∧
      Kind.ofTy? symbol.ty = some arg.2 ∧ arg.1 = .symbol x)
      (unit.paramsOf id) ((unit.paramsOf id).filterMap a.argument) ∧
    (unit.paramsOf id ++ a.captures id).Nodup := by
  unfold SourceUnit.paramsOf
  cases hfind : unit.allFunctions.find? (·.head.id = some id) with
  | none => exact ⟨.nil, h.distinct id⟩
  | some f =>
    have hid : decide (f.head.id = some id) = true :=
      find?_some (p := fun g : FunctionDecl => decide (g.head.id = some id)) hfind
    obtain ⟨id', hid', hf⟩ := h.admits f (mem_of_find?_eq_some hfind)
    cases (of_decide_eq_true hid).symm.trans hid'
    refine ⟨?_, h.handed_nodup hf⟩
    obtain ⟨info, -, hparams, -⟩ := hf.info
    have hargs := h.paramArguments hparams
    show List.Forall₂ _ (f.head.params.filterMap Param.symbol)
      ((f.head.params.filterMap Param.symbol).filterMap a.argument)
    generalize (f.head.params.filterMap Param.symbol).filterMap a.argument = args at hargs ⊢
    generalize f.head.params = params at hargs
    induction hargs with
    | nil => exact .nil
    | cons hparam _ ih =>
      obtain ⟨x, symbol, hx, hsymbol, hkind, hsubject⟩ := hparam
      rw [filterMap_cons_some hx]
      exact .cons ⟨symbol, hsymbol, hkind, hsubject⟩ ih

theorem Analysis.Sound.fieldArguments (h : a.Sound unit.items) {info : RecordInfo}
    (hinfo : info ∈ a.records) :
    List.Forall₂ (fun field arg => Kind.ofTy? field.2 = some arg.2 ∧ arg.1 = .field field.1)
      info.fields ((a.fieldTypes info).filterMap fieldArgument) := by
  have hproper := h.fields info hinfo
  unfold Analysis.fieldTypes
  generalize info.fields = fields at hproper ⊢
  induction fields with
  | nil => exact .nil
  | cons field fields ih =>
    have hfield := hproper field mem_cons_self
    obtain ⟨t, ht, -⟩ := (hfield .top).jvmType
    obtain ⟨kind, hkind⟩ := (hfield .top).kind
    rw [filterMap_cons_some (b := (field.1, t)) (by rw [ht]; rfl),
      filterMap_cons_some (b := (.field field.1, kind))
        (by rw [fieldArgument, kind?_of_jvmType ht, hkind]; rfl)]
    exact .cons ⟨hkind, rfl⟩ (ih fun field' hfield' => hproper field' (mem_cons_of_mem _ hfield'))

/-- **A method takes what callers pass to it, one after the other.** -/
theorem Analysis.Sound.passes (h : a.Sound unit.items) {origin : MethodOrigin}
    {header : MethodHeader} {types : MethodTypes} {handed : List Entry}
    (hmade : unit.MadeOf a origin header types handed) :
    ∃ first args, unit.Passes a origin first args ∧ handed = Entry.row first args ∧
      types.slot = rowSlot handed ∧ (args.map Prod.fst).Nodup := by
  cases hmade with
  | @function id =>
    obtain ⟨hparams, hnodup⟩ := h.paramsOf_arguments id
    refine ⟨_, _, .function ?_, rfl, rfl, arguments_nodup hnodup⟩
    rw [filterMap_append]
    exact rel_append hparams (h.captureArguments (List.Subset.refl _))
  | @record info hinfo =>
    have hmem : info ∈ a.records := (mem_filter.mp hinfo).1
    have hfields := h.fieldArguments hmem
    refine ⟨_, _, .record hinfo hfields, rfl, rfl, ?_⟩
    have hnames : ((a.fieldTypes info).filterMap fieldArgument).map Prod.fst =
        info.fields.map fun field => Subject.field field.1 := by
      generalize (a.fieldTypes info).filterMap fieldArgument = args at hfields
      generalize info.fields = fields at hfields
      induction hfields with
      | nil => rfl
      | cons hfield _ ih => rw [map_cons, map_cons, hfield.2, ih]
    rw [map_cons, hnames]
    refine nodup_cons.mpr ⟨by simp, ?_⟩
    have hfields : info.fields.map (fun field => Subject.field field.1) =
        (info.fields.map Prod.fst).map Subject.field := by rw [map_map]; rfl
    rw [hfields]
    exact (h.names info hinfo).map fun _ _ he => Subject.field.inj he

end

/-! ## Frames -/

/-- What callers pass is in the slots from the first on, one value behind the other. Whatever is
read on a path was last written for the same variable, with the same kind and slot. Every call of a
function of the unit loads what it captures right before, in the order in which its method takes it.
-/
structure Method.Disciplined (m : Method) (a : Analysis) (first : Nat)
    (args : List (Subject × Kind)) : Prop where
  passed : ∀ (n pos : Nat) arg i e, args[n]? = some arg → m.body.code[pos]? = some i →
    i.reads (m.subjectAt pos) = some e ∨ i.writes (m.subjectAt pos) = some e →
    e.subject = some arg.1 → e.slot = first + rowWords (args.take n)
  owned : ∀ pos words i e, m.WordReaches (.of (Entry.row first args)) pos words →
    m.body.code[pos]? = some i → i.reads (m.subjectAt pos) = some e →
    e.subject.isSome ∧ words.Holds e
  counted : ∀ pos words slot step, m.WordReaches (.of (Entry.row first args)) pos words →
    m.body.code[pos]? = some (.iinc slot step) →
    words.after (m.subjectAt pos) (.iinc slot step) = words
  calls : ∀ (pos : Nat) ref, m.body.code[pos]? = some (.invokeStatic ref) →
    ref.owner ∈ libraryClasses ∨ ∃ id, m.subjectAt pos = some (.function id) ∧
      a.methodRef id = .ok ref ∧ (a.captures id).length ≤ pos ∧
      ∀ (j : Nat) x, (a.captures id)[j]? = some x → ∃ kind slot,
        m.body.code[pos - (a.captures id).length + j]? = some (.load kind slot) ∧
        m.subjectAt (pos - (a.captures id).length + j) = some (.symbol x)

theorem Method.Linked.calls {items : List Item} {a : Analysis} (h : a.Sound items) {m : Method}
    (hm : m.Linked a) {pos : Nat} {ref : MethodRef}
    (hi : m.body.code[pos]? = some (.invokeStatic ref)) :
    ref.owner ∈ libraryClasses ∨ ∃ id, m.subjectAt pos = some (.function id) ∧
      a.methodRef id = .ok ref ∧ (a.captures id).length ≤ pos ∧
      ∀ (j : Nat) x, (a.captures id)[j]? = some x → ∃ kind slot,
        m.body.code[pos - (a.captures id).length + j]? = some (.load kind slot) ∧
        m.subjectAt (pos - (a.captures id).length + j) = some (.symbol x) := by
  rcases (hm.refers pos _ hi).invokeStatic with hlibrary | ⟨id, hsubject, href⟩
  · exact .inl hlibrary
  · obtain ⟨info, hinfo, hle, hpushed⟩ := hm.pushed pos id hsubject
    have hcaptures : a.captures id = info.captures := by rw [Analysis.captures, hinfo]; rfl
    rw [← hcaptures] at hle hpushed
    refine .inr ⟨id, hsubject, href, hle, fun j x hx => ?_⟩
    obtain ⟨i, hi, hby, hx'⟩ := hpushed j x hx
    obtain ⟨symbol, hsymbol, hlocal, -⟩ := h.captured id x (mem_of_getElem? hx)
    obtain ⟨symbol', hsymbol', hcases⟩ := hby.cases
    cases hsymbol.symm.trans hsymbol'
    rcases hcases with ⟨hglobal, -⟩ | ⟨-, kind, slot, rfl⟩
    · rw [Symbol.isGlobal_of_isLocal hlocal] at hglobal
      cases hglobal
    · exact ⟨kind, slot, hi, hx'⟩

theorem Method.Typed.disciplined {items : List Item} {a : Analysis} (h : a.Sound items) {m : Method}
    {types : MethodTypes} {first : Nat} {args : List (Subject × Kind)}
    (htyped : m.Typed types (.of (Entry.row first args))) (hlinked : m.Linked a)
    (hslot : types.slot = rowSlot (Entry.row first args)) (hargs : (args.map Prod.fst).Nodup) :
    m.Disciplined a first args := by
  refine ⟨fun n pos arg i e harg hi he hsubject => ?_, htyped.reads,
    fun pos words slot step hpath hi => ?_, fun pos ref hi => hlinked.calls h hi⟩
  · have hrow := row_getElem? first args n
    rw [harg, Option.map_some] at hrow
    have hhome := rowSlot_eq hargs (mem_of_getElem? hrow) rfl
    exact htyped.homes pos i e hi he arg.1 _ hsubject (hslot ▸ hhome)
  · exact (htyped.reads pos words _ _ hpath hi rfl).2.write_eq

/-- **All methods of a unit with nothing wrong in it keep to their variables**, the constructors of
its records among them. -/
theorem generated_methods_disciplined {name source : String} {unit : SourceUnit} {a : Analysis}
    (h : Accepted name source unit a) :
    (∀ f ∈ unit.allFunctions, ∃ id, f.head.id = some id ∧
      f.head.params.map Param.symbol = (unit.paramsOf id).map some) ∧
    (∀ body : MethodBody, body.requests <:+: (generate unit a).requests →
      ∃ m ∈ (generate unit a).methods, m.body = body) ∧
    ∀ m ∈ (generate unit a).methods, ∃ types first args,
      unit.MadeOf a m.origin m.body.header types (Entry.row first args) ∧
      unit.Passes a m.origin first args ∧ m.Disciplined a first args := by
  obtain ⟨hmethods, hbodies⟩ := @generateUpTo_sent unit a (some maxWords) h.sound h.ok rfl
  refine ⟨fun f hf => ?_, hbodies, fun m hm => ?_⟩
  · obtain ⟨id, hid, hadmits⟩ := h.sound.admits f hf
    obtain ⟨info, -, hparams, -⟩ := hadmits.info
    refine ⟨id, hid, ?_⟩
    rw [h.sound.paramsOf_eq hf hid]
    exact Param.map_symbol_of_checked hparams
  · obtain ⟨types, handed, hmade, htyped, hlinked, -⟩ := hmethods m hm
    obtain ⟨first, args, hpasses, rfl, hslot, hargs⟩ := h.sound.passes hmade
    exact ⟨types, first, args, hmade, hpasses, htyped.disciplined h.sound hlinked hslot hargs⟩

/-- A unit with a function that captures a wide variable, and calls of it in a loop. -/
def sumSource : String :=
  "function sum(n: long, k: int) -> long \x7b
var s = n;
function add(i: int) \x7bprint(s + i);\x7d
for (i in 0..k) add(i);
return s;
\x7d"

/-- The three methods of that unit keep to their variables. -/
theorem sum_disciplined : ∃ unit a, Accepted "sum" sumSource unit a ∧
    (generate unit a).methods.length = 3 ∧ ∀ m ∈ (generate unit a).methods, ∃ types first args,
      unit.MadeOf a m.origin m.body.header types (Entry.row first args) ∧
      unit.Passes a m.origin first args ∧ m.Disciplined a first args := by
  obtain ⟨unit, a, h, hlength⟩ := exists_accepted (show isAccepted "sum" sumSource
    (fun unit a => (generate unit a).methods.length == 3) = true by decide +kernel)
  exact ⟨unit, a, h, eq_of_beq hlength, (generated_methods_disciplined h).2.2⟩

end StackCompiler

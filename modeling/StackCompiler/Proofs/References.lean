import StackCompiler.Proofs.StackTypes
import StackCompiler.Proofs.Steps

/-!
# What instructions refer to

Code is made with an analysis to which the slots of variables are added as it is written. Whatever
instructions refer to does not depend on slots, and is known to the analysis from the start.
-/

namespace StackCompiler

variable {a a' : Analysis} {i : Instruction} {x : SymbolId}

/-! ## Slots of variables -/

def Symbol.withoutSlot (s : Symbol) : Symbol := { s with slot := none }

/-- Analyses that differ in the slots of symbols at most. -/
structure Analysis.SameButSlots (a a' : Analysis) : Prop where
  rest : a' = { a with symbols := a'.symbols }
  symbols : ∀ id : SymbolId,
    (a'.symbols[id]?).map Symbol.withoutSlot = (a.symbols[id]?).map Symbol.withoutSlot

/-- A symbol that differs in its slot at most. -/
structure Symbol.SameButSlot (symbol symbol' : Symbol) : Prop where
  name : symbol'.name = symbol.name
  ty : symbol'.ty = symbol.ty
  owner : symbol'.owner = symbol.owner
  isLocal : symbol'.isLocal = symbol.isLocal
  isGlobal : symbol'.isGlobal = symbol.isGlobal

namespace Analysis.SameButSlots

variable {a a' a'' : Analysis}

theorem refl (a : Analysis) : a.SameButSlots a := ⟨rfl, fun _ => rfl⟩

variable (h : a.SameButSlots a')
include h

theorem trans (h' : a'.SameButSlots a'') : a.SameButSlots a'' :=
  ⟨by rw [h'.rest, h.rest], fun id => (h'.symbols id).trans (h.symbols id)⟩

theorem functions : a'.functions = a.functions := by rw [h.rest]

theorem records : a'.records = a.records := by rw [h.rest]

theorem globals : a'.globals = a.globals := by rw [h.rest]

theorem className : a'.className = a.className := by rw [h.rest]

theorem symbol {symbol : Symbol} (hx : a.symbols[x]? = some symbol) :
    ∃ symbol', a'.symbols[x]? = some symbol' ∧ symbol.SameButSlot symbol' := by
  have hsame := h.symbols x
  rw [hx] at hsame
  obtain ⟨symbol', hx', heq⟩ := Option.map_eq_some_iff.mp hsame
  refine ⟨symbol', hx', ?_⟩
  cases symbol
  cases symbol'
  cases heq
  exact ⟨rfl, rfl, rfl, rfl, rfl⟩

theorem symbol_of {symbol' : Symbol} (hx : a'.symbols[x]? = some symbol') :
    ∃ symbol, a.symbols[x]? = some symbol ∧ symbol.SameButSlot symbol' := by
  have hsame := h.symbols x
  rw [hx] at hsame
  obtain ⟨symbol, hx, -⟩ := Option.map_eq_some_iff.mp hsame.symm
  obtain ⟨_, hx', hsymbol⟩ := h.symbol hx
  cases hx'.symm.trans ‹a'.symbols[x]? = some symbol'›
  exact ⟨symbol, hx, hsymbol⟩

theorem recordClass? : a'.recordClass? = a.recordClass? := by
  funext decl
  rw [Analysis.recordClass?, Analysis.recordClass?, Analysis.record?, Analysis.record?, h.records]

theorem jvmType (ty : Ty) : a'.jvmType ty = a.jvmType ty := by
  rw [Analysis.jvmType, Analysis.jvmType, h.recordClass?]

theorem captureType (x : SymbolId) : a'.captureType x = a.captureType x := by
  unfold Analysis.captureType Analysis.symbol
  cases hx : a.symbols[x]? with
  | none =>
    have hsame := h.symbols x
    rw [hx, Option.map_none, Option.map_eq_none_iff] at hsame
    rw [hsame]
    rfl
  | some symbol =>
    obtain ⟨symbol', hx', hsame⟩ := h.symbol hx
    rw [hx']
    show a'.jvmType symbol'.ty = a.jvmType symbol.ty
    rw [hsame.ty, h.jvmType]

theorem methodRef (id : FnId) : a'.methodRef id = a.methodRef id := by
  unfold Analysis.methodRef Analysis.function
  rw [h.functions, funext h.jvmType, funext h.captureType]

theorem function (id : FnId) : a'.function id = a.function id := by
  unfold Analysis.function
  rw [h.functions]

theorem fieldRef (ty : Ty) (position : Option Nat) :
    a'.fieldRef ty position = a.fieldRef ty position := by
  rw [h.rest]
  rfl

theorem arrayElem (ty : Ty) : a'.arrayElem ty = a.arrayElem ty := by
  rw [h.rest]
  rfl

theorem constructorRef (info : RecordInfo) : a'.constructorRef info = a.constructorRef info := by
  unfold Analysis.constructorRef
  rw [funext h.jvmType]

theorem globalField {symbol symbol' : Symbol}
    (hsymbol : symbol.SameButSlot symbol') : a'.globalField symbol' = a.globalField symbol := by
  unfold Analysis.globalField
  rw [h.className, h.jvmType, hsymbol.name, hsymbol.ty]

end Analysis.SameButSlots

theorem assignSlot_sameButSlots {id : SymbolId} {slot : Nat} (h : a.assignSlot id slot = .ok a') :
    a.SameButSlots a' := by
  have hset {symbol : Symbol} (hs : a.symbols[id]? = some symbol) : a.SameButSlots { a with
        symbols := a.symbols.setIfInBounds id { symbol with slot := some slot } } := by
    refine ⟨rfl, fun other => ?_⟩
    rw [Array.getElem?_setIfInBounds]
    split_ifs with he hlt
    · subst he
      rw [hs]
      rfl
    · subst he
      rw [Array.getElem?_eq_none (Nat.le_of_not_lt hlt)]
    · rfl
  unfold Analysis.assignSlot at h
  cases hs : a.symbols[id]? with
  | none =>
    rw [hs] at h
    cases h
    exact .refl a
  | some symbol =>
    rw [hs] at h
    simp only at h
    split at h
    · split_ifs at h
      cases h
      exact hset hs
    · cases h
      exact hset hs

/-! ## References -/

/-- The classes of the library that code uses. -/
def libraryClasses : List String :=
  ["java/lang/Object", "java/lang/String", "java/lang/System", "java/util/Objects",
    "java/io/PrintStream"]

/-- The field of a record of the unit, or of one that it imports. -/
def Analysis.HasField (a : Analysis) (ref : FieldRef) : Prop :=
  ∃ info ∈ a.records, ∃ field ∈ info.fields, ∃ t, a.jvmType field.2 = .ok t ∧
    ref = ⟨info.className, field.1, t⟩

def Analysis.HasGlobal (a : Analysis) (ref : FieldRef) : Prop :=
  ∃ (x : SymbolId) (symbol : Symbol), a.symbols[x]? = some symbol ∧ symbol.isGlobal = true ∧
    a.globalField symbol = .ok ref

/-- What an instruction refers to is in the library or known to the unit, whose functions are marked
when called. -/
def Analysis.Refers (a : Analysis) (x : Option Subject) : Instruction → Prop
  | .invokeStatic ref =>
    match x with
    | some (.function id) => a.methodRef id = .ok ref
    | _ => ref.owner ∈ libraryClasses
  | .invokeVirtual ref => ref.owner ∈ libraryClasses
  | .invokeSpecial ref =>
    ref.owner ∈ libraryClasses ∨ ∃ info ∈ a.records, a.constructorRef info = .ok ref
  | .new className => ∃ info ∈ a.records, className = info.className
  | .getField ref | .putField ref => a.HasField ref
  | .getStatic ref | .putStatic ref =>
    ref.owner ∈ libraryClasses ∨ a.HasGlobal ref
  | _ => True

theorem Analysis.Refers.retarget {x : Option Subject} (h : a.Refers x i) (t : Target) :
    a.Refers x (i.retarget t) := by
  cases i with
  | branchZero | branchInt | branchRef | goto => trivial
  | _ => exact h

/-- A method that is called is part of the library, or that of a function that the unit knows. -/
theorem Analysis.Refers.invokeStatic {x : Option Subject} {ref : MethodRef}
    (h : a.Refers x (.invokeStatic ref)) : ref.owner ∈ libraryClasses ∨
      ∃ id, x = some (.function id) ∧ a.methodRef id = .ok ref := by
  cases x with
  | none => exact .inl h
  | some x =>
    cases x with
    | function id => exact .inr ⟨id, rfl, h⟩
    | symbol | bound | self | field => exact .inl h

section

variable {a : Analysis} {f : Frame}

theorem Analysis.symbol_eq_ok {symbol : Symbol} :
    a.symbol x = .ok symbol ↔ a.symbols[x]? = some symbol := by
  unfold Analysis.symbol
  cases a.symbols[x]? <;> simp

theorem Analysis.globalField_eq_ok {symbol : Symbol} {t : JvmType}
    (ht : a.jvmType symbol.ty = .ok t) : a.globalField symbol = .ok ⟨a.className, symbol.name, t⟩ :=
  Except.bind_eq_ok.mpr ⟨t, ht, rfl⟩

theorem globalField_refers (hf : a.SameButSlots f.analysis) {symbol : Symbol} {ref : FieldRef}
    (hx : f.analysis.symbols[x]? = some symbol) (hglobal : symbol.isGlobal = true)
    (href : f.analysis.globalField symbol = .ok ref) : a.HasGlobal ref := by
  obtain ⟨symbol0, hx0, hsame⟩ := hf.symbol_of hx
  exact ⟨x, symbol0, hx0, hsame.isGlobal ▸ hglobal, hf.globalField hsame ▸ href⟩

theorem kindOf_eq_ok {ty : Ty} {kind : Kind} :
    kindOf ty = .ok kind ↔ Kind.ofTy? ty = some kind := by
  unfold kindOf
  cases Kind.ofTy? ty <;> simp

theorem Frame.loadInstruction_eq_ok : f.loadInstruction x = .ok i ↔
    ∃ symbol, f.analysis.symbols[x]? = some symbol ∧
      (symbol.isGlobal = true ∧ (∃ ref, f.analysis.globalField symbol = .ok ref ∧
        i = .getStatic ref) ∨ symbol.isGlobal = false ∧ ∃ kind, Kind.ofTy? symbol.ty = some kind ∧
          ∃ slot, f.slot x symbol = .ok slot ∧ i = .load kind slot) := by
  simp only [Frame.loadInstruction, Except.bind_eq_ok, Analysis.symbol_eq_ok]
  refine exists_congr fun symbol => and_congr_right fun _ => ?_
  cases symbol.isGlobal <;> simp [Except.bind_eq_ok, Except.pure_eq_ok, kindOf_eq_ok,
    -bind_pure_comp]

theorem Frame.storeInstruction_eq_ok : f.storeInstruction x = .ok i ↔
    ∃ symbol, f.analysis.symbols[x]? = some symbol ∧
      (symbol.isGlobal = true ∧ (∃ ref, f.analysis.globalField symbol = .ok ref ∧
        i = .putStatic ref) ∨ symbol.isGlobal = false ∧ symbol.owner = some f.function ∧
          ∃ kind, Kind.ofTy? symbol.ty = some kind ∧
            ∃ slot, symbol.slot = some slot ∧ i = .store kind slot) := by
  simp only [Frame.storeInstruction, Except.bind_eq_ok, Analysis.symbol_eq_ok]
  refine exists_congr fun symbol => and_congr_right fun _ => ?_
  cases symbol.isGlobal
  · by_cases howner : symbol.owner = some f.function <;> cases symbol.slot <;>
      simp [Except.bind_eq_ok, Except.pure_eq_ok, kindOf_eq_ok, howner, -bind_pure_comp]
  · simp [Except.bind_eq_ok, Except.pure_eq_ok, -bind_pure_comp]

theorem Frame.loadInstruction_refers (hf : a.SameButSlots f.analysis)
    (h : f.loadInstruction x = .ok i) :
    a.Refers (some (.symbol x)) i ∧ i.target? = none ∧ i.writes (some (.symbol x)) = none := by
  obtain ⟨symbol, hx, ⟨hglobal, ref, href, rfl⟩ | ⟨-, kind, -, slot, -, rfl⟩⟩ :=
    Frame.loadInstruction_eq_ok.mp h
  · exact ⟨.inr (globalField_refers hf hx hglobal href), rfl, rfl⟩
  · exact ⟨trivial, rfl, rfl⟩

theorem Frame.storeInstruction_refers (hf : a.SameButSlots f.analysis)
    (h : f.storeInstruction x = .ok i) : a.Refers (some (.symbol x)) i ∧ i.target? = none := by
  obtain ⟨symbol, hx, ⟨hglobal, ref, href, rfl⟩ | ⟨-, -, kind, -, slot, -, rfl⟩⟩ :=
    Frame.storeInstruction_eq_ok.mp h
  · exact ⟨.inr (globalField_refers hf hx hglobal href), rfl⟩
  · exact ⟨trivial, rfl⟩

theorem fieldRef_refers (hf : a.SameButSlots f.analysis) {ty : Ty} {position : Option Nat}
    {ref : FieldRef} (h : f.analysis.fieldRef ty position = .ok ref) : a.HasField ref := by
  unfold Analysis.fieldRef at h
  split at h
  · split at h
    · cases h
    · rename_i info hinfo
      split at h
      · cases h
      · rename_i field fieldTy hfield
        obtain ⟨t, ht, h⟩ := Except.bind_eq_ok.mp h
        cases h
        obtain ⟨n, -, hn⟩ := Option.bind_eq_some_iff.mp hfield
        refine ⟨info, hf.records ▸ List.mem_of_find?_eq_some hinfo, _, List.mem_of_getElem? hn, t,
          hf.jvmType _ ▸ ht, rfl⟩
  · cases h

theorem intConstant_refers (x : Option Subject) {value : Int} (h : intConstant value = .ok i) :
    a.Refers x i ∧ i.target? = none := by
  unfold intConstant at h
  split_ifs at h
  cases h
  exact ⟨trivial, rfl⟩

theorem literalInstruction_refers (x : Option Subject) {value : Literal}
    (h : literalInstruction value = .ok i) : a.Refers x i ∧ i.target? = none := by
  cases value with
  | int value => exact intConstant_refers x h
  | _ =>
    cases h
    exact ⟨trivial, rfl⟩

theorem foldedNegation_refers (x : Option Subject) {e : Expr}
    (h : foldedNegation? e = some (.ok i)) : a.Refers x i ∧ i.target? = none := by
  unfold foldedNegation? at h
  split at h
  · split_ifs at h
    unfold negatedInstruction? at h
    split at h
    · exact intConstant_refers x (Option.some.inj h)
    all_goals
      cases h <;> exact ⟨trivial, rfl⟩
  · cases h

end

/-! ## More slots -/

/-- A symbol, and the same with a slot at least if that has one. -/
structure Symbol.Fills (symbol symbol' : Symbol) : Prop extends symbol.SameButSlot symbol' where
  slot : ∀ slot, symbol.slot = some slot → symbol'.slot = some slot

/-- The second analysis is the first with more slots. -/
structure Analysis.Fills (a a' : Analysis) : Prop where
  same : a.SameButSlots a'
  slots : ∀ (id : SymbolId) slot, (a.symbols[id]?).bind Symbol.slot = some slot →
    (a'.symbols[id]?).bind Symbol.slot = some slot

theorem Analysis.Fills.refl (a : Analysis) : a.Fills a := ⟨.refl a, fun _ _ h => h⟩

theorem Analysis.Fills.trans {a'' : Analysis} (h : a.Fills a') (h' : a'.Fills a'') : a.Fills a'' :=
  ⟨h.same.trans h'.same, fun id slot hslot => h'.slots id slot (h.slots id slot hslot)⟩

structure Frame.Fills (f f' : Frame) : Prop where
  analysis : f.analysis.Fills f'.analysis
  function : f'.function = f.function
  captures : f'.captures = f.captures

theorem Analysis.Fills.symbol (h : a.Fills a') (x : SymbolId) :
    (∃ e, a.symbol x = .error e ∧ a'.symbol x = .error e) ∨ ∃ symbol symbol',
      a.symbol x = .ok symbol ∧ a'.symbol x = .ok symbol' ∧ symbol.Fills symbol' := by
  unfold Analysis.symbol
  have hsame := h.same.symbols x
  have hslot := h.slots x
  cases hx : a.symbols[x]? with
  | none =>
    rw [hx, Option.map_none, Option.map_eq_none_iff] at hsame
    exact .inl ⟨_, rfl, by rw [hsame]⟩
  | some symbol =>
    obtain ⟨symbol', hx', hsame⟩ := h.same.symbol hx
    simp only [hx, hx', Option.bind_some] at hslot
    exact .inr ⟨symbol, symbol', rfl, by rw [hx'], hsame, hslot⟩

/-- A variable is used before it has a slot. -/
def GenerateError.isEarly : GenerateError → Bool
  | noSlot _ | storedEarly _ => true
  | _ => false

/-- The second computation gives what the first gives, unless that uses a variable too early. -/
def Except.Repeats {α : Type} (x x' : Except GenerateError α) : Prop :=
  (∃ e, x = .error e ∧ e.isEarly = true) ∨ x' = x

theorem Except.Repeats.bind {α β : Type} {x x' : Except GenerateError α}
    {k k' : α → Except GenerateError β} (hx : Repeats x x') (hk : ∀ c, Repeats (k c) (k' c)) :
    Repeats (x >>= k) (x' >>= k') := by
  rcases hx with ⟨e, rfl, he⟩ | rfl
  · exact .inl ⟨e, rfl, he⟩
  · cases x' with
    | ok c => exact hk c
    | error e => exact .inr rfl

namespace Frame.Fills

variable {f f' : Frame}

theorem refl (f : Frame) : f.Fills f := ⟨.refl _, rfl, rfl⟩

theorem loadInstruction (h : f.Fills f') (x : SymbolId) :
    Except.Repeats (f.loadInstruction x) (f'.loadInstruction x) := by
  unfold Frame.loadInstruction
  rcases h.analysis.symbol x with ⟨e, he, he'⟩ | ⟨symbol, symbol', hs, hs', hfills⟩
  · rw [he, he']
    exact .inr rfl
  rw [hs, hs']
  show Except.Repeats (if symbol.isGlobal then _ else _) (if symbol'.isGlobal then _ else _)
  rw [hfills.isGlobal, hfills.ty, h.analysis.same.globalField hfills.toSameButSlot]
  split_ifs
  · exact .inr rfl
  · refine .bind (.inr rfl) fun kind => .bind ?_ fun _ => .inr rfl
    grind [Frame.slot, Except.Repeats, GenerateError.isEarly, hfills.slot, hfills.owner, h.function,
      h.captures]

theorem storeInstruction (h : f.Fills f') (x : SymbolId) :
    Except.Repeats (f.storeInstruction x) (f'.storeInstruction x) := by
  unfold Frame.storeInstruction
  rcases h.analysis.symbol x with ⟨e, he, he'⟩ | ⟨symbol, symbol', hs, hs', hfills⟩
  · rw [he, he']
    exact .inr rfl
  rw [hs, hs']
  show Except.Repeats (if symbol.isGlobal then _ else _) (if symbol'.isGlobal then _ else _)
  rw [hfills.isGlobal, hfills.ty, h.analysis.same.globalField hfills.toSameButSlot, hfills.owner,
    h.function, hfills.name]
  split_ifs
  · exact .inr rfl
  · exact .inr rfl
  · refine .bind (.inr rfl) fun kind => ?_
    cases hslot : symbol.slot with
    | none => exact .inl ⟨_, rfl, rfl⟩
    | some slot =>
      rw [hfills.slot slot hslot]
      exact .inr rfl

end Frame.Fills

end StackCompiler

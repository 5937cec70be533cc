import StackCompiler.Proofs.Annotated
import StackCompiler.Proofs.Declarations

/-!
# Analysed expressions are typed

An expression in which the analysis finds nothing wrong is typed, in view of what the analysis has
found when it is done, and nothing is missing from its notes.

* **`Expr.analyze_finds`**: analysed expressions are typed.
-/

namespace StackCompiler

open Analyze List

variable {s : AnalysisState} {construct : Construct} {kind : DiagnosticKind} {e : Expr}
  {es : List Expr} {span : Span} {message : String} {ty : Ty} {v : View} {symbol : Symbol}
  {note : Note}

/-! ## What can be seen -/

/-- What can be referred to at a place, in the end: variables that the function reads, and functions
that it calls. `around` gives the variables around each function. -/
def AnalysisState.view (final : AnalysisState) (around : FnId → List SymbolId) (c : Place) :
    View where
  symbol id := final.symbols[id]?
  signature id := (final.functions[id]?).map fun info => (info.params, info.ret)
  record decl := final.records.find? (·.decl = decl)
  sees id := id ∈ c.known ∧ ∀ symbol, final.symbols[id]? = some symbol → symbol.isLocal = true →
    symbol.owner ≠ some c.function → (c.function, id) ∈ final.outerReads
  calls id := (∀ x ∈ around id, x ∈ c.whole) ∧ (around id = [] ∨ ∃ site ∈ final.calls,
    site.caller = c.function ∧ site.callee = id ∧ ∀ x ∈ c.whole, x < site.watermark → x ∈ c.known)

/-- The symbol has no slot yet. If it has a value, it is in a frame or a static field, and its type
has no errors. -/
structure Symbol.Fresh (symbol : Symbol) : Prop where
  slot : symbol.slot = none
  place : symbol.kind.isStorage = true → symbol.isLocal = true ∨ symbol.isGlobal = true
  errorFree : symbol.ty.containsError = false

theorem Symbol.Fresh.of_owner {f : FnId} (hslot : symbol.slot = none)
    (howner : symbol.owner = some f) (hvalue : v.Value symbol.ty) : symbol.Fresh :=
  ⟨hslot, fun hk => .inl (by simp [Symbol.isLocal, hk, howner]), hvalue.containsError⟩

theorem Symbol.Fresh.of_variable (hslot : symbol.slot = none) (hkind : symbol.kind = .variable_)
    (hvalue : v.Value symbol.ty) : symbol.Fresh :=
  ⟨hslot, fun _ => by
    cases howner : symbol.owner <;>
      simp [Symbol.isLocal, Symbol.isGlobal, SymbolKind.isStorage, hkind, howner],
    hvalue.containsError⟩

namespace AnalysisState

/-- What a symbol that can be found at a place stands for. -/
def Means (s : AnalysisState) (around : FnId → List SymbolId) (c : Place) (id : SymbolId) :
    SymbolKind → Prop
  | .variable_ | .parameter | .loopVariable => id ∈ c.known
  | .function h => (∃ info, s.functions[h]? = some info ∧
      (info.isExternal = true → around h = [])) ∧ ∀ x ∈ around h, x ∈ c.whole
  | .record decl => ∃ info, s.records.find? (·.decl = decl) = some info
  | .builtin _ => True

/-- Variables, functions and records have proper types, and no variable has a slot. -/
structure Tables (s : AnalysisState) : Prop where
  proper : ∀ around c, (s.view around c).Proper
  fresh : ∀ (id : SymbolId) symbol, s.symbols[id]? = some symbol → symbol.Fresh

theorem Tables.congr {s' : AnalysisState} (h : s.Tables) (hs : s'.symbols = s.symbols)
    (hf : s'.functions = s.functions) (hr : s'.records = s.records) : s'.Tables := by
  refine ⟨fun around c => (h.proper around c).congr ?_ ?_ ?_, hs ▸ h.fresh⟩
  · simp only [view, hs]
  · simp only [view, hf]
  · simp only [view, hr]

/-- The names that can be found at a place mean what they should. -/
structure Agrees (s : AnalysisState) (around : FnId → List SymbolId) (c : Place) : Prop where
  spelled : s.Spelled
  tables : s.Tables
  registered : ∃ info, s.functions[c.function]? = some info
  means : ∀ id ∈ s.scopes.layers.flatten, ∃ symbol, s.symbols[id]? = some symbol ∧
    s.Means around c id symbol.kind
  knownLt : ∀ id ∈ c.known, id < s.symbols.size
  knownWhole : ∀ id ∈ c.known, id ∈ c.whole
  wholeKnown : ∀ id ∈ c.whole, id < s.symbols.size → id ∈ c.known

/-- No name is declared, and what has been found is kept. -/
structure Calm (s s' : AnalysisState) : Prop extends Grows s s' where
  symbols_eq : s'.symbols = s.symbols
  functions_eq : s'.functions = s.functions
  scopes_eq : s'.scopes = s.scopes

variable {s s' s'' : AnalysisState} {around : FnId → List SymbolId} {c : Place}
  {around' : FnId → List SymbolId}

theorem Reads.calm {f : FnId} (h : Reads f s s') : s.Calm s' :=
  ⟨h.toGrows, h.sameSymbols, h.sameFunctions, h.sameScopes⟩

theorem Reports.calm (h : s.Reports s') : s.Calm s' := ⟨h.grows, h.symbols, h.functions, h.scopes⟩

theorem Calm.trans (h : s.Calm s') (h' : s'.Calm s'') : s.Calm s'' :=
  ⟨h.toGrows.trans h'.toGrows, h'.symbols_eq.trans h.symbols_eq,
    h'.functions_eq.trans h.functions_eq, h'.scopes_eq.trans h.scopes_eq⟩

theorem Agrees.proper (h : s.Agrees around c) : (s.view around c).Proper := h.tables.proper _ _

theorem Agrees.calm (h : s.Agrees around c) (hs : s.Calm s') : s'.Agrees around c := by
  refine ⟨?_, h.tables.congr hs.symbols_eq hs.functions_eq hs.records,
    hs.functions_eq ▸ h.registered, fun id hid => ?_, hs.symbols_eq ▸ h.knownLt, h.knownWhole,
    hs.symbols_eq ▸ h.wholeKnown⟩
  · exact (Layered.of_eq hs.toGrows hs.scopes_eq [] h.spelled).1
  rw [hs.scopes_eq] at hid
  obtain ⟨symbol, hsym, hm⟩ := h.means id hid
  refine ⟨symbol, hs.symbols_eq ▸ hsym, ?_⟩
  unfold Means at hm ⊢
  rw [hs.functions_eq, hs.records]
  exact hm

theorem Grows.value (h : s.Grows s') {c' : Place} (hv : (s.view around c).Value ty) :
    (s'.view around' c').Value ty :=
  hv.congr (by simp only [view, h.records])

theorem Grows.value' (h : s.Grows s') {c' : Place} (hv : (s'.view around c).Value ty) :
    (s.view around' c').Value ty :=
  hv.congr (by simp only [view, h.records])

end AnalysisState

open AnalysisState

/-! ## Findings -/

/-- If nothing is wrong after a step, then its outcome is as it should be, in view of the end. -/
def Analyze.Finds (around : FnId → List SymbolId) (c : Place) {α : Type} (m : Analyze α)
    (Q : View → α → Prop) : Prop :=
  ∀ s, s.Calm (m s).2 ∧ ((m s).2.Clean → s.Agrees around c →
    ∀ final, (m s).2.Grows final → Q (final.view around c) (m s).1)

namespace Analyze.Finds

variable {around : FnId → List SymbolId} {c : Place} {α β : Type} {P : View → β → Prop}
  {Q : View → α → Prop} {m : Analyze α}

theorem bind {m : Analyze β} {f : β → Analyze α} (hm : Finds around c m P)
    (hf : ∀ b, Finds around c (f b) fun v a => P v b → Q v a) : Finds around c (m >>= f) Q := by
  intro s
  obtain ⟨hcalm, hP⟩ := hm s
  obtain ⟨hcalm', hQ⟩ := hf (m s).1 (m s).2
  refine ⟨hcalm.trans hcalm', fun hs hagrees final hfinal => ?_⟩
  exact hQ hs (hagrees.calm hcalm) final hfinal
    (hP (hcalm'.toGrows.clean hs) hagrees final (hcalm'.toGrows.trans hfinal))

theorem of_reports (hm : Keeps Reports m)
    (h : ∀ s, (m s).2.Clean → s.Agrees around c → ∀ final, (m s).2.Grows final →
      Q (final.view around c) (m s).1) : Finds around c m Q :=
  fun s => ⟨(hm s).calm, h s⟩

theorem get : Finds around c MonadState.get fun v s =>
    s.Agrees around c ∧ ∃ final, s.Grows final ∧ v = final.view around c :=
  of_reports Keeps.get fun _ _ hagrees final hfinal => ⟨hagrees, final, hfinal, rfl⟩

theorem pure {a : α} (h : ∀ v, Q v a) : Finds around c (Pure.pure a) Q :=
  of_reports (Keeps.pure a) fun _ _ _ _ _ => h _

theorem wrongThen {m : Unit → Analyze α} (hk : kind.severity = .error)
    (hm : Finds around c (m ()) fun _ _ => True) :
    Finds around c (StackCompiler.report kind message span construct >>= m) Q := by
  intro s
  obtain ⟨hcalm, -⟩ := hm (StackCompiler.report kind message span construct s).2
  exact ⟨((Keeps.report _ _ _ _) s).calm.trans hcalm, fun hs =>
    absurd (hcalm.toGrows.clean hs) (not_clean_of_report hk)⟩

theorem wrong {a : α} (hk : kind.severity = .error) :
    Finds around c (do StackCompiler.report kind message span construct; return a) Q :=
  wrongThen hk (pure fun _ => trivial)

theorem imp {P : View → α → Prop} (hm : Finds around c m P) (h : ∀ v a, P v a → Q v a) :
    Finds around c m Q :=
  fun s => ⟨(hm s).1, fun hs hagrees final hfinal => h _ _ ((hm s).2 hs hagrees final hfinal)⟩

theorem of_eq {a : α} {s' final : AnalysisState} (hm : Finds around c m Q) (h : m s = (a, s'))
    (hs : s'.Clean) (hagrees : s.Agrees around c) (hfinal : s'.Grows final) :
    Q (final.view around c) a := by
  obtain ⟨-, hQ⟩ := hm s
  rw [h] at hQ
  exact hQ hs hagrees final hfinal

end Analyze.Finds

/-! ## Types and widening -/

/-- An expression with its type, not yet widened. Nothing is missing from the notes inside. -/
structure Expr.Plain (v : View) (e : Expr) (ty : Ty) : Prop where
  noted : e.note.ty = some ty
  unwidened : e.note.coercion = none
  hasTy : e.HasTy v ty
  notes : ∀ a : Analysis, a.Shows v →
    (e.Resolved a ∧ e.Regular) ∧ ∀ x ∈ e.subs.tail, x.Noted a

/-- An expression of a type, widened if need be, with complete notes. -/
structure Expr.Finished (v : View) (e : Expr) (ty : Ty) : Prop where
  typed : e.Typed v ty
  complete : e.Complete v

theorem Expr.hasTy_withNote : (e.withNote note).HasTy v ty ↔ e.HasTy v ty := by
  cases e with
  | unary _ op _ => cases op <;> exact Iff.rfl
  | call _ _ _ target =>
    match target with
    | none | some (.function _) | some (.constructor _) | some (.builtin _) => exact Iff.rfl
  | _ => exact Iff.rfl

theorem Expr.resolved_withNote {a : Analysis} (h : e.Resolved a) :
    (e.withNote note).Resolved a := by
  cases e with
  | call _ _ _ target =>
    match target with
    | none | some (.function _) | some (.constructor _) | some (.builtin _) => exact h
  | _ => exact h

theorem Expr.regular_withNote (h : e.Regular) : (e.withNote note).Regular := by
  cases e <;> exact h

theorem Expr.note_withNote (e : Expr) (note : Note) : (e.withNote note).note = note := by
  cases e <;> rfl

theorem Ty.isError_eq_false (h : ty ≠ .error) : ty.isError = false := by
  cases ty <;> first | rfl | exact absurd rfl h

theorem Ty.eq_or_widensTo {target : Ty} (h : ty.coercibleTo target = true) (hty : ty ≠ .error)
    (htarget : target ≠ .error) : ty = target ∨ ty.widensTo target = true := by
  simpa [Ty.coercibleTo, isError_eq_false hty, isError_eq_false htarget] using h

/-- An expression with its type, not yet widened. The type has values or is void. -/
structure Expr.Found (v : View) (e : Expr) (ty : Ty) : Prop extends Expr.Plain v e ty where
  value : ty = .void ∨ v.Value ty

namespace Expr.Found

variable {v : View} {e : Expr} {ty target : Ty}

section

variable (h : e.Found v ty)
include h

theorem ne_error : ty ≠ .error := by
  rintro rfl
  exact h.value.resolve_left (by simp)

theorem containsError : ty.containsError = false := by
  rcases h.value with rfl | hvalue
  · rfl
  · exact hvalue.containsError

theorem finished : e.Finished v ty := by
  refine ⟨⟨ty, ⟨h.noted, .inl ⟨h.unwidened, rfl⟩⟩, h.hasTy⟩, fun a ha => ?_⟩
  obtain ⟨hresolved, hparts⟩ := h.notes a ha
  rw [Expr.subs_eq_cons]
  exact forall_mem_cons.mpr
    ⟨Expr.noted_of_unwidened h.noted h.unwidened h.containsError hresolved, hparts⟩

theorem typed : e.Typed v ty := h.finished.typed

theorem widenTo (ht : ty = target ∨ ty.widensTo target = true) :
    (e.widenTo target).Finished v target := by
  have hty : e.ty? = some ty := h.noted
  unfold Expr.widenTo
  rw [hty]
  by_cases hw : ty.widensTo target = true
  · simp only [hw, if_true]
    refine ⟨⟨ty, ?_, Expr.hasTy_withNote.mpr h.hasTy⟩, fun a ha => ?_⟩
    · rw [Expr.note_withNote]
      exact ⟨h.noted, .inr ⟨rfl, hw⟩⟩
    · obtain ⟨hresolved, hparts⟩ := h.notes a ha
      rw [Expr.subs_withNote]
      refine forall_mem_cons.mpr ⟨⟨⟨?_, ?_, Expr.resolved_withNote hresolved.1⟩,
        Expr.regular_withNote hresolved.2⟩, hparts⟩
      all_goals simp only [Expr.ty?, Expr.note_withNote]
      · exact ⟨ty, h.noted, h.containsError⟩
      · rintro ty' c hty' hc
        cases h.noted.symm.trans hty'
        cases hc
        exact hw
  · simp only [hw]
    obtain rfl := ht.resolve_right hw
    exact h.finished

end

end Expr.Found

/-- What the analysis is told of the place. -/
@[simps]
def Place.context (c : Place) : Context := ⟨c.function, c.inLoop⟩

section Finds

variable {around : FnId → List SymbolId} {c : Place}

theorem expectType_finds (e : Expr) (target : Ty) (construct : Construct) :
    Finds around c (expectType e target construct) fun v e' =>
      ∀ ty, e.Found v ty → target ≠ .error → e'.Finished v target := by
  change Finds around c (if _ then _ else _) _
  split_ifs with hc
  · refine .pure fun v ty he htarget => he.widenTo (Ty.eq_or_widensTo ?_ he.ne_error htarget)
    rwa [show e.ty? = some ty from he.noted] at hc
  · exact .wrong rfl

/-! ## Written types -/

theorem rejectVoid_finds (span : Span) (ty : Ty) :
    Finds around c (rejectVoid span ty) fun _ ty' => ty' = ty ∧ ty ≠ .void := by
  unfold rejectVoid
  split_ifs with hvoid
  · exact .wrong rfl
  · exact .pure fun _ => ⟨rfl, hvoid⟩

theorem resolveTypeName_finds (ident : Ident) :
    Finds around c (resolveTypeName ident) fun v ty => v.Value ty := by
  refine .bind .get fun s => ?_
  split
  · rename_i binding hr
    split
    · rename_i decl hk
      refine .pure fun v hs => ?_
      obtain ⟨hagrees, final, hfinal, rfl⟩ := hs
      obtain ⟨symbol, hsym, hm⟩ := hagrees.means _ (ScopeStack.mem_of_resolve hr)
      rw [hsym] at hk
      rw [Option.some.inj hk] at hm
      obtain ⟨info, hinfo⟩ := hm
      exact hfinal.value (show (AnalysisState.view _ around c).Value (.record decl ident.name) from
        Option.isSome_iff_exists.mpr ⟨info, hinfo⟩)
    · exact .wrong rfl
  · exact .wrong rfl

theorem resolveType_finds (ty : TypeExpr) :
    Finds around c (resolveType ty) fun v ty' => ty' = .void ∨ v.Value ty' := by
  induction ty with
  | named ident =>
    rw [resolveType]
    split
    · rename_i ty hp
      refine .pure fun v => ?_
      unfold Ty.primitive? at hp
      split at hp <;> cases hp
      case _ | _ | _ | _ | _ | _ => exact .inr trivial
      exact .inl rfl
    · exact (resolveTypeName_finds ident).imp fun _ _ h => .inr h
  | array elem span ih =>
    exact ih.bind fun _ => (rejectVoid_finds _ _).bind fun _ => .pure fun _ hvoid hvalue =>
      .inr (hvoid.1 ▸ hvalue.resolve_left hvoid.2)

theorem resolveValueType_finds (ty : TypeExpr) :
    Finds around c (resolveValueType ty) fun v ty' => v.Value ty' :=
  (resolveType_finds ty).bind fun _ => (rejectVoid_finds _ _).imp fun _ _ hvoid hvalue =>
    hvoid.1 ▸ hvalue.resolve_left hvoid.2

/-! ## Names -/

/-- A name is bound to a symbol of that name, or not found. A variable is known, and its type has
values. -/
def Place.Binds (c : Place) (v : View) (name : String) :
    Except ScopeError (Binding × Option Symbol) → Prop
  | .ok (binding, some symbol) => v.symbol binding.symbol = some symbol ∧
      (symbol.name = name ∧ symbol.depth = binding.depth) ∧
      (symbol.kind.isStorage = true → binding.symbol ∈ c.known ∧ v.Value symbol.ty)
  | .ok (_, none) => False
  | .error _ => True

theorem Place.Binds.resolved {binding : Binding} {ref : NameRef} {a : Analysis}
    (h : c.Binds v ref.name (.ok (binding, some symbol))) (ha : a.Shows v) :
    (Expr.name note { ref with binding := some binding }).Resolved a :=
  ⟨binding, symbol, rfl, ha.symbol _ _ h.1, h.2.1⟩

theorem lookupName_finds (name : String) :
    Finds around c (lookupName name) fun v found => c.Binds v name found := by
  refine .bind .get fun s => ?_
  split
  · rename_i binding hr
    refine .pure fun v hs => ?_
    obtain ⟨hagrees, final, hfinal, rfl⟩ := hs
    obtain ⟨symbol, hsym, hm⟩ := hagrees.means _ (ScopeStack.mem_of_resolve hr)
    obtain ⟨symbol', hsym', hname⟩ := hagrees.spelled.resolve hr
    cases hsym.symm.trans hsym'
    rw [hsym]
    refine ⟨hfinal.symbols _ _ hsym, hname, fun hk => ⟨?_, ?_⟩⟩
    · cases hkind : symbol.kind <;> rw [hkind] at hk hm <;> first | exact hm | cases hk
    · exact hfinal.value (hagrees.proper.symbol _ _ hsym hk)
  · exact .pure fun _ _ => trivial

theorem noteRead_finds (id : SymbolId) (symbol : Symbol) :
    Finds around c (noteRead c.context id symbol) fun v _ =>
      v.symbol id = some symbol → id ∈ c.known → v.sees id := by
  intro s
  refine ⟨?_, fun _ _ final hfinal hsym hknown => ⟨hknown, fun symbol' hsame hl ho => ?_⟩⟩
  · change s.Calm (if _ then _ else _)
    split
    · exact ⟨.notes (fun _ h => mem_cons_of_mem _ h) fun _ h => h, rfl, rfl, rfl⟩
    · exact ⟨.notes (fun _ h => h) fun _ h => h, rfl, rfl, rfl⟩
  · cases hsym.symm.trans hsame
    refine hfinal.outerReads _ ?_
    change _ ∈ AnalysisState.outerReads (if _ then _ else _)
    split
    · exact mem_cons_self
    · rename_i hc
      simpa [hl, ho] using hc

theorem analyzeName_finds (span : Span) (ref : NameRef) (note : Note) :
    Finds around c (analyzeName c.context span ref) fun v x =>
      (Expr.name note x.1).HasTy v x.2 ∧
        ∀ a : Analysis, a.Shows v → (Expr.name note x.1).Resolved a := by
  refine (lookupName_finds _).bind fun found => ?_
  obtain e | ⟨binding, _ | symbol⟩ := found
  · exact .wrong rfl
  · exact .pure fun _ hbinds => hbinds.elim
  · have hread (hk : symbol.kind.isStorage = true) : Finds around c (do
          noteRead c.context binding.symbol symbol
          return (({ ref with binding := some binding } : NameRef), symbol.ty)) fun v x =>
        c.Binds v ref.name (.ok (binding, some symbol)) → (Expr.name note x.1).HasTy v x.2 ∧
          ∀ a : Analysis, a.Shows v → (Expr.name note x.1).Resolved a :=
      (noteRead_finds _ _).bind fun _ => .pure fun _ hsees hbinds =>
        ⟨⟨binding, symbol, rfl, hbinds.1, hk, rfl, hsees hbinds.1 (hbinds.2.2 hk).1⟩,
          fun _ => hbinds.resolved⟩
    dsimp only
    cases hk : symbol.kind with
    | variable_ | parameter | loopVariable => exact hread (by rw [hk]; rfl)
    | _ => exact .wrong rfl

/-- What a name that is called turns out to be, if nothing is wrong with it. -/
inductive Callee.Good (v : View) (around : FnId → List SymbolId) (c : Place) : Callee → Prop
  | function {id : FnId} {info : FunctionInfo}
      (known : v.signature id = some (info.params, info.ret))
      (outside : info.isExternal = true → around id = [])
      (inside : ∀ x ∈ around id, x ∈ c.whole) (values : ∀ ty ∈ info.params, v.Value ty) :
      Good v around c (.function id info)
  | constructor {info : RecordInfo} (known : v.record info.decl = some info)
      (values : ∀ ty ∈ info.fieldTypes, v.Value ty) : Good v around c (.constructor info)
  | builtin (b : Builtin) : Good v around c (.builtin b)

attribute [local simp] bind_apply map_apply pure_apply get_apply
  Keeps.lookupName_apply Except.map

theorem resolveCallee_finds (span : Span) (ref : NameRef) (note : Note) :
    Finds around c (resolveCallee c.context span ref) fun v x => x.2.2.Good v around c ∧
      x.2.1.containsError = false ∧
        ∀ a : Analysis, a.Shows v → (Expr.name note x.1).Resolved a := by
  intro s
  have hreports := (Keeps.resolveCallee c.context span ref s).1
  refine ⟨hreports.calm, fun hs hagrees final hfinal => ?_⟩
  cases hr : s.scopes.resolve ref.name with
  | error e =>
    simp [resolveCallee, hr] at hs
    exact absurd hs (not_clean_of_report rfl)
  | ok binding =>
    obtain ⟨symbol, hsym, hm⟩ := hagrees.means _ (ScopeStack.mem_of_resolve hr)
    obtain ⟨symbol', hsym', hname⟩ := hagrees.spelled.resolve hr
    cases hsym.symm.trans hsym'
    have herror := (hagrees.tables.fresh _ _ hsym).errorFree
    have hresolved (a : Analysis) (ha : a.Shows (final.view around c)) :
        (Expr.name note { ref with binding := some binding }).Resolved a :=
      ⟨binding, symbol, rfl,
        ha.symbol _ _ (hfinal.symbols _ _ (by rwa [hreports.sameSymbols])), hname⟩
    cases hk : symbol.kind with
    | variable_ | parameter | loopVariable =>
      simp [resolveCallee, hr, hsym, hk] at hs
      exact absurd hs (not_clean_of_report rfl)
    | function id =>
      rw [hk] at hm
      obtain ⟨⟨info, hinfo, hown⟩, hinside⟩ := hm
      simp [resolveCallee, hr, hsym, hk, hinfo] at hfinal ⊢
      have hsig : (s.view around c).signature id = some (info.params, info.ret) := by
        simp [view, hinfo]
      refine ⟨.function ?_ hown hinside fun ty hty =>
        hfinal.value (hagrees.proper.params _ _ _ hsig ty hty), herror, hresolved⟩
      simp [view, hfinal.functions _ _ hinfo]
    | builtin b =>
      simp [resolveCallee, hr, hsym, hk]
      exact ⟨.builtin b, herror, hresolved⟩
    | record decl =>
      rw [hk] at hm
      obtain ⟨info, hinfo⟩ := hm
      simp [resolveCallee, hr, hsym, hk, hinfo] at hfinal ⊢
      obtain rfl := hagrees.proper.decl _ _ hinfo
      have hvalues : ∀ ty ∈ info.fieldTypes, (final.view around c).Value ty := by
        intro ty hty
        obtain ⟨field, hfield, rfl⟩ := mem_map.mp hty
        exact hfinal.value (hagrees.proper.fields _ _ hinfo field hfield)
      have hknown : (final.view around c).record info.decl = some info := by
        show final.records.find? _ = _
        rw [hfinal.records]
        exact hinfo
      exact ⟨.constructor hknown hvalues, Ty.containsError_function hvalues
        (.inr (show (_ : Option _).isSome = true by rw [hknown]; rfl)), hresolved⟩

/-- A call of a function of the unit is noted, with all variables declared before it. -/
theorem noteCall_finds (id : FnId) (info : FunctionInfo) (span : Span) :
    Finds around c (noteCall c.context id info span) fun v _ =>
      (info.isExternal = true → around id = []) → (∀ x ∈ around id, x ∈ c.whole) → v.calls id := by
  intro s
  refine ⟨?_, fun _ hagrees final hfinal houtside hinside => ⟨hinside, ?_⟩⟩
  · change s.Calm (if _ then _ else _)
    split
    · exact (Reports.refl s).calm
    · exact ⟨.notes (fun _ h => h) fun _ h => Array.mem_push_of_mem _ h, rfl, rfl, rfl⟩
  · by_cases hexternal : info.isExternal = true
    · exact .inl (houtside hexternal)
    · refine .inr ⟨⟨c.function, id, span, s.symbols.size⟩, hfinal.calls _ ?_, rfl, rfl,
        hagrees.wholeKnown⟩
      change _ ∈ AnalysisState.calls (if _ then _ else _)
      simp [hexternal]

/-! ## Compound expressions -/

theorem typeLiteral_finds {value : Literal} (hnat : ∀ n, value = .int n → 0 ≤ n) (span : Span) :
    Finds around c (typeLiteral span value) fun _ ty => value.HasTy ty := by
  cases value with
  | int value =>
    rw [typeLiteral]
    split_ifs with hmax
    · exact .wrong rfl
    · exact .pure fun _ => ⟨rfl, hnat _ rfl, Int.not_lt.mp hmax⟩
  | _ => exact .pure fun _ => rfl

theorem Expr.ty?_widenTo (e : Expr) (target : Ty) : (e.widenTo target).ty? = e.ty? := by
  unfold Expr.widenTo
  split
  · split_ifs
    · rw [Expr.ty?, Expr.note_withNote]
      rfl
    · rfl
  · rfl

theorem typeBinary_finds (op : BinOp) (span : Span) (left right : Expr × Ty) (note : Note) :
    Finds around c (typeBinary op span left right) fun v x => left.1.Found v left.2 →
      right.1.Found v right.2 → (Expr.binary note op x.1 x.2.1).HasTy v x.2.2 ∧
        ∀ a : Analysis, a.Shows v → (Expr.binary note op x.1 x.2.1).Resolved a ∧
          ∀ y ∈ (Expr.binary note op x.1 x.2.1).subs.tail, y.Noted a := by
  unfold typeBinary
  split_ifs with herror
  · refine .pure fun _ hl hr => ?_
    simp [Ty.isError_eq_false hl.ne_error, Ty.isError_eq_false hr.ne_error] at herror
  · split
    · rename_i row hsig
      refine .pure fun _ hl hr => ?_
      obtain ⟨hself, hcl, hcr⟩ := binarySignature?_self hsig
      have hne : row.operand ≠ .error := by
        intro he
        rw [he] at hself
        cases op <;> cases hself
      have hl' := hl.widenTo (Ty.eq_or_widensTo hcl hl.ne_error hne)
      have hr' := hr.widenTo (Ty.eq_or_widensTo hcr hr.ne_error hne)
      refine ⟨⟨row.operand, hself, hl'.typed, hr'.typed⟩, fun a ha => ⟨fun _ => ?_, ?_⟩⟩
      · exact ⟨left.2, right.2, row, (Expr.ty?_widenTo _ _).trans hl.noted,
          (Expr.ty?_widenTo _ _).trans hr.noted, hsig, hl'.typed.resultTy?, hr'.typed.resultTy?⟩
      · rw [Expr.subs, tail_cons]
        exact forall_mem_append.mpr ⟨hl'.complete a ha, hr'.complete a ha⟩
    · exact .wrong rfl

theorem isLeastInt_eq {op : UnOp} (h : isLeastInt op e = true) :
    op = .neg ∧ ∃ note, e = .literal note (.int (maxInt + 1)) := by
  unfold isLeastInt at h
  split at h
  · exact ⟨rfl, _, by rw [of_decide_eq_true h]⟩
  · cases h

theorem typeUnary_finds (op : UnOp) (span : Span) (operand : Expr × Ty) :
    Finds around c (typeUnary op span operand.2) fun v ty => operand.1.Found v operand.2 →
      ∀ note, (Expr.unary note op operand.1).HasTy v ty := by
  unfold typeUnary
  split_ifs with herror
  · refine .pure fun _ he => ?_
    rw [Ty.isError_eq_false he.ne_error] at herror
    cases herror
  · split
    · rename_i ty hsig
      refine .pure fun _ he note => ?_
      cases op with
      | neg =>
        simp only [unarySignature?] at hsig
        split_ifs at hsig with hn
        cases hsig
        exact ⟨hn, .inl he.typed⟩
      | not =>
        simp only [unarySignature?] at hsig
        split_ifs at hsig with hn
        cases hsig
        exact ⟨rfl, hn ▸ he.typed⟩
    · exact .wrong rfl

theorem typeField_finds (base : Expr × Ty) (field : Ident) (note : Note) :
    Finds around c (typeField base.2 field) fun v x => base.1.Found v base.2 →
      (Expr.field note base.1 field x.2).HasTy v x.1 ∧
        ∀ a : Analysis, a.Shows v → (Expr.field note base.1 field x.2).Resolved a := by
  unfold typeField
  split
  · rename_i herror
    exact .pure fun _ hb => absurd herror hb.ne_error
  · rename_i decl name hbase
    refine .bind .get fun s => ?_
    split
    · rename_i hfind
      refine .pure fun v hs hb => ?_
      obtain ⟨-, final, hfinal, rfl⟩ := hs
      have hvalue := hb.value
      rw [hbase] at hvalue
      have hsome : (s.view around c).Value (.record decl name) :=
        hfinal.value' (hvalue.resolve_left (by simp))
      simp [View.Value, view, hfind] at hsome
    · rename_i info hfind
      split
      · rename_i p hindex
        refine .pure fun v hs hb => ?_
        obtain ⟨-, final, hfinal, rfl⟩ := hs
        obtain ⟨hp, hfield, -⟩ := findIdx?_eq_some_iff_getElem.mp hindex
        have hknown : (final.view around c).record decl = some info := by
          show final.records.find? _ = _
          rw [hfinal.records]
          exact hfind
        refine ⟨⟨decl, name, info, p, info.fields[p].1, hknown, rfl, ?_, hbase ▸ hb.typed⟩,
          fun a ha => ⟨decl, name, info, p, info.fields[p].2, hbase ▸ hb.noted,
            ha.record _ _ hknown, rfl, ?_⟩⟩
        · simp [RecordInfo.fieldTypes, hp]
        · rw [getElem?_eq_getElem hp]
          exact congrArg some (Prod.ext (eq_of_beq hfield) rfl)
      · exact .wrong rfl
  · exact .wrong rfl

theorem typeIndex_finds (base : Expr × Ty) :
    Finds around c (typeIndex base) fun _ ty => base.2 ≠ .error → base.2 = .array ty := by
  unfold typeIndex
  split
  · rename_i elem hbase
    exact .pure fun _ _ => hbase
  · rename_i hbase
    exact .pure fun _ hne => absurd hbase hne
  · exact .wrong rfl

theorem typeCast_finds (span : Span) (source target : Ty) :
    Finds around c (typeCast span source target) fun _ ty => source ≠ .error →
      target ≠ .error → ty = target ∧ source.Casts target := by
  unfold typeCast
  split_ifs with herror hc
  · refine .pure fun _ hsource htarget => ?_
    simp [Ty.isError_eq_false hsource, Ty.isError_eq_false htarget] at herror
  · exact .pure fun _ hsource htarget => ⟨rfl, by
      simpa [Ty.Casts, Ty.castableTo, Ty.isError_eq_false hsource, Ty.isError_eq_false htarget]
        using hc⟩
  · exact .wrong rfl

theorem Ty.widensTo_trans {a b c : Ty} (hab : a = b ∨ a.widensTo b = true)
    (hbc : b = c ∨ b.widensTo c = true) : a = c ∨ a.widensTo c = true := by
  rcases hab with rfl | hab
  · exact hbc
  · rcases hbc with rfl | hbc
    · exact .inr hab
    · -- nothing is widened twice
      unfold Ty.widensTo at hab
      split at hab <;> cases hab <;> unfold Ty.widensTo at hbc <;> split at hbc <;> contradiction

/-- The elements of an array can all be widened to the type of one of them, or to a number type. -/
theorem unifyElements_widens {elems : List (Expr × Ty)} {first elem : Ty}
    (h : unifyElements first elems = .ok elem) :
    (elem = first ∨ elem.isNumeric = true) ∧ (first = elem ∨ first.widensTo elem = true) ∧
      ∀ x ∈ elems, x.2 = elem ∨ x.2.widensTo elem = true := by
  induction elems generalizing first with
  | nil =>
    cases h
    exact ⟨.inl rfl, .inl rfl, forall_mem_nil _⟩
  | cons x rest ih =>
    obtain ⟨e, ty⟩ := x
    rw [unifyElements] at h
    split_ifs at h with hty
    · subst hty
      obtain ⟨hor, hfirst, hrest⟩ := ih h
      exact ⟨hor, hfirst, forall_mem_cons.mpr ⟨hfirst, hrest⟩⟩
    · cases hj : first.join? ty with
      | none => rw [hj] at h; cases h
      | some joined =>
        rw [hj] at h
        obtain ⟨hor, hjoined, hrest⟩ := ih h
        obtain ⟨hn, _, hcf, hct, hnf, hnt⟩ := join?_self hj
        have hne {t : Ty} (ht : t.isNumeric = true) : t ≠ .error := by rintro rfl; cases ht
        refine ⟨.inr (hor.elim (fun h => h ▸ hn) id), ?_, forall_mem_cons.mpr ⟨?_, hrest⟩⟩
        · exact Ty.widensTo_trans (Ty.eq_or_widensTo hcf (hne hnf) (hne hn)) hjoined
        · exact Ty.widensTo_trans (Ty.eq_or_widensTo hct (hne hnt) (hne hn)) hjoined

theorem haveTys_replicate (h : ∀ e ∈ es, e.Typed v ty) :
    Expr.HaveTys v es (List.replicate es.length ty) := by
  rw [Expr.haveTys_iff]
  induction es with
  | nil => exact .nil
  | cons e es ih =>
    exact .cons (h e mem_cons_self) (ih fun e' he' => h e' (mem_cons_of_mem _ he'))

theorem typeElements_finds (span : Span) (elems : List (Expr × Ty)) (note : Note) :
    Finds around c (typeElements span elems) fun v x =>
      (∀ x ∈ elems, x.1.Found v x.2) → (Expr.array note x.1).HasTy v x.2 ∧
        ∀ e ∈ x.1, e.Complete v := by
  unfold typeElements
  split
  · exact .wrong rfl
  · rename_i e first rest
    split_ifs with herror
    · refine .pure fun _ hall => ?_
      obtain ⟨x, hx, hxerror⟩ := any_eq_true.mp herror
      rw [Ty.isError_eq_false (hall x hx).ne_error] at hxerror
      cases hxerror
    · split
      · exact .wrong rfl
      · exact .wrong rfl
      · rename_i elem hvoid hu
        refine .pure fun v hall => ?_
        obtain ⟨hor, hfirst, hrest⟩ := unifyElements_widens hu
        have hvalue : v.Value elem := by
          rcases hor with rfl | hn
          · exact (hall _ mem_cons_self).value.resolve_left hvoid
          · exact value_of_isNumeric hn
        have hfinished : ∀ e' ∈ (((e, first) :: rest).map Prod.fst).map (Expr.widenTo elem),
            e'.Finished v elem := by
          intro e' he'
          rw [map_map] at he'
          obtain ⟨x, hx, rfl⟩ := mem_map.mp he'
          refine (hall x hx).widenTo ?_
          rcases mem_cons.mp hx with rfl | hx
          · exact hfirst
          · exact hrest x hx
        exact ⟨⟨elem, rfl, hvalue, haveTys_replicate fun e' he' => (hfinished e' he').typed⟩,
          fun e' he' => (hfinished e' he').complete⟩

theorem checkArity_finds (name : String) (span : Span) (params args : Nat) :
    Finds around c (checkArity name span params args) fun _ reported =>
      args = params ∧ reported = false := by
  unfold checkArity
  split
  · exact .pure fun _ => ⟨‹_›, rfl⟩
  · exact .wrong rfl

theorem checkArg_finds (name : String) (index : Nat) (reported : Bool) (arg : Expr × Ty)
    (expected : Option Ty) :
    Finds around c (checkArg name index reported arg expected) fun v x =>
      ∀ ty ∈ expected, reported = false → arg.1.Found v arg.2 → ty ≠ .error →
        x.1.Finished v ty ∧ x.2 = false := by
  unfold checkArg
  split
  · exact .pure fun _ _ h => by cases h
  · split_ifs with hc hreported
    · refine .pure fun _ ty hty hr harg hne => ⟨?_, hr⟩
      cases hty
      exact harg.widenTo (Ty.eq_or_widensTo hc harg.ne_error hne)
    · exact .pure fun _ _ _ hr => by cases hreported.symm.trans hr
    · exact .wrong rfl

theorem typeBuiltin_finds (builtin : Builtin) (span : Span) (args : List (Expr × Ty)) :
    Finds around c (typeBuiltin builtin span args) fun _ ty => ∃ arg argTy,
      args = [(arg, argTy)] ∧ builtin.accepts argTy = true ∧ ty = builtin.result := by
  unfold typeBuiltin
  split
  · rename_i arg argTy
    simp only [Builtin.check]
    split_ifs with ha
    · exact .pure fun _ => ⟨arg, argTy, rfl, ha, rfl⟩
    · exact .wrong rfl
  · exact .wrong rfl

/-! ## Expressions -/

/-- Wherever an expression stands, what is found out about it holds. -/
def Expr.Settles (around : FnId → List SymbolId) (c : Place) (e : Expr) : Prop :=
  ∀ expected, Finds around c (e.analyze c.context expected) fun v x =>
    (∀ t ∈ expected, t = .void ∨ v.Value t) → x.1.Found v x.2

theorem analyzeAll_finds (hes : ∀ e ∈ es, e.Settles around c) :
    Finds around c (Expr.analyzeAll c.context es) fun v xs =>
      ∀ x ∈ xs, x.1.Found v x.2 := by
  induction es with
  | nil =>
    rw [Expr.analyzeAll]
    exact .pure fun _ => by simp
  | cons e es ih =>
    obtain ⟨he, hes⟩ := forall_mem_cons.mp hes
    rw [Expr.analyzeAll]
    exact (he none).bind fun _ => (ih hes).bind fun _ => .pure fun _ hrest hfirst =>
      forall_mem_cons.mpr ⟨hfirst (by simp), hrest⟩

theorem analyzeElements_finds (elem : Ty) (hes : ∀ e ∈ es, e.Settles around c) :
    Finds around c (Expr.analyzeElements c.context elem es) fun v es' => v.Value elem →
      ∀ e ∈ es', e.Finished v elem := by
  induction es with
  | nil =>
    rw [Expr.analyzeElements]
    exact .pure fun _ => by simp
  | cons e es ih =>
    obtain ⟨he, hes⟩ := forall_mem_cons.mp hes
    rw [Expr.analyzeElements]
    refine (he (some elem)).bind fun _ => (expectType_finds _ _ _).bind fun _ =>
      (ih hes).bind fun _ => .pure fun _ hrest hexpect hfirst helem => ?_
    refine forall_mem_cons.mpr ⟨hexpect _ (hfirst ?_) helem.ne_error, hrest helem⟩
    rintro t ⟨⟩
    exact .inr helem

theorem analyzeArgs_finds (name : String) (hes : ∀ e ∈ es, e.Settles around c) (index : Nat)
    (reported : Bool) (params : List Ty) :
    Finds around c (Expr.analyzeArgs c.context name index reported params es) fun v es' =>
      reported = false → es.length = params.length → (∀ ty ∈ params, v.Value ty) →
        Expr.HaveTys v es' params ∧ ∀ e ∈ es', e.Complete v := by
  induction es generalizing index reported params with
  | nil =>
    rw [Expr.analyzeArgs]
    refine .pure fun _ _ hlen _ => ?_
    obtain rfl := eq_nil_of_length_eq_zero hlen.symm
    exact ⟨trivial, forall_mem_nil _⟩
  | cons e es ih =>
    obtain ⟨he, hes⟩ := forall_mem_cons.mp hes
    rw [Expr.analyzeArgs]
    refine (he params.head?).bind fun _ => (checkArg_finds _ _ _ _ _).bind fun _ =>
      (ih hes _ _ _).bind fun _ => .pure fun _ hrest hcheck hfirst hreported hlen hvalues => ?_
    cases params with
    | nil => cases hlen
    | cons param params =>
      obtain ⟨hparam, hparams⟩ := forall_mem_cons.mp hvalues
      obtain ⟨hfinished, hreported'⟩ := hcheck param rfl hreported
        (hfirst fun t ht => by cases ht; exact .inr hparam) hparam.ne_error
      obtain ⟨htyped, hcomplete⟩ := hrest hreported' (Nat.succ.inj hlen) hparams
      exact ⟨⟨hfinished.typed, htyped⟩, forall_mem_cons.mpr ⟨hfinished.complete, hcomplete⟩⟩

theorem analyzeCall_finds {calleeNote : Note} {ref : NameRef} {args : List Expr}
    {target : Option CallTarget} {expected : Option Ty} (hargs : ∀ e ∈ args, e.Settles around c) :
    Finds around c ((Expr.call note (.name calleeNote ref) args target).analyze c.context expected)
      fun v x => x.1.Plain v x.2 := by
  rw [Expr.analyze]
  refine (resolveCallee_finds _ _ calleeNote).bind fun callee => ?_
  obtain ⟨ref', ty, found⟩ := callee
  -- the callee and the arguments
  have hparts {v : View} {note : Note} {args : List Expr} {target : Option CallTarget}
      {a : Analysis} (ha : a.Shows v) (herror : ty.containsError = false)
      (hresolved : ∀ a : Analysis, a.Shows v → (Expr.name calleeNote ref').Resolved a)
      (hargs : ∀ e ∈ args, e.Complete v) :
      ∀ x ∈ (Expr.call note (.name (calleeNote.typed ty) ref') args target).subs.tail,
        x.Noted a := by
    rw [Expr.subs, Expr.subs, tail_cons]
    exact forall_mem_append.mpr ⟨forall_mem_singleton.mpr
      (Expr.noted_of_unwidened rfl rfl herror ⟨hresolved a ha, trivial⟩),
        Expr.complete_all hargs ha⟩
  have hresult {v : View} {args : List Expr} {tys : List Ty} (h : Expr.HaveTys v args tys) :
      List.Forall₂ (fun arg ty => arg.resultTy? = some ty) args tys :=
    (Expr.haveTys_iff.mp h).imp fun _ _ harg => harg.resultTy?
  cases found with
  | unknown => exact .pure fun _ hgood => by cases hgood.1
  | notCallable =>
    exact (analyzeAll_finds hargs).bind fun _ => .pure fun _ _ hgood => by cases hgood.1
  | function id info =>
    refine (checkArity_finds _ _ _ _).bind fun _ => (analyzeArgs_finds _ hargs _ _ _).bind fun _ =>
      (noteCall_finds id info _).bind fun _ => .pure fun _ hcalls htyped harity hgood => ?_
    obtain ⟨⟨hknown, hown, hinside, hvalues⟩, herror, hresolved⟩ := hgood
    obtain ⟨htyped, hcomplete⟩ := htyped harity.2 harity.1 hvalues
    refine ⟨rfl, rfl, ⟨info.params, hknown, hcalls hown hinside, htyped⟩,
      fun a ha => ⟨⟨?_, _, _, rfl⟩, hparts ha herror hresolved hcomplete⟩⟩
    obtain ⟨info', hinfo', hparams⟩ := ha.signature _ _ _ hknown
    exact ⟨info', hinfo', hparams ▸ hresult htyped⟩
  | constructor info =>
    refine (checkArity_finds _ _ _ _).bind fun _ => (analyzeArgs_finds _ hargs _ _ _).bind fun _ =>
      .pure fun _ htyped harity hgood => ?_
    obtain ⟨- | ⟨hknown, hvalues⟩, herror, hresolved⟩ := hgood
    obtain ⟨htyped, hcomplete⟩ := htyped harity.2 harity.1 hvalues
    exact ⟨rfl, rfl, ⟨info, hknown, rfl, htyped⟩, fun a ha =>
      ⟨⟨⟨info, ha.record _ _ hknown, hresult htyped⟩, _, _, rfl⟩,
        hparts ha herror hresolved hcomplete⟩⟩
  | builtin b =>
    refine (analyzeAll_finds hargs).bind fun _ => (typeBuiltin_finds _ _ _).bind fun _ =>
      .pure fun v hbuiltin hall hgood => ?_
    obtain ⟨arg, argTy, rfl, haccepts, rfl⟩ := hbuiltin
    have harg := hall _ mem_cons_self
    refine ⟨rfl, rfl, ⟨argTy, harg.value.resolve_left ?_, haccepts, rfl, harg.typed, trivial⟩,
      fun a ha => ⟨⟨trivial, _, _, rfl⟩, hparts ha hgood.2.1 hgood.2.2
        (forall_mem_singleton.mpr harg.finished.complete)⟩⟩
    rintro rfl
    cases b <;> cases haccepts

/-- The type of an expression that is typed has values, or it is void. -/
theorem Analyze.Finds.found {m : Analyze (Expr × Ty)} {expected : Option Ty}
    (h : Finds around c m fun v x =>
      (∀ t ∈ expected, t = .void ∨ v.Value t) → x.1.Plain v x.2) :
    Finds around c m fun v x =>
      (∀ t ∈ expected, t = .void ∨ v.Value t) → x.1.Found v x.2 := by
  intro s
  obtain ⟨hcalm, hplain⟩ := h s
  refine ⟨hcalm, fun hs hagrees final hfinal hexpected => ?_⟩
  have hself := hplain hs hagrees _ (.refl _) fun t ht => (hexpected t ht).imp_right hfinal.value'
  exact ⟨hplain hs hagrees final hfinal hexpected,
    (hself.hasTy.value_or_void (hagrees.calm hcalm).proper).imp_right hfinal.value⟩

/-- **An expression in which nothing wrong is found is typed.** -/
theorem Expr.analyze_finds (hnat : e.Natural) : e.Settles around c := by
  induction e with
  | literal note value =>
    refine fun expected => .found ?_
    rw [Expr.analyze]
    have hvalue := hnat _ mem_cons_self _ _ rfl
    exact (typeLiteral_finds (fun n hn => (hn ▸ hvalue : (Literal.int n).Natural).1) _).bind
      fun _ => .pure fun _ hty _ => ⟨rfl, rfl, hty, fun _ _ =>
        ⟨⟨trivial, hvalue⟩, forall_mem_nil _⟩⟩
  | name note ref =>
    refine fun expected => .found ?_
    rw [Expr.analyze]
    exact (analyzeName_finds _ _ note).bind fun _ => .pure fun _ hty _ =>
      ⟨rfl, rfl, hty.1, fun a ha => ⟨⟨hty.2 a ha, trivial⟩, forall_mem_nil _⟩⟩
  | binary note op left right ihl ihr =>
    have ihl := ihl fun x hx => hnat x (by simp [Expr.subs, hx])
    have ihr := ihr fun x hx => hnat x (by simp [Expr.subs, hx])
    refine fun expected => .found ?_
    rw [Expr.analyze]
    split_ifs with hop
    · refine (ihl none).bind fun _ => (expectType_finds _ _ _).bind fun _ =>
        (ihr none).bind fun _ =>
        (expectType_finds _ _ _).bind fun _ => .pure fun _ hr' hr hl' hl _ => ?_
      have hbool : binarySignature? op .bool .bool = some ⟨.bool, .bool⟩ := by
        cases op <;> first | rfl | cases hop
      have hl' := hl' _ (hl (by simp)) (by simp)
      have hr' := hr' _ (hr (by simp)) (by simp)
      refine ⟨rfl, rfl, ⟨.bool, hbool, hl'.typed, hr'.typed⟩, fun a ha =>
        ⟨⟨fun hnot => ?_, trivial⟩, ?_⟩⟩
      · cases hop.symm.trans hnot
      · rw [Expr.subs, tail_cons]
        exact forall_mem_append.mpr ⟨hl'.complete a ha, hr'.complete a ha⟩
    · refine (ihl none).bind fun _ => (ihr none).bind fun _ => (typeBinary_finds _ _ _ _ note).bind
        fun _ => .pure fun _ hty hr hl _ => ?_
      obtain ⟨hty, hnotes⟩ := hty (hl (by simp)) (hr (by simp))
      exact ⟨rfl, rfl, hty, fun a ha => ⟨⟨(hnotes a ha).1, trivial⟩, (hnotes a ha).2⟩⟩
  | unary note op operand ih =>
    have ih := ih fun x hx => hnat x (by simp [Expr.subs, hx])
    refine fun expected => .found ?_
    rw [Expr.analyze]
    split_ifs with hleast
    · refine .pure fun _ _ => ?_
      obtain ⟨rfl, literalNote, rfl⟩ := isLeastInt_eq hleast
      exact ⟨rfl, rfl, ⟨rfl, .inr ⟨rfl, _, rfl, rfl, rfl⟩⟩, fun a _ => ⟨⟨trivial, rfl⟩,
        forall_mem_singleton.mpr (Expr.noted_of_unwidened rfl rfl rfl
          ⟨trivial, hnat _ (mem_cons_of_mem _ mem_cons_self) _ _ rfl⟩)⟩⟩
    · refine (ih none).bind fun operand => (typeUnary_finds op _ operand).bind fun _ =>
        .pure fun _ hty ho _ => ?_
      have ho := ho (by simp)
      exact ⟨rfl, rfl, hty ho _, fun a ha => ⟨⟨trivial, ho.unwidened⟩, ho.finished.complete a ha⟩⟩
  | call note callee args target ihc ihargs =>
    have ihc := ihc fun x hx => hnat x (by simp [Expr.subs, hx])
    have ihargs (e : Expr) (he : e ∈ args) := ihargs e he fun x hx => hnat x (by
      simp only [Expr.subs, mem_cons, mem_append, Expr.mem_subsAll]
      exact .inr (.inr ⟨e, he, hx⟩))
    refine fun expected => .found ?_
    cases callee with
    | name calleeNote ref => exact (analyzeCall_finds ihargs).imp fun _ _ h _ => h
    | _ =>
      -- what is not a name is never called without a report
      rw [Expr.analyze]
      · refine (ihc none).bind fun callee => ?_
        obtain ⟨callee, calleeTy⟩ := callee
        dsimp only
        split_ifs with herror
        · refine .pure fun _ hc _ => ?_
          rw [Ty.isError_eq_false (hc (by simp)).ne_error] at herror
          cases herror
        · exact .wrongThen rfl ((analyzeAll_finds ihargs).bind fun _ => .pure fun _ _ => trivial)
      · simp
  | field note base ident position ih =>
    have ih := ih fun x hx => hnat x (by simp [Expr.subs, hx])
    refine fun expected => .found ?_
    rw [Expr.analyze]
    refine (ih none).bind fun base => (typeField_finds base ident note).bind fun _ =>
      .pure fun _ hty hb _ => ?_
    have hb := hb (by simp)
    exact ⟨rfl, rfl, (hty hb).1, fun a ha =>
      ⟨⟨(hty hb).2 a ha, trivial⟩, hb.finished.complete a ha⟩⟩
  | index note base position ihb ihp =>
    have ihb := ihb fun x hx => hnat x (by simp [Expr.subs, hx])
    have ihp := ihp fun x hx => hnat x (by simp [Expr.subs, hx])
    refine fun expected => .found ?_
    rw [Expr.analyze]
    refine (ihb none).bind fun base => (ihp none).bind fun _ =>
      (expectType_finds _ _ _).bind fun _ =>
      (typeIndex_finds base).bind fun _ => .pure fun _ hty hexpect hp hb _ => ?_
    have hb := hb (by simp)
    have hp := hexpect _ (hp (by simp)) (by simp)
    refine ⟨rfl, rfl, ⟨hty hb.ne_error ▸ hb.typed, hp.typed⟩, fun a ha =>
      ⟨⟨trivial, trivial⟩, ?_⟩⟩
    rw [Expr.subs, tail_cons]
    exact forall_mem_append.mpr ⟨hb.finished.complete a ha, hp.complete a ha⟩
  | array note elems ih =>
    have ih (e : Expr) (he : e ∈ elems) := ih e he fun x hx => hnat x (by
      simp only [Expr.subs, mem_cons, Expr.mem_subsAll]
      exact .inr ⟨e, he, hx⟩)
    refine fun expected => .found ?_
    rw [Expr.analyze]
    split
    · rename_i elem hwanted
      refine (analyzeElements_finds elem ih).bind fun _ => .pure fun v htyped hexpected => ?_
      have helem : v.Value elem := by
        unfold wantedElement? at hwanted
        split at hwanted
        · split_ifs at hwanted
          cases hwanted
          exact (hexpected _ rfl).resolve_left (by simp)
        · cases hwanted
      exact ⟨rfl, rfl, ⟨elem, rfl, helem, haveTys_replicate fun e he => (htyped helem e he).typed⟩,
        fun a ha => ⟨⟨trivial, trivial⟩,
          Expr.complete_all (fun e he => (htyped helem e he).complete) ha⟩⟩
    · exact (analyzeAll_finds ih).bind fun _ => (typeElements_finds _ _ note).bind fun _ =>
        .pure fun _ hty hall _ => ⟨rfl, rfl, (hty hall).1, fun a ha =>
          ⟨⟨trivial, trivial⟩, Expr.complete_all (hty hall).2 ha⟩⟩
  | newArray note elem length ih =>
    have ih := ih fun x hx => hnat x (by simp [Expr.subs, hx])
    refine fun expected => .found ?_
    rw [Expr.analyze]
    refine (resolveValueType_finds _).bind fun elemTy => (ih none).bind fun _ =>
      (expectType_finds _ _ _).bind fun _ => .pure fun _ hexpect hl hvalue _ => ?_
    have hty : (if elemTy.isError = true then Ty.error else .array elemTy) = .array elemTy := by
      cases elemTy <;> first | rfl | exact hvalue.elim
    dsimp only
    rw [hty]
    have hl := hexpect _ (hl (by simp)) (by simp)
    exact ⟨rfl, rfl, ⟨elemTy, rfl, hvalue, hl.typed⟩, fun a ha =>
      ⟨⟨trivial, trivial⟩, hl.complete a ha⟩⟩
  | cast note operand target ih =>
    have ih := ih fun x hx => hnat x (by simp [Expr.subs, hx])
    refine fun expected => .found ?_
    rw [Expr.analyze]
    refine (ih none).bind fun operand => (resolveValueType_finds _).bind fun _ =>
      (typeCast_finds _ _ _).bind fun _ => .pure fun _ hcast hvalue ho _ => ?_
    have ho := ho (by simp)
    obtain ⟨rfl, hcasts⟩ := hcast ho.ne_error hvalue.ne_error
    exact ⟨rfl, rfl, ⟨hvalue, operand.2, hcasts, ho.typed⟩, fun a ha =>
      ⟨⟨trivial, trivial⟩, ho.finished.complete a ha⟩⟩

end Finds

end StackCompiler

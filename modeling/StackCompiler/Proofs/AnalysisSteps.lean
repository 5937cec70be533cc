import StackCompiler.Analysis.OfUnit
import StackCompiler.Proofs.Frames
import StackCompiler.Proofs.Steps
import StackCompiler.Proofs.Trees

/-!
# Steps of an analysis

The analysis never stops: what is wrong is reported, and nothing that has been found is forgotten.
So a unit in which nothing is wrong at the end has been right all along.

* **`Analyze.Keeps.analyze`**: expressions declare nothing, and what they read and call can be found
  where they stand.
-/

namespace StackCompiler

variable {s : AnalysisState} {es : List Expr}

namespace Analyze

variable {α β : Type} {s s' : AnalysisState}

theorem bind_eq {m : Analyze α} {f : α → Analyze β} {r : β × AnalysisState} :
    (m >>= f) s = r ↔ ∃ a s1, m s = (a, s1) ∧ f a s1 = r := by
  constructor
  · intro h
    exact ⟨(m s).1, (m s).2, rfl, h⟩
  · rintro ⟨a, s1, hm, hf⟩
    show f (m s).1 (m s).2 = r
    rw [hm]
    exact hf

theorem bind_apply (m : Analyze α) (f : α → Analyze β) (s : AnalysisState) :
    (m >>= f) s = f (m s).1 (m s).2 := rfl

theorem map_apply (f : α → β) (m : Analyze α) (s : AnalysisState) :
    (f <$> m) s = (f (m s).1, (m s).2) := rfl

theorem pure_apply (a : α) (s : AnalysisState) : (pure a : Analyze α) s = (a, s) := rfl

theorem get_apply (s : AnalysisState) : (get : Analyze AnalysisState) s = (s, s) := rfl

theorem pure_eq {a : α} {r : α × AnalysisState} : (pure a : Analyze α) s = r ↔ r = (a, s) := eq_comm

theorem get_bind {f : AnalysisState → Analyze β} {r : β × AnalysisState} :
    (get >>= f) s = r ↔ f s s = r :=
  Iff.rfl

theorem set_bind {s1 : AnalysisState} {f : PUnit → Analyze β} {r : β × AnalysisState} :
    (set s1 >>= f : Analyze β) s = r ↔ f () s1 = r :=
  Iff.rfl

theorem modify_eq {f : AnalysisState → AnalysisState} {r : Unit × AnalysisState} :
    (modify f : Analyze Unit) s = r ↔ r = ((), f s) :=
  eq_comm

end Analyze

/-! ## What is kept -/

namespace AnalysisState

def Clean (s : AnalysisState) : Prop := s.diagnostics.hasErrors = false

/-- What has been found is kept. -/
structure Grows (s s' : AnalysisState) : Prop where
  symbols : ∀ (id : SymbolId) (symbol : Symbol), s.symbols[id]? = some symbol →
    s'.symbols[id]? = some symbol
  functions : ∀ (id : FnId) (info : FunctionInfo), s.functions[id]? = some info →
    s'.functions[id]? = some info
  records : s'.records = s.records
  outerReads : ∀ read ∈ s.outerReads, read ∈ s'.outerReads
  calls : ∀ site ∈ s.calls, site ∈ s'.calls
  globals : ∀ id ∈ s'.globals, id ∈ s.globals ∨
    ∃ symbol, s'.symbols[id]? = some symbol ∧ symbol.kind = .variable_
  unit : s'.unitIndex = s.unitIndex ∧ s'.className = s.className
  diagnostics : ∃ new, s'.diagnostics = s.diagnostics ++ new

/-- Something may be reported, and nothing else happens. -/
structure Reports (s s' : AnalysisState) : Prop where
  symbols : s'.symbols = s.symbols
  functions : s'.functions = s.functions
  records : s'.records = s.records
  scopes : s'.scopes = s.scopes
  outerReads : s'.outerReads = s.outerReads
  calls : s'.calls = s.calls
  globals : s'.globals = s.globals
  unit : s'.unitIndex = s.unitIndex ∧ s'.className = s.className
  diagnostics : ∃ new, s'.diagnostics = s.diagnostics ++ new

/-- The function reads a variable of another function that can be found. -/
def ReadBy (s : AnalysisState) (f : FnId) (read : FnId × SymbolId) : Prop :=
  read.1 = f ∧ read.2 ∈ s.scopes.layers.flatten ∧ ∃ symbol, s.symbols[read.2]? = some symbol ∧
    symbol.isLocal = true ∧ symbol.owner ≠ some f

def CalledBy (s : AnalysisState) (f : FnId) (site : CallSite) : Prop :=
  site.caller = f ∧ ∃ id ∈ s.scopes.layers.flatten, ∃ symbol, s.symbols[id]? = some symbol ∧
    symbol.kind = .function site.callee

/-- No name is declared. What a function reads and calls is noted. -/
structure Reads (f : FnId) (s s' : AnalysisState) : Prop extends Grows s s' where
  sameSymbols : s'.symbols = s.symbols
  sameFunctions : s'.functions = s.functions
  sameScopes : s'.scopes = s.scopes
  newReads : ∀ read ∈ s'.outerReads, read ∈ s.outerReads ∨ s.ReadBy f read
  newCalls : ∀ site ∈ s'.calls, site ∈ s.calls ∨ s.CalledBy f site

namespace Grows

variable {s s' s'' : AnalysisState}

theorem notes {scopes : ScopeStack} {used : List SymbolId} {reads : List (FnId × SymbolId)}
    {calls : Array CallSite} (hreads : ∀ read ∈ s.outerReads, read ∈ reads)
    (hcalls : ∀ site ∈ s.calls, site ∈ calls) :
    s.Grows { s with scopes := scopes, used := used, outerReads := reads, calls := calls } :=
  ⟨fun _ _ h => h, fun _ _ h => h, rfl, hreads, hcalls, fun _ h => .inl h, ⟨rfl, rfl⟩, [], by simp⟩

theorem refl (s : AnalysisState) : s.Grows s := notes (fun _ h => h) fun _ h => h

theorem trans (h : s.Grows s') (h' : s'.Grows s'') : s.Grows s'' := by
  obtain ⟨new, hnew⟩ := h.diagnostics
  obtain ⟨new', hnew'⟩ := h'.diagnostics
  refine ⟨fun id x hx => h'.symbols id x (h.symbols id x hx),
    fun id x hx => h'.functions id x (h.functions id x hx), h'.records.trans h.records,
    fun r hr => h'.outerReads r (h.outerReads r hr), fun c hc => h'.calls c (h.calls c hc),
    fun id hid => ?_, ⟨h'.unit.1.trans h.unit.1, h'.unit.2.trans h.unit.2⟩, new ++ new',
    by rw [hnew', hnew, List.append_assoc]⟩
  rcases h'.globals id hid with hid | hid
  · refine (h.globals id hid).imp_right ?_
    rintro ⟨symbol, hsymbol, hkind⟩
    exact ⟨symbol, h'.symbols _ _ hsymbol, hkind⟩
  · exact .inr hid

theorem clean (h : s.Grows s') (hs : s'.Clean) : s.Clean := by
  obtain ⟨new, hnew⟩ := h.diagnostics
  unfold Clean Diagnostics.hasErrors at hs ⊢
  rw [hnew, List.any_append, Bool.or_eq_false_iff] at hs
  exact hs.1

theorem size_le (h : s.Grows s') : s.symbols.size ≤ s'.symbols.size := by
  by_contra hlt
  have hsize : s'.symbols.size < s.symbols.size := Nat.lt_of_not_le hlt
  have hlast := h.symbols _ _ (Array.getElem?_eq_getElem hsize)
  rw [Array.getElem?_eq_none (Nat.le_refl _)] at hlast
  cases hlast

theorem functions_size_le (h : s.Grows s') : s.functions.size ≤ s'.functions.size := by
  by_contra hlt
  have hsize : s'.functions.size < s.functions.size := Nat.lt_of_not_le hlt
  have hlast := h.functions _ _ (Array.getElem?_eq_getElem hsize)
  rw [Array.getElem?_eq_none (Nat.le_refl _)] at hlast
  cases hlast

end Grows

namespace Reports

variable {s s' s'' : AnalysisState}

theorem refl (s : AnalysisState) : s.Reports s :=
  ⟨rfl, rfl, rfl, rfl, rfl, rfl, rfl, ⟨rfl, rfl⟩, [], by simp⟩

theorem trans (h : s.Reports s') (h' : s'.Reports s'') : s.Reports s'' := by
  obtain ⟨new, hnew⟩ := h.diagnostics
  obtain ⟨new', hnew'⟩ := h'.diagnostics
  exact ⟨h'.symbols.trans h.symbols, h'.functions.trans h.functions, h'.records.trans h.records,
    h'.scopes.trans h.scopes, h'.outerReads.trans h.outerReads, h'.calls.trans h.calls,
    h'.globals.trans h.globals, ⟨h'.unit.1.trans h.unit.1, h'.unit.2.trans h.unit.2⟩, new ++ new',
    by rw [hnew', hnew, List.append_assoc]⟩

theorem grows (h : s.Reports s') : s.Grows s' :=
  ⟨fun _ _ hx => h.symbols ▸ hx, fun _ _ hx => h.functions ▸ hx, h.records,
    fun _ hr => h.outerReads ▸ hr, fun _ hc => h.calls ▸ hc, fun _ hg => .inl (h.globals ▸ hg),
    h.unit, h.diagnostics⟩

theorem reads {f : FnId} (h : s.Reports s') : Reads f s s' :=
  ⟨h.grows, h.symbols, h.functions, h.scopes, fun _ hr => .inl (h.outerReads ▸ hr),
    fun _ hc => .inl (h.calls ▸ hc)⟩

end Reports

namespace Reads

variable {s s' s'' : AnalysisState} {f : FnId}

theorem refl (s : AnalysisState) : Reads f s s := (Reports.refl s).reads

theorem calledBy (h : Reads f s s') {site : CallSite} (hc : s.CalledBy f site) :
    s'.CalledBy f site := by
  unfold CalledBy at hc ⊢
  rw [h.sameScopes, h.sameSymbols]
  exact hc

theorem trans (h : Reads f s s') (h' : Reads f s' s'') : Reads f s s'' := by
  refine ⟨h.toGrows.trans h'.toGrows, h'.sameSymbols.trans h.sameSymbols,
    h'.sameFunctions.trans h.sameFunctions, h'.sameScopes.trans h.sameScopes, fun read hr => ?_,
    fun site hc => ?_⟩
  · refine (h'.newReads read hr).elim (h.newReads read) fun hr => .inr ?_
    unfold ReadBy at hr ⊢
    rwa [h.sameScopes, h.sameSymbols] at hr
  · refine (h'.newCalls site hc).elim (h.newCalls site) fun hc => .inr ?_
    unfold CalledBy at hc ⊢
    rwa [h.sameScopes, h.sameSymbols] at hc

end Reads

end AnalysisState

theorem not_clean_of_report {kind : DiagnosticKind} {message : String} {span : Span}
    {construct : Construct} (hk : kind.severity = .error) :
    ¬ (report kind message span construct s).2.Clean := by
  show ¬ ({ s with diagnostics := s.diagnostics ++ [_] } : AnalysisState).Clean
  simp [AnalysisState.Clean, Diagnostics.hasErrors, Diagnostic.isError, Diagnostic.severity, hk]

/-! ## Steps that keep to a relation -/

/-- Whatever the state, the step keeps to a relation. -/
def Analyze.Keeps (R : AnalysisState → AnalysisState → Prop) {α : Type} (m : Analyze α) : Prop :=
  ∀ s, R s (m s).2

namespace Analyze.Keeps

open AnalysisState

variable {α β : Type} {R : AnalysisState → AnalysisState → Prop} {m : Analyze α}
  {f : α → Analyze β}

theorem bind (hR : ∀ {s s' s''}, R s s' → R s' s'' → R s s'') (hm : Keeps R m)
    (hf : ∀ a, Keeps R (f a)) : Keeps R (m >>= f) :=
  fun s => hR (hm s) (hf _ _)

theorem of_eq (hm : Keeps R m) {s' : AnalysisState} {a : α} (h : m s = (a, s')) :
    R s s' := by
  have := hm s
  rw [h] at this
  exact this

theorem forM (hrefl : ∀ s, R s s) (hR : ∀ {s s' s''}, R s s' → R s' s'' → R s s'')
    {f : α → Analyze Unit} {xs : List α} (hf : ∀ x ∈ xs, Keeps R (f x)) : Keeps R (xs.forM f) := by
  induction xs with
  | nil => exact hrefl
  | cons x xs ih =>
    obtain ⟨hx, hxs⟩ := List.forall_mem_cons.mp hf
    exact fun s => hR (hx s) (ih hxs _)

theorem of_run (h : ∀ s a s', m s = (a, s') → R s s') : Keeps R m :=
  fun s => h s _ _ rfl

/-! ### Reporting -/

theorem pure (a : α) : Keeps Reports (pure a) := fun s => .refl s

theorem get : Keeps Reports (MonadState.get : Analyze AnalysisState) := fun s => .refl s

theorem andThen (hm : Keeps Reports m)
    (hf : ∀ a, Keeps Reports (f a)) : Keeps Reports (m >>= f) :=
  bind (R := Reports) (fun h h' => h.trans h') hm hf

theorem report (kind : DiagnosticKind) (message : String) (span : Span) (construct : Construct) :
    Keeps Reports (report kind message span construct) :=
  fun _ => ⟨rfl, rfl, rfl, rfl, rfl, rfl, rfl, ⟨rfl, rfl⟩, [_], rfl⟩

theorem reportThen (kind : DiagnosticKind) (message : String) (span : Span)
    (construct : Construct) (a : α) :
    Keeps Reports (do StackCompiler.report kind message span construct; return a) :=
  (report _ _ _ _).andThen fun _ => pure _

theorem lookupName (name : String) : Keeps Reports (lookupName name) := by
  refine get.andThen fun s => ?_
  split <;> exact pure _

theorem resolveTypeName (ident : Ident) : Keeps Reports (resolveTypeName ident) := by
  refine get.andThen fun s => ?_
  split
  · split
    · exact pure _
    · exact reportThen _ _ _ _ _
  · exact reportThen _ _ _ _ _

theorem rejectVoid (span : Span) (ty : Ty) : Keeps Reports (rejectVoid span ty) := by
  unfold StackCompiler.rejectVoid
  split
  · exact reportThen _ _ _ _ _
  · exact pure _

theorem resolveType (ty : TypeExpr) : Keeps Reports (resolveType ty) := by
  induction ty with
  | named ident =>
    rw [StackCompiler.resolveType]
    split
    · exact pure _
    · exact resolveTypeName ident
  | array elem span ih =>
    exact ih.andThen fun _ => (rejectVoid _ _).andThen fun _ => pure _

theorem resolveValueType (ty : TypeExpr) : Keeps Reports (resolveValueType ty) :=
  (resolveType ty).andThen fun _ => rejectVoid _ _

theorem expectType (e : Expr) (expected : Ty) (construct : Construct) :
    Keeps Reports (expectType e expected construct) := by
  change Keeps Reports (if _ then _ else _)
  split
  · exact pure _
  · exact reportThen _ _ _ _ _

theorem typeLiteral (span : Span) (value : Literal) : Keeps Reports (typeLiteral span value) := by
  cases value with
  | int value =>
    rw [StackCompiler.typeLiteral]
    split
    · exact reportThen _ _ _ _ _
    · exact pure _
  | _ => exact pure _

theorem typeBinary (op : BinOp) (span : Span) (left right : Expr × Ty) :
    Keeps Reports (typeBinary op span left right) := by
  unfold StackCompiler.typeBinary
  split
  · exact pure _
  · split
    · exact pure _
    · exact reportThen _ _ _ _ _

theorem typeUnary (op : UnOp) (span : Span) (operand : Ty) :
    Keeps Reports (typeUnary op span operand) := by
  unfold StackCompiler.typeUnary
  split
  · exact pure _
  · split
    · exact pure _
    · exact reportThen _ _ _ _ _

theorem typeField (base : Ty) (field : Ident) : Keeps Reports (typeField base field) := by
  unfold StackCompiler.typeField
  split
  · exact pure _
  · refine get.andThen fun s => ?_
    split
    · exact pure _
    · split
      · exact pure _
      · exact reportThen _ _ _ _ _
  · exact reportThen _ _ _ _ _

theorem typeIndex (base : Expr × Ty) : Keeps Reports (typeIndex base) := by
  unfold StackCompiler.typeIndex
  split
  · exact pure _
  · exact pure _
  · exact reportThen _ _ _ _ _

theorem typeCast (span : Span) (source target : Ty) :
    Keeps Reports (typeCast span source target) := by
  unfold StackCompiler.typeCast
  split
  · exact pure _
  · split
    · exact pure _
    · exact reportThen _ _ _ _ _

theorem typeElements (span : Span) (elems : List (Expr × Ty)) :
    Keeps Reports (typeElements span elems) := by
  unfold StackCompiler.typeElements
  split
  · exact reportThen _ _ _ _ _
  · split
    · exact pure _
    · split
      · exact reportThen _ _ _ _ _
      · exact reportThen _ _ _ _ _
      · exact pure _

theorem checkArity (name : String) (span : Span) (params args : Nat) :
    Keeps Reports (checkArity name span params args) := by
  unfold StackCompiler.checkArity
  split
  · exact pure _
  · exact reportThen _ _ _ _ _

theorem checkArg (name : String) (index : Nat) (reported : Bool) (arg : Expr × Ty)
    (expected : Option Ty) : Keeps Reports (checkArg name index reported arg expected) := by
  unfold StackCompiler.checkArg
  split
  · exact pure _
  · split
    · exact pure _
    · split
      · exact pure _
      · exact reportThen _ _ _ _ _

theorem typeBuiltin (builtin : Builtin) (span : Span) (args : List (Expr × Ty)) :
    Keeps Reports (typeBuiltin builtin span args) := by
  unfold StackCompiler.typeBuiltin
  split
  · split
    · exact pure _
    · exact reportThen _ _ _ _ _
  · exact reportThen _ _ _ _ _

/-! ### Reading -/

variable {ctx : Context}

theorem followedBy {g : FnId} (hm : Keeps (Reads g) m)
    (hf : ∀ a, Keeps (Reads g) (f a)) : Keeps (Reads g) (m >>= f) :=
  bind (R := Reads g) (fun h h' => h.trans h') hm hf

theorem reads {g : FnId} (hm : Keeps Reports m) : Keeps (Reads g) m :=
  fun s => (hm s).reads

theorem noteRead (ctx : Context) {id : SymbolId} {symbol : Symbol}
    (hid : id ∈ s.scopes.layers.flatten) (hsym : s.symbols[id]? = some symbol) :
    Reads ctx.function s (noteRead ctx id symbol s).2 := by
  change Reads _ s (if _ then _ else _)
  split
  · rename_i hc
    simp only [Bool.and_eq_true, bne_iff_ne, ne_eq] at hc
    refine ⟨.notes (fun _ h => List.mem_cons_of_mem _ h) fun _ h => h, rfl, rfl, rfl,
      fun read hr => ?_, fun _ h => .inl h⟩
    rcases List.mem_cons.mp hr with rfl | hr
    · exact .inr ⟨rfl, hid, symbol, hsym, hc.1.1, hc.1.2⟩
    · exact .inl hr
  · exact ⟨.notes (fun _ h => h) fun _ h => h, rfl, rfl, rfl, fun _ h => .inl h, fun _ h => .inl h⟩

theorem noteCall (ctx : Context) {id : FnId} (info : FunctionInfo) (span : Span)
    (hc : ∀ site : CallSite, site.caller = ctx.function → site.callee = id →
      s.CalledBy ctx.function site) : Reads ctx.function s (noteCall ctx id info span s).2 := by
  change Reads _ s (if _ then _ else _)
  split
  · exact .refl s
  · refine ⟨.notes (fun _ h => h) fun _ h => Array.mem_push_of_mem _ h, rfl, rfl, rfl,
      fun _ h => .inl h, fun site hsite => ?_⟩
    rcases Array.mem_push.mp hsite with hsite | rfl
    · exact .inl hsite
    · exact .inr (hc _ rfl rfl)

attribute [local simp] Analyze.bind_apply Analyze.map_apply Analyze.pure_apply Analyze.get_apply
  Except.map

/-- A name that is looked up is found in an open scope, or it is not found. -/
theorem lookupName_apply (name : String) (s : AnalysisState) : StackCompiler.lookupName name s =
    ((s.scopes.resolve name).map fun binding => (binding, s.symbols[binding.symbol]?), s) := by
  cases hr : s.scopes.resolve name <;> simp [StackCompiler.lookupName, hr]

theorem analyzeName (ctx : Context) (span : Span) (ref : NameRef) :
    Keeps (Reads ctx.function) (analyzeName ctx span ref) := by
  intro s
  unfold StackCompiler.analyzeName
  cases hr : s.scopes.resolve ref.name with
  | error e => simpa [lookupName_apply, hr] using (report _ _ _ _ s).reads
  | ok binding =>
    cases hsym : s.symbols[binding.symbol]? with
    | none => simpa [lookupName_apply, hr, hsym] using .refl s
    | some symbol =>
      cases hk : symbol.kind with
      | variable_ | parameter | loopVariable =>
        simpa [lookupName_apply, hr, hsym, hk] using
          noteRead ctx (ScopeStack.mem_of_resolve hr) hsym
      | function _ | record _ | builtin _ =>
        simpa [lookupName_apply, hr, hsym, hk] using (report _ _ _ _ s).reads

/-- A name that is called keeps to what is read; a function that it is bound to can be found. -/
theorem resolveCallee (ctx : Context) (span : Span) (ref : NameRef) (s : AnalysisState) :
    Reads ctx.function s (resolveCallee ctx span ref s).2 ∧
      ∀ id info, (resolveCallee ctx span ref s).1.2.2 = .function id info → ∀ site : CallSite,
        site.caller = ctx.function → site.callee = id →
          (StackCompiler.resolveCallee ctx span ref s).2.CalledBy ctx.function site := by
  unfold StackCompiler.resolveCallee
  cases hr : s.scopes.resolve ref.name with
  | error e => simpa [lookupName_apply, hr] using (report _ _ _ _ s).reads
  | ok binding =>
    have hmem := ScopeStack.mem_of_resolve hr
    cases hsym : s.symbols[binding.symbol]? with
    | none => simpa [lookupName_apply, hr, hsym] using .refl s
    | some symbol =>
      cases hk : symbol.kind with
      | function id =>
        cases hf : s.functions[id]? with
        | none => simpa [lookupName_apply, hr, hsym, hk, hf] using .refl s
        | some info =>
          simp only [lookupName_apply, hr, Except.map, hsym, hk, hf, Analyze.bind_apply,
            Analyze.pure_apply, Analyze.get_apply]
          refine ⟨.refl s, ?_⟩
          rintro id' info' heq site hcaller rfl
          cases heq
          exact ⟨hcaller, binding.symbol, hmem, symbol, hsym, hk⟩
      | record decl =>
        cases hfind : s.records.find? (·.decl = decl) <;>
          simpa [lookupName_apply, hr, hsym, hk, hfind] using .refl s
      | builtin b => simpa [lookupName_apply, hr, hsym, hk] using .refl s
      | variable_ | parameter | loopVariable =>
        simpa [lookupName_apply, hr, hsym, hk] using
          (noteRead ctx hmem hsym).trans (report _ _ _ _ _).reads

theorem analyzeAll (ctx : Context)
    (h : ∀ e ∈ es, ∀ expected, Keeps (Reads ctx.function) (e.analyze ctx expected)) :
    Keeps (Reads ctx.function) (Expr.analyzeAll ctx es) := by
  induction es with
  | nil => exact (pure _).reads
  | cons e es ih =>
    rw [Expr.analyzeAll]
    exact (h e List.mem_cons_self _).followedBy fun _ =>
      (ih fun e' he' => h e' (List.mem_cons_of_mem _ he')).followedBy fun _ => (pure _).reads

theorem analyzeElements (ctx : Context) (elem : Ty)
    (h : ∀ e ∈ es, ∀ expected, Keeps (Reads ctx.function) (e.analyze ctx expected)) :
    Keeps (Reads ctx.function) (Expr.analyzeElements ctx elem es) := by
  induction es with
  | nil => exact (pure _).reads
  | cons e es ih =>
    rw [Expr.analyzeElements]
    exact (h e List.mem_cons_self _).followedBy fun _ =>
      (expectType _ _ _).reads.followedBy fun _ =>
        (ih fun e' he' => h e' (List.mem_cons_of_mem _ he')).followedBy fun _ => (pure _).reads

theorem analyzeArgs (ctx : Context) (name : String)
    (h : ∀ e ∈ es, ∀ expected, Keeps (Reads ctx.function) (e.analyze ctx expected)) (index : Nat)
    (reported : Bool) (params : List Ty) :
    Keeps (Reads ctx.function) (Expr.analyzeArgs ctx name index reported params es) := by
  induction es generalizing index reported params with
  | nil => exact (pure _).reads
  | cons e es ih =>
    rw [Expr.analyzeArgs]
    exact (h e List.mem_cons_self _).followedBy fun _ =>
      (checkArg _ _ _ _ _).reads.followedBy fun _ =>
        (ih (fun e' he' => h e' (List.mem_cons_of_mem _ he')) _ _ _).followedBy fun _ =>
          (pure _).reads

theorem analyzeCall (ctx : Context) {note calleeNote : Note} {ref : NameRef} {args : List Expr}
    {target : Option CallTarget} {expected : Option Ty}
    (hargs : ∀ e ∈ args, ∀ expected, Keeps (Reads ctx.function) (e.analyze ctx expected)) :
    Keeps (Reads ctx.function)
      ((Expr.call note (.name calleeNote ref) args target).analyze ctx expected) := by
  intro s
  rw [Expr.analyze, Analyze.bind_apply]
  obtain ⟨hr1, hcalled⟩ := resolveCallee ctx calleeNote.span ref s
  generalize StackCompiler.resolveCallee ctx calleeNote.span ref s = r at hr1 hcalled
  obtain ⟨⟨ref', ty, found⟩, s1⟩ := r
  cases found with
  | unknown => exact hr1
  | notCallable =>
    exact hr1.trans (((analyzeAll ctx hargs).followedBy fun _ => (pure _).reads) _)
  | function id info =>
    have hr2 := ((checkArity info.name note.span info.params.length args.length).reads.followedBy
      fun reported => analyzeArgs ctx info.name hargs 0 reported info.params) s1
    exact hr1.trans (hr2.trans (noteCall ctx info note.span fun site hcaller hcallee =>
      hr2.calledBy (hcalled id info rfl site hcaller hcallee)))
  | constructor info =>
    exact hr1.trans (((checkArity _ _ _ _).reads.followedBy fun _ =>
      (analyzeArgs ctx _ hargs _ _ _).followedBy fun _ => (pure _).reads) _)
  | builtin b =>
    exact hr1.trans (((analyzeAll ctx hargs).followedBy fun _ =>
      (typeBuiltin _ _ _).reads.followedBy fun _ => (pure _).reads) _)

/-- **Expressions declare nothing, and what they read and call can be found.** -/
theorem analyze (ctx : Context) (e : Expr) (expected : Option Ty) :
    Keeps (Reads ctx.function) (e.analyze ctx expected) := by
  induction e generalizing expected with
  | literal note value =>
    rw [Expr.analyze]
    exact ((typeLiteral _ _).andThen fun _ => pure _).reads
  | name note ref =>
    rw [Expr.analyze]
    exact (analyzeName _ _ _).followedBy fun _ => (pure _).reads
  | binary note op left right ihl ihr =>
    rw [Expr.analyze]
    split
    · exact (ihl _).followedBy fun _ => (expectType _ _ _).reads.followedBy fun _ =>
        (ihr _).followedBy fun _ => (expectType _ _ _).reads.followedBy fun _ => (pure _).reads
    · exact (ihl _).followedBy fun _ => (ihr _).followedBy fun _ =>
        ((typeBinary _ _ _ _).andThen fun _ => pure _).reads
  | unary note op operand ih =>
    rw [Expr.analyze]
    split
    · exact (pure _).reads
    · exact (ih _).followedBy fun _ => ((typeUnary _ _ _).andThen fun _ => pure _).reads
  | call note callee args target ihc ih =>
    cases callee with
    | name calleeNote ref => exact analyzeCall ctx ih
    | _ =>
      rw [Expr.analyze]
      · refine (ihc none).followedBy fun ⟨_, _⟩ => ?_
        dsimp only
        split
        · exact (pure _).reads
        · exact (report _ _ _ _).reads.followedBy fun _ => (analyzeAll ctx ih).followedBy fun _ =>
            (pure _).reads
      · nofun
  | field note base field index ih =>
    rw [Expr.analyze]
    exact (ih _).followedBy fun _ => ((typeField _ _).andThen fun _ => pure _).reads
  | index note base index ihb ihi =>
    rw [Expr.analyze]
    exact (ihb _).followedBy fun _ => (ihi _).followedBy fun _ =>
      ((expectType _ _ _).andThen fun _ => (typeIndex _).andThen fun _ => pure _).reads
  | array note elems ih =>
    rw [Expr.analyze]
    split
    · exact (analyzeElements ctx _ ih).followedBy fun _ => (pure _).reads
    · exact (analyzeAll ctx ih).followedBy fun _ =>
        ((typeElements _ _).andThen fun _ => pure _).reads
  | newArray note elem length ih =>
    rw [Expr.analyze]
    exact (resolveValueType _).reads.followedBy fun _ => (ih _).followedBy fun _ =>
      ((expectType _ _ _).andThen fun _ => pure _).reads
  | cast note operand target ih =>
    rw [Expr.analyze]
    exact (ih _).followedBy fun _ => ((resolveValueType _).andThen fun _ =>
      (typeCast _ _ _).andThen fun _ => pure _).reads

end Analyze.Keeps

end StackCompiler

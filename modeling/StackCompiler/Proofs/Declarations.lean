import StackCompiler.Proofs.AnalysisSteps
import StackCompiler.Proofs.Checked

/-!
# What statements declare

The analysis numbers variables and functions in the order in which it meets them, and a statement
adds to the innermost scope only what it declares there itself.

* `Stmt.Shape`, `Stmt.ShapeAll`: what the analysis of statements leaves;
* **`Stmt.shapes`**: it is so for all statements.
-/

namespace StackCompiler

open Analyze List

variable {s1 : AnalysisState} {warned mutable : Bool} {flow flow' : Flow} {parent : FnId}
  {head : FunctionHead} {ids : List (Option FnId)} {stmts stmts' : List Stmt} {xs : List SymbolId}
  {kind : ScopeKind} {stmt : Stmt} {symbol : Symbol} {u : Unit} {ty : Ty} {owner : Option FnId}

/-! ## Numbers in order -/

/-- The numbers increase, and they are between two bounds. -/
structure Numbered (lo hi : Nat) (ids : List Nat) : Prop where
  le : lo ≤ hi
  sorted : ids.Pairwise (· < ·)
  bounds : ∀ id ∈ ids, lo ≤ id ∧ id < hi

namespace Numbered

variable {a b c : Nat} {xs ys : List Nat}

theorem nil (h : a ≤ b) : Numbered a b [] := ⟨h, .nil, nofun⟩

theorem single (h : a < b) : Numbered a b [a] :=
  ⟨Nat.le_of_lt h, pairwise_singleton _ _, by simpa using h⟩

theorem append (h : Numbered a b xs) (h' : Numbered b c ys) : Numbered a c (xs ++ ys) := by
  refine ⟨Nat.le_trans h.le h'.le, pairwise_append.mpr ⟨h.sorted, h'.sorted, ?_⟩, ?_⟩
  · intro x hx y hy
    exact Nat.lt_of_lt_of_le (h.bounds x hx).2 (h'.bounds y hy).1
  · intro id hid
    have := h.le
    have := h'.le
    rcases mem_append.mp hid with hid | hid
    · have := h.bounds id hid
      omega
    · have := h'.bounds id hid
      omega

theorem widen {a' b' : Nat} (h : Numbered a b xs) (ha : a' ≤ a) (hb : b ≤ b') :
    Numbered a' b' xs := by
  have := h.le
  refine ⟨by omega, h.sorted, fun id hid => ?_⟩
  have := h.bounds id hid
  omega

theorem nodup (h : Numbered a b xs) : xs.Nodup := h.sorted.imp Nat.ne_of_lt

end Numbered

/-! ## Steps -/

namespace AnalysisState

/-- Names are declared, and nothing is read or called. -/
structure Declares (s s' : AnalysisState) : Prop extends Grows s s' where
  sameReads : s'.outerReads = s.outerReads
  sameCalls : s'.calls = s.calls

variable {s s' s'' : AnalysisState}

theorem Declares.refl (s : AnalysisState) : s.Declares s := ⟨.refl s, rfl, rfl⟩

theorem Declares.trans (h : s.Declares s') (h' : s'.Declares s'') : s.Declares s'' :=
  ⟨h.toGrows.trans h'.toGrows, h'.sameReads.trans h.sameReads, h'.sameCalls.trans h.sameCalls⟩

theorem Reports.declares (h : s.Reports s') : s.Declares s' := ⟨h.grows, h.outerReads, h.calls⟩

/-- Scopes bind names to symbols of that name, which know the number of scopes around. -/
def Spells (symbols : Array Symbol) : List Scope → Prop
  | [] => True
  | scope :: outer => (∀ entry ∈ scope.names, ∃ symbol, symbols[entry.2]? = some symbol ∧
      symbol.name = entry.1 ∧ symbol.depth = outer.length) ∧ Spells symbols outer

/-- In the open scopes names are bound to symbols of that name. -/
structure Spelled (s : AnalysisState) : Prop where
  valid : s.scopes.Valid
  names : Spells s.symbols s.scopes.frames

theorem Spells.mono {symbols symbols' : Array Symbol} {frames : List Scope}
    (h : Spells symbols frames) (hs : ∀ (id : SymbolId) symbol, symbols[id]? = some symbol →
      symbols'[id]? = some symbol) : Spells symbols' frames := by
  induction frames with
  | nil => trivial
  | cons scope outer ih =>
    refine ⟨fun entry hentry => ?_, ih h.2⟩
    obtain ⟨symbol, hsymbol, hname⟩ := h.1 entry hentry
    exact ⟨symbol, hs _ _ hsymbol, hname⟩

theorem Spelled.resolve (h : s.Spelled) {name : String} {binding : Binding}
    (hr : s.scopes.resolve name = .ok binding) : ∃ symbol,
      s.symbols[binding.symbol]? = some symbol ∧ symbol.name = name ∧
        symbol.depth = binding.depth := by
  have hin {open_ : List Nat} (hlt : ∀ i ∈ open_, i < s.scopes.scopes.size)
      (hnames : Spells s.symbols (open_.filterMap (s.scopes.scopes[·]?)))
      (hr : s.scopes.resolveIn name open_ = some binding) : ∃ symbol,
        s.symbols[binding.symbol]? = some symbol ∧ symbol.name = name ∧
          symbol.depth = binding.depth := by
    induction open_ with
    | nil => cases hr
    | cons i outer ih =>
      obtain ⟨hi, houter⟩ := forall_mem_cons.mp hlt
      rw [filterMap_cons, Array.getElem?_eq_getElem hi] at hnames
      rw [ScopeStack.resolveIn, Array.getElem?_eq_getElem hi, Option.bind_some] at hr
      split at hr
      · rename_i id hlookup
        cases hr
        obtain ⟨before, after, heq, -⟩ := lookup_eq_some_iff.mp hlookup
        obtain ⟨symbol, hsymbol, hname, hdepth⟩ := hnames.1 (name, id) (by simp [heq])
        refine ⟨symbol, hsymbol, hname, hdepth.trans ?_⟩
        exact filterMap_length_eq_length.mpr fun j hj => by simpa using houter j hj
      · exact ih houter hnames.2 hr
  unfold ScopeStack.resolve at hr
  split at hr
  · cases hr
    exact hin h.valid.lt h.names ‹_›
  · cases hr

/-- Only the top layer of names grows, by some of the given symbols. -/
def Layered (s s' : AnalysisState) (ids : List SymbolId) : Prop :=
  s.Spelled → s'.Spelled ∧ TopGrows s.scopes.layers s'.scopes.layers ids

theorem Layered.of_top {f : Scope → Scope} {ids : List SymbolId} (hgrows : s.Grows s')
    (hscopes : s.scopes.Valid → s'.scopes.Valid ∧ s'.scopes.frames = s.scopes.frames.modifyHead f)
    (hf : ∀ scope, ∀ entry ∈ (f scope).names, entry ∈ scope.names ∨ entry.2 ∈ ids ∧
      ∃ symbol, s'.symbols[entry.2]? = some symbol ∧ symbol.name = entry.1 ∧
        symbol.depth = s.scopes.depth) : s.Layered s' ids := by
  intro h
  obtain ⟨hvalid, hframes⟩ := hscopes h.valid
  refine ⟨⟨hvalid, ?_⟩, ScopeStack.topGrows hframes fun scope entry hentry =>
    (hf scope entry hentry).imp_right And.left⟩
  have hnames := h.names.mono hgrows.symbols
  have hlength := ScopeStack.length_frames h.valid
  rw [hframes]
  cases hs : s.scopes.frames with
  | nil => trivial
  | cons scope outer =>
    rw [hs] at hnames hlength
    refine ⟨fun entry hentry => ?_, hnames.2⟩
    rcases hf scope entry hentry with hentry | ⟨-, symbol, hsymbol, hname, hdepth⟩
    · exact hnames.1 entry hentry
    · exact ⟨symbol, hsymbol, hname, by rw [hdepth, ScopeStack.depth, ← hlength]; rfl⟩

theorem Layered.of_eq (hgrows : s.Grows s') (h : s'.scopes = s.scopes) (ids : List SymbolId) :
    s.Layered s' ids :=
  .of_top (f := id) hgrows (fun hv => ⟨h ▸ hv, by rw [h, modifyHead_id]; rfl⟩)
    fun _ _ hentry => .inl hentry

theorem Layered.trans {ids ids' : List SymbolId} (h : s.Layered s' ids)
    (h' : s'.Layered s'' ids') : s.Layered s'' (ids ++ ids') := by
  intro hs
  obtain ⟨hs', ht⟩ := h hs
  obtain ⟨hs'', ht'⟩ := h' hs'
  exact ⟨hs'', ht.trans ht'⟩

/-- A scope is opened, something happens in it, and it is closed: the names around stay. -/
def Enclosed (s s' : AnalysisState) (ids : List SymbolId) : Prop :=
  s.Spelled → s'.Spelled ∧ TopGrows ([] :: s.scopes.layers) s'.scopes.layers ids

theorem Enclosed.of_frames {kind : ScopeKind} {state : ScopeState} (hgrows : s.Grows s')
    (hscopes : s.scopes.Valid → s'.scopes.Valid ∧
      s'.scopes.frames = ⟨kind, state, []⟩ :: s.scopes.frames) : s.Enclosed s' [] := by
  intro h
  obtain ⟨hvalid, hframes⟩ := hscopes h.valid
  refine ⟨⟨hvalid, ?_⟩, ?_⟩
  · rw [hframes]
    exact ⟨fun _ hentry => absurd hentry not_mem_nil, h.names.mono hgrows.symbols⟩
  · rw [ScopeStack.layers, ScopeStack.layers, hframes]
    exact .refl _ _

theorem Enclosed.trans {ids ids' : List SymbolId} (h : s.Enclosed s' ids)
    (h' : s'.Layered s'' ids') : s.Enclosed s'' (ids ++ ids') := by
  intro hs
  obtain ⟨hs', ht⟩ := h hs
  obtain ⟨hs'', ht'⟩ := h' hs'
  exact ⟨hs'', ht.trans ht'⟩

end AnalysisState

open AnalysisState

section Steps

variable {s s' : AnalysisState} {construct : Construct}

theorem grows_of_scopes (s : AnalysisState) (scopes : ScopeStack) :
    s.Declares { s with scopes := scopes } :=
  ⟨.notes (fun _ h => h) fun _ h => h, rfl, rfl⟩

theorem openScope_eq (h : openScope kind s = (u, s')) :
    s.Declares s' ∧ s'.symbols = s.symbols ∧ s'.functions = s.functions ∧ s.Enclosed s' [] := by
  cases h
  have hgrows := grows_of_scopes s ((s.scopes.enter kind).setState .declaring)
  exact ⟨hgrows, rfl, rfl, .of_frames hgrows.toGrows fun hv => ScopeStack.frames_open hv kind⟩

theorem enterScope_eq (h : enterScope kind s = (u, s')) :
    s.Declares s' ∧ s'.symbols = s.symbols ∧ s'.functions = s.functions ∧ s.Enclosed s' [] := by
  cases h
  have hgrows := grows_of_scopes s (s.scopes.enter kind)
  exact ⟨hgrows, rfl, rfl, .of_frames hgrows.toGrows fun hv =>
    ⟨ScopeStack.enter_valid hv kind, ScopeStack.frames_enter hv kind⟩⟩

theorem setState_eq {state : ScopeState} (h : modifyScopes (·.setState state) s = (u, s')) :
    s.Declares s' ∧ s'.symbols = s.symbols ∧ s'.functions = s.functions ∧ s.Layered s' [] := by
  cases h
  have hgrows := grows_of_scopes s (s.scopes.setState state)
  exact ⟨hgrows, rfl, rfl, .of_top hgrows.toGrows (fun hv =>
    ⟨ScopeStack.modifyCurrent_valid hv _, ScopeStack.frames_modifyCurrent hv _⟩)
    fun _ _ hentry => .inl hentry⟩

theorem warnUnused_keeps (id : SymbolId) : Keeps Reports (warnUnused id) := by
  refine Keeps.get.andThen fun s => ?_
  split
  · split
    · exact Keeps.report _ _ _ _
    · exact Keeps.pure _
  · exact Keeps.pure _

theorem forM_keeps {α : Type} {f : α → Analyze Unit} (hf : ∀ a, Keeps Reports (f a))
    (xs : List α) : Keeps Reports (xs.forM f) :=
  .forM .refl .trans fun x _ => hf x

theorem leaveScope_eq (h : leaveScope s = (u, s')) :
    s.Declares s' ∧ s'.symbols = s.symbols ∧ s'.functions = s.functions ∧
      (s.Spelled → s'.Spelled ∧ s'.scopes.layers = s.scopes.layers.tail) := by
  replace h := get_bind.mp h
  cases he : s.scopes.exit with
  | error e =>
    simp only [he] at h
    cases pure_eq.mp h
    refine ⟨.refl s, rfl, rfl, fun hs => ⟨hs, ?_⟩⟩
    unfold ScopeStack.exit at he
    split at he
    · rename_i ha
      simp [ScopeStack.layers, ScopeStack.frames, ha]
    · cases he
  | ok left =>
    obtain ⟨symbols, scopes⟩ := left
    simp only [he] at h
    replace h := set_bind.mp h
    have hr := (forM_keeps warnUnused_keeps symbols).of_eq h
    refine ⟨(grows_of_scopes s scopes).trans hr.declares, hr.symbols, hr.functions, fun hs => ?_⟩
    obtain ⟨hvalid, scope, hframes⟩ := ScopeStack.frames_exit hs.valid he
    have hnames := hframes ▸ hs.names
    refine ⟨⟨hr.scopes ▸ hvalid, by rw [hr.scopes, hr.symbols]; exact hnames.2⟩, ?_⟩
    rw [hr.scopes, ScopeStack.layers, ScopeStack.layers, hframes]
    rfl

/-- Leaving a scope that has been opened leaves the names that were there before. -/
theorem Enclosed.leave {s0 : AnalysisState} {ids : List SymbolId} (h : s0.Enclosed s ids)
    (hl : leaveScope s = (u, s')) : s0.Layered s' [] := by
  intro hs
  obtain ⟨hs', ht⟩ := h hs
  obtain ⟨_, _, _, hleave⟩ := leaveScope_eq hl
  obtain ⟨hs'', hlayers⟩ := hleave hs'
  refine ⟨hs'', ?_⟩
  rw [hlayers, ht.tail]
  exact .refl _ _

/-! ## Declarations -/

/-- A new symbol is bound to its name in the innermost scope, unless the name is taken there. -/
structure Binds (s s' : AnalysisState) (symbol : Symbol) : Prop where
  depth : symbol.depth = s.scopes.depth
  bound : s'.scopes = s.scopes ∧ (∃ e, s.scopes.declare symbol.name s.symbols.size = .error e) ∨
    s.scopes.declare symbol.name s.symbols.size = .ok s'.scopes
  adds : ∃ new, s' = { s with
    symbols := s.symbols.push symbol
    scopes := s'.scopes
    diagnostics := s.diagnostics ++ new }

/-- A symbol is declared in the innermost scope. -/
structure Declared (s s' : AnalysisState) (id : SymbolId) (symbol : Symbol) : Prop where
  declares : s.Declares s'
  fresh : id = s.symbols.size
  symbols : s'.symbols = s.symbols.push symbol
  functions : s'.functions = s.functions
  layered : s.Layered s' [id]

theorem Binds.declared (h : Binds s s' symbol) : Declared s s' s.symbols.size symbol := by
  obtain ⟨hdepth, hbound, new, hs'⟩ := h
  have hsymbols : s'.symbols = s.symbols.push symbol := by rw [hs']
  have hgrows : s.Declares s' := by
    rw [hs']
    exact ⟨⟨fun _ _ h => getElem?_push_of_some _ h, fun _ _ h => h, rfl, fun _ h => h,
      fun _ h => h, fun _ h => .inl h, ⟨rfl, rfl⟩, new, rfl⟩, rfl, rfl⟩
  refine ⟨hgrows, rfl, hsymbols, by rw [hs'], ?_⟩
  rcases hbound with ⟨hscopes, -⟩ | hd
  · exact .of_eq hgrows.toGrows hscopes _
  · refine .of_top hgrows.toGrows (fun hv => ScopeStack.frames_declare hv hd)
      fun scope entry hentry => (mem_append.mp hentry).imp_right fun hentry => ?_
    rw [mem_singleton.mp hentry]
    exact ⟨mem_singleton_self _, symbol, by rw [hsymbols, Array.getElem?_push_size], rfl, hdepth⟩

theorem declare_binds {name : Ident} {kind : SymbolKind} {id : SymbolId}
    (h : declare name kind ty mutable owner construct s = (id, s')) : id = s.symbols.size ∧
      Binds s s' ⟨name.name, kind, ty, name.span, s.scopes.depth, mutable, owner, none⟩ := by
  obtain ⟨id', s1, hnew, h⟩ := bind_eq.mp h
  replace h := get_bind.mp h
  cases hnew
  dsimp only at h
  cases hd : s.scopes.declare name.name s.symbols.size with
  | ok scopes =>
    simp only [hd] at h
    cases h
    exact ⟨rfl, rfl, .inr hd, [], by simp⟩
  | error e =>
    cases e with
    | duplicate name' existing =>
      simp only [hd] at h
      cases h
      exact ⟨rfl, rfl, .inl ⟨rfl, _, hd⟩, [_], rfl⟩
    | _ =>
      simp only [hd] at h
      cases h
      exact ⟨rfl, rfl, .inl ⟨rfl, _, hd⟩, [], by simp⟩

theorem bindName_binds {name : String} {kind : SymbolKind} {span : Span}
    (h : (do bindName name (← newSymbol name kind ty span mutable owner) : Analyze Unit) s =
      (u, s'))
    : Binds s s' ⟨name, kind, ty, span, s.scopes.depth, mutable, owner, none⟩ := by
  obtain ⟨id, s1, hnew, h⟩ := bind_eq.mp h
  cases hnew
  have h := modify_eq.mp h
  cases hd : s.scopes.declare name s.symbols.size with
  | ok scopes =>
    simp only [hd] at h
    cases h
    exact ⟨rfl, .inr hd, [], by simp⟩
  | error e =>
    simp only [hd] at h
    cases h
    exact ⟨rfl, .inl ⟨rfl, e, hd⟩, [], by simp⟩

theorem declare_eq {name : Ident} {kind : SymbolKind} {id : SymbolId}
    (h : declare name kind ty mutable owner construct s = (id, s')) :
    ∃ symbol : Symbol, symbol.kind = kind ∧ symbol.ty = ty ∧ symbol.owner = owner ∧
      symbol.slot = none ∧ symbol.name = name.name ∧ Declared s s' id symbol := by
  obtain ⟨rfl, hbinds⟩ := declare_binds h
  exact ⟨_, rfl, rfl, rfl, rfl, rfl, hbinds.declared⟩

/-! ## Functions -/

theorem mapM_keeps {α β : Type} {f : α → Analyze β} (hf : ∀ a, Keeps Reports (f a))
    (xs : List α) : Keeps Reports (xs.mapM f) := by
  induction xs with
  | nil => exact Keeps.pure _
  | cons x xs ih =>
    rw [mapM_cons]
    exact (hf x).andThen fun _ => ih.andThen fun _ => Keeps.pure _

theorem takeMethod_keeps (parent : Option FnId) (name : String) :
    Keeps Reports (takeMethod parent name) :=
  fun _ => ⟨rfl, rfl, rfl, rfl, rfl, rfl, rfl, ⟨rfl, rfl⟩, [], by simp; rfl⟩

theorem freshDecl_keeps : Keeps Reports freshDecl :=
  fun _ => ⟨rfl, rfl, rfl, rfl, rfl, rfl, rfl, ⟨rfl, rfl⟩, [], by simp; rfl⟩

theorem resolveResult_keeps (ret : Option TypeExpr) : Keeps Reports (resolveResult ret) := by
  cases ret with
  | none => exact Keeps.pure _
  | some ty => exact Keeps.resolveType ty

/-- A function is made known in the innermost scope. -/
structure Registered (s s' : AnalysisState) (id : FnId) (info : FunctionInfo) (symbol : Symbol) :
    Prop where
  declares : s.Declares s'
  fresh : id = s.functions.size
  functions : s'.functions = s.functions.push info
  symbols : s'.symbols = s.symbols.push symbol
  kind : symbol.kind = .function id
  ty : symbol.ty = info.signature
  slot : symbol.slot = none
  layered : s.Layered s' [s.symbols.size]

theorem Declares.pushFunction (s : AnalysisState) (info : FunctionInfo) :
    s.Declares { s with functions := s.functions.push info } :=
  ⟨⟨fun _ _ h => h, fun _ _ h => getElem?_push_of_some _ h, rfl, fun _ h => h, fun _ h => h,
    fun _ h => .inl h, ⟨rfl, rfl⟩, [], by simp⟩, rfl, rfl⟩

theorem Registered.getElem? {id : FnId} {info : FunctionInfo}
    (h : Registered s s' id info symbol) : s'.functions[id]? = some info := by
  rw [h.functions, h.fresh, Array.getElem?_push_size]

theorem registerFunction_eq {parent : Option FnId} {decl : DeclId} {id : FnId}
    (h : registerFunction head parent decl s = (id, s')) :
    ∃ params s1 ret s2 info symbol, (head.params.mapM fun p => resolveValueType p.ty) s =
        (params, s1) ∧
      resolveResult head.ret s1 = (ret, s2) ∧ s2.Grows s' ∧ info.params = params ∧
      info.ret = ret ∧ info.parent = parent ∧
      (info.name = head.name.name ∧ info.isExternal = false) ∧
      Registered s s' id info symbol := by
  obtain ⟨params, s1, hparams, h⟩ := bind_eq.mp h
  obtain ⟨ret, s2, hret, h⟩ := bind_eq.mp h
  obtain ⟨method, s3, hmethod, h⟩ := bind_eq.mp h
  obtain ⟨_, s6, hset, h⟩ := bind_eq.mp (get_bind.mp h)
  obtain ⟨x, s7, hdeclare, h⟩ := bind_eq.mp h
  cases pure_eq.mp h
  obtain ⟨rfl, hbinds⟩ := declare_binds hdeclare
  cases hset
  have hd := hbinds.declared
  have hr1 := (mapM_keeps (fun p : Param => Keeps.resolveValueType p.ty) _).of_eq hparams
  have hr2 := (resolveResult_keeps _).of_eq hret
  have hr3 := (takeMethod_keeps _ _).of_eq hmethod
  have hr := (hr1.trans hr2).trans hr3
  have hpush := Declares.pushFunction s3
  have hlayered := (Layered.of_eq hr.grows hr.scopes []).trans
    ((Layered.of_eq (hpush _).toGrows rfl []).trans hd.layered)
  have hsymbols := hd.symbols
  rw [hr.symbols] at hsymbols
  refine ⟨params, s1, ret, s2, _, _, hparams, hret,
    (hr3.declares.trans ((hpush _).trans hd.declares)).toGrows, rfl, rfl, rfl, ⟨rfl, rfl⟩,
    hr.declares.trans ((hpush _).trans hd.declares), by rw [hr.functions], ?_, hsymbols, rfl, rfl,
    rfl, ?_⟩
  · rw [hd.functions, ← hr.functions]
  · rw [← hr.symbols]
    exact hlayered

theorem Declared.size {id : SymbolId} (h : Declared s s' id symbol) :
    s'.symbols.size = s.symbols.size + 1 := by
  rw [h.symbols, Array.size_push]

theorem Declared.getElem? {id : SymbolId} (h : Declared s s' id symbol) :
    s'.symbols[id]? = some symbol := by
  rw [h.symbols, h.fresh, Array.getElem?_push_size]

/-- Functions among some statements are made known in order, each inside of the same one. -/
inductive Registers (parent : Option FnId) :
    AnalysisState → List Stmt → List (Option FnId) → AnalysisState → Prop
  | nil {s : AnalysisState} : Registers parent s [] [] s
  | function {s s0 s1 s' : AnalysisState} {head : FunctionHead} {body stmts : List Stmt}
      {decl : DeclId} {id : FnId} {ids : List (Option FnId)} : s.Reports s0 →
      registerFunction head parent decl s0 = (id, s1) → Registers parent s1 stmts ids s' →
      Registers parent s (.function head body :: stmts) (some id :: ids) s'
  | other {s s' : AnalysisState} {stmt : Stmt} {stmts : List Stmt} {ids : List (Option FnId)} :
      stmt.isFunction = false → Registers parent s stmts ids s' →
      Registers parent s (stmt :: stmts) (none :: ids) s'

theorem registerStmts_registers {body : List Stmt}
    (h : body.mapM (registerStmt parent) s = (ids, s')) : Registers parent s body ids s' := by
  induction body generalizing s ids with
  | nil =>
    cases pure_eq.mp h
    exact .nil
  | cons stmt body ih =>
    rw [mapM_cons] at h
    obtain ⟨id?, s1, hstmt, h⟩ := bind_eq.mp h
    obtain ⟨rest, s2, hrest, h⟩ := bind_eq.mp h
    cases pure_eq.mp h
    cases stmt with
    | function head body =>
      obtain ⟨decl, s3, hdecl, hstmt⟩ := bind_eq.mp hstmt
      obtain ⟨id, s4, hregister, hstmt⟩ := bind_eq.mp hstmt
      cases pure_eq.mp hstmt
      exact .function (freshDecl_keeps.of_eq hdecl) hregister (ih hrest)
    | _ =>
      cases pure_eq.mp hstmt
      exact .other rfl (ih hrest)

theorem Registers.eq {parent : Option FnId} (h : Registers parent s stmts ids s') :
    s.Declares s' ∧ List.Forall₂ (fun stmt id? => stmt.isFunction = Option.isSome id?) stmts ids ∧
      Numbered s.functions.size s'.functions.size (ids.filterMap id) ∧
      ∃ xs, s.Layered s' xs := by
  induction h with
  | nil => exact ⟨.refl _, .nil, .nil (Nat.le_refl _), [], .of_eq (.refl _) rfl _⟩
  | @function s s0 s1 s' _ _ _ _ id ids hreports hregister _ ih =>
    obtain ⟨hdeclares, hforall, hnumbered, xs, hlayered⟩ := ih
    obtain ⟨_, _, _, _, info, symbol, _, _, _, _, _, _, _, hr⟩ := registerFunction_eq hregister
    refine ⟨hreports.declares.trans (hr.declares.trans hdeclares), .cons rfl hforall, ?_,
      _, (Layered.of_eq hreports.grows hreports.scopes []).trans (hr.layered.trans hlayered)⟩
    have hsize : s1.functions.size = s.functions.size + 1 := by
      rw [hr.functions, Array.size_push, hreports.functions]
    obtain rfl : id = s.functions.size := by rw [hr.fresh, hreports.functions]
    exact (Numbered.single (by omega)).append hnumbered
  | other hstmt _ ih =>
    obtain ⟨hdeclares, hforall, hnumbered, xs, hlayered⟩ := ih
    exact ⟨hdeclares, .cons hstmt hforall, hnumbered, xs, hlayered⟩

theorem beginBody_eq {body : List Stmt} (h : beginBody parent body s = (ids, s')) :
    s.Declares s' ∧ List.Forall₂ (fun stmt id? => stmt.isFunction = Option.isSome id?) body ids ∧
      Numbered s.functions.size s'.functions.size (ids.filterMap id) ∧
      ∃ xs, s.Layered s' xs := by
  obtain ⟨_, s1, hbegin, h⟩ := bind_eq.mp h
  obtain ⟨ids', s2, hregister, h⟩ := bind_eq.mp h
  obtain ⟨_, s3, hend, h⟩ := bind_eq.mp h
  cases pure_eq.mp h
  obtain ⟨hd1, _, hf1, hl1⟩ := setState_eq hbegin
  obtain ⟨hd2, hforall, hnumbered, xs, hl2⟩ := (registerStmts_registers hregister).eq
  obtain ⟨hd3, _, hf3, hl3⟩ := setState_eq hend
  refine ⟨hd1.trans (hd2.trans hd3), hforall, ?_, [] ++ (xs ++ []), hl1.trans (hl2.trans hl3)⟩
  rw [← hf1, hf3]
  exact hnumbered

theorem declareParams_eq {id : FnId} {params params' : List Param} {types : List Ty}
    (h : declareParams id params types s = (params', s')) :
    s.Declares s' ∧ s'.functions = s.functions ∧
      Numbered s.symbols.size s'.symbols.size (params'.filterMap Param.symbol) ∧
      s.Layered s' (params'.filterMap Param.symbol) := by
  induction params generalizing s params' types with
  | nil =>
    cases pure_eq.mp h
    exact ⟨.refl _, rfl, .nil (Nat.le_refl _), .of_eq (.refl _) rfl _⟩
  | cons param params ih =>
    obtain ⟨x, s1, hdeclare, h⟩ := bind_eq.mp h
    obtain ⟨rest, s2, hrest, h⟩ := bind_eq.mp h
    cases pure_eq.mp h
    obtain ⟨symbol, _, _, _, _, _, hd⟩ := declare_eq hdeclare
    obtain ⟨hdeclares, hfunctions, hnumbered, hlayered⟩ := ih hrest
    have hsize := hd.size
    refine ⟨hd.declares.trans hdeclares, hfunctions.trans hd.functions, ?_, ?_⟩
    · rw [hsize] at hnumbered
      show Numbered _ _ ([x] ++ rest.filterMap Param.symbol)
      rw [hd.fresh]
      exact (Numbered.single (Nat.lt_succ_self _)).append hnumbered
    · exact hd.layered.trans hlayered

end Steps

/-! ## Statements -/

/-- What the analysis of a statement of a function leaves. -/
structure Stmt.Shape (f : FnId) (s s' : AnalysisState) (id? : Option FnId) (stmt : Stmt) :
    Prop where
  grows : s.Grows s'
  layered : s.Layered s' stmt.own
  symbols : Numbered s.symbols.size s'.symbols.size stmt.declared
  functions : ∀ whole, Numbered s.functions.size s'.functions.size
    ((stmt.homes whole).map Prod.fst)
  number : stmt.id? = id?
  owned : ∀ x ∈ stmt.own, s.symbols.size ≤ x ∧ ∃ symbol, s'.symbols[x]? = some symbol ∧
    symbol.kind = .variable_ ∧ (symbol.owner = none ∨ symbol.owner = some f)

structure Stmt.ShapeAll (f : FnId) (s s' : AnalysisState) (ids : List (Option FnId))
    (stmts : List Stmt) : Prop where
  grows : s.Grows s'
  layered : s.Layered s' (Stmt.ownAll stmts)
  symbols : Numbered s.symbols.size s'.symbols.size (Stmt.declaredAll stmts)
  functions : ∀ whole, Numbered s.functions.size s'.functions.size
    ((Stmt.homesAll whole stmts).map Prod.fst)
  numbers : Stmt.idAll stmts = ids.filterMap id
  owned : ∀ x ∈ Stmt.ownAll stmts, s.symbols.size ≤ x ∧ ∃ symbol, s'.symbols[x]? = some symbol ∧
    symbol.kind = .variable_ ∧ (symbol.owner = none ∨ symbol.owner = some f)

section Statements

variable {ctx : Context} {s s' s'' : AnalysisState}

/-- A scope is opened, and names are declared in it. -/
structure Opened (s s' : AnalysisState) (ids : List SymbolId) : Prop where
  declares : s.Declares s'
  functions : s'.functions = s.functions
  enclosed : s.Enclosed s' ids
  numbered : Numbered s.symbols.size s'.symbols.size ids

/-- The names are what they were. Meanwhile some variables and functions have been numbered. -/
structure Spans (s s' : AnalysisState) (xs : List SymbolId) (fs : List FnId) : Prop where
  grows : s.Grows s'
  layered : s.Layered s' []
  symbols : Numbered s.symbols.size s'.symbols.size xs
  functions : Numbered s.functions.size s'.functions.size fs

theorem Spans.trans {xs' : List SymbolId} {fs fs' : List FnId} (h : Spans s s' xs fs)
    (h' : Spans s' s'' xs' fs') : Spans s s'' (xs ++ xs') (fs ++ fs') :=
  ⟨h.grows.trans h'.grows, h.layered.trans h'.layered, h.symbols.append h'.symbols,
    h.functions.append h'.functions⟩

theorem AnalysisState.Reads.spans {f : FnId} (h : Reads f s s') : Spans s s' [] [] :=
  ⟨h.toGrows, .of_eq h.toGrows h.sameScopes _, .nil h.toGrows.size_le,
    .nil h.toGrows.functions_size_le⟩

theorem Stmt.Shape.of_spans {f : FnId} {id? : Option FnId} (hid : false = Option.isSome id?)
    (h : ∀ whole, Spans s s' stmt.declared ((stmt.homes whole).map Prod.fst)) (hown : stmt.own = [])
    (hnone : stmt.id? = none) : Stmt.Shape f s s' id? stmt :=
  ⟨(h []).grows, hown ▸ (h []).layered, (h []).symbols, fun whole => (h whole).functions,
    hnone.trans (Option.not_isSome_iff_eq_none.mp (by simp [← hid])).symm, hown ▸ nofun⟩

theorem resolveDeclared_keeps (ty : Option TypeExpr) : Keeps Reports (resolveDeclared ty) := by
  cases ty with
  | none => exact Keeps.pure _
  | some ty => exact (Keeps.resolveValueType ty).andThen fun _ => Keeps.pure _

theorem typeVar_keeps (declared : Option Ty) (init : Expr × Ty) :
    Keeps Reports (typeVar declared init) := by
  unfold typeVar
  split
  · exact (Keeps.expectType _ _ _).andThen fun _ => Keeps.pure _
  · split
    · exact Keeps.reportThen _ _ _ _ _
    · exact Keeps.pure _

def analyzeInit (ctx : Context) (decl : VarDecl) : Analyze (Expr × Ty) := do
  let declared ← resolveDeclared decl.ty
  let init ← decl.init.analyze ctx declared
  typeVar declared init

theorem analyzeInit_keeps (decl : VarDecl) : Keeps (Reads ctx.function) (analyzeInit ctx decl) :=
  (resolveDeclared_keeps _).reads.followedBy fun _ => (Keeps.analyze _ _ _).followedBy
    fun _ => (typeVar_keeps _ _).reads

/-- A variable declaration: its initial value is analysed, and then its name is declared. -/
theorem analyzeVar_eq {decl decl' : VarDecl} (h : analyzeVar ctx decl s = (decl', s')) :
    ∃ init ty s1 id symbol, analyzeInit ctx decl s = ((init, ty), s1) ∧ decl'.init = init ∧
      decl'.symbol = some id ∧ symbol.kind = .variable_ ∧ symbol.ty = ty ∧
      (symbol.owner = none ∨ symbol.owner = some ctx.function) ∧ symbol.slot = none ∧
      symbol.name = decl'.name.name ∧ Declared s1 s' id symbol := by
  have hparts : analyzeVar ctx decl = (do
      let x ← analyzeInit ctx decl
      let isGlobal ← atTopLevel
      let id ← declare decl.name .variable_ x.2 decl.mutable
        (if isGlobal then none else some ctx.function) .variable_
      if isGlobal then modify fun s => { s with globals := s.globals ++ [id] }
      return { decl with init := x.1, symbol := some id }) := rfl
  rw [hparts] at h
  obtain ⟨⟨init, ty⟩, s1, hinit, h⟩ := bind_eq.mp h
  obtain ⟨isGlobal, s2, htop, h⟩ := bind_eq.mp h
  obtain ⟨id, s3, hdeclare, h⟩ := bind_eq.mp h
  obtain rfl : s2 = s1 := by cases htop; rfl
  obtain ⟨symbol, hkind, hty, howner, hslot, hname, hd⟩ := declare_eq hdeclare
  refine ⟨init, ty, s2, id, symbol, hinit, ?_⟩
  cases isGlobal with
  | false =>
    cases pure_eq.mp h
    exact ⟨rfl, rfl, hkind, hty, .inr howner, hslot, hname, hd⟩
  | true =>
    obtain ⟨_, _, hmodify, h⟩ := bind_eq.mp h
    cases pure_eq.mp h
    cases hmodify
    refine ⟨rfl, rfl, hkind, hty, .inl howner, hslot, hname, hd.declares.trans ?_, hd.fresh,
      hd.symbols, hd.functions, fun hs => ?_⟩
    rotate_left
    · obtain ⟨hs', ht⟩ := hd.layered hs
      exact ⟨⟨hs'.valid, hs'.names⟩, ht⟩
    refine ⟨⟨fun _ _ h => h, fun _ _ h => h, rfl, fun _ h => h, fun _ h => h, fun x hx => ?_,
      ⟨rfl, rfl⟩, [], by simp⟩, rfl, rfl⟩
    rcases mem_append.mp hx with hx | hx
    · exact .inl hx
    · obtain rfl := mem_singleton.mp hx
      exact .inr ⟨symbol, hd.getElem?, hkind⟩

theorem analyzeCondition_keeps (construct : Construct) (cond : Expr) :
    Keeps (Reads ctx.function) (analyzeCondition ctx construct cond) :=
  (Keeps.analyze _ _ _).followedBy fun _ => (Keeps.expectType _ _ _).reads

theorem analyzeRange_keeps (first last : Expr) :
    Keeps (Reads ctx.function) (analyzeRange ctx first last) := by
  refine (Keeps.analyze _ _ _).followedBy fun ⟨_, _⟩ =>
    (Keeps.analyze _ _ _).followedBy fun ⟨_, _⟩ => Keeps.reads ?_
  dsimp only
  split
  · exact Keeps.pure _
  · split
    · exact Keeps.pure _
    · exact Keeps.reportThen _ _ _ _ _

theorem analyzeReturn_keeps (span : Span) (value : Option Expr) :
    Keeps (Reads ctx.function) (analyzeReturn ctx span value) := by
  unfold analyzeReturn
  split
  · refine (Keeps.report _ _ _ _).reads.followedBy fun _ => ?_
    cases value with
    | none => exact (Keeps.pure _).reads
    | some value =>
      exact (Keeps.analyze _ _ _).followedBy fun _ => (Keeps.pure _).reads
  · refine Keeps.get.reads.followedBy fun s => ?_
    cases value with
    | none =>
      dsimp only
      split
      · exact (Keeps.reportThen _ _ _ _ _).reads
      · exact (Keeps.pure _).reads
    | some value =>
      refine (Keeps.analyze _ _ _).followedBy fun ⟨_, _⟩ => Keeps.reads ?_
      dsimp only
      split
      · exact Keeps.reportThen _ _ _ _ _
      · exact (Keeps.expectType _ _ _).andThen fun _ => Keeps.pure _

theorem analyzeAssignedName_keeps (span : Span) (ref : NameRef) :
    Keeps Reports (analyzeAssignedName ctx span ref) := by
  refine (Keeps.lookupName _).andThen fun found => ?_
  split
  · exact Keeps.reportThen _ _ _ _ _
  · split
    · exact Keeps.pure _
    · rename_i symbol
      dsimp only
      cases assignProblem? ctx symbol with
      | none => exact Keeps.pure _
      | some problem => exact Keeps.reportThen _ _ _ _ _

theorem analyzeTarget_keeps (target : Expr) :
    Keeps (Reads ctx.function) (analyzeTarget ctx target) := by
  unfold analyzeTarget
  split
  · exact ((analyzeAssignedName_keeps _ _).andThen fun _ => Keeps.pure _).reads
  · exact Keeps.analyze _ _ _
  · exact Keeps.analyze _ _ _
  · exact (Keeps.report _ _ _ _).reads.followedBy fun _ =>
      (Keeps.analyze _ _ _).followedBy fun _ => (Keeps.pure _).reads

theorem analyzeAssign_keeps (target value : Expr) :
    Keeps (Reads ctx.function) (analyzeAssign ctx target value) :=
  (analyzeTarget_keeps _).followedBy fun _ => (Keeps.analyze _ _ _).followedBy fun _ =>
    ((Keeps.expectType _ _ _).andThen fun _ => Keeps.pure _).reads

theorem beginFunction_eq {id : FnId} {head' : FunctionHead}
    (h : beginFunction id head s = (head', s')) : ∃ s1 params, s.Declares s1 ∧
      s1.symbols = s.symbols ∧ s1.functions = s.functions ∧ s.Enclosed s1 [] ∧
      declareParams id head.params (((s.functions[id]?).map FunctionInfo.params).getD []) s1 =
        (params, s') ∧ head' = { head with id := some id, params := params } := by
  obtain ⟨_, s1, hopen, h⟩ := bind_eq.mp h
  obtain ⟨params, s4, hparams, h⟩ := bind_eq.mp (get_bind.mp h)
  cases pure_eq.mp h
  obtain ⟨hd, hsymbols, hfunctions, henclosed⟩ := openScope_eq hopen
  refine ⟨s1, params, hd, hsymbols, hfunctions, henclosed, ?_, rfl⟩
  rw [← hfunctions]
  exact hparams

/-- The end of a function: something may be reported, and its scope is left. -/
theorem endFunction_eq {id : FnId} (h : endFunction id head flow s = (u, s')) :
    ∃ s1, s.Reports s1 ∧ leaveScope s1 = ((), s') := by
  replace h := get_bind.mp h
  dsimp only at h
  split_ifs at h
  · obtain ⟨_, s1, hreport, h⟩ := bind_eq.mp h
    exact ⟨s1, (Keeps.report _ _ _ _).of_eq hreport, h⟩
  · exact ⟨s, .refl s, h⟩

theorem analyzeList_cons {id? : Option FnId}
    (h : Stmt.analyzeList ctx flow warned (id? :: ids) (stmt :: stmts) s =
      ((stmts', flow'), s')) : ∃ s1 stmt' stmtFlow s2 warned' rest, s.Reports s1 ∧
      stmt.analyze ctx id? s1 = ((stmt', stmtFlow), s2) ∧
      Stmt.analyzeList ctx (flow.andThen stmtFlow) warned' ids stmts s2 = ((rest, flow'), s') ∧
      stmts' = stmt' :: rest := by
  rw [Stmt.analyzeList] at h
  dsimp only [head?_cons, Option.join_some, tail_cons] at h
  split_ifs at h
  · cases h
    exact ⟨(warnUnreachable stmt s).2, _, _, _, _, _, Keeps.report _ _ _ _ s, rfl, rfl, rfl⟩
  · cases h
    exact ⟨s, _, _, _, _, _, .refl s, rfl, rfl, rfl⟩

/-- The analysis of a statement leaves what it should. The number of a function is known. -/
def Stmt.Shapes (stmt : Stmt) : Prop :=
  ∀ ⦃ctx id? s stmt' flow s'⦄, stmt.analyze ctx id? s = ((stmt', flow), s') →
    stmt.isFunction = Option.isSome id? → Stmt.Shape ctx.function s s' id? stmt'

theorem analyzeList_shape (hstmts : ∀ stmt ∈ stmts, stmt.Shapes)
    (h : Stmt.analyzeList ctx flow warned ids stmts s = ((stmts', flow'), s'))
    (hids : List.Forall₂ (fun stmt id? => stmt.isFunction = Option.isSome id?) stmts ids) :
    Stmt.ShapeAll ctx.function s s' ids stmts' := by
  induction stmts generalizing s flow warned ids stmts' with
  | nil =>
    rw [Stmt.analyzeList] at h
    cases pure_eq.mp h
    cases hids
    exact ⟨.refl _, .of_eq (.refl _) rfl _, .nil (Nat.le_refl _),
      fun _ => .nil (Nat.le_refl _), rfl, nofun⟩
  | cons stmt stmts ih =>
    obtain _ | @⟨_, id?, _, ids, hid, hids⟩ := hids
    obtain ⟨s1, stmt', stmtFlow, s2, warned1, rest, hreports, hstmt, hrest, rfl⟩ :=
      analyzeList_cons h
    have hfirst := hstmts stmt mem_cons_self hstmt hid
    have hothers := ih (fun stmt h => hstmts stmt (mem_cons_of_mem _ h)) hrest hids
    have hgrows := hfirst.grows.trans hothers.grows
    refine ⟨hreports.grows.trans hgrows, ?_, ?_, fun whole => ?_, ?_, fun x hx => ?_⟩
    · exact (Layered.of_eq hreports.grows hreports.scopes []).trans
        (hfirst.layered.trans hothers.layered)
    · rw [← hreports.symbols]
      exact hfirst.symbols.append hothers.symbols
    · rw [← hreports.functions, Stmt.homesAll, map_append]
      exact (hfirst.functions whole).append (hothers.functions whole)
    · show List.filterMap Stmt.id? (stmt' :: rest) = _
      rw [filterMap_cons, filterMap_cons, hfirst.number]
      cases id? with
      | none => exact hothers.numbers
      | some id => exact congrArg (id :: ·) hothers.numbers
    · rw [← hreports.symbols]
      rcases mem_append.mp (show x ∈ stmt'.own ++ Stmt.ownAll rest from hx) with hx | hx
      · obtain ⟨hle, symbol, hsymbol, howned⟩ := hfirst.owned x hx
        exact ⟨hle, symbol, hothers.grows.symbols _ _ hsymbol, howned⟩
      · obtain ⟨hle, howned⟩ := hothers.owned x hx
        exact ⟨Nat.le_trans hfirst.grows.size_le hle, howned⟩

theorem scopedAll_shape (hstmts : ∀ stmt ∈ stmts, stmt.Shapes)
    (hbegin : beginBody parent stmts s = (ids, s1))
    (h : Stmt.analyzeList ctx flow warned ids stmts s1 = ((stmts', flow'), s')) :
    s.Grows s' ∧ (∃ xs, s.Layered s' xs) ∧
      Numbered s.symbols.size s'.symbols.size (Stmt.declaredAll stmts') ∧
      ∀ whole, Numbered s.functions.size s'.functions.size
        (((Stmt.idAll stmts').map (·, whole) ++ Stmt.homesAll whole stmts').map Prod.fst) := by
  obtain ⟨hdeclares, hforall, hnumbered, xs, hlayered⟩ := beginBody_eq hbegin
  have hshape := analyzeList_shape hstmts h hforall
  refine ⟨hdeclares.toGrows.trans hshape.grows, ⟨_, hlayered.trans hshape.layered⟩,
    hshape.symbols.widen hdeclares.toGrows.size_le (Nat.le_refl _), fun whole => ?_⟩
  have hids : ((Stmt.idAll stmts').map (·, whole)).map Prod.fst = ids.filterMap id := by
    rw [hshape.numbers, map_map]
    exact map_id _
  rw [map_append, hids]
  exact hnumbered.append (hshape.functions whole)

theorem Opened.leave {s2 s3 s4 : AnalysisState} (ho : Opened s s1 xs)
    (hstmts : ∀ stmt ∈ stmts, stmt.Shapes) (hbegin : beginBody parent stmts s1 = (ids, s2))
    (h : Stmt.analyzeList ctx .normal false ids stmts s2 = ((stmts', flow), s3))
    (hr : s3.Reports s4) (hleave : leaveScope s4 = (u, s')) (whole : List SymbolId) :
    Spans s s' (xs ++ Stmt.declaredAll stmts')
      (((Stmt.idAll stmts').map (·, whole) ++ Stmt.homesAll whole stmts').map Prod.fst) := by
  obtain ⟨hgrows, ⟨ys, hlayered⟩, hsymbols, hfunctions⟩ := scopedAll_shape hstmts hbegin h
  obtain ⟨hd, hsymbols', hfunctions', _⟩ := leaveScope_eq hleave
  refine ⟨ho.declares.toGrows.trans (hgrows.trans (hr.grows.trans hd.toGrows)),
    Enclosed.leave ((ho.enclosed.trans hlayered).trans (.of_eq hr.grows hr.scopes [])) hleave, ?_,
      ?_⟩
  · rw [hsymbols', hr.symbols]
    exact ho.numbered.append hsymbols
  · rw [hfunctions', hr.functions, ← ho.functions]
    exact hfunctions whole

theorem analyzeList_single {stmt' : Stmt}
    (h : stmt.analyze ctx ids.head?.join s = ((stmt', flow), s')) :
    Stmt.analyzeList ctx .normal false ids [stmt] s = (([stmt'], flow), s') := by
  simp [Stmt.analyzeList, map_apply, h, Flow.normal, Flow.andThen]

theorem Opened.leaveSingle {stmt' : Stmt} {s2 s3 : AnalysisState} (ho : Opened s s1 xs)
    (hstmt : stmt.Shapes) (hbegin : beginBody parent [stmt] s1 = (ids, s2))
    (h : stmt.analyze ctx ids.head?.join s2 = ((stmt', flow), s3))
    (hleave : leaveScope s3 = (u, s')) (whole : List SymbolId) : Spans s s' (xs ++ stmt'.declared)
      ((stmt'.id?.toList.map (·, whole) ++ stmt'.homes whole).map Prod.fst) := by
  have hspans := ho.leave (by simpa using hstmt) hbegin (analyzeList_single h)
    (.refl _) hleave whole
  cases hid : stmt'.id? <;>
    simpa [Stmt.declaredAll, Stmt.homesAll, Stmt.idAll, hid] using hspans

theorem enterScope_opened (h : enterScope kind s = (u, s')) : Opened s s' [] := by
  obtain ⟨hd, hsymbols, hfunctions, henclosed⟩ := enterScope_eq h
  exact ⟨hd, hfunctions, henclosed, hsymbols ▸ .nil (Nat.le_refl _)⟩

theorem openRange_opened {id : SymbolId} (h : openScope kind s = (u, s1))
    (hd : Declared s1 s' id symbol) : Opened s s' ([] ++ [id]) := by
  obtain ⟨hd1, hsymbols, hfunctions, henclosed⟩ := openScope_eq h
  refine ⟨hd1.trans hd.declares, hd.functions.trans hfunctions, henclosed.trans hd.layered, ?_⟩
  rw [hd.size, hd.fresh, hsymbols]
  exact .single (Nat.lt_succ_self _)

/-- The scope of a function is opened, and its parameters are declared. -/
theorem beginFunction_opened {id : FnId} {head' : FunctionHead}
    (h : beginFunction id head s = (head', s')) :
    Opened s s' ([] ++ head'.params.filterMap Param.symbol) := by
  obtain ⟨s1, params, hd1, hsymbols, hfunctions, henclosed, hparams, rfl⟩ := beginFunction_eq h
  obtain ⟨hd2, hfunctions2, hnumbered, hlayered⟩ := declareParams_eq hparams
  exact ⟨hd1.trans hd2, hfunctions2.trans hfunctions, henclosed.trans hlayered,
    hsymbols ▸ hnumbered⟩

/-- **The analysis of a statement adds what it declares to the innermost scope, and numbers all
variables and functions inside of it in order.** -/
theorem Stmt.shapes (stmt : Stmt) : stmt.Shapes := by
  intro ctx id? s stmt' flow s' h hid
  induction stmt generalizing ctx id? s stmt' flow s' with
  | var decl =>
    simp only [Stmt.analyze, bind_eq, pure_eq, Prod.mk.injEq] at h
    obtain ⟨decl', _, hvar, ⟨rfl, rfl⟩, rfl⟩ := h
    obtain ⟨init, ty, s1, id, symbol, hinit, _, hsymbol, hkind, _, howner, _, _, hd⟩ :=
      analyzeVar_eq hvar
    have hreads := (analyzeInit_keeps _).of_eq hinit
    refine ⟨hreads.toGrows.trans hd.declares.toGrows, ?_, ?_, fun _ => .nil ?_,
      (Option.isSome_eq_false_iff.mp hid.symm |> Option.isNone_iff_eq_none.mp).symm, ?_⟩
    · rw [Stmt.own, hsymbol]
      exact (Layered.of_eq hreads.toGrows hreads.sameScopes []).trans hd.layered
    · rw [Stmt.declared, hsymbol, hd.fresh, hreads.sameSymbols, hd.size, hreads.sameSymbols]
      exact .single (Nat.lt_succ_self _)
    · exact Nat.le_of_eq (by rw [hd.functions, hreads.sameFunctions])
    · rw [Stmt.own, hsymbol]
      rintro x hx
      obtain rfl := mem_singleton.mp hx
      exact ⟨Nat.le_of_eq (by rw [hd.fresh, hreads.sameSymbols]), symbol, hd.getElem?, hkind,
        howner⟩
  | function head body ih =>
    obtain ⟨id, rfl⟩ : ∃ id, id? = some id := Option.isSome_iff_exists.mp hid.symm
    simp only [Stmt.analyze, bind_eq, pure_eq, Prod.exists, Prod.mk.injEq] at h
    obtain ⟨_, _, hnumber, head', s2, hbegin, ids, s3, hbody, body', flow', s4, hlist, _, s5, hend,
      ⟨rfl, rfl⟩, rfl⟩ := h
    cases pure_eq.mp hnumber
    obtain ⟨_, _, _, _, _, _, _, hhead⟩ := beginFunction_eq hbegin
    obtain ⟨s6, hreports, hleave⟩ := endFunction_eq hend
    have hspans := (beginFunction_opened hbegin).leave ih hbody hlist hreports hleave
    exact ⟨(hspans []).grows, (hspans []).layered, (hspans []).symbols,
      fun _ => (hspans _).functions, by rw [hhead]; rfl, nofun⟩
  | block span body ih =>
    simp only [Stmt.analyze, bind_eq, pure_eq, Prod.exists, Prod.mk.injEq] at h
    obtain ⟨_, s1, henter, ids, s2, hbegin, body', flow', s3, hlist, _, s4, hleave, ⟨rfl, rfl⟩,
      rfl⟩ := h
    exact .of_spans hid (fun _ => (enterScope_opened henter).leave ih hbegin hlist
      (.refl _) hleave _) rfl rfl
  | branch span cond yes no ihyes ihno =>
    simp only [Stmt.analyze, bind_eq, Prod.exists] at h
    obtain ⟨cond', s1, hcond, _, s2, henter, ids, s3, hbegin, yes', yesFlow, s4, hyes,
      _, s5, hleave, h⟩ := h
    have hfirst := fun whole => ((analyzeCondition_keeps _ _).of_eq hcond).spans.trans
      ((enterScope_opened henter).leaveSingle ihyes hbegin hyes hleave whole)
    cases no with
    | none =>
      cases pure_eq.mp h
      exact .of_spans hid (fun _ => hfirst _) rfl rfl
    | some no =>
      simp only [bind_eq, pure_eq, Prod.exists, Prod.mk.injEq] at h
      obtain ⟨_, s6, henter, ids, s7, hbegin, no', noFlow, s8, hno, _, s9, hleave, ⟨rfl, rfl⟩,
        rfl⟩ := h
      refine .of_spans hid (fun whole => ?_) rfl rfl
      rw [Stmt.homes, map_append]
      exact (hfirst _).trans
        ((enterScope_opened henter).leaveSingle (ihno no rfl) hbegin hno hleave _)
  | loop span cond body ih =>
    simp only [Stmt.analyze, bind_eq, pure_eq, Prod.exists, Prod.mk.injEq] at h
    obtain ⟨cond', s1, hcond, _, s2, henter, ids, s3, hbegin, body', bodyFlow, s4, hbody, _, s5,
      hleave, ⟨rfl, rfl⟩, rfl⟩ := h
    exact .of_spans hid (fun _ => ((analyzeCondition_keeps _ _).of_eq hcond).spans.trans
      ((enterScope_opened henter).leaveSingle ih hbegin hbody hleave _)) rfl rfl
  | range span loopVar first last body ih =>
    simp only [Stmt.analyze, bind_eq, pure_eq, Prod.exists, Prod.mk.injEq] at h
    obtain ⟨first', last', ty, s1, hrange, _, s2, hopen, x, s3, hdeclare, ids, s4, hbegin, body',
      bodyFlow, s5, hbody, _, s6, hleave, ⟨rfl, rfl⟩, rfl⟩ := h
    obtain ⟨symbol, _, _, _, _, _, hd⟩ := declare_eq hdeclare
    exact .of_spans hid (fun _ => ((analyzeRange_keeps _ _).of_eq hrange).spans.trans
      ((openRange_opened hopen hd).leaveSingle ih hbegin hbody hleave _)) rfl rfl
  | ret span value =>
    simp only [Stmt.analyze, bind_eq, pure_eq, Prod.mk.injEq] at h
    obtain ⟨value', _, hvalue, ⟨rfl, rfl⟩, rfl⟩ := h
    exact .of_spans hid (fun _ => ((analyzeReturn_keeps _ _).of_eq hvalue).spans) rfl rfl
  | leave span | next span =>
    rw [Stmt.analyze] at h
    split_ifs at h <;> cases h
    all_goals refine .of_spans hid (fun _ => Reads.spans (f := ctx.function) ?_) rfl rfl
    all_goals first | exact .refl _ | exact (Keeps.report _ _ _ _ _).reads
  | assign span target value =>
    simp only [Stmt.analyze, bind_eq, pure_eq, Prod.exists, Prod.mk.injEq] at h
    obtain ⟨target', value', _, hassign, ⟨rfl, rfl⟩, rfl⟩ := h
    exact .of_spans hid (fun _ => ((analyzeAssign_keeps _ _).of_eq hassign).spans) rfl rfl
  | expr value =>
    simp only [Stmt.analyze, bind_eq, pure_eq, Prod.exists, Prod.mk.injEq] at h
    obtain ⟨value', ty, _, hvalue, ⟨rfl, rfl⟩, rfl⟩ := h
    exact .of_spans hid (fun _ => ((Keeps.analyze _ _ _).of_eq hvalue).spans) rfl rfl

end Statements

end StackCompiler

import Mathlib.Logic.Relation
import StackCompiler.Proofs.UnitNames
import StackCompiler.Proofs.UnitSound

/-!
# Functions inside of functions

What a function can find belongs to itself or to a function around it. A function that it can call
stands right inside of such a function, or at the top of the unit. This holds throughout an
analysis, whatever is wrong with the unit: every open scope has a function at home in it, and what
the scope declares belongs to that function.

* **`Stmt.analyze_stage`**: statements keep to the scopes around them;
* **`SourceUnit.recorded_nested`**: in every unit functions read and call what stands around them.
-/

namespace StackCompiler

open Analyze List

variable {s s' : AnalysisState} {ctx : Context} {f id : FnId} {ids : List (Option FnId)}
  {inner : List FnId} {stmts : List Stmt} {stmt : Stmt}

def Inside (functions : Array FunctionInfo) (f g : FnId) : Prop :=
  ∃ info, functions[f]? = some info ∧ info.parent = some g

/-- A function is another one or stands inside of it, maybe through functions between them. -/
abbrev Within (functions : Array FunctionInfo) : FnId → FnId → Prop :=
  Relation.ReflTransGen (Inside functions)

/-- An open scope: the function whose variables it declares, if any, and functions whose code stands
in it. -/
structure Level where
  kind : ScopeKind
  home : Option FnId
  inner : List FnId

namespace AnalysisState

def AtTop (s : AnalysisState) (f : FnId) : Prop :=
  ∃ info, s.functions[f]? = some info ∧ info.parent = none

/-- Functions read what belongs to functions around them, and call what stands right inside of
themselves, of functions around them, or at the top. -/
structure Nested (s : AnalysisState) : Prop where
  main : s.AtTop FnId.main
  reads : ∀ read ∈ s.outerReads, (∃ info, s.functions[read.1]? = some info) ∧
    ∃ symbol g, s.symbols[read.2]? = some symbol ∧ symbol.owner = some g ∧ g ≠ read.1 ∧
      Within s.functions read.1 g
  calls : ∀ site ∈ s.calls, (∃ info, s.functions[site.caller]? = some info) ∧
    ∃ info, s.functions[site.callee]? = some info ∧
      ∀ g, info.parent = some g → Within s.functions site.caller g

/-- The symbol belongs to the function that is at home, and so does the function that it names. -/
def Fits (s : AnalysisState) (home : Option FnId) (x : SymbolId) : Prop :=
  ∃ symbol, s.symbols[x]? = some symbol ∧ (∀ g, symbol.owner = some g → home = some g) ∧
    ∀ f, symbol.kind = .function f →
      ∃ info, s.functions[f]? = some info ∧ ∀ g, info.parent = some g → home = some g

/-- The open scopes are these, and what they declare fits them. Code in a scope stands inside of all
functions around. -/
structure Stage (levels : List Level) (s : AnalysisState) : Prop where
  valid : s.scopes.Valid
  scopes : List.Forall₂ (fun scope (level : Level) => scope.kind = level.kind ∧
    ∀ entry ∈ scope.names, s.Fits level.home entry.2) s.scopes.frames levels
  within : ∀ level outer, (level :: outer) <:+ levels → ∀ f ∈ level.inner,
    (∃ info, s.functions[f]? = some info) ∧
      ∀ other ∈ level :: outer, ∀ g, other.home = some g → Within s.functions f g
  nested : s.Nested

/-- No symbol or function changes, and some may be new. -/
structure Adds (s s' : AnalysisState) : Prop where
  symbols : ∀ (x : SymbolId) (symbol : Symbol), s.symbols[x]? = some symbol →
    s'.symbols[x]? = some symbol
  functions : ∀ (f : FnId) (info : FunctionInfo), s.functions[f]? = some info →
    s'.functions[f]? = some info

variable {s s' : AnalysisState} {top : Level} {levels : List Level}

theorem Grows.adds (h : s.Grows s') : s.Adds s' := ⟨h.symbols, h.functions⟩

theorem Adds.within (h : s.Adds s') {g : FnId} (hw : Within s.functions f g) :
    Within s'.functions f g := by
  refine Relation.ReflTransGen.mono (fun f g => ?_) _ _ hw
  rintro ⟨info, hinfo, hparent⟩
  exact ⟨info, h.functions _ _ hinfo, hparent⟩

theorem Adds.fits (h : s.Adds s') {home : Option FnId} {x : SymbolId} (hx : s.Fits home x) :
    s'.Fits home x := by
  obtain ⟨symbol, hsymbol, howner, hkind⟩ := hx
  refine ⟨symbol, h.symbols _ _ hsymbol, howner, fun f hf => ?_⟩
  obtain ⟨info, hinfo, hparent⟩ := hkind f hf
  exact ⟨info, h.functions _ _ hinfo, hparent⟩

theorem Adds.atTop (h : s.Adds s') (hf : s.AtTop f) : s'.AtTop f := by
  obtain ⟨info, hinfo, hparent⟩ := hf
  exact ⟨info, h.functions _ _ hinfo, hparent⟩

namespace Stage

theorem adds (h : s.Stage levels) (ha : s.Adds s') (hscopes : s'.scopes = s.scopes)
    (hreads : s'.outerReads = s.outerReads) (hcalls : s'.calls = s.calls) : s'.Stage levels := by
  refine ⟨hscopes ▸ h.valid, ?_, fun level outer hsuffix f hf => ?_,
    ⟨ha.atTop h.nested.main, hreads ▸ ?_, hcalls ▸ ?_⟩⟩
  · rw [hscopes]
    exact h.scopes.imp fun _ _ hscope => ⟨hscope.1, fun entry hentry =>
      ha.fits (hscope.2 entry hentry)⟩
  · obtain ⟨⟨info, hinfo⟩, haround⟩ := h.within level outer hsuffix f hf
    exact ⟨⟨info, ha.functions _ _ hinfo⟩,
      fun other hother g hg => ha.within (haround other hother g hg)⟩
  · intro read hread
    obtain ⟨⟨info, hinfo⟩, symbol, g, hsymbol, howner, hne, hwithin⟩ := h.nested.reads read hread
    exact ⟨⟨info, ha.functions _ _ hinfo⟩, symbol, g, ha.symbols _ _ hsymbol, howner, hne,
      ha.within hwithin⟩
  · intro site hsite
    obtain ⟨⟨info, hinfo⟩, info', hinfo', hparent⟩ := h.nested.calls site hsite
    exact ⟨⟨info, ha.functions _ _ hinfo⟩, info', ha.functions _ _ hinfo',
      fun g hg => ha.within (hparent g hg)⟩

theorem reports (h : s.Stage levels) (hr : s.Reports s') : s'.Stage levels :=
  h.adds hr.grows.adds hr.scopes hr.outerReads hr.calls

theorem found (h : s.Stage levels) {x : SymbolId} (hx : x ∈ s.scopes.layers.flatten) :
    ∃ level ∈ levels, s.Fits level.home x := by
  obtain ⟨layer, hlayer, hx⟩ := mem_flatten.mp hx
  obtain ⟨scope, hscope, rfl⟩ := mem_map.mp hlayer
  obtain ⟨entry, hentry, rfl⟩ := mem_map.mp hx
  have hscopes := h.scopes
  clear h
  generalize s.scopes.frames = frames at hscope hscopes
  induction hscopes with
  | nil => cases hscope
  | @cons _ level _ _ hfirst _ ih =>
    rcases mem_cons.mp hscope with rfl | hscope
    · exact ⟨level, mem_cons_self, hfirst.2 entry hentry⟩
    · obtain ⟨level', hlevel', hfits⟩ := ih hscope
      exact ⟨level', mem_cons_of_mem _ hlevel', hfits⟩

/-- Code of a function in the innermost scope reads and calls what it can find. -/
theorem reads (h : s.Stage (top :: levels)) (hf : f ∈ top.inner) (hr : Reads f s s') :
    s'.Stage (top :: levels) := by
  obtain ⟨hregistered, haround⟩ := h.within top levels suffix_rfl f hf
  have hnested : s'.Nested := by
    refine ⟨hr.toGrows.adds.atTop h.nested.main, ?_, ?_⟩
    · rw [hr.sameFunctions, hr.sameSymbols]
      intro read hread
      rcases hr.newReads read hread with hread | ⟨rfl, hlayer, symbol, hsymbol, hlocal, howner⟩
      · exact h.nested.reads read hread
      obtain ⟨level, hlevel, symbol', hsymbol', hhome, -⟩ := h.found hlayer
      cases hsymbol.symm.trans hsymbol'
      obtain ⟨g, hg⟩ : ∃ g, symbol.owner = some g :=
        Option.isSome_iff_exists.mp (by simpa using (Bool.and_eq_true_iff.mp hlocal).2)
      exact ⟨hregistered, symbol, g, hsymbol, hg, fun he => howner (he ▸ hg),
        haround level hlevel g (hhome g hg)⟩
    · rw [hr.sameFunctions]
      intro site hsite
      rcases hr.newCalls site hsite with hsite | ⟨rfl, x, hlayer, symbol, hsymbol, hkind⟩
      · exact h.nested.calls site hsite
      obtain ⟨level, hlevel, symbol', hsymbol', -, hnamed⟩ := h.found hlayer
      cases hsymbol.symm.trans hsymbol'
      obtain ⟨info, hinfo, hparent⟩ := hnamed _ hkind
      exact ⟨hregistered, info, hinfo, fun g hg => haround level hlevel g (hparent g hg)⟩
  refine ⟨hr.sameScopes ▸ h.valid, ?_, ?_, hnested⟩
  · rw [hr.sameScopes]
    exact h.scopes.imp fun _ _ hscope => ⟨hscope.1, fun entry hentry =>
      hr.toGrows.adds.fits (hscope.2 entry hentry)⟩
  · rw [hr.sameFunctions]
    exact h.within

theorem modifyCurrent (h : s.Stage (top :: levels)) {f : Scope → Scope}
    (hkind : ∀ scope, (f scope).kind = scope.kind)
    (hnames : ∀ scope, ∀ entry ∈ (f scope).names, entry ∈ scope.names ∨ s.Fits top.home entry.2) :
    ({ s with scopes := s.scopes.modifyCurrent f } : AnalysisState).Stage (top :: levels) := by
  obtain ⟨scope, outer, ⟨hk, hfits⟩, hothers, hframes⟩ := forall₂_cons_right_iff.mp h.scopes
  refine ⟨ScopeStack.modifyCurrent_valid h.valid f, ?_, h.within,
    ⟨h.nested.main, h.nested.reads, h.nested.calls⟩⟩
  rw [ScopeStack.frames_modifyCurrent h.valid, hframes]
  refine .cons ⟨(hkind scope).trans hk, fun entry hentry => ?_⟩ hothers
  rcases hnames scope entry hentry with hentry | hentry
  · exact hfits entry hentry
  · exact hentry

theorem enter (h : s.Stage levels) (kind : ScopeKind) (home : Option FnId)
    (hinner : ∀ f ∈ inner, (∃ info, s.functions[f]? = some info) ∧
      ∀ level ∈ ⟨kind, home, inner⟩ :: levels, ∀ g, level.home = some g → Within s.functions f g) :
    ({ s with scopes := s.scopes.enter kind } : AnalysisState).Stage
      (⟨kind, home, inner⟩ :: levels) := by
  refine ⟨ScopeStack.enter_valid h.valid kind, ?_, ?_,
    ⟨h.nested.main, h.nested.reads, h.nested.calls⟩⟩
  · rw [ScopeStack.frames_enter h.valid]
    exact .cons ⟨rfl, fun _ hentry => absurd hentry not_mem_nil⟩ h.scopes
  · intro level outer hsuffix
    rcases suffix_cons_iff.mp hsuffix with heq | hsuffix
    · cases heq
      exact hinner
    · exact h.within level outer hsuffix

theorem exit (h : s.Stage (top :: levels)) {symbols : List SymbolId} {scopes : ScopeStack}
    (he : s.scopes.exit = .ok (symbols, scopes)) :
    ({ s with scopes := scopes } : AnalysisState).Stage levels := by
  obtain ⟨hvalid, scope, hframes⟩ := ScopeStack.frames_exit h.valid he
  have hscopes := h.scopes
  rw [hframes] at hscopes
  exact ⟨hvalid, (forall₂_cons.mp hscopes).2, fun level outer hsuffix =>
    h.within level outer (hsuffix.trans (suffix_cons _ _)),
    ⟨h.nested.main, h.nested.reads, h.nested.calls⟩⟩

/-- A new symbol that fits is declared in the innermost scope, unless its name is taken. -/
theorem binds (h : s.Stage (top :: levels)) {symbol : Symbol} (hb : Binds s s' symbol)
    (howner : ∀ g, symbol.owner = some g → top.home = some g)
    (hkind : ∀ f, symbol.kind = .function f →
      ∃ info, s.functions[f]? = some info ∧ ∀ g, info.parent = some g → top.home = some g) :
    s'.Stage (top :: levels) := by
  obtain ⟨-, hbound, new, hs'⟩ := hb
  rw [hs']
  have hpushed : ({ s with
      symbols := s.symbols.push symbol
      diagnostics := s.diagnostics ++ new } : AnalysisState).Stage (top :: levels) :=
    h.adds ⟨fun _ _ h => getElem?_push_of_some _ h, fun _ _ h => h⟩ rfl rfl rfl
  rcases hbound with ⟨hsame, -⟩ | hdeclare
  · rw [hsame]
    exact hpushed
  rw [ScopeStack.declare_eq_ok hdeclare]
  refine hpushed.modifyCurrent (fun _ => rfl) fun scope entry hentry => ?_
  refine (mem_append.mp hentry).imp_right fun hentry => ?_
  rw [mem_singleton.mp hentry]
  exact ⟨symbol, Array.getElem?_push_size, howner, hkind⟩

end Stage

end AnalysisState

/-! ## Steps -/

open AnalysisState

/-- Code of the function runs in the scope. -/
def Level.Runs (level : Level) (f : FnId) : Prop :=
  f ∈ level.inner ∧ (level.home = some f ∨ level.kind = .unit)

/-- A function among statements has its number; it stands in the scope. -/
def Known (inner : List FnId) (stmt : Stmt) (id? : Option FnId) : Prop :=
  stmt.isFunction = id?.isSome ∧ ∀ id, id? = some id → id ∈ inner

theorem Known.head (h : List.Forall₂ (Known inner) [stmt] ids) :
    Known inner stmt ids.head?.join := by
  cases h with
  | cons hfirst _ => exact hfirst

/-- Whatever the state, a step leads from some open scopes to others. -/
def Analyze.Moves (levels levels' : List Level) {α : Type} (m : Analyze α) : Prop :=
  ∀ s, s.Stage levels → (m s).2.Stage levels'

namespace Analyze.Moves

variable {α β : Type} {top : Level} {levels levels' levels'' : List Level} {m : Analyze α}

theorem andThen {f : α → Analyze β} (hm : Moves levels levels' m)
    (hf : ∀ a, Moves levels' levels'' (f a)) : Moves levels levels'' (m >>= f) :=
  fun s hs => hf _ _ (hm s hs)

theorem of_eq (hm : Moves levels levels' m) {a : α} (hs : s.Stage levels) (h : m s = (a, s')) :
    s'.Stage levels' := by
  have hm := hm s hs
  rwa [h] at hm

theorem reports (hm : Keeps Reports m) : Moves levels levels m :=
  fun s hs => hs.reports (hm s)

theorem done (a : α) : Moves levels levels (pure a) := reports (.pure a)

theorem reads (hf : f ∈ top.inner) (hm : Keeps (Reads f) m) :
    Moves (top :: levels) (top :: levels) m :=
  fun s hs => hs.reads hf (hm s)

theorem enterScope (hf : f ∈ top.inner) (kind : ScopeKind) :
    Moves (top :: levels) (⟨kind, some f, [f]⟩ :: top :: levels) (enterScope kind) := by
  intro s hs
  refine hs.enter kind (some f) fun g hg => ?_
  obtain rfl := mem_singleton.mp hg
  obtain ⟨hregistered, haround⟩ := hs.within top levels suffix_rfl g hf
  refine ⟨hregistered, forall_mem_cons.mpr ⟨fun h he => ?_, haround⟩⟩
  obtain rfl := Option.some.inj he
  exact .refl

theorem setState (state : ScopeState) :
    Moves (top :: levels) (top :: levels) (modifyScopes (·.setState state)) :=
  fun _ hs => hs.modifyCurrent (fun _ => rfl) fun _ _ => .inl

theorem openScope (hf : f ∈ top.inner) (kind : ScopeKind) :
    Moves (top :: levels) (⟨kind, some f, [f]⟩ :: top :: levels) (openScope kind) :=
  fun s hs => setState .declaring _ (enterScope hf kind s hs)

theorem leaveScope : Moves (top :: levels) levels leaveScope := by
  intro s hs
  cases hleave : StackCompiler.leaveScope s with
  | mk u s' =>
    have h := get_bind.mp hleave
    cases hexit : s.scopes.exit with
    | ok left =>
      simp only [hexit] at h
      replace h := set_bind.mp h
      exact (hs.exit hexit).reports ((forM_keeps warnUnused_keeps left.1).of_eq h)
    | error e =>
      obtain ⟨scope, outer, -, -, hframes⟩ := forall₂_cons_right_iff.mp hs.scopes
      unfold ScopeStack.exit at hexit
      split at hexit
      · rw [ScopeStack.frames, ‹s.scopes.active = []›] at hframes
        cases hframes
      · cases hexit

theorem declare {name : Ident} {kind : SymbolKind} {ty : Ty} {mutable : Bool}
    {owner : Option FnId} {construct : Construct} (howner : ∀ g, owner = some g → top.home = some g)
    (hkind : ∀ f, kind ≠ .function f) :
    Moves (top :: levels) (top :: levels) (declare name kind ty mutable owner construct) := by
  intro s hs
  cases h : StackCompiler.declare name kind ty mutable owner construct s with
  | mk x s' =>
    exact hs.binds (declare_binds h).2 howner fun f hf => absurd hf (hkind f)

section

variable {parent : Option FnId}
  (hparent : ∀ f, parent = some f → f ∈ top.inner ∧ top.home = some f)
  (hnone : parent = none → ∀ level ∈ top :: levels, level.home = none)
  (hs : s.Stage (top :: levels))
include hparent hnone hs

/-- A function is made known in the scope of the function around it, or at the top. -/
theorem registerFunction {head : FunctionHead} {decl : DeclId}
    (h : registerFunction head parent decl s = (id, s')) :
    s'.Stage ({ top with inner := id :: top.inner } :: levels) := by
  obtain ⟨params, s1, hparams, h⟩ := bind_eq.mp h
  obtain ⟨ret, s2, hret, h⟩ := bind_eq.mp h
  obtain ⟨method, s3, hmethod, h⟩ := bind_eq.mp h
  obtain ⟨_, s6, hset, h⟩ := bind_eq.mp (get_bind.mp h)
  obtain ⟨x, s7, hdeclare, h⟩ := bind_eq.mp h
  cases pure_eq.mp h
  obtain ⟨-, hbinds⟩ := declare_binds hdeclare
  have hs3 := ((hs.reports ((mapM_keeps (fun p : Param => .resolveValueType p.ty) _).of_eq
    hparams)).reports ((resolveResult_keeps _).of_eq hret)).reports
    ((takeMethod_keeps _ _).of_eq hmethod)
  obtain ⟨info, hinfo, rfl⟩ : ∃ info : FunctionInfo, info.parent = parent ∧
      s6 = { s3 with functions := s3.functions.push info } := by
    cases hset
    exact ⟨_, rfl, rfl⟩
  have hnew : ({ s3 with functions := s3.functions.push info } : AnalysisState).functions[
      s3.functions.size]? = some info := Array.getElem?_push_size
  have hadds : s3.Adds { s3 with functions := s3.functions.push info } :=
    ⟨fun _ _ h => h, fun _ _ h => getElem?_push_of_some _ h⟩
  have hs6 := hs3.adds hadds rfl rfl rfl
  -- the new function stands inside of the one around it, and of all that are around that one
  have hinner : ∀ level ∈ top :: levels, ∀ g, level.home = some g →
      Within (s3.functions.push info) s3.functions.size g := by
    intro level hlevel g hg
    cases parent with
    | none =>
      rw [hnone rfl level hlevel] at hg
      cases hg
    | some f =>
      exact .head ⟨info, hnew, hinfo⟩
        ((hs6.within top levels suffix_rfl f (hparent f rfl).1).2 level hlevel g hg)
  have hs7 : s'.Stage (top :: levels) := by
    refine hs6.binds hbinds (fun g hg => ?_) fun f hf => ?_
    · cases hg
    · cases hf
      exact ⟨info, hnew, fun g hg => (hparent g (hinfo ▸ hg)).2⟩
  refine ⟨hs7.valid, ?_, fun level outer hsuffix f hf => ?_, hs7.nested⟩
  · obtain ⟨scope, outer, hfirst, hothers, hframes⟩ := forall₂_cons_right_iff.mp hs7.scopes
    rw [hframes]
    exact .cons hfirst hothers
  · rcases suffix_cons_iff.mp hsuffix with heq | hsuffix
    · cases heq
      rcases mem_cons.mp hf with rfl | hf
      · rw [show s'.functions = s3.functions.push info from hbinds.declared.functions]
        exact ⟨⟨info, hnew⟩, forall_mem_cons.mpr (forall_mem_cons.mp hinner)⟩
      · obtain ⟨hregistered, haround⟩ := hs7.within top levels suffix_rfl f hf
        exact ⟨hregistered, forall_mem_cons.mpr (forall_mem_cons.mp haround)⟩
    · exact hs7.within level outer (hsuffix.trans (suffix_cons _ _)) f hf

theorem registers (h : Registers parent s stmts ids s') :
    ∃ inner, top.inner ⊆ inner ∧ List.Forall₂ (Known inner) stmts ids ∧
      (∀ f, some f ∈ ids → ∃ info, s'.functions[f]? = some info ∧ info.parent = parent) ∧
      s'.Stage ({ top with inner := inner } :: levels) := by
  induction h generalizing top with
  | nil => exact ⟨top.inner, fun _ h => h, .nil, fun _ h => absurd h not_mem_nil, hs⟩
  | @function _ _ _ _ _ _ _ _ id _ hreports hregister hrest ih =>
    have hs1 := registerFunction hparent hnone (hs.reports hreports) hregister
    obtain ⟨inner, hsub, hknown, hparents, hs'⟩ := @ih { top with inner := id :: top.inner }
      (fun f hf => (hparent f hf).imp_left (mem_cons_of_mem _))
      (fun hp => forall_mem_cons.mpr (forall_mem_cons.mp (hnone hp))) hs1
    refine ⟨inner, List.Subset.trans (subset_cons_self _ _) hsub,
      .cons ⟨rfl, fun g hg => ?_⟩ hknown, fun g hg => ?_, hs'⟩
    · cases hg
      exact hsub mem_cons_self
    · rcases mem_cons.mp hg with hg | hg
      · cases hg
        obtain ⟨_, _, _, _, info, _, -, -, -, -, -, hp, -, hr⟩ := registerFunction_eq hregister
        exact ⟨info, hrest.eq.1.toGrows.functions _ _ hr.getElem?, hp⟩
      · exact hparents g hg
  | other hstmt _ ih =>
    obtain ⟨inner, hsub, hknown, hparents, hs'⟩ := ih hparent hnone hs
    exact ⟨inner, hsub, .cons ⟨hstmt, fun g hg => by cases hg⟩ hknown,
      fun f hf => hparents f ((mem_cons.mp hf).resolve_left fun he => by cases he), hs'⟩

end

theorem body (hf : f ∈ top.inner) (hhome : top.home = some f) {k : List (Option FnId) → Analyze β}
    (hk : ∀ inner ids, top.inner ⊆ inner → List.Forall₂ (Known inner) stmts ids →
      Moves ({ top with inner := inner } :: levels) levels' (k ids)) :
    Moves (top :: levels) levels' (beginBody f stmts >>= k) := by
  intro s hs
  cases hregister : stmts.mapM (registerStmt f) (modifyScopes (·.setState .declaring) s).2 with
  | mk ids s1 =>
    obtain ⟨inner, hsub, hknown, -, hs1⟩ := registers (fun g hg => by cases hg; exact ⟨hf, hhome⟩)
      (fun he => by cases he) (setState .declaring s hs) (registerStmts_registers hregister)
    have hrun : (beginBody f stmts >>= k) s =
        k ids (modifyScopes (·.setState .analyzing) s1).2 := by
      show k (stmts.mapM (registerStmt f) (modifyScopes (·.setState .declaring) s).2).1
        (modifyScopes (·.setState .analyzing)
          (stmts.mapM (registerStmt f) (modifyScopes (·.setState .declaring) s).2).2).2 = _
      rw [hregister]
    rw [hrun]
    exact hk inner ids hsub hknown _ (setState .analyzing _ hs1)

theorem atTopLevel_eq (hs : s.Stage (top :: levels)) :
    atTopLevel s = (some top.kind == some .unit, s) := by
  obtain ⟨scope, outer, ⟨hkind, -⟩, -, hframes⟩ := forall₂_cons_right_iff.mp hs.scopes
  show (s.scopes.current?.map Scope.kind == some .unit, s) = _
  rw [ScopeStack.current?_eq hs.valid, hframes, head?_cons, Option.map_some, hkind]

theorem analyzeVar (hctx : top.Runs ctx.function) (decl : VarDecl) :
    Moves (top :: levels) (top :: levels) (analyzeVar ctx decl) := by
  refine (reports (resolveDeclared_keeps _)).andThen fun declared =>
    (reads hctx.1 (Keeps.analyze _ _ _)).andThen fun init =>
      (reports (typeVar_keeps _ _)).andThen fun typed s hs => ?_
  have hdeclare (isGlobal : Bool) (h : isGlobal = (some top.kind == some .unit)) :
      Moves (top :: levels) (top :: levels) (do
        let id ← StackCompiler.declare decl.name .variable_ typed.2 decl.mutable
          (if isGlobal then none else some ctx.function) .variable_
        if isGlobal then modify fun s => { s with globals := s.globals ++ [id] }
        return { decl with init := typed.1, symbol := some id } : Analyze VarDecl) := by
    refine (declare (fun g hg => ?_) fun f hf => by cases hf).andThen fun id => ?_
    · cases isGlobal with
      | true => cases hg
      | false =>
        cases hg
        exact hctx.2.resolve_right fun hunit => by simp [hunit] at h
    · cases isGlobal with
      | true => exact fun s hs => hs.adds ⟨fun _ _ h => h, fun _ _ h => h⟩ rfl rfl rfl
      | false => exact done _
  exact hdeclare (atTopLevel s).1 (by rw [atTopLevel_eq hs]) s hs

theorem declareParams (hhome : top.home = some id) (params : List Param) (types : List Ty) :
    Moves (top :: levels) (top :: levels) (declareParams id params types) := by
  induction params generalizing types with
  | nil => exact done _
  | cons param params ih =>
    exact (declare (fun g hg => hg ▸ hhome) fun f hf => by cases hf).andThen fun _ =>
      (ih _).andThen fun _ => done _

theorem beginFunction (hid : id ∈ top.inner) (head : FunctionHead) :
    Moves (top :: levels) (⟨.function id, some id, [id]⟩ :: top :: levels)
      (beginFunction id head) :=
  (openScope hid _).andThen fun _ => (reports .get).andThen fun _ =>
    (declareParams rfl _ _).andThen fun _ => done _

theorem endFunction (id : FnId) (head : FunctionHead) (flow : Flow) :
    Moves (top :: levels) levels (endFunction id head flow) := by
  refine (reports .get).andThen fun s => ?_
  dsimp only
  split_ifs
  · exact (reports (.report _ _ _ _)).andThen fun _ => leaveScope
  · exact leaveScope

theorem analyzeList (h : ∀ stmt ∈ stmts, ∀ id?, Known top.inner stmt id? →
      Moves (top :: levels) (top :: levels) (stmt.analyze ctx id?))
    (hids : List.Forall₂ (Known top.inner) stmts ids) (flow : Flow) (warned : Bool) :
    Moves (top :: levels) (top :: levels) (Stmt.analyzeList ctx flow warned ids stmts) := by
  induction hids generalizing flow warned with
  | nil =>
    rw [Stmt.analyzeList]
    exact done _
  | @cons stmt id? stmts ids hfirst _ ih =>
    obtain ⟨hstmt, hstmts⟩ := forall_mem_cons.mp h
    have hrest (flow : Flow) (warned : Bool) := (hstmt id? hfirst).andThen fun first =>
      (ih hstmts (flow.andThen first.2) warned).andThen fun rest =>
        (done (first.1 :: rest.1, rest.2))
    rw [Stmt.analyzeList]
    dsimp only
    split_ifs
    · exact (reports (.report _ _ _ _)).andThen fun _ => hrest _ _
    · exact hrest _ _

end Analyze.Moves

/-- A statement keeps to the scopes around it. -/
def Stmt.Stays (stmt : Stmt) : Prop :=
  ∀ (ctx : Context) id? top levels, Level.Runs top ctx.function → Known top.inner stmt id? →
    Moves (top :: levels) (top :: levels) (stmt.analyze ctx id?)

namespace Analyze.Moves

variable {β : Type} {top : Level} {levels levels' : List Level}

theorem function (hid : id ∈ top.inner) {head : FunctionHead} (h : ∀ stmt ∈ stmts, stmt.Stays)
    (k : FunctionHead → List Stmt → Analyze β)
    (hk : ∀ head body, Moves (top :: levels) levels' (k head body)) :
    Moves (top :: levels) levels' (do
      let head ← StackCompiler.beginFunction id head
      let ids ← beginBody id stmts
      let (body, flow) ← Stmt.analyzeList ⟨id, false⟩ .normal false ids stmts
      StackCompiler.endFunction id head flow
      k head body) :=
  (beginFunction hid head).andThen fun _ => body mem_cons_self rfl fun _ _ hsub hids =>
    (analyzeList (fun stmt hstmt id? => h stmt hstmt _ id? _ _ ⟨hsub mem_cons_self, .inl rfl⟩)
      hids _ _).andThen fun _ => (endFunction _ _ _).andThen fun _ => hk _ _

theorem inScope {kind : ScopeKind} {k : Stmt × Flow → Analyze β} (inLoop : Bool) (h : stmt.Stays)
    (hk : ∀ r, Moves levels levels' (k r)) :
    Moves (⟨kind, some ctx.function, [ctx.function]⟩ :: levels) levels' (do
      let ids ← beginBody ctx.function [stmt]
      let r ← stmt.analyze { ctx with inLoop := inLoop } ids.head?.join
      StackCompiler.leaveScope
      k r) :=
  body mem_cons_self rfl fun _ _ hsub hids =>
    (h _ _ _ _ ⟨hsub mem_cons_self, .inl rfl⟩ (.head hids)).andThen fun r =>
      leaveScope.andThen fun _ => hk r

end Analyze.Moves

theorem Stmt.analyze_stage (stmt : Stmt) : stmt.Stays := by
  intro ctx id? top levels hctx hid
  induction stmt generalizing ctx id? top levels with
  | var decl =>
    rw [Stmt.analyze]
    exact (Moves.analyzeVar hctx decl).andThen fun _ => .done _
  | function head body ih =>
    obtain ⟨id, rfl⟩ : ∃ id, id? = some id := Option.isSome_iff_exists.mp hid.1.symm
    rw [Stmt.analyze]
    exact Moves.function (hid.2 id rfl) ih
      (fun head body => pure (Stmt.function head body, Flow.normal)) fun _ _ => .done _
  | block span body ih =>
    rw [Stmt.analyze]
    exact (Moves.enterScope hctx.1 _).andThen fun _ => .body mem_cons_self rfl
      fun inner ids hsub hids => (Moves.analyzeList (fun stmt hstmt id? => ih stmt hstmt _ id? _ _
        ⟨hsub mem_cons_self, .inl rfl⟩) hids _ _).andThen fun _ =>
          Moves.leaveScope.andThen fun _ => .done _
  | branch span cond yes no ihyes ihno =>
    rw [Stmt.analyze]
    refine (Moves.reads hctx.1 (analyzeCondition_keeps _ _)).andThen fun _ =>
      (Moves.enterScope hctx.1 _).andThen fun _ => Moves.inScope ctx.inLoop ihyes fun _ => ?_
    cases no with
    | none => exact .done _
    | some no =>
      exact (Moves.enterScope hctx.1 _).andThen fun _ =>
        Moves.inScope ctx.inLoop (ihno no rfl) fun _ => .done _
  | loop span cond body ih =>
    rw [Stmt.analyze]
    exact (Moves.reads hctx.1 (analyzeCondition_keeps _ _)).andThen fun _ =>
      (Moves.enterScope hctx.1 _).andThen fun _ => Moves.inScope true ih fun _ => .done _
  | range span loopVar first last body ih =>
    rw [Stmt.analyze]
    exact (Moves.reads hctx.1 (analyzeRange_keeps _ _)).andThen fun _ =>
      (Moves.openScope hctx.1 _).andThen fun _ => (Moves.declare (fun g hg => hg ▸ rfl)
        fun f hf => by cases hf).andThen fun _ => Moves.inScope true ih fun _ => .done _
  | ret span value =>
    rw [Stmt.analyze]
    exact (Moves.reads hctx.1 (analyzeReturn_keeps _ _)).andThen fun _ => .done _
  | leave span =>
    rw [Stmt.analyze]
    split_ifs
    · exact .done _
    · exact (Moves.reports (.report _ _ _ _)).andThen fun _ => .done _
  | next span =>
    rw [Stmt.analyze]
    split_ifs
    · exact (Moves.reports (.report _ _ _ _)).andThen fun _ => .done _
    · exact .done _
  | assign span target value =>
    rw [Stmt.analyze]
    exact (Moves.reads hctx.1 (analyzeAssign_keeps _ _)).andThen fun _ => .done _
  | expr value =>
    rw [Stmt.analyze]
    exact (Moves.reads hctx.1 (Keeps.analyze _ _ _)).andThen fun _ => .done _

/-! ## Units -/

namespace Analyze.Moves

variable {α : Type} {top : Level} {levels : List Level}

theorem forM {xs : List α} {f : α → Analyze Unit} (hf : ∀ x, Moves levels levels (f x)) :
    Moves levels levels (xs.forM f) := by
  induction xs with
  | nil => exact done _
  | cons x xs ih => exact (hf x).andThen fun _ => ih

theorem openTop (kind : ScopeKind) :
    Moves (top :: levels) (⟨kind, none, top.inner⟩ :: top :: levels)
      (StackCompiler.openScope kind) := by
  refine fun s hs => setState .declaring _ (hs.enter kind none fun f hf => ?_)
  obtain ⟨hregistered, haround⟩ := hs.within top levels suffix_rfl f hf
  exact ⟨hregistered, forall_mem_cons.mpr ⟨fun g hg => (by cases hg), haround⟩⟩

theorem bindNew {name : String} {kind : SymbolKind} {ty : Ty} {span : Span}
    (hs : s.Stage (top :: levels))
    (hkind : ∀ f, kind = .function f → ∃ info, s.functions[f]? = some info ∧ info.parent = none) :
    ((do bindName name (← newSymbol name kind ty span false none) : Analyze Unit) s).2.Stage
      (top :: levels) := by
  cases hrun : (do bindName name (← newSymbol name kind ty span false none) : Analyze Unit) s with
  | mk u s' =>
    refine hs.binds (bindName_binds hrun) (fun g hg => ?_) fun f hf => ?_
    · cases hg
    · obtain ⟨info, hinfo, hparent⟩ := hkind f hf
      exact ⟨info, hinfo, fun g hg => by cases hparent.symm.trans hg⟩

theorem declareBuiltins : Moves (top :: levels) (top :: levels) declareBuiltins :=
  forM fun _ _ hs => bindNew hs fun f hf => by cases hf

theorem declareImport (e : Export) : Moves (top :: levels) (top :: levels) (declareImport e) := by
  intro s hs
  unfold StackCompiler.declareImport
  cases e.signature with
  | function method params ret =>
    refine bindNew (hs.adds ⟨fun _ _ h => h, fun _ _ h => getElem?_push_of_some _ h⟩ rfl rfl rfl)
      fun f hf => ?_
    cases hf
    exact ⟨_, Array.getElem?_push_size, rfl⟩
  | record fields =>
    refine bindNew (hs.adds ⟨fun _ _ h => h, fun _ _ h => h⟩ rfl rfl rfl) fun f hf => ?_
    cases hf

theorem declareImports (exports : ExportTable) :
    Moves (top :: levels) (top :: levels) (declareImports exports) :=
  (reports .get).andThen fun _ => (forM declareImport).andThen fun _ =>
    forM fun _ => reports (.report _ _ _ _)

theorem declareRecords (items : List Item) :
    Moves (top :: levels) (top :: levels) (declareRecords items) := by
  have hnames (index : Nat) : Moves (top :: levels) (top :: levels)
      (declareRecordNames index items) := by
    induction items generalizing index with
    | nil => exact done _
    | cons item items ih =>
      cases item with
      | record record =>
        refine andThen (fun s hs => ?_) fun _ => (ih _).andThen fun _ => done _
        exact (declare (fun g hg => by cases hg) fun f hf => by cases hf).andThen
          (fun _ => done _) _ (hs.adds ⟨fun _ _ h => h, fun _ _ h => h⟩ rfl rfl rfl)
      | _ => exact (ih _).andThen fun _ => done _
  refine (hnames 0).andThen fun items => (forM fun item => ?_).andThen fun _ => done _
  cases item with
  | record record =>
    exact (reports (resolveFields_keeps _ _ _)).andThen fun _ s hs =>
      hs.adds ⟨fun _ _ h => h, fun _ _ h => h⟩ rfl rfl rfl
  | _ => exact done _

end Analyze.Moves

/-- **In every unit functions read and call what stands around them.** -/
theorem SourceUnit.recorded_nested {unit : SourceUnit} (hplain : ∀ item ∈ unit.items, item.Plain)
    (index : Nat) (exports : ExportTable) : (unit.recorded index exports).Nested ∧
      ∀ f ∈ Stmt.idAll (Item.stmts (unit.analyze index exports).1.items),
        (unit.recorded index exports).AtTop f := by
  have hstart : (AnalysisState.start unit index).Stage [] := by
    refine ⟨ScopeStack.empty_valid, .nil, fun level outer h => ?_, ⟨_, rfl, rfl⟩, fun _ h => ?_,
      fun _ h => ?_⟩
    · cases suffix_nil.mp h
    · cases h
    · cases Array.mem_def.mp h
  have hopen : (openScope .builtins (AnalysisState.start unit index)).2.Stage
      [⟨.builtins, none, [FnId.main]⟩] := by
    refine Moves.setState .declaring _ (hstart.enter .builtins none fun f hf => ?_)
    obtain rfl := mem_singleton.mp hf
    refine ⟨⟨_, rfl⟩, fun level hlevel g hg => ?_⟩
    obtain rfl := mem_singleton.mp hlevel
    cases hg
  obtain ⟨hopen1, hbuiltins, hopen2, himports, hopen3, hrecords, hregister, hstate, hitems, hleave1,
    hleave2, hleave3, -⟩ := unit.analyze_run (Prod.eta (unit.analyze index exports)).symm
  rw [hopen1] at hopen
  have hs6 := (Moves.declareRecords _).of_eq ((Moves.openTop _).of_eq
    ((Moves.declareImports _).of_eq ((Moves.openTop _).of_eq (Moves.declareBuiltins.of_eq hopen
      hbuiltins) hopen2) himports) hopen3) hrecords
  have hplain1 := ((declareRecords_items _).of_eq hrecords).2.2 hplain
  obtain ⟨hlength, hregisters⟩ := registerItems_registers hregister hplain1
  obtain ⟨inner, hsub, hknown, hparents, hs7⟩ :=
    Moves.registers (fun g hg => by cases hg) (fun _ => by simp) hs6 hregisters
  obtain ⟨-, hforall, -⟩ := hregisters.eq
  obtain ⟨flow, hlist⟩ := analyzeItems_eq hitems hlength hplain1 hforall
  have hs9 := (Moves.analyzeList (fun stmt _ id? hid => stmt.analyze_stage _ id? _ _
    ⟨hsub mem_cons_self, .inr rfl⟩ hid) hknown _ _).of_eq
    ((Moves.setState _).of_eq hs7 hstate) hlist
  refine ⟨(Moves.leaveScope.of_eq (Moves.leaveScope.of_eq (Moves.leaveScope.of_eq hs9 hleave1)
    hleave2) hleave3).nested, fun f hf => ?_⟩
  have hshape := analyzeList_shape (fun stmt _ => stmt.shapes) hlist hforall
  rw [hshape.numbers] at hf
  obtain ⟨id?, hid, rfl⟩ := mem_filterMap.mp hf
  exact (((((setState_eq hstate).1.toGrows.trans hshape.grows).trans
    (leaveScope_eq hleave1).1.toGrows).trans (leaveScope_eq hleave2).1.toGrows).trans
    (leaveScope_eq hleave3).1.toGrows).adds.atTop (hparents f hid)

end StackCompiler

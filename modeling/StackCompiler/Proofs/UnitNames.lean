import StackCompiler.Proofs.Exports
import StackCompiler.Proofs.ScopeNames
import StackCompiler.Proofs.UnitItems

/-!
# What is made known of a unit

Before the statements of a unit are looked at, the analysis makes known the built-in functions,
what other units export, and the records and functions of the unit. Here it is said what names
stand for at each of these steps, and what is noted of records and functions.

* `Stmt.analyze_grows`, `analyzeItems_grows`: statements change nothing of what is noted before;
* `declareBuiltins_run`, `declareImports_run`, `declareRecords_run`, `registerItems_run`: the steps.
-/

namespace StackCompiler

open AnalysisState Analyze List

variable {s s' : AnalysisState} {items items' : List Item} {index : Nat} {u : Unit}

/-! ## Statements -/

namespace Analyze.Keeps

variable {α β : Type} {f : α → Analyze β} {m : Analyze α}

theorem grows_then (hm : Keeps Grows m) (hf : ∀ a, Keeps Grows (f a)) : Keeps Grows (m >>= f) :=
  bind (R := Grows) (fun h h' => h.trans h') hm hf

theorem grows (hm : Keeps Reports m) : Keeps Grows m := fun s => (hm s).grows

theorem setState (state : ScopeState) : Keeps Grows (modifyScopes (·.setState state)) :=
  of_run fun _ _ _ h => (setState_eq h).1.toGrows

theorem leaveScope : Keeps Grows leaveScope := of_run fun _ _ _ h => (leaveScope_eq h).1.toGrows

theorem registerFunction (head : FunctionHead) (parent : Option FnId) (decl : DeclId) :
    Keeps Grows (registerFunction head parent decl) :=
  of_run fun _ _ _ h => by
    obtain ⟨_, _, _, _, _, _, _, _, _, _, _, _, _, hr⟩ := registerFunction_eq h
    exact hr.declares.toGrows

theorem functionId (id? : Option FnId) (head : FunctionHead) :
    Keeps Grows (functionId id? head) := by
  unfold StackCompiler.functionId
  split
  · exact (pure _).grows
  · exact freshDecl_keeps.grows.grows_then fun _ => registerFunction _ _ _

end Analyze.Keeps

theorem Stmt.analyze_grows (stmt : Stmt) (ctx : Context) (id? : Option FnId) :
    Keeps Grows (stmt.analyze ctx id?) := by
  have hknown {id? : Option FnId} (hid : stmt.isFunction = id?.isSome) :
      Keeps Grows (stmt.analyze ctx id?) :=
    .of_run fun _ _ _ h => (stmt.shapes h hid).grows
  cases stmt with
  | function head body =>
    -- a function without a number is registered first
    have hrun : (Stmt.function head body).analyze ctx id? = functionId id? head >>= fun id =>
        (Stmt.function head body).analyze ctx (some id) := by
      simp only [Stmt.analyze]
      rfl
    rw [hrun]
    exact (Keeps.functionId _ _).grows_then fun _ => hknown rfl
  | _ =>
    have h := @hknown none rfl
    rw [Stmt.analyze] at h ⊢
    exact h

theorem analyzeFunction_grows (id? : Option FnId) (f : FunctionDecl) :
    Keeps Grows (analyzeFunction id? f) := by
  intro s
  have h := (Stmt.function f.head f.body).analyze_grows ⟨FnId.main, false⟩ id? s
  rwa [analyzeFunction_eq] at h

theorem analyzeItems_grows (flow : Flow) (warned : Bool) (ids : List (Option FnId))
    (items : List Item) : Keeps Grows (analyzeItems flow warned ids items) := by
  induction items generalizing flow warned ids with
  | nil => exact (Keeps.pure _).grows
  | cons item items ih =>
    cases item with
    | record record =>
      rw [analyzeItems]
      exact (ih _ _ _).grows_then fun _ => (Keeps.pure _).grows
    | function f =>
      rw [analyzeItems]
      exact (analyzeFunction_grows _ _).grows_then fun _ => (ih _ _ _).grows_then fun _ =>
        (Keeps.pure _).grows
    | stmt stmt =>
      have hrest := (stmt.analyze_grows ⟨FnId.main, false⟩ none).grows_then fun first =>
        (ih (flow.andThen first.2) (warned || (!flow.completes && !warned))
          ids.tail).grows_then fun rest => (Keeps.pure (Item.stmt first.1 :: rest)).grows
      rw [analyzeItems]
      dsimp only
      split_ifs
      · exact (Keeps.report _ _ _ _).grows.grows_then fun _ => hrest
      · exact hrest

theorem registerItems_grows (index : Nat) (items : List Item) :
    Keeps Grows (registerItems index items) := by
  induction items generalizing index with
  | nil => exact (Keeps.pure _).grows
  | cons item items ih =>
    cases item with
    | function f =>
      exact Keeps.get.grows.grows_then fun _ => (Keeps.registerFunction _ _ _).grows_then fun _ =>
        (ih _).grows_then fun _ => (Keeps.pure _).grows
    | _ => exact (ih _).grows_then fun _ => (Keeps.pure _).grows

/-! ## Built-in functions and imports -/

section Runs

variable {s s' : AnalysisState} {layer : List (String × Option DeclId)} {layers : NameLayers}

def builtinNames : List (String × Option DeclId) := Builtin.all.map fun b => (b.name, none)

theorem AnalysisState.AddsNames.trans {s'' : AnalysisState} (h : s.AddsNames s')
    (h' : s'.AddsNames s'') : s.AddsNames s'' := by
  obtain ⟨_, _, _, rfl⟩ := h
  obtain ⟨_, _, _, rfl⟩ := h'
  exact ⟨_, _, _, rfl⟩

theorem declareBuiltins_run (h : s.Names (layer :: layers)) (hrun : declareBuiltins s = (u, s')) :
    s'.Names ((layer ++ builtinNames) :: layers) ∧ s.AddsNames s' := by
  rw [show builtinNames = Builtin.all.zipIdx.map fun entry => (entry.1.name, none) from rfl]
  unfold declareBuiltins at hrun
  generalize Builtin.all.zipIdx = all at hrun ⊢
  induction all generalizing s layer with
  | nil =>
    cases pure_eq.mp hrun
    rw [map_nil, append_nil]
    exact ⟨h, _, _, _, rfl⟩
  | cons entry all ih =>
    obtain ⟨_, s1, hfirst, hrun⟩ := bind_eq.mp hrun
    obtain ⟨hnames, hadds⟩ := Names.of_binds (bindName_binds hfirst) h
    obtain ⟨hnames', hadds'⟩ := ih hnames hrun
    rw [append_assoc] at hnames'
    exact ⟨hnames', hadds.trans hadds'⟩

/-- The unit, its class and the names of methods are the same. -/
structure AnalysisState.SameUnit (s s' : AnalysisState) : Prop where
  unitIndex : s'.unitIndex = s.unitIndex
  className : s'.className = s.className
  methods : s'.methods = s.methods

theorem AnalysisState.SameUnit.trans {s'' : AnalysisState} (h : s.SameUnit s')
    (h' : s'.SameUnit s'') : s.SameUnit s'' :=
  ⟨h'.unitIndex.trans h.unitIndex, h'.className.trans h.className, h'.methods.trans h.methods⟩

theorem AnalysisState.AddsNames.sameUnit (h : s.AddsNames s') : s.SameUnit s' := by
  obtain ⟨_, _, _, rfl⟩ := h
  exact ⟨rfl, rfl, rfl⟩

theorem AnalysisState.AddsNames.records (h : s.AddsNames s') : s'.records = s.records := by
  obtain ⟨_, _, _, rfl⟩ := h
  rfl

theorem AnalysisState.AddsNames.functions (h : s.AddsNames s') : s'.functions = s.functions := by
  obtain ⟨_, _, _, rfl⟩ := h
  rfl

/-- What is noted of an exported record in the units that import it. -/
def Export.recordInfo? (e : Export) : Option RecordInfo :=
  match e.signature with
  | .function .. => none
  | .record fields => some
    { name := e.name, className := recordClassName e.className e.name, decl := e.decl
      fields := fields, isExternal := true, span := e.span }

def Export.record? (e : Export) : Option DeclId := e.recordInfo?.map RecordInfo.decl

theorem declareImport_run (h : s.Names (layer :: layers)) {e : Export}
    (hrun : declareImport e s = (u, s')) :
    s'.Names ((layer ++ [(e.name, e.record?)]) :: layers) ∧ s.SameUnit s' ∧
      s'.records = s.records ++ e.recordInfo?.toList := by
  unfold declareImport at hrun
  unfold Export.record? Export.recordInfo?
  cases hsignature : e.signature with
  | function method params ret =>
    simp only [hsignature] at hrun
    replace hrun := set_bind.mp (get_bind.mp hrun)
    obtain ⟨hnames, hadds⟩ := Names.of_binds (bindName_binds hrun) (h.congr rfl fun _ _ h => h)
    obtain ⟨hunit, hclass, hmethods⟩ := hadds.sameUnit
    exact ⟨hnames, ⟨hunit, hclass, hmethods⟩, hadds.records.trans (append_nil _).symm⟩
  | record fields =>
    simp only [hsignature] at hrun
    obtain ⟨_, s3, hset, hrun⟩ := bind_eq.mp hrun
    cases hset
    obtain ⟨hnames, hadds⟩ := Names.of_binds (bindName_binds hrun) (h.congr rfl fun _ _ h => h)
    obtain ⟨hunit, hclass, hmethods⟩ := hadds.sameUnit
    exact ⟨hnames, ⟨hunit, hclass, hmethods⟩, hadds.records⟩

def Export.names (exports : List Export) : List (String × Option DeclId) :=
  exports.map fun e => (e.name, e.record?)

theorem declareImportList_run (h : s.Names (layer :: layers)) {exports : List Export}
    (hrun : exports.forM declareImport s = (u, s')) :
    s'.Names ((layer ++ Export.names exports) :: layers) ∧ s.SameUnit s' ∧
      s'.records = s.records ++ exports.filterMap Export.recordInfo? := by
  induction exports generalizing s layer with
  | nil =>
    cases pure_eq.mp hrun
    simp only [Export.names, map_nil, filterMap_nil, append_nil]
    exact ⟨h, ⟨rfl, rfl, rfl⟩, trivial⟩
  | cons e exports ih =>
    obtain ⟨_, s1, hfirst, hrun⟩ := bind_eq.mp hrun
    obtain ⟨hnames, hsame, hrecords⟩ := declareImport_run h hfirst
    obtain ⟨hnames', hsame', hrecords'⟩ := ih hnames hrun
    rw [append_assoc] at hnames'
    refine ⟨hnames', hsame.trans hsame', ?_⟩
    rw [hrecords', hrecords, append_assoc, filterMap_cons]
    cases e.recordInfo? <;> rfl

theorem declareImports_run (h : s.Names (layer :: layers)) {exports : ExportTable}
    (hrun : declareImports exports s = (u, s')) :
    s'.Names ((layer ++ Export.names (exports.importsFor s.unitIndex)) :: layers) ∧ s.SameUnit s' ∧
      s'.records = s.records ++ (exports.importsFor s.unitIndex).filterMap Export.recordInfo? := by
  obtain ⟨_, s3, himports, hrun⟩ := bind_eq.mp (get_bind.mp hrun)
  obtain ⟨hnames, hsame, hrecords⟩ := declareImportList_run h himports
  obtain ⟨new, hnew⟩ := Gives.forM (fun _ _ => .report _ _ _ _) _ _
  cases hnew.symm.trans hrun
  exact ⟨hnames.noting new, ⟨hsame.unitIndex, hsame.className, hsame.methods⟩, hrecords⟩

/-! ## Records -/

/-- The names of the records among some items, which stand from a position on. -/
def Item.recordNames (unit : Nat) : (index : Nat) → List Item → List (String × Option DeclId)
  | _, [] => []
  | index, .record r :: rest =>
    (r.name.name, some ⟨unit, index⟩) :: Item.recordNames unit (index + 1) rest
  | index, _ :: rest => Item.recordNames unit (index + 1) rest

/-- Some items with the declarations of records noted. -/
def Item.numbered (unit : Nat) : (index : Nat) → List Item → List Item
  | _, [] => []
  | index, .record r :: rest =>
    .record { r with decl := some ⟨unit, index⟩ } :: Item.numbered unit (index + 1) rest
  | index, item :: rest => item :: Item.numbered unit (index + 1) rest

/-- What is noted of the records among some items, before their fields are known. -/
def Item.recordInfos (unit : Nat) (className : String) : (index : Nat) → List Item →
    List RecordInfo
  | _, [] => []
  | index, .record r :: rest =>
    { name := r.name.name, className := recordClassName className r.name.name
      decl := ⟨unit, index⟩, fields := [], isExternal := false, span := r.span } ::
      Item.recordInfos unit className (index + 1) rest
  | index, _ :: rest => Item.recordInfos unit className (index + 1) rest

theorem declare_fresh {name : Ident} {kind : SymbolKind} {ty : Ty} {mutable : Bool}
    {owner : Option FnId} {construct : Construct} {id : SymbolId}
    (hd : declare name kind ty mutable owner construct s = (id, s')) (hs : s'.Clean)
    (h : s.Names (layer :: layers)) : name.name ∉ layer.map Prod.fst := by
  obtain ⟨scope, outer, hlayer, -, hframes⟩ := forall₂_cons_right_iff.mp h.bound
  have hlookup := hlayer name.name
  rcases ScopeStack.declare_cases h.valid hframes (h.isOpen scope (by rw [hframes]; rfl)) name.name
    s.symbols.size with ⟨existing, -, hdup⟩ | ⟨hnone, -⟩
  · -- the name is bound already, which is a finding
    obtain ⟨id', s1, hnew, hd⟩ := bind_eq.mp hd
    replace hd := get_bind.mp hd
    cases hnew
    dsimp only at hd
    rw [hdup] at hd
    cases hd
    exact absurd hs (not_clean_of_report rfl)
  · rw [hnone] at hlookup
    cases hl : layer.lookup name.name with
    | some r =>
      rw [hl] at hlookup
      cases hlookup
    | none =>
      intro hmem
      obtain ⟨p, hp, hname⟩ := mem_map.mp hmem
      simpa [hname] using lookup_eq_none_iff.mp hl p hp

theorem declareRecordNames_run (h : s.Names (layer :: layers))
    (hrun : declareRecordNames index items s = (items', s')) :
    s'.Names ((layer ++ Item.recordNames s.unitIndex index items) :: layers) ∧ s.SameUnit s' ∧
      items' = Item.numbered s.unitIndex index items ∧
      s'.records = s.records ++ Item.recordInfos s.unitIndex s.className index items ∧
      (s'.Clean → s.Clean ∧ ((layer.map Prod.fst).Nodup →
        ((layer ++ Item.recordNames s.unitIndex index items).map Prod.fst).Nodup)) := by
  induction items generalizing s layer index items' with
  | nil =>
    cases pure_eq.mp hrun
    simp only [Item.recordNames, Item.recordInfos, append_nil]
    exact ⟨h, ⟨rfl, rfl, rfl⟩, rfl, trivial, fun hs => ⟨hs, fun hlayer => hlayer⟩⟩
  | cons item items ih =>
    cases item with
    | record r =>
      obtain ⟨r', s1, hrecord, hrun⟩ := bind_eq.mp hrun
      obtain ⟨rest, s2, hrest, hrun⟩ := bind_eq.mp hrun
      cases pure_eq.mp hrun
      obtain ⟨_, s5, hset, hrecord⟩ := bind_eq.mp (get_bind.mp hrecord)
      obtain ⟨_, s6, hdeclare, hrecord⟩ := bind_eq.mp hrecord
      cases pure_eq.mp hrecord
      cases hset
      have hbinds := (declare_binds hdeclare).2
      obtain ⟨hnames, hadds⟩ := Names.of_binds hbinds (h.congr rfl fun _ _ hx => hx)
      obtain ⟨hunit, hclass, hmethods⟩ := hadds.sameUnit
      have hsame : s.SameUnit s1 := ⟨hunit, hclass, hmethods⟩
      obtain ⟨hnames', hsame', rfl, hrecords, hclean⟩ := ih hnames hrest
      rw [hsame.unitIndex, append_assoc] at hnames' hclean
      refine ⟨hnames', hsame.trans hsame', by rw [hsame.unitIndex]; rfl, ?_, fun hs => ?_⟩
      · rw [hrecords, hadds.records, hsame.unitIndex, hsame.className, append_assoc]
        rfl
      · obtain ⟨hs1, hnodup⟩ := hclean hs
        refine ⟨hbinds.declared.declares.toGrows.clean hs1, fun hlayer => hnodup ?_⟩
        rw [map_append, map_singleton]
        refine nodup_append.mpr ⟨hlayer, nodup_singleton _, ?_⟩
        rintro x hx y hy rfl
        rw [mem_singleton.mp hy] at hx
        exact declare_fresh hdeclare hs1 (h.congr rfl fun _ _ hx => hx) hx
    | function _ | stmt _ =>
      obtain ⟨rest, s2, hrest, hrun⟩ := bind_eq.mp hrun
      cases pure_eq.mp hrun
      obtain ⟨hnames, hsame, rfl, hrecords⟩ := ih h hrest
      exact ⟨hnames, hsame, rfl, hrecords⟩

/-- The fields of a record with their types; of fields with one name the first counts. -/
def distinctFields (typeOf : TypeExpr → Ty) :
    List (String × Ty) → List FieldDecl → List (String × Ty)
  | known, [] => known
  | known, field :: rest =>
    if known.any (·.1 == field.name.name) then distinctFields typeOf known rest
    else distinctFields typeOf (known ++ [(field.name.name, typeOf field.ty)]) rest

theorem resolveFields_gives (h : s.Names layers) (record : RecordDecl)
    (known : List (String × Ty)) (fields : List FieldDecl) :
    Gives (resolveFields record known fields) s
      (distinctFields (fun t => (t.meaning layers.record?).stored) known fields) := by
  induction fields generalizing s known with
  | nil => exact .pure _
  | cons field fields ih =>
    refine (resolveValueType_gives h field.ty).bind fun new => ?_
    rw [distinctFields]
    split_ifs
    · exact (Gives.report _ _ _ _).bind fun new' => ih ((h.noting new).noting new') _
    · exact ih (h.noting new) _

/-- The fields of the records among some items are noted. -/
def Item.withFields (typeOf : TypeExpr → Ty) (items : List Item) (info : RecordInfo) : RecordInfo :=
  items.foldl (fun info item =>
    match item with
    | .record r =>
      if some info.decl = r.decl then { info with fields := distinctFields typeOf [] r.fields }
      else info
    | _ => info) info

theorem declareAllFields_run (h : s.Names layers) (hrun : (items.forM fun item =>
      match item with
      | .record record => declareFields record
      | _ => pure () : Analyze Unit) s = (u, s')) :
    s'.Names layers ∧ s.SameUnit s' ∧ s'.functions = s.functions ∧ s'.records =
      s.records.map (Item.withFields (fun t => (t.meaning layers.record?).stored) items) := by
  induction items generalizing s with
  | nil =>
    cases pure_eq.mp hrun
    exact ⟨h, ⟨rfl, rfl, rfl⟩, rfl, (map_id _).symm⟩
  | cons item items ih =>
    obtain ⟨_, s1, hfirst, hrest⟩ := bind_eq.mp hrun
    cases item with
    | record r =>
      obtain ⟨fields, s2, hfields, hfirst⟩ := bind_eq.mp hfirst
      obtain ⟨new, hnew⟩ := resolveFields_gives h r [] r.fields
      rw [hnew] at hfields
      cases hfields
      cases modify_eq.mp hfirst
      have hothers := fun hnames => ih hnames hrest
      obtain ⟨hnames, hsame, hfunctions, hrecords⟩ :=
        hothers ((h.noting new).congr rfl fun _ _ hx => hx)
      refine ⟨hnames, ⟨hsame.unitIndex, hsame.className, hsame.methods⟩, hfunctions, ?_⟩
      rw [hrecords]
      show (s.records.map _).map _ = _
      rw [map_map]
      rfl
    | function _ | stmt _ =>
      cases pure_eq.mp hfirst
      exact ih h hrest

theorem declareRecords_run (h : s.Names (layer :: layers))
    (hrun : declareRecords items s = (items', s')) :
    ∃ layer', layer' = layer ++ Item.recordNames s.unitIndex 0 items ∧
      s'.Names (layer' :: layers) ∧ s.SameUnit s' ∧
      items' = Item.numbered s.unitIndex 0 items ∧
      s'.records = (s.records ++ Item.recordInfos s.unitIndex s.className 0 items).map
        (Item.withFields (fun t => (t.meaning (NameLayers.record? (layer' :: layers))).stored)
          (Item.numbered s.unitIndex 0 items)) := by
  obtain ⟨named, s1, hnames, hrun⟩ := bind_eq.mp hrun
  obtain ⟨_, s2, hfields, hrun⟩ := bind_eq.mp hrun
  cases pure_eq.mp hrun
  obtain ⟨hnames1, hsame1, rfl, hrecords1, -⟩ := declareRecordNames_run h hnames
  obtain ⟨hnames2, hsame2, _, hrecords2⟩ := declareAllFields_run hnames1 hfields
  exact ⟨_, rfl, hnames2, hsame1.trans hsame2, rfl, by rw [hrecords2, hrecords1]⟩

/-! ## Functions -/

def Item.functionNames : List Item → List (String × Option DeclId)
  | [] => []
  | .function f :: rest => (f.head.name.name, none) :: Item.functionNames rest
  | _ :: rest => Item.functionNames rest

theorem takeMethod_eq (name : String) (s : AnalysisState) : takeMethod none name s =
    (uniqueMethod s.methods name, { s with methods := uniqueMethod s.methods name :: s.methods }) :=
  rfl

/-- What is noted of a function, given what names stand for. -/
structure FunctionInfo.Describes (info : FunctionInfo) (head : FunctionHead) (decl : DeclId)
    (method : String) (layers : NameLayers) : Prop where
  decl : info.decl = decl
  method : info.method = method
  params : info.params = head.params.map fun p => (p.ty.meaning layers.record?).stored
  ret : info.ret = (head.ret.map (·.meaning layers.record?)).getD .void

theorem registerFunction_run (h : s.Names (layer :: layers)) {head : FunctionHead} {decl : DeclId}
    {id : FnId} (hrun : registerFunction head none decl s = (id, s')) :
    s'.Names ((layer ++ [(head.name.name, none)]) :: layers) ∧ s'.unitIndex = s.unitIndex ∧
      s'.methods = uniqueMethod s.methods head.name.name :: s.methods ∧
      ∃ info, s'.functions[id]? = some info ∧
        info.Describes head decl (uniqueMethod s.methods head.name.name) (layer :: layers) := by
  obtain ⟨params, s1, hparams, hrun⟩ := bind_eq.mp hrun
  obtain ⟨new, hnew⟩ := resolveParams_gives h head.params
  rw [hnew] at hparams
  cases hparams
  obtain ⟨ret, s2, hret, hrun⟩ := bind_eq.mp hrun
  obtain ⟨new', hnew'⟩ := resolveResult_gives (h.noting new) head.ret
  rw [hnew', noting_noting] at hret
  cases hret
  obtain ⟨method, s3, hmethod, hrun⟩ := bind_eq.mp hrun
  rw [takeMethod_eq] at hmethod
  cases hmethod
  obtain ⟨_, s6, hset, hrun⟩ := bind_eq.mp (get_bind.mp hrun)
  obtain ⟨x, s7, hdeclare, hrun⟩ := bind_eq.mp hrun
  cases pure_eq.mp hrun
  cases hset
  obtain ⟨hnames, hadds⟩ := Names.of_binds (declare_binds hdeclare).2
    (h.congr rfl fun _ _ hx => hx)
  exact ⟨hnames, hadds.sameUnit.unitIndex, hadds.sameUnit.methods, _,
    (congrArg (·[s.functions.size]?) hadds.functions).trans Array.getElem?_push_size,
    rfl, rfl, rfl, rfl⟩

/-- **The functions at the top of a unit are made known in order.** Where one is, names stand for
records and for the functions before. -/
theorem registerItems_run (h : s.Names (layer :: layers)) {ids : List (Option FnId)}
    (hrun : registerItems index items s = (ids, s')) :
    ∀ d ∈ topDecls s.methods index items, ∀ f, d.item = .function f → ∃ j id info,
      d.index = index + j ∧ ids[j]? = some (some id) ∧ s'.functions[id]? = some info ∧
      info.Describes f.head ⟨s.unitIndex, d.index⟩ d.method
        ((layer ++ Item.functionNames (items.take j)) :: layers) := by
  induction items generalizing s layer index ids with
  | nil => exact nofun
  | cons item items ih =>
    intro d hd f hf
    cases item with
    | function g =>
      obtain ⟨id, s3, hregister, hrun⟩ := bind_eq.mp (get_bind.mp hrun)
      obtain ⟨rest, s4, hrest, hrun⟩ := bind_eq.mp hrun
      cases pure_eq.mp hrun
      obtain ⟨hnames, hunit, hmethods, info, hinfo, hdescribes⟩ := registerFunction_run h hregister
      rcases mem_cons.mp hd with rfl | hd
      · cases hf
        refine ⟨0, id, info, rfl, rfl, ?_, ?_⟩
        · exact ((registerItems_grows _ _).of_eq hrest).functions _ _ hinfo
        · rw [take_zero, Item.functionNames, append_nil]
          exact hdescribes
      · rw [← hmethods] at hd
        obtain ⟨j, id', info', hindex, hid, hinfo', hdescribes'⟩ := ih hnames hrest d hd f hf
        refine ⟨j + 1, id', info', by omega, hid, hinfo', ?_⟩
        rw [hunit, append_assoc] at hdescribes'
        exact hdescribes'
    | record r =>
      obtain ⟨rest, s4, hrest, hrun⟩ := bind_eq.mp hrun
      cases pure_eq.mp hrun
      rcases mem_cons.mp hd with rfl | hd
      · cases hf
      · obtain ⟨j, id', info', hindex, hid, hinfo', hdescribes'⟩ := ih h hrest d hd f hf
        exact ⟨j + 1, id', info', by omega, hid, hinfo', hdescribes'⟩
    | stmt stmt =>
      obtain ⟨rest, s4, hrest, hrun⟩ := bind_eq.mp hrun
      cases pure_eq.mp hrun
      obtain ⟨j, id', info', hindex, hid, hinfo', hdescribes'⟩ := ih h hrest d hd f hf
      exact ⟨j + 1, id', info', by omega, hid, hinfo', hdescribes'⟩

/-! ### Numbered records -/

theorem mem_topDecls_numbered {unit : Nat} {taken : List String} {d : TopDecl}
    (hd : d ∈ topDecls taken index items) {f : FunctionDecl} (hf : d.item = .function f) :
    d ∈ topDecls taken index (Item.numbered unit index items) := by
  induction items generalizing taken index with
  | nil => cases hd
  | cons item items ih =>
    cases item with
    | function g =>
      rcases mem_cons.mp hd with rfl | hd
      · exact mem_cons_self
      · exact mem_cons_of_mem _ (ih hd)
    | record r =>
      rcases mem_cons.mp hd with rfl | hd
      · cases hf
      · exact mem_cons_of_mem _ (ih hd)
    | stmt stmt => exact ih hd

theorem functionNames_numbered (unit index j : Nat) (items : List Item) :
    Item.functionNames ((Item.numbered unit index items).take j) =
      Item.functionNames (items.take j) := by
  induction items generalizing index j with
  | nil => rfl
  | cons item items ih =>
    cases j with
    | zero => rfl
    | succ j =>
      cases item with
      | function f => exact congrArg ((f.head.name.name, none) :: ·) (ih _ _)
      | _ => exact ih _ _

theorem getElem?_numbered (unit index j : Nat) (items : List Item) :
    (Item.numbered unit index items)[j]? = (items[j]?).map fun item =>
      match item with
      | .record r => .record { r with decl := some ⟨unit, index + j⟩ }
      | other => other := by
  induction items generalizing index j with
  | nil => rfl
  | cons item items ih =>
    cases j with
    | zero => cases item <;> rfl
    | succ j =>
      have hrest := ih (index + 1) j
      rw [show index + 1 + j = index + (j + 1) by omega] at hrest
      cases item <;> exact hrest

end Runs

end StackCompiler

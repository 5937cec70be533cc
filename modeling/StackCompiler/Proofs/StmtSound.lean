import StackCompiler.Proofs.Declarations
import StackCompiler.Proofs.ExprSound

/-!
# Analysed statements are checked

A statement in which the analysis finds nothing wrong is checked, in view of what the analysis has
found when it is done, and nothing is missing from its notes. What functions read and call is noted
on the way: it comes from the scopes around them.

* **`Stmt.analyze_settles`**: analysed statements are checked.
-/

namespace StackCompiler

open AnalysisState Analyze List Stmt

variable {s1 s2 : AnalysisState} {flow : Flow} {f parent : FnId} {head : FunctionHead}
  {info : FunctionInfo} {ids : List (Option FnId)} {body : List Stmt} {id? : Option FnId}
  {stmt : Stmt} {symbol : Symbol} {u : Unit} {own : List SymbolId}

/-! ## Places -/

/-- The variables in view at a place belong to its function, or to one around it that was made known
earlier, or they are global. -/
def Place.Fits (final : AnalysisState) (around : FnId → List SymbolId) (c : Place) : Prop :=
  ∀ x ∈ c.whole, x ∈ around c.function ∧ (∀ f, final.owner? x = some f → f < c.function) ∨
    final.owner? x = some c.function ∨ final.owner? x = none

namespace AnalysisState

/-- What functions read and call comes from around them. -/
structure Noted (s final : AnalysisState) (around : FnId → List SymbolId) : Prop where
  reads : ∀ read ∈ s.outerReads, read.2 ∈ around read.1 ∧
    (∃ info, s.functions[read.1]? = some info) ∧
    ∃ symbol, s.symbols[read.2]? = some symbol ∧ symbol.isLocal = true ∧
      symbol.owner ≠ some read.1
  calls : ∀ site ∈ s.calls, (∃ info, s.functions[site.caller]? = some info) ∧
    (∃ info, s.functions[site.callee]? = some info) ∧
    ∀ x ∈ around site.callee, x ∈ around site.caller ∨ final.owner? x = some site.caller ∨
      final.owner? x = none

/-- The analysis stands at a place with nothing wrong so far. -/
structure Stands (s final : AnalysisState) (around : FnId → List SymbolId) (c : Place) :
    Prop where
  agrees : s.Agrees around c
  fits : c.Fits final around
  noted : s.Noted final around

/-- What has been found is in the analysis of the unit, but for what functions capture. -/
structure KeptIn (s : AnalysisState) (a : Analysis) : Prop where
  symbols : ∀ (id : SymbolId) symbol, s.symbols[id]? = some symbol → a.symbols[id]? = some symbol
  functions : ∀ (f : FnId) info, s.functions[f]? = some info → ∃ info',
    a.functions[f]? = some info' ∧ info'.name = info.name ∧ info'.params = info.params
  records : a.records = s.records

variable {s s' final : AnalysisState} {around : FnId → List SymbolId} {c c' : Place} {id : SymbolId}

theorem KeptIn.shows {a : Analysis} (h : s.KeptIn a) : a.Shows (s.view around c) := by
  refine ⟨h.symbols, fun id params ret hsig => ?_, fun decl info hinfo => ?_⟩
  · obtain ⟨info, hinfo, ⟨⟩⟩ := Option.map_eq_some_iff.mp hsig
    obtain ⟨info', hinfo', -, hparams⟩ := h.functions _ _ hinfo
    exact ⟨info', hinfo', hparams⟩
  · rw [Analysis.record?, h.records]
    exact hinfo

theorem Noted.declares (h : s.Noted final around) (hd : s.Declares s') : s'.Noted final around := by
  constructor
  · rw [hd.sameReads]
    intro read hr
    obtain ⟨hmem, ⟨info, hinfo⟩, symbol, hsymbol, hl⟩ := h.reads read hr
    exact ⟨hmem, ⟨info, hd.toGrows.functions _ _ hinfo⟩, symbol, hd.toGrows.symbols _ _ hsymbol, hl⟩
  · rw [hd.sameCalls]
    intro site hc
    obtain ⟨⟨info, hinfo⟩, ⟨info', hinfo'⟩, hmem⟩ := h.calls site hc
    exact ⟨⟨info, hd.toGrows.functions _ _ hinfo⟩, ⟨info', hd.toGrows.functions _ _ hinfo'⟩, hmem⟩

/-- What an expression reads and calls comes from around its function. -/
theorem Stands.reads (h : s.Stands final around c) (hr : Reads c.function s s')
    (hfinal : s'.Grows final) : s'.Stands final around c := by
  generalize hf : c.function = f at hr
  refine ⟨h.agrees.calm hr.calm, h.fits, fun read hread => ?_, fun site hsite => ?_⟩
  · obtain ⟨hmem, hreg, hsym⟩ : read.2 ∈ around read.1 ∧
        (∃ info, s.functions[read.1]? = some info) ∧
        ∃ symbol, s.symbols[read.2]? = some symbol ∧ symbol.isLocal = true ∧
          symbol.owner ≠ some read.1 := by
      rcases hr.newReads read hread with hread | ⟨rfl, hlayer, symbol, hsymbol, hlocal, howner⟩
      · exact h.noted.reads read hread
      · refine ⟨?_, hf ▸ h.agrees.registered, symbol, hsymbol, hlocal, howner⟩
        obtain ⟨symbol', hsymbol', hm⟩ := h.agrees.means _ hlayer
        cases hsymbol.symm.trans hsymbol'
        have hstorage : symbol.kind.isStorage = true ∧ symbol.owner.isSome = true := by
          simpa [Symbol.isLocal] using hlocal
        have hknown : read.2 ∈ c.known := by
          cases hk : symbol.kind with
          | variable_ | parameter | loopVariable => rw [hk] at hm; exact hm
          | function _ | record _ | builtin _ => rw [hk] at hstorage; cases hstorage.1
        have hfinal' := hfinal.symbols _ _ (hr.toGrows.symbols _ _ hsymbol)
        have hown : final.owner? read.2 = symbol.owner := by rw [owner?, hfinal']; rfl
        rw [← hf]
        rcases h.fits _ (h.agrees.knownWhole _ hknown) with ⟨hmem, _⟩ | hmem | hmem
        · exact hmem
        · exact absurd (hown.symm.trans hmem) (hf ▸ howner)
        · rw [hown] at hmem
          rw [hmem] at hstorage
          cases hstorage.2
    exact ⟨hmem, hr.sameFunctions ▸ hreg, hr.sameSymbols ▸ hsym⟩
  · obtain ⟨hcaller, hcallee, hmem⟩ : (∃ info, s.functions[site.caller]? = some info) ∧
        (∃ info, s.functions[site.callee]? = some info) ∧ ∀ x ∈ around site.callee,
          x ∈ around site.caller ∨ final.owner? x = some site.caller ∨ final.owner? x = none := by
      rcases hr.newCalls site hsite with hsite | ⟨rfl, id, hlayer, symbol, hsymbol, hkind⟩
      · exact h.noted.calls site hsite
      · obtain ⟨symbol', hsymbol', hm⟩ := h.agrees.means _ hlayer
        cases hsymbol.symm.trans hsymbol'
        rw [hkind] at hm
        obtain ⟨⟨info, hinfo, _⟩, hinside⟩ := hm
        exact ⟨hf ▸ h.agrees.registered, ⟨info, hinfo⟩,
          fun x hx => hf ▸ (h.fits x (hinside x hx)).imp_left And.left⟩
    exact ⟨hr.sameFunctions ▸ hcaller, hr.sameFunctions ▸ hcallee, hmem⟩

theorem Stands.finds (h : s.Stands final around c) {α : Type} {m : Analyze α} {a : α}
    {Q : View → α → Prop} (hm : Finds around c m Q)
    (hkeeps : Keeps (Reads c.context.function) m) (hrun : m s = (a, s')) (hs : s'.Clean)
    (hfinal : s'.Grows final) : Q (final.view around c) a ∧ s'.Stands final around c :=
  ⟨hm.of_eq hrun hs h.agrees hfinal, h.reads (hkeeps.of_eq hrun) hfinal⟩

theorem Means.mono {kind : SymbolKind} (h : s.Means around c id kind) (hgrows : s.Grows s')
    (hknown : ∀ x ∈ c.known, x ∈ c'.known) (hwhole : ∀ x ∈ c.whole, x ∈ c'.whole) :
    s'.Means around c' id kind := by
  cases kind with
  | variable_ | parameter | loopVariable => exact hknown _ h
  | function f =>
    obtain ⟨⟨info, hinfo, hown⟩, hinside⟩ := h
    exact ⟨⟨info, hgrows.functions _ _ hinfo, hown⟩, fun x hx => hwhole x (hinside x hx)⟩
  | record decl =>
    obtain ⟨info, hinfo⟩ := h
    exact ⟨info, hgrows.records ▸ hinfo⟩
  | builtin b => trivial

theorem Means.storage {kind : SymbolKind} (hk : kind.isStorage = true) (hid : id ∈ c.known) :
    s.Means around c id kind := by
  cases kind <;> first | exact hid | cases hk

section

variable (h : s.Agrees around c) (hgrows : s.Grows s')
include h hgrows

theorem Agrees.layered (htables : s'.Tables) {known : List SymbolId} (hlayered : s.Layered s' own)
    (hown : ∀ x ∈ own, ∃ symbol, s'.symbols[x]? = some symbol ∧
      s'.Means around { c with known := c.known ++ known } x symbol.kind)
    (hknown : ∀ x ∈ known, x ∈ c.whole ∧ x < s'.symbols.size)
    (hwhole : ∀ x ∈ c.whole, s.symbols.size ≤ x → x < s'.symbols.size → x ∈ known) :
    s'.Agrees around { c with known := c.known ++ known } := by
  obtain ⟨hspelled, htop⟩ := hlayered h.spelled
  obtain ⟨info, hinfo⟩ := h.registered
  refine ⟨hspelled, htables, ⟨info, hgrows.functions _ _ hinfo⟩, fun x hx => ?_, fun x hx => ?_,
    fun x hx => ?_, fun x hx hlt => ?_⟩
  · rcases htop.mem hx with hx | hx
    · obtain ⟨symbol, hsymbol, hm⟩ := h.means x hx
      exact ⟨symbol, hgrows.symbols _ _ hsymbol,
        hm.mono hgrows (fun _ h => mem_append_left _ h) fun _ h => h⟩
    · exact hown x hx
  · rcases mem_append.mp hx with hx | hx
    · exact Nat.lt_of_lt_of_le (h.knownLt x hx) hgrows.size_le
    · exact (hknown x hx).2
  · rcases mem_append.mp hx with hx | hx
    · exact h.knownWhole x hx
    · exact (hknown x hx).1
  · by_cases hlt' : x < s.symbols.size
    · exact mem_append_left _ (h.wholeKnown x hx hlt')
    · exact mem_append_right _ (hwhole x hx (Nat.le_of_not_lt hlt') hlt)

theorem Agrees.after (htables : s'.Tables) (hlayered : s.Layered s' own)
    (hown : ∀ x ∈ own, x ∈ c.whole ∧ ∃ symbol, s'.symbols[x]? = some symbol ∧
      symbol.kind.isStorage = true)
    (hwhole : ∀ x ∈ c.whole, s.symbols.size ≤ x → x < s'.symbols.size → x ∈ own) :
    s'.Agrees around { c with known := c.known ++ own } := by
  refine h.layered hgrows htables hlayered (fun x hx => ?_) (fun x hx => ?_) hwhole
  all_goals obtain ⟨hmem, symbol, hsymbol, hstorage⟩ := hown x hx
  · exact ⟨symbol, hsymbol, .storage hstorage (mem_append_right _ hx)⟩
  · exact ⟨hmem, (Array.getElem?_eq_some_iff.mp hsymbol).1⟩

theorem Agrees.named (htables : s'.Tables) (hid : id = s.symbols.size)
    (hsymbols : s'.symbols = s.symbols.push symbol) (hlayered : s.Layered s' [id])
    (hmeans : s'.Means around c id symbol.kind) (hgap : id ∉ c.whole) : s'.Agrees around c := by
  subst hid
  suffices hmore : s'.Agrees around { c with known := c.known ++ [] } by simpa using hmore
  refine h.layered hgrows htables hlayered (fun x hx => ?_) nofun fun x hx hle hlt => ?_
  · rw [mem_singleton.mp hx, hsymbols, Array.getElem?_push_size]
    exact ⟨symbol, rfl, by simpa using hmeans⟩
  · rw [hsymbols, Array.size_push] at hlt
    exact absurd (Nat.le_antisymm (Nat.le_of_lt_succ hlt) hle ▸ hx) hgap

theorem Agrees.enclosed (hsymbols : s'.symbols = s.symbols)
    (hfunctions : s'.functions = s.functions) (henclosed : s.Enclosed s' []) :
    s'.Agrees around c := by
  obtain ⟨hspelled, htop⟩ := henclosed h.spelled
  refine ⟨hspelled, h.tables.congr hsymbols hfunctions hgrows.records, hfunctions ▸ h.registered,
    fun x hx => ?_, hsymbols ▸ h.knownLt, h.knownWhole, hsymbols ▸ h.wholeKnown⟩
  have hx' : x ∈ s.scopes.layers.flatten := by simpa using htop.mem hx
  obtain ⟨symbol, hsymbol, hm⟩ := h.means x hx'
  exact ⟨symbol, hgrows.symbols _ _ hsymbol, hm.mono hgrows (fun _ h => h) fun _ h => h⟩

end

theorem Tables.push (h : s.Tables) (hgrows : s.Grows s')
    (hsymbols : s'.symbols = s.symbols.push symbol) (hfresh : symbol.Fresh)
    (hvalue : symbol.kind.isStorage = true → (s.view around c).Value symbol.ty)
    (hfunctions : ∀ (f : FnId) info, s'.functions[f]? = some info → s.functions[f]? = some info ∨
      (∀ ty ∈ info.params, (s.view around c).Value ty) ∧
        (info.ret = .void ∨ (s.view around c).Value info.ret)) : s'.Tables := by
  have hcases {id : SymbolId} {x : Symbol} (hx : s'.symbols[id]? = some x) :
      s.symbols[id]? = some x ∨ x = symbol := by
    rw [hsymbols, Array.getElem?_push] at hx
    split_ifs at hx
    · exact .inr (Option.some.inj hx).symm
    · exact .inl hx
  have hsigs {around' c' f ps r} (hsig : (s'.view around' c').signature f = some (ps, r)) :
      (∀ ty ∈ ps, (s'.view around' c').Value ty) ∧ (r = .void ∨ (s'.view around' c').Value r) := by
    obtain ⟨info, hinfo, ⟨⟩⟩ := Option.map_eq_some_iff.mp hsig
    rcases hfunctions f info hinfo with hinfo | ⟨hps, hr⟩
    · have hsig : (s.view around' c').signature f = some (info.params, info.ret) := by
        simp [view, hinfo]
      have hold := h.proper around' c'
      exact ⟨fun ty hty => hgrows.value (hold.params _ _ _ hsig ty hty),
        (hold.ret _ _ _ hsig).imp_right hgrows.value⟩
    · exact ⟨fun ty hty => hgrows.value (hps ty hty), hr.imp_right hgrows.value⟩
  refine ⟨fun around' c' => ⟨fun id x hx hk => ?_, fun id ps r hsig => (hsigs hsig).1,
    fun id ps r hsig => (hsigs hsig).2, fun d info hd f hf => ?_, fun d info hd => ?_⟩,
    fun id x hx => ?_⟩
  · rcases hcases hx with hx | rfl
    · exact hgrows.value ((h.proper around' c').symbol id x hx hk)
    · exact hgrows.value (hvalue hk)
  · refine hgrows.value ((h.proper around' c').fields d info ?_ f hf)
    simpa only [view, hgrows.records] using hd
  · refine (h.proper around' c').decl d info ?_
    simpa only [view, hgrows.records] using hd
  · rcases hcases hx with hx | rfl
    · exact h.fresh id x hx
    · exact hfresh

/-- In a scope whose variables are declared later, nothing else changes. -/
theorem Agrees.scope (h : s.Agrees around c) (hown : ∀ x ∈ own, s.symbols.size ≤ x) :
    s.Agrees around (c.scope own) := by
  refine ⟨h.spelled, h.tables, h.registered, fun x hx => ?_, h.knownLt,
    fun x hx => mem_append_left _ (h.knownWhole x hx), fun x hx hlt => ?_⟩
  · obtain ⟨symbol, hsymbol, hm⟩ := h.means x hx
    exact ⟨symbol, hsymbol, hm.mono (.refl s) (fun _ h => h) fun _ h => mem_append_left _ h⟩
  · rcases mem_append.mp hx with hx | hx
    · exact h.wholeKnown x hx hlt
    · exact absurd hlt (Nat.not_lt.mpr (hown x hx))

theorem Agrees.declared (h : s.Agrees around c) (hd : Declared s s' id symbol)
    (hk : symbol.kind.isStorage = true) (hvalue : (s.view around c).Value symbol.ty)
    (hnew : symbol.Fresh) : s'.Agrees around (c.starting [id]) := by
  have hscope : s.Agrees around (c.scope [id]) := h.scope fun x hx =>
    Nat.le_of_eq (hd.fresh.symm.trans (mem_singleton.mp hx).symm)
  refine hscope.after hd.declares.toGrows (h.tables.push hd.declares.toGrows hd.symbols hnew
    (fun _ => hvalue) fun _ _ h => .inl (hd.functions ▸ h)) hd.layered (fun x hx => ?_)
    fun x _ hle hlt => ?_
  · exact ⟨mem_append_right _ hx, symbol, mem_singleton.mp hx ▸ hd.getElem?, hk⟩
  · rw [hd.size] at hlt
    rw [mem_singleton, hd.fresh]
    exact Nat.le_antisymm (Nat.le_of_lt_succ hlt) hle

theorem Stands.scope (h : s.Stands final around c)
    (hown : ∀ x ∈ own, s.symbols.size ≤ x ∧
      (final.owner? x = none ∨ final.owner? x = some c.function)) :
    s.Stands final around (c.scope own) := by
  refine ⟨h.agrees.scope fun x hx => (hown x hx).1, fun x hx => ?_, h.noted⟩
  rcases mem_append.mp hx with hx | hx
  · exact h.fits x hx
  · exact .inr (hown x hx).2.symm

end AnalysisState

/-! ## Functions -/

/-- A function among statements has been made known, in the scope that it stands in. -/
def Stmt.Ready (s : AnalysisState) (around : FnId → List SymbolId) (c : Place)
    (id? : Option FnId) : Stmt → Prop
  | .function head _ => ∃ id info, id? = some id ∧ s.functions[id]? = some info ∧
      (info.params.length = head.params.length ∧ info.name = head.name.name) ∧
      around id = c.whole ∧ c.function < id
  | _ => id? = none

section Functions

variable {s s' final : AnalysisState} {around : FnId → List SymbolId} {c : Place}

theorem Stmt.Ready.isFunction (h : stmt.Ready s around c id?) : stmt.isFunction = id?.isSome := by
  cases stmt with
  | function head body =>
    obtain ⟨id, _, rfl, _⟩ := h
    rfl
  | _ =>
    cases h
    rfl

theorem Stmt.Ready.grows (h : stmt.Ready s around c id?) (hgrows : s.Grows s') :
    stmt.Ready s' around c id? := by
  cases stmt with
  | function head body =>
    obtain ⟨id, info, hid, hinfo, hrest⟩ := h
    exact ⟨id, info, hid, hgrows.functions _ _ hinfo, hrest⟩
  | _ => exact h

theorem resolveParams_finds (params : List Param) :
    Finds around c (params.mapM fun p => resolveValueType p.ty) fun v types =>
      types.length = params.length ∧ ∀ ty ∈ types, v.Value ty := by
  induction params with
  | nil => exact .pure fun _ => ⟨rfl, nofun⟩
  | cons param params ih =>
    rw [mapM_cons]
    exact (resolveValueType_finds _).bind fun _ => ih.bind fun _ => .pure fun _ hrest hfirst =>
      ⟨congrArg (· + 1) hrest.1, forall_mem_cons.mpr ⟨hfirst, hrest.2⟩⟩

theorem resolveResult_finds (ret : Option TypeExpr) :
    Finds around c (resolveResult ret) fun v ty => ty = .void ∨ v.Value ty := by
  cases ret with
  | none => exact .pure fun _ => .inl rfl
  | some ty => exact resolveType_finds ty

/-- A function is made known. Its parameters and its result have values. -/
theorem Registered.agrees {id : FnId} {info : FunctionInfo} {symbol : Symbol}
    (hr : Registered s s' id info symbol) (hagrees : s.Agrees around c)
    (hparams : ∀ ty ∈ info.params, (s.view around c).Value ty)
    (hret : info.ret = .void ∨ (s.view around c).Value info.ret)
    (houtside : info.isExternal = true → around id = []) (haround : ∀ x ∈ around id, x ∈ c.whole)
    (hgap : s.symbols.size ∉ c.whole) : s'.Agrees around c := by
  have hgrows := hr.declares.toGrows
  have hstorage : symbol.kind.isStorage = true → False := by simp [hr.kind, SymbolKind.isStorage]
  have hvalue (hk) : (s.view around c).Value symbol.ty := (hstorage hk).elim
  have herror : symbol.ty.containsError = false := hr.ty ▸ Ty.containsError_function hparams hret
  have htables : s'.Tables := by
    refine hagrees.tables.push hgrows hr.symbols ⟨hr.slot, fun hk => (hstorage hk).elim, herror⟩
      hvalue fun f x hx => ?_
    rw [hr.functions, Array.getElem?_push] at hx
    split_ifs at hx
    · cases hx
      exact .inr ⟨hparams, hret⟩
    · exact .inl hx
  refine hagrees.named hgrows htables rfl hr.symbols hr.layered ?_ hgap
  rw [hr.kind]
  exact ⟨⟨info, hr.getElem?, houtside⟩, haround⟩

theorem registerFunction_agrees {id : FnId} {parent : Option FnId} {decl : DeclId}
    (h : registerFunction head parent decl s = (id, s')) (hs : s'.Clean)
    (hagrees : s.Agrees around c) (haround : ∀ x ∈ around id, x ∈ c.whole)
    (hgap : s.symbols.size ∉ c.whole) :
    s'.Agrees around c ∧ (∃ info, s'.functions[id]? = some info ∧
      info.params.length = head.params.length ∧ info.name = head.name.name) ∧ c.function < id := by
  obtain ⟨params, s1, ret, s2, info, symbol, hparams, hret, hgrows2, rfl, rfl, _, ⟨hname, hown⟩,
    hr⟩ := registerFunction_eq h
  have hr1 := (mapM_keeps (fun p : Param => Keeps.resolveValueType p.ty) _).of_eq hparams
  have hr2 := (resolveResult_keeps _).of_eq hret
  have hs2 := hgrows2.clean hs
  obtain ⟨hlen, hvalues⟩ := (resolveParams_finds _).of_eq hparams (hr2.grows.clean hs2) hagrees
    (.refl s1)
  have hresult := (resolveResult_finds _).of_eq hret hs2 (hagrees.calm hr1.calm) (.refl s2)
  obtain ⟨outer, houter⟩ := hagrees.registered
  exact ⟨hr.agrees hagrees (fun ty hty => hr1.grows.value' (hvalues ty hty))
    (hresult.imp_right (hr1.grows.trans hr2.grows).value') (by simp [hown]) haround hgap,
    ⟨info, hr.getElem?, hlen, hname⟩, hr.fresh ▸ (Array.getElem?_eq_some_iff.mp houter).1⟩

theorem Registers.agrees {parent : Option FnId} (h : Registers parent s body ids s') (hs : s'.Clean)
    (hagrees : s.Agrees around c) (haround : ∀ f ∈ ids.filterMap id, around f = c.whole)
    (hgap : ∀ x ∈ c.whole, s.symbols.size ≤ x → x < s'.symbols.size → False) :
    s'.Agrees around c ∧ List.Forall₂ (fun stmt id? => stmt.Ready s' around c id?) body ids := by
  induction h with
  | nil => exact ⟨hagrees, .nil⟩
  | @function s s0 s1 s' _ _ _ _ id _ hreports hregister hrest ih =>
    obtain ⟨hdeclares, _⟩ := hrest.eq
    have hid := haround id mem_cons_self
    have hsize := hdeclares.toGrows.size_le
    obtain ⟨_, _, _, _, info, symbol, _, _, _, _, _, _, _, hr⟩ := registerFunction_eq hregister
    have hsize1 : s1.symbols.size = s.symbols.size + 1 := by
      rw [hr.symbols, Array.size_push, hreports.symbols]
    have hlt0 : s.symbols.size < s'.symbols.size := by omega
    have hgap0 : s0.symbols.size ∉ c.whole :=
      hreports.symbols ▸ fun hmem => hgap _ hmem (Nat.le_refl _) hlt0
    obtain ⟨hagrees1, ⟨info, hinfo, hlen⟩, hlt⟩ := registerFunction_agrees hregister
      (hdeclares.toGrows.clean hs) (hagrees.calm hreports.calm) (fun x hx => hid ▸ hx) hgap0
    obtain ⟨hagrees', hready⟩ := ih hs hagrees1 (fun f hf => haround f (mem_cons_of_mem _ hf))
      fun x hx hle => hgap x hx (by omega)
    exact ⟨hagrees', .cons
      ⟨id, info, rfl, hdeclares.toGrows.functions _ _ hinfo, hlen, hid, hlt⟩ hready⟩
  | @other _ _ stmt _ _ hstmt _ ih =>
    obtain ⟨hagrees', hready⟩ := ih hs hagrees haround hgap
    refine ⟨hagrees', .cons ?_ hready⟩
    cases stmt with
    | function _ _ => cases hstmt
    | _ => rfl

theorem setState_agrees {state : ScopeState} (h : modifyScopes (·.setState state) s = (u, s'))
    (hagrees : s.Agrees around c) : s'.Agrees around c := by
  obtain ⟨hd, hsymbols, hfunctions, hlayered⟩ := setState_eq h
  have htables := hagrees.tables.congr hsymbols hfunctions hd.toGrows.records
  have hafter := hagrees.after hd.toGrows htables hlayered nofun
    fun x _ hle hlt => absurd hlt (Nat.not_lt.mpr (hsymbols ▸ hle))
  simpa using hafter

/-- The functions of a scope are made known before its statements are looked at. -/
theorem beginBody_stands (h : beginBody parent body s = (ids, s')) (hs : s'.Clean)
    (hstands : s.Stands final around c) (haround : ∀ f ∈ ids.filterMap id, around f = c.whole)
    (hgap : ∀ x ∈ c.whole, s.symbols.size ≤ x → x < s'.symbols.size → False) :
    s'.Stands final around c ∧
      List.Forall₂ (fun stmt id? => stmt.Ready s' around c id?) body ids := by
  obtain ⟨hdeclares, _⟩ := beginBody_eq h
  obtain ⟨_, s1, hbegin, h⟩ := bind_eq.mp h
  obtain ⟨ids', s2, hregister, h⟩ := bind_eq.mp h
  obtain ⟨_, s3, hend, h⟩ := bind_eq.mp h
  cases pure_eq.mp h
  obtain ⟨_, hsymbols1, _, _⟩ := setState_eq hbegin
  obtain ⟨hd3, hsymbols3, _, _⟩ := setState_eq hend
  have hagrees1 := setState_agrees hbegin hstands.agrees
  obtain ⟨hagrees2, hready⟩ := (registerStmts_registers hregister).agrees
    (hd3.toGrows.clean hs) hagrees1 haround
    (fun x hx hle hlt => hgap x hx (hsymbols1 ▸ hle) (hsymbols3 ▸ hlt))
  exact ⟨⟨setState_agrees hend hagrees2, hstands.fits, hstands.noted.declares hdeclares⟩,
    hready.imp fun _ _ h => h.grows hd3.toGrows⟩

theorem declareParams_agrees {id : FnId} {params params' : List Param} {types : List Ty}
    (h : declareParams id params types s = (params', s')) (hagrees : s.Agrees around c)
    (hlen : types.length = params.length) (hvalues : ∀ ty ∈ types, (s.view around c).Value ty) :
    s'.Agrees around (c.starting (params'.filterMap Param.symbol)) ∧
      ∀ final, s'.Grows final → List.Forall₂ (Param.Checked (final.view around c) id)
        params' types ∧ (∀ x ∈ params'.filterMap Param.symbol, final.owner? x = some id) ∧
        ∀ a, final.KeptIn a → ∀ d ∈ params'.map Declaration.parameter, d.Annotated a := by
  induction params generalizing s types params' c with
  | nil =>
    cases pure_eq.mp h
    obtain rfl := eq_nil_of_length_eq_zero hlen
    refine ⟨?_, fun _ _ => ⟨.nil, nofun, nofun⟩⟩
    simpa [Place.starting] using hagrees
  | cons param params ih =>
    cases types with
    | nil => cases hlen
    | cons ty types =>
    obtain ⟨x, s1, hdeclare, h⟩ := bind_eq.mp h
    obtain ⟨rest, s2, hrest, h⟩ := bind_eq.mp h
    cases pure_eq.mp h
    obtain ⟨symbol, hkind, hty, howner, hslot, hname, hd⟩ := declare_eq hdeclare
    obtain ⟨hdeclares, _⟩ := declareParams_eq hrest
    have hvalue : (s.view around c).Value symbol.ty := hty ▸ hvalues ty mem_cons_self
    have hagrees1 := hagrees.declared hd (by rw [hkind]; rfl) hvalue (.of_owner hslot howner hvalue)
    have hgrows := hd.declares.toGrows
    obtain ⟨hagrees', hchecked⟩ := ih hrest hagrees1 (Nat.succ.inj hlen)
      (fun ty hty => hgrows.value (hvalues ty (mem_cons_of_mem _ hty)))
    refine ⟨?_, fun final hfinal => ?_⟩
    · have hplace : (c.starting [x]).starting (rest.filterMap Param.symbol) =
          c.starting (x :: rest.filterMap Param.symbol) := by
        simp [Place.starting]
      rw [hplace] at hagrees'
      exact hagrees'
    · have hsymbol := hfinal.symbols _ _ (hdeclares.toGrows.symbols _ _ hd.getElem?)
      obtain ⟨hall, howned, hnames⟩ := hchecked final hfinal
      refine ⟨.cons ⟨x, symbol, rfl, hsymbol, hkind, howner, hty⟩ (hall.imp ?_), ?_, fun a ha =>
        forall_mem_cons.mpr ⟨⟨x, symbol, rfl, ha.symbols _ _ hsymbol, hname, hkind⟩, hnames a ha⟩⟩
      · rintro param' ty' ⟨y, symbol', hy, hsymbol', hrest⟩
        exact ⟨y, symbol', hy, hsymbol', hrest⟩
      · intro y hy
        rcases mem_cons.mp (show y ∈ x :: rest.filterMap Param.symbol from hy) with rfl | hy
        · rw [owner?, hsymbol]
          exact howner
        · exact howned y hy

end Functions

/-! ## Single statements -/

section Single

variable {around : FnId → List SymbolId} {c : Place}

theorem analyzeCondition_finds {cond : Expr} (hnat : cond.Natural) (construct : Construct) :
    Finds around c (analyzeCondition c.context construct cond) fun v cond' =>
      cond'.Finished v .bool :=
  (Expr.analyze_finds hnat _).bind fun _ => (expectType_finds _ _ _).imp
    fun _ _ hexpect hcond => hexpect _ (hcond fun t ht => by cases ht; exact .inr trivial) (by simp)

theorem resolveDeclared_finds (ty : Option TypeExpr) :
    Finds around c (resolveDeclared ty) fun v declared => ∀ t ∈ declared, v.Value t := by
  cases ty with
  | none => exact .pure fun _ _ h => by cases h
  | some ty =>
    exact (resolveValueType_finds ty).bind fun _ => .pure fun _ hvalue t ht => by
      cases ht
      exact hvalue

theorem typeVar_finds (declared : Option Ty) (init : Expr × Ty) :
    Finds around c (typeVar declared init) fun v x => init.1.Found v init.2 →
      (∀ t ∈ declared, v.Value t) → x.1.Finished v x.2 ∧ v.Value x.2 := by
  unfold typeVar
  split
  · exact (expectType_finds _ _ _).bind fun _ => .pure fun _ hexpect hinit hdeclared =>
      ⟨hexpect _ hinit (hdeclared _ rfl).ne_error, hdeclared _ rfl⟩
  · split_ifs with hvoid
    · exact .wrong rfl
    · exact .pure fun _ hinit _ => ⟨hinit.finished, hinit.value.resolve_left hvoid⟩

theorem analyzeInit_finds {decl : VarDecl} (hnat : decl.init.Natural) :
    Finds around c (analyzeInit c.context decl) fun v x =>
      x.1.Finished v x.2 ∧ v.Value x.2 :=
  (resolveDeclared_finds _).bind fun _ => (Expr.analyze_finds hnat _).bind fun _ =>
    (typeVar_finds _ _).imp fun _ _ htyped hinit hdeclared =>
      htyped (hinit fun t ht => .inr (hdeclared t ht)) hdeclared

theorem analyzeRange_finds {first last : Expr} (hfirst : first.Natural) (hlast : last.Natural) :
    Finds around c (analyzeRange c.context first last) fun v x => x.2.2.isIntegral = true ∧
      x.1.Finished v x.2.2 ∧ x.2.1.Finished v x.2.2 := by
  refine (Expr.analyze_finds hfirst _).bind fun x => (Expr.analyze_finds hlast _).bind fun y => ?_
  obtain ⟨first', t1⟩ := x
  obtain ⟨last', t2⟩ := y
  dsimp only
  split_ifs with herror
  · refine .pure fun _ hy hx => ?_
    simp [Ty.isError_eq_false (hx (by simp)).ne_error, Ty.isError_eq_false (hy (by simp)).ne_error]
      at herror
  · split
    · rename_i t hj
      refine .pure fun _ hy hx => ?_
      have hx := hx (by simp)
      have hy := hy (by simp)
      obtain ⟨hjoin, hintegral⟩ := Option.filter_eq_some_iff.mp hj
      obtain ⟨hn, _, hc1, hc2, _⟩ := join?_self hjoin
      have hne : t ≠ .error := by rintro rfl; cases hn
      exact ⟨hintegral, hx.widenTo (Ty.eq_or_widensTo hc1 hx.ne_error hne),
        hy.widenTo (Ty.eq_or_widensTo hc2 hy.ne_error hne)⟩
    · exact .wrong rfl

theorem signature_ret {s : AnalysisState} {v : View}
    (h : s.Agrees around c ∧ ∃ final, s.Grows final ∧ v = final.view around c) :
    ∃ params ret, ((s.functions[c.context.function]?).map FunctionInfo.ret).getD .error = ret ∧
      v.signature c.function = some (params, ret) ∧ (ret = .void ∨ v.Value ret) := by
  obtain ⟨hagrees, final, hfinal, rfl⟩ := h
  obtain ⟨info, hinfo⟩ := hagrees.registered
  refine ⟨info.params, info.ret, by simp [hinfo], ?_, ?_⟩
  · simp [view, hfinal.functions _ _ hinfo]
  · refine (hagrees.proper.ret c.function info.params info.ret ?_).imp_right hfinal.value
    simp [view, hinfo]

/-- A return statement stands in a function and gives what the function is to give. -/
theorem analyzeReturn_finds (span : Span) {value : Option Expr} (hnat : ∀ e ∈ value, e.Natural) :
    Finds around c (analyzeReturn c.context span value) fun v value' =>
      c.function ≠ FnId.main ∧ ∃ params ret, v.signature c.function = some (params, ret) ∧
        Expr.Returned v ret value' ∧ ∀ e ∈ value', e.Complete v := by
  unfold analyzeReturn
  split
  · refine .wrongThen rfl ?_
    cases value with
    | none => exact .pure fun _ => trivial
    | some value =>
      exact (Expr.analyze_finds (hnat value rfl) _).bind fun _ => .pure fun _ _ => trivial
  · rename_i hmain
    refine .bind .get fun s => ?_
    cases value with
    | none =>
      dsimp only
      split
      · exact .wrong rfl
      · rename_i hret
        refine .pure fun v hs => ⟨hmain, ?_⟩
        obtain ⟨params, ret, heq, hsig, hvalue⟩ := signature_ret hs
        rw [heq] at hret
        refine ⟨params, ret, hsig, hvalue.elim id fun hvalue => ?_, nofun⟩
        show ret = .void
        simpa [Ty.isError_eq_false hvalue.ne_error] using hret
    | some value =>
      refine (Expr.analyze_finds (hnat value rfl) _).bind fun x => ?_
      dsimp only
      split
      · exact .wrong rfl
      · rename_i hvoid
        refine (expectType_finds _ _ _).bind fun _ => .pure fun v hexpect hx hs => ⟨hmain, ?_⟩
        obtain ⟨params, ret, heq, hsig, hvalue⟩ := signature_ret hs
        rw [heq] at hvoid hexpect hx
        have hx := hexpect _ (hx fun t ht => by cases ht; exact hvalue)
          (hvalue.resolve_left hvoid).ne_error
        refine ⟨params, ret, hsig, ⟨hvoid, hx.typed⟩, ?_⟩
        rintro e ⟨⟩
        exact hx.complete

/-- A name that is assigned to is a variable of the function or a global one. -/
theorem analyzeAssignedName_finds (span : Span) (ref : NameRef) (note : Note) :
    Finds around c (analyzeAssignedName c.context span ref) fun v x =>
      (Expr.name note x.1).Assignable v c x.2 ∧ v.Value x.2 ∧
        ∀ a : Analysis, a.Shows v → (Expr.name note x.1).Resolved a := by
  refine (lookupName_finds _).bind fun found => ?_
  obtain e | ⟨binding, _ | symbol⟩ := found
  · exact .wrong rfl
  · exact .pure fun _ hbinds => hbinds.elim
  · dsimp only
    cases hp : assignProblem? c.context symbol with
    | some problem => exact .wrong rfl
    | none =>
      obtain ⟨hkind, howner⟩ : symbol.kind = .variable_ ∧
          (symbol.owner = none ∨ symbol.owner = some c.function) := by
        unfold assignProblem? at hp
        cases hk : symbol.kind with
        | variable_ =>
          simp only [hk] at hp
          split_ifs at hp with hmutable hlocal
          refine ⟨rfl, ?_⟩
          cases ho : symbol.owner with
          | none => exact .inl rfl
          | some f =>
            refine .inr ?_
            simpa [Symbol.isLocal, hk, ho, SymbolKind.isStorage] using hlocal
        | _ => simp only [hk] at hp; cases hp
      have hstorage : symbol.kind.isStorage = true := by rw [hkind]; rfl
      refine .pure fun _ hbinds => ?_
      obtain ⟨hknown, hvalue⟩ := hbinds.2.2 hstorage
      rw [if_pos hstorage]
      exact ⟨⟨binding, symbol, rfl, hbinds.1, hkind, rfl, hknown, howner⟩, hvalue,
        fun _ => hbinds.resolved⟩

/-- Elements and fields can be assigned to, and their types have values. -/
theorem analyzePart_finds {e : Expr} (hnat : e.Natural)
    (he : ∀ s v ty, (e.analyze c.context none s).1.1.HasTy v ty →
      (e.analyze c.context none s).1.1.Assignable v c ty ∧ (v.Proper → v.Value ty)) :
    Finds around c (e.analyze c.context none) fun v x =>
      x.1.Assignable v c x.2 ∧ v.Value x.2 ∧ x.1.Complete v := by
  intro s
  have hsettles : e.Settles around c := Expr.analyze_finds hnat
  obtain ⟨hcalm, hfound⟩ := hsettles none s
  refine ⟨hcalm, fun hs hagrees final hfinal => ?_⟩
  have hself := (hfound hs hagrees _ (.refl _) (by simp)).hasTy
  have hfound := hfound hs hagrees final hfinal (by simp)
  exact ⟨(he _ _ _ hfound.hasTy).1, hfinal.value ((he _ _ _ hself).2 (hagrees.calm hcalm).proper),
    hfound.finished.complete⟩

theorem analyzeTarget_finds {target : Expr} (hnat : target.Natural) :
    Finds around c (analyzeTarget c.context target) fun v x =>
      x.1.Assignable v c x.2 ∧ v.Value x.2 ∧ x.1.Complete v := by
  cases target with
  | name note ref =>
    exact (analyzeAssignedName_finds _ _ note).bind fun _ => .pure fun _ h =>
      ⟨h.1, h.2.1, fun a ha => forall_mem_singleton.mpr
        (Expr.noted_of_unwidened rfl rfl h.2.1.containsError ⟨h.2.2 a ha, trivial⟩)⟩
  | index note base position =>
    refine analyzePart_finds hnat fun s v ty => ?_
    rw [Expr.analyze]
    exact fun h => ⟨h, fun hp => h.index_value hp⟩
  | field note base ident position =>
    refine analyzePart_finds hnat fun s v ty => ?_
    rw [Expr.analyze]
    exact fun h => ⟨h, fun hp => h.field_value hp⟩
  | _ =>
    exact .wrongThen rfl ((Expr.analyze_finds hnat _).bind fun _ => .pure fun _ _ => trivial)

theorem analyzeAssign_finds {target value : Expr}
    (htarget : target.Natural) (hvalue : value.Natural) :
    Finds around c (analyzeAssign c.context target value) fun v x =>
      (∃ ty, x.1.Assignable v c ty ∧ x.2.Typed v ty) ∧ x.1.Complete v ∧ x.2.Complete v :=
  (analyzeTarget_finds htarget).bind fun x => (Expr.analyze_finds hvalue _).bind fun _ =>
    (expectType_finds _ _ _).bind fun _ => .pure fun _ hexpect he hx =>
      have hvalue := hexpect _ (he fun t ht => by cases ht; exact .inr hx.2.1) hx.2.1.ne_error
      ⟨⟨x.2, hx.1, hvalue.typed⟩, hx.2.2, hvalue.complete⟩

end Single

/-! ## All statements -/

/-- What the analysis has found out about a statement. -/
structure Stmt.Analyzed (final : AnalysisState) (around : FnId → List SymbolId) (c : Place)
    (s' : AnalysisState) (stmt : Stmt) (flow : Flow) : Prop where
  flow : flow = stmt.flow
  checked : stmt.Checked (final.view around) c
  annotated : ∀ a, final.KeptIn a → AllAnnotated a stmt.exprs stmt.declarations
  tables : s'.Tables
  noted : s'.Noted final around

structure Stmt.AnalyzedAll (final : AnalysisState) (around : FnId → List SymbolId) (c : Place)
    (s' : AnalysisState) (stmts : List Stmt) (flow : Flow) : Prop where
  flow : flow = flowAll stmts
  checked : CheckedAll (final.view around) c stmts
  annotated : ∀ a, final.KeptIn a →
    AllAnnotated a (exprsAll stmts) (declarationsAll stmts)
  tables : s'.Tables
  noted : s'.Noted final around

/-- No variable that can be seen at a place is declared meanwhile. -/
def Place.Clear (c : Place) (s s' : AnalysisState) : Prop :=
  ∀ x ∈ c.whole, s.symbols.size ≤ x → x < s'.symbols.size → False

theorem Place.Clear.mono {c : Place} {s s' : AnalysisState} (h : c.Clear s s') (hs : s.Grows s1)
    (hs' : s2.Grows s') : c.Clear s1 s2 := fun x hx hle hlt =>
  h x hx (Nat.le_trans hs.size_le hle) (Nat.lt_of_lt_of_le hlt hs'.size_le)

/-- Wherever a statement stands, what is found out about it holds. The functions inside have the
variables around them that `around` tells, and those declared meanwhile are its own. -/
def Stmt.Settles (stmt : Stmt) : Prop :=
  ∀ ⦃final : AnalysisState⦄ ⦃around : FnId → List SymbolId⦄ ⦃c : Place⦄
    ⦃id? : Option FnId⦄ ⦃s s' : AnalysisState⦄ ⦃stmt' : Stmt⦄ ⦃flow : Flow⦄,
    stmt.analyze c.context id? s = ((stmt', flow), s') → s'.Clean → s'.Grows final →
    s.Stands final around c → stmt.Ready s around c id? →
    (∀ p ∈ stmt'.homes c.whole, around p.1 = p.2) →
    (∀ x ∈ stmt'.own, x ∈ c.whole) →
    (∀ x ∈ c.whole, s.symbols.size ≤ x → x < s'.symbols.size → x ∈ stmt'.own) →
    stmt'.Analyzed final around c s' flow

section All

variable {s s' final : AnalysisState} {around : FnId → List SymbolId} {c : Place}

theorem Stmt.Analyzed.stands (h : stmt.Analyzed final around c s' flow)
    (hstands : s.Stands final around c) (hshape : Shape f s s' id? stmt)
    (hown : ∀ x ∈ stmt.own, x ∈ c.whole)
    (hwhole : ∀ x ∈ c.whole, s.symbols.size ≤ x → x < s'.symbols.size → x ∈ stmt.own) :
    s'.Stands final around (c.after stmt) := by
  refine ⟨hstands.agrees.after hshape.grows h.tables hshape.layered (fun x hx => ⟨hown x hx, ?_⟩)
    hwhole, hstands.fits, h.noted⟩
  obtain ⟨_, symbol, hsymbol, hkind, _⟩ := hshape.owned x hx
  exact ⟨symbol, hsymbol, by rw [hkind]; rfl⟩

theorem analyzeList_analyzed {stmts : List Stmt} (hstmts : ∀ stmt ∈ stmts, stmt.Settles)
    {flow' : Flow} {warned : Bool} {stmts' : List Stmt} (hstands : s.Stands final around c)
    (h : analyzeList c.context flow warned ids stmts s = ((stmts', flow'), s')) (hs : s'.Clean)
    (hfinal : s'.Grows final)
    (hready : List.Forall₂ (fun stmt id? => stmt.Ready s around c id?) stmts ids)
    (hhomes : ∀ p ∈ homesAll c.whole stmts', around p.1 = p.2)
    (hown : ∀ x ∈ ownAll stmts', x ∈ c.whole)
    (hwhole : ∀ x ∈ c.whole, s.symbols.size ≤ x → x < s'.symbols.size → x ∈ ownAll stmts') :
    flow' = flow.andThen (flowAll stmts') ∧ CheckedAll (final.view around) c stmts' ∧
      (∀ a, final.KeptIn a → AllAnnotated a (exprsAll stmts') (declarationsAll stmts')) ∧
      s'.Tables ∧ s'.Noted final around := by
  induction stmts generalizing s flow warned ids stmts' c with
  | nil =>
    rw [analyzeList] at h
    cases pure_eq.mp h
    exact ⟨(Flow.andThen_normal _).symm, trivial, fun _ _ => .nil, hstands.agrees.tables,
      hstands.noted⟩
  | cons stmt stmts ih =>
    obtain _ | @⟨_, id?, _, ids, hid, hready⟩ := hready
    obtain ⟨s1, stmt', stmtFlow, s2, warned1, rest, hreports, hstmt, hrest, rfl⟩ :=
      analyzeList_cons h
    have hshape := stmt.shapes hstmt hid.isFunction
    have hothers := analyzeList_shape (fun stmt _ => stmt.shapes) hrest
      (hready.imp fun _ _ h => h.isFunction)
    have hsize : s1.symbols.size = s.symbols.size := by rw [hreports.symbols]
    have hstands1 := hstands.reads hreports.reads (hshape.grows.trans (hothers.grows.trans hfinal))
    -- what is declared during the first statement is its own, and likewise for the others
    have hfirstOwn (x : SymbolId) (hx : x ∈ c.whole) (hle : s1.symbols.size ≤ x)
        (hlt : x < s2.symbols.size) : x ∈ stmt'.own := by
      have hmem := hwhole x hx (hsize ▸ hle) (Nat.lt_of_lt_of_le hlt hothers.grows.size_le)
      rcases mem_append.mp (show x ∈ stmt'.own ++ ownAll rest from hmem) with hmem | hmem
      · exact hmem
      · exact absurd hlt (Nat.not_lt.mpr (hothers.owned x hmem).1)
    have hrestOwn (x : SymbolId) (hx : x ∈ c.whole) (hle : s2.symbols.size ≤ x)
        (hlt : x < s'.symbols.size) : x ∈ ownAll rest := by
      have hmem := hwhole x hx (Nat.le_trans (hsize ▸ hshape.grows.size_le) hle) hlt
      rcases mem_append.mp (show x ∈ stmt'.own ++ ownAll rest from hmem) with hmem | hmem
      · obtain ⟨_, _, hsymbol, _⟩ := hshape.owned x hmem
        exact absurd (Array.getElem?_eq_some_iff.mp hsymbol).1 (Nat.not_lt.mpr hle)
      · exact hmem
    have hownFirst (x : SymbolId) (hx : x ∈ stmt'.own) := hown x (mem_append_left _ hx)
    have hfirst := hstmts stmt mem_cons_self hstmt (hothers.grows.clean hs)
      (hothers.grows.trans hfinal) hstands1 (hid.grows hreports.grows)
      (fun p hp => hhomes p (mem_append_left _ hp)) hownFirst hfirstOwn
    have hgrows := hreports.grows.trans hshape.grows
    obtain ⟨hflow, hchecked, hannotated, htables, hnoted⟩ :=
      ih (fun stmt h => hstmts stmt (mem_cons_of_mem _ h))
        (hfirst.stands hstands1 hshape hownFirst hfirstOwn) hrest
        (hready.imp fun _ _ h => h.grows hgrows)
        (fun p hp => hhomes p (mem_append_right _ hp))
        (fun x hx => hown x (mem_append_right _ hx)) hrestOwn
    refine ⟨?_, ⟨hfirst.checked, hchecked⟩, fun a ha => (hfirst.annotated a ha).append
      (hannotated a ha), htables, hnoted⟩
    rw [hflow, hfirst.flow, Flow.andThen_assoc]
    rfl

/-- The variables that statements declare in their scope belong to their function in the end. -/
theorem owner?_of_owned {x : SymbolId} (hfinal : s'.Grows final)
    (h : ∃ symbol, s'.symbols[x]? = some symbol ∧ symbol.kind = .variable_ ∧
      (symbol.owner = none ∨ symbol.owner = some f)) :
    final.owner? x = none ∨ final.owner? x = some f := by
  obtain ⟨symbol, hsymbol, _, howner⟩ := h
  rw [owner?, hfinal.symbols _ _ hsymbol]
  exact howner

theorem AnalysisState.Stands.enter {kind : ScopeKind} (h : s.Stands final around c)
    (he : enterScope kind s = (u, s')) : s'.Stands final around c := by
  obtain ⟨hd, hsymbols, hfunctions, henclosed⟩ := enterScope_eq he
  exact ⟨h.agrees.enclosed hd.toGrows hsymbols hfunctions henclosed, h.fits, h.noted.declares hd⟩

theorem AnalysisState.Stands.loop (h : s.Stands final around c) : s.Stands final around c.loop :=
  ⟨⟨h.agrees.spelled, h.agrees.tables, h.agrees.registered, h.agrees.means, h.agrees.knownLt,
    h.agrees.knownWhole, h.agrees.wholeKnown⟩, h.fits, h.noted⟩

theorem AnalysisState.Stands.spans {xs : List SymbolId} {fs : List FnId}
    (h : s.Stands final around c) (hspans : Spans s s' xs fs) (htables : s'.Tables)
    (hnoted : s'.Noted final around) (hclear : c.Clear s s') : s'.Stands final around c := by
  have hafter := h.agrees.after hspans.grows htables hspans.layered nofun
    fun x hx hle hlt => (hclear x hx hle hlt).elim
  exact ⟨by simpa using hafter, h.fits, hnoted⟩

theorem scopedAll_analyzed {stmts stmts' : List Stmt} (hstmts : ∀ stmt ∈ stmts, stmt.Settles)
    {s3 : AnalysisState} (hstands : s.Stands final around c)
    (hbegin : beginBody parent stmts s = (ids, s1))
    (h : analyzeList c.context .normal false ids stmts s1 = ((stmts', flow), s2))
    (hr : s2.Reports s3) (hleave : leaveScope s3 = (u, s')) (hs : s'.Clean)
    (hfinal : s'.Grows final)
    (hhomes : ∀ p ∈ (idAll stmts').map (·, c.whole ++ ownAll stmts') ++
      homesAll (c.whole ++ ownAll stmts') stmts', around p.1 = p.2)
    (hclear : c.Clear s s') :
    AnalyzedAll final around (c.scope (ownAll stmts')) s' stmts' flow := by
  obtain ⟨hd, hsymbols, hfunctions, _⟩ := leaveScope_eq hleave
  have hgrows := hr.grows.trans hd.toGrows
  obtain ⟨hdeclares, hforall, _⟩ := beginBody_eq hbegin
  have hshape := analyzeList_shape (fun stmt _ => stmt.shapes) h hforall
  have hsize := hdeclares.toGrows.size_le
  have hstands' : s.Stands final around (c.scope (ownAll stmts')) := hstands.scope
    fun x hx => ⟨Nat.le_trans hsize (hshape.owned x hx).1,
      owner?_of_owned (hgrows.trans hfinal) (hshape.owned x hx).2⟩
  obtain ⟨hstands1, hready⟩ := beginBody_stands hbegin
    ((hshape.grows.trans hgrows).clean hs) hstands'
    (fun f hf => hhomes (f, _) (mem_append_left _ (mem_map.mpr ⟨f, hshape.numbers ▸ hf, rfl⟩)))
    (fun x hx hle hlt => by
      rcases mem_append.mp hx with hx | hx
      · exact hclear.mono (.refl s) (hshape.grows.trans hgrows) x hx hle hlt
      · exact absurd hlt (Nat.not_lt.mpr (hshape.owned x hx).1))
  obtain ⟨hflow, hchecked, hannotated, htables, hnoted⟩ := analyzeList_analyzed hstmts
    hstands1 h (hgrows.clean hs) (hgrows.trans hfinal) hready
    (fun p hp => hhomes p (mem_append_right _ hp)) (fun x hx => mem_append_right _ hx)
    fun x hx hle hlt => by
      rcases mem_append.mp hx with hx | hx
      · exact (hclear.mono hdeclares.toGrows hgrows x hx hle hlt).elim
      · exact hx
  exact ⟨by rw [hflow, Flow.normal_andThen], hchecked, hannotated,
    (htables.congr hr.symbols hr.functions hr.records).congr hsymbols hfunctions hd.toGrows.records,
    (hnoted.declares hr.declares).declares hd⟩

theorem scoped_analyzed {stmt' : Stmt} (hstmt : stmt.Settles)
    (hstands : s.Stands final around c) (hbegin : beginBody parent [stmt] s = (ids, s1))
    (h : stmt.analyze c.context ids.head?.join s1 = ((stmt', flow), s2))
    (hleave : leaveScope s2 = (u, s')) (hs : s'.Clean) (hfinal : s'.Grows final)
    (hhomes : ∀ p ∈ stmt'.id?.toList.map (·, c.whole ++ stmt'.own) ++
      stmt'.homes (c.whole ++ stmt'.own), around p.1 = p.2) (hclear : c.Clear s s') :
    stmt'.Analyzed final around (c.scope stmt'.own) s' flow := by
  have hown : ownAll [stmt'] = stmt'.own := append_nil _
  have hdone := scopedAll_analyzed (by simpa using hstmt) hstands hbegin (analyzeList_single h)
    (.refl _) hleave hs hfinal (by
      rw [hown]
      cases hid : stmt'.id? <;> simpa [idAll, homesAll, hid] using hhomes) hclear
  rw [hown] at hdone
  refine ⟨hdone.flow.trans (Flow.andThen_normal _), hdone.checked.1, fun a ha => ?_, hdone.tables,
    hdone.noted⟩
  simpa [exprsAll, declarationsAll] using hdone.annotated a ha

theorem endFunction_completes {id : FnId} (h : endFunction id head flow s = (u, s')) (hs : s'.Clean)
    (hinfo : s.functions[id]? = some info) (hne : info.ret ≠ .error) :
    info.ret = .void ∨ flow.completes = false := by
  by_contra hcon
  have hmissing : info.ret ≠ .void ∧ (!info.ret.isError) = true ∧ flow.completes = true := by
    simpa [Ty.isError_eq_false hne] using hcon
  simp only [endFunction, bind_apply, get_apply, hinfo, Option.map_some,
    Option.getD_some, if_pos hmissing] at h
  exact not_clean_of_report rfl ((leaveScope_eq h).1.toGrows.clean hs)

theorem AnalysisState.Agrees.inside {id : FnId} (h : s.Agrees around c)
    (hinfo : s.functions[id]? = some info) : s.Agrees around (c.inside id) :=
  ⟨h.spelled, h.tables, ⟨info, hinfo⟩, fun x hx => by
    obtain ⟨symbol, hsymbol, hm⟩ := h.means x hx
    exact ⟨symbol, hsymbol, hm.mono (.refl _) (fun _ h => h) fun _ h => h⟩, h.knownLt,
    h.knownWhole, h.wholeKnown⟩

/-- A function with nothing wrong in it, with its parameters and its body. -/
theorem analyzeFunctionBody_analyzed {id : FnId} {head' : FunctionHead} {body' : List Stmt}
    {s3 : AnalysisState} (hbody : ∀ stmt ∈ body, stmt.Settles)
    (hbegin : beginFunction id head s = (head', s1))
    (hbeginBody : beginBody id body s1 = (ids, s2))
    (h : analyzeList ⟨id, false⟩ .normal false ids body s2 = ((body', flow), s3))
    (hend : endFunction id head' flow s3 = (u, s')) (hs : s'.Clean) (hfinal : s'.Grows final)
    (hstands : s.Stands final around c) (hinfo : s.functions[id]? = some info)
    (hlen : info.params.length = head.params.length) (hname : info.name = head.name.name)
    (haround : around id = c.whole) (hlater : c.function < id)
    (hhomes : ∀ p ∈ (Stmt.function head' body').homes c.whole, around p.1 = p.2)
    (hclear : c.Clear s s') :
    (Stmt.function head' body').Analyzed final around c s' .normal := by
  obtain ⟨s0, params, hd0, hsymbols0, hfunctions0, henclosed, hparams, rfl⟩ :=
    beginFunction_eq hbegin
  rw [hinfo] at hparams
  simp only [Option.map_some, Option.getD_some] at hparams
  obtain ⟨hd1, _, hnumbered, _⟩ := declareParams_eq hparams
  obtain ⟨s4, hreports, hleave⟩ := endFunction_eq hend
  have hgrows := (scopedAll_shape (fun stmt _ => stmt.shapes) hbeginBody h).1
  have hgrows3 := hreports.grows.trans (leaveScope_eq hleave).1.toGrows
  have hfinal1 := hgrows.trans (hgrows3.trans hfinal)
  have hinfo0 : s0.functions[id]? = some info := hfunctions0 ▸ hinfo
  have hagrees0 := (hstands.agrees.enclosed hd0.toGrows hsymbols0 hfunctions0 henclosed).inside
    hinfo0
  have hsig : (s0.view around (c.inside id)).signature id = some (info.params, info.ret) := by
    simp [view, hinfo0]
  have hinfo' := ((hd0.trans hd1).toGrows.trans hfinal1).functions _ _ hinfo
  have hsig' : (final.view around c).signature id = some (info.params, info.ret) := by
    simp [view, hinfo']
  obtain ⟨hagrees1, hchecked⟩ := declareParams_agrees hparams hagrees0 hlen
    (hagrees0.proper.params _ _ _ hsig)
  obtain ⟨hparamsChecked, howned, hnames⟩ := hchecked final hfinal1
  have holder (x : SymbolId) (hx : x ∈ c.whole) (f : FnId) (hf : final.owner? x = some f) :
      f < id := by
    rcases hstands.fits x hx with ⟨_, hlt⟩ | heq | hnone
    · exact Nat.lt_trans (hlt f hf) hlater
    · cases heq.symm.trans hf
      exact hlater
    · cases hnone.symm.trans hf
  have hstands1 : s1.Stands final around
      ((c.inside id).starting (params.filterMap Param.symbol)) := by
    refine ⟨hagrees1, fun x hx => ?_, (hstands.noted.declares hd0).declares hd1⟩
    rcases mem_append.mp hx with hx | hx
    · exact .inl ⟨haround ▸ hx, holder x hx⟩
    · exact .inr (.inl (howned x hx))
  obtain ⟨hflow, hbodyChecked, hannotated, htables, hnoted⟩ := scopedAll_analyzed hbody
    hstands1 hbeginBody h hreports hleave hs hfinal hhomes fun x hx hle hlt => by
      rcases mem_append.mp hx with hx | hx
      · exact hclear.mono (hd0.trans hd1).toGrows (.refl _) x hx hle hlt
      · exact absurd (hnumbered.bounds x hx).2 (Nat.not_lt.mpr hle)
  refine ⟨rfl, ⟨id, info.params, info.ret, rfl, hsig', hparamsChecked, ?_, hbodyChecked, ?_⟩,
    fun a ha => ⟨(hannotated a ha).1, forall_mem_cons.mpr ⟨?_, forall_mem_append.mpr
      ⟨hnames a ha, (hannotated a ha).2⟩⟩⟩, htables, hnoted⟩
  · intro x hx symbol hsymbol howner
    have hsymbol : final.symbols[x]? = some symbol := hsymbol
    exact absurd (holder x hx id (by rw [owner?, hsymbol]; exact howner)) (Nat.lt_irrefl id)
  · rw [← hflow]
    refine endFunction_completes hend hs
      (hgrows.functions _ _ (hd1.toGrows.functions _ _ hinfo0)) ?_
    intro he
    have hret := hagrees0.proper.ret _ _ _ hsig
    rw [he] at hret
    exact hret.resolve_left (by simp)
  · obtain ⟨info', hinfo'', hname', -⟩ := ha.functions _ _ hinfo'
    exact ⟨id, info', rfl, hinfo'', hname'.trans hname⟩

theorem AnalysisState.Stands.openRange {kind : ScopeKind} {x : SymbolId}
    (h : s.Stands final around c) (hopen : openScope kind s = (u, s1))
    (hd : Declared s1 s' x symbol) (hstorage : symbol.kind.isStorage = true)
    (hslot : symbol.slot = none) (howner : symbol.owner = some c.function)
    (hvalue : (s1.view around c).Value symbol.ty) (hfinal : s'.Grows final) :
    s'.Stands final around (c.starting [x]).loop := by
  obtain ⟨hd1, hsymbols, hfunctions, henclosed⟩ := openScope_eq hopen
  have hagrees := (h.agrees.enclosed hd1.toGrows hsymbols hfunctions henclosed).declared hd hstorage
    hvalue (.of_owner hslot howner hvalue)
  refine Stands.loop ⟨hagrees, fun y hy => ?_, (h.noted.declares hd1).declares hd.declares⟩
  rcases mem_append.mp hy with hy | hy
  · exact h.fits y hy
  · refine .inr (.inl ?_)
    rw [mem_singleton.mp hy, owner?, hfinal.symbols _ _ hd.getElem?]
    exact howner

/-- **A statement in which nothing wrong is found is checked.** -/
theorem Stmt.analyze_settles (hnat : stmt.Natural) : stmt.Settles := by
  intro final around c id? s s' stmt' flow h hs hfinal hstands hready hhomes _ hwhole
  induction stmt generalizing final around c id? s s' stmt' flow with
  | var decl =>
    simp only [analyze, bind_eq, pure_eq, Prod.mk.injEq] at h
    obtain ⟨decl', _, hvar, ⟨rfl, rfl⟩, rfl⟩ := h
    obtain ⟨init, ty, s1, id, symbol, hinit, rfl, hsymbol, hkind, rfl, howner, hslot, hname, hd⟩ :=
      analyzeVar_eq hvar
    have hgrows := hd.declares.toGrows
    have hfinds {final : AnalysisState} (hfinal : s1.Grows final) :=
      (analyzeInit_finds hnat).of_eq hinit (hgrows.clean hs) hstands.agrees hfinal
    have hstands1 := hstands.reads ((analyzeInit_keeps _).of_eq hinit) (hgrows.trans hfinal)
    obtain ⟨hinit, -⟩ := hfinds (hgrows.trans hfinal)
    obtain ⟨-, hvalue⟩ := hfinds (.refl _)
    have hsymbol' := hfinal.symbols _ _ hd.getElem?
    refine ⟨rfl, ⟨id, symbol, hsymbol, hsymbol', hkind, howner, hinit.typed⟩, fun a ha =>
      ⟨hinit.complete a ha.shows, forall_mem_singleton.mpr
        ⟨id, symbol, hsymbol, ha.symbols _ _ hsymbol', hname, hkind⟩⟩, ?_,
      hstands1.noted.declares hd.declares⟩
    exact hstands1.agrees.tables.push hgrows hd.symbols (.of_variable hslot hkind hvalue)
      (fun _ => hvalue) fun f info hf => .inl (hd.functions ▸ hf)
  | function head body ih =>
    obtain ⟨id, info, rfl, hinfo, ⟨hlen, hname⟩, haround, hlater⟩ := hready
    simp only [analyze, bind_eq, pure_eq, Prod.exists, Prod.mk.injEq] at h
    obtain ⟨_, _, ⟨rfl, rfl⟩, head', s1, hbegin, ids, s2, hbody, body', flow', s3, hlist, _, s4,
      hend, ⟨rfl, rfl⟩, rfl⟩ := h
    exact analyzeFunctionBody_analyzed
      (fun stmt hstmt => ih stmt hstmt fun x hx => hnat x (mem_exprsAll.mpr ⟨stmt, hstmt, hx⟩))
      hbegin hbody hlist hend hs hfinal hstands hinfo hlen hname haround hlater hhomes
      fun x hx hle hlt => by cases hwhole x hx hle hlt
  | block span body ih =>
    simp only [analyze, bind_eq, pure_eq, Prod.exists, Prod.mk.injEq] at h
    obtain ⟨_, s1, henter, ids, s2, hbegin, body', flow', s3, hlist, _, s4, hleave, ⟨rfl, rfl⟩,
      rfl⟩ := h
    have hclear : c.Clear s s' := fun x hx hle hlt => by cases hwhole x hx hle hlt
    obtain ⟨hflow, hchecked, hannotated, htables, hnoted⟩ := scopedAll_analyzed
      (fun stmt hstmt => ih stmt hstmt fun x hx => hnat x (mem_exprsAll.mpr ⟨stmt, hstmt, hx⟩))
      (hstands.enter henter) hbegin hlist (.refl _) hleave hs hfinal hhomes
      (hclear.mono (enterScope_eq henter).1.toGrows (.refl _))
    exact ⟨hflow, hchecked, hannotated, htables, hnoted⟩
  | branch span cond yes no ihyes ihno =>
    have hcondNat : cond.Natural := fun x hx => hnat x (by cases no <;> simp [exprs, hx])
    have hyesNat : yes.Natural := fun x hx => hnat x (by cases no <;> simp [exprs, hx])
    rw [analyze] at h
    simp only [bind_eq, Prod.exists] at h
    obtain ⟨cond', s1, hcond, _, s2, henter, ids, s3, hbegin, yes', yesFlow, s4, hyes, _, s5,
      hleave, h⟩ := h
    have hreads := (analyzeCondition_keeps _ _).of_eq hcond
    have hspans := (enterScope_opened henter).leaveSingle yes.shapes hbegin hyes hleave c.whole
    -- the first part, given that nothing goes wrong in the rest
    have hfirst (hs5 : s5.Clean) (hfinal5 : s5.Grows final) (hclear : c.Clear s s5)
        (hhomes : ∀ p ∈ yes'.id?.toList.map (·, c.whole ++ yes'.own) ++
          yes'.homes (c.whole ++ yes'.own), around p.1 = p.2) :
        cond'.Finished (final.view around c) .bool ∧
          yes'.Analyzed final around (c.scope yes'.own) s5 yesFlow ∧
          s5.Stands final around c := by
      have hfinal1 := hspans.grows.trans hfinal5
      obtain ⟨hcond, hstands1⟩ := hstands.finds (analyzeCondition_finds hcondNat _)
        (analyzeCondition_keeps _ _) hcond (hspans.grows.clean hs5) hfinal1
      have hclear1 := hclear.mono hreads.toGrows (.refl _)
      have hyesDone := scoped_analyzed (ihyes hyesNat) (hstands1.enter henter) hbegin hyes hleave
        hs5 hfinal5 hhomes
        (hclear1.mono (enterScope_eq henter).1.toGrows (.refl _))
      exact ⟨hcond, hyesDone, hstands1.spans hspans hyesDone.tables hyesDone.noted hclear1⟩
    have hclear : c.Clear s s' := fun x hx hle hlt => by
      cases no <;> simp only [bind_eq, pure_eq, Prod.exists, Prod.mk.injEq] at h
      · obtain ⟨⟨rfl, rfl⟩, rfl⟩ := h
        cases hwhole x hx hle hlt
      · obtain ⟨_, _, _, _, _, _, _, _, _, _, _, _, _, ⟨rfl, rfl⟩, rfl⟩ := h
        cases hwhole x hx hle hlt
    cases no with
    | none =>
      cases pure_eq.mp h
      obtain ⟨hcond, hyesDone, _⟩ := hfirst hs hfinal hclear hhomes
      exact ⟨by rw [hyesDone.flow]; rfl, ⟨hcond.typed, hyesDone.checked⟩, fun a ha =>
        (hcond.complete.annotated ha.shows).append (hyesDone.annotated a ha), hyesDone.tables,
        hyesDone.noted⟩
    | some no =>
      simp only [bind_eq, pure_eq, Prod.exists, Prod.mk.injEq] at h
      obtain ⟨_, s6, henter', ids', s7, hbegin', no', noFlow, s8, hno, _, s9, hleave', ⟨rfl, rfl⟩,
        rfl⟩ := h
      have hgrows5 :=
        ((enterScope_opened henter').leaveSingle no.shapes hbegin' hno hleave' c.whole).grows
      obtain ⟨hcond, hyesDone, hstands5⟩ := hfirst (hgrows5.clean hs) (hgrows5.trans hfinal)
        (hclear.mono (.refl _) hgrows5) fun p hp => hhomes p (mem_append_left _ hp)
      have hnoDone := scoped_analyzed (ihno no rfl fun x hx => hnat x (by simp [exprs, hx]))
        (hstands5.enter henter') hbegin' hno hleave' hs hfinal
        (fun p hp => hhomes p (mem_append_right _ hp))
        (hclear.mono (hreads.toGrows.trans (hspans.grows.trans
          (enterScope_eq henter').1.toGrows)) (.refl _))
      exact ⟨by rw [hyesDone.flow, hnoDone.flow]; rfl,
        ⟨hcond.typed, hyesDone.checked, hnoDone.checked⟩, fun a ha =>
        (hcond.complete.annotated ha.shows).append
          ((hyesDone.annotated a ha).append (hnoDone.annotated a ha)), hnoDone.tables,
            hnoDone.noted⟩
  | loop span cond body ih =>
    simp only [analyze, bind_eq, pure_eq, Prod.exists, Prod.mk.injEq] at h
    obtain ⟨cond', s1, hcond, _, s2, henter, ids, s3, hbegin, body', bodyFlow, s4, hbody, _, s5,
      hleave, ⟨rfl, rfl⟩, rfl⟩ := h
    have hclear : c.Clear s s' := fun x hx hle hlt => by cases hwhole x hx hle hlt
    have hreads := (analyzeCondition_keeps _ _).of_eq hcond
    have hgrows := ((enterScope_opened henter).leaveSingle body.shapes hbegin hbody hleave []).grows
    obtain ⟨hcond, hstands1⟩ := hstands.finds
      (analyzeCondition_finds (fun x hx => hnat x (by simp [exprs, hx])) _)
      (analyzeCondition_keeps _ _) hcond (hgrows.clean hs) (hgrows.trans hfinal)
    have hdone := scoped_analyzed (ih fun x hx => hnat x (by simp [exprs, hx]))
      (hstands1.enter henter).loop hbegin hbody hleave hs hfinal hhomes
      (hclear.mono (hreads.toGrows.trans (enterScope_eq henter).1.toGrows) (.refl _))
    exact ⟨by rw [hdone.flow]; rfl, ⟨hcond.typed, hdone.checked⟩, fun a ha =>
      (hcond.complete.annotated ha.shows).append (hdone.annotated a ha), hdone.tables, hdone.noted⟩
  | range span loopVar first last body ih =>
    simp only [analyze, bind_eq, pure_eq, Prod.exists, Prod.mk.injEq] at h
    obtain ⟨first', last', ty, s1, hrange, _, s2, hopen, x, s3, hdeclare, ids, s4, hbegin, body',
      bodyFlow, s5, hbody, _, s6, hleave, ⟨rfl, rfl⟩, rfl⟩ := h
    have hclear : c.Clear s s' := fun x hx hle hlt => by cases hwhole x hx hle hlt
    obtain ⟨symbol, hkind, hty, howner, hslot, hname, hd⟩ := declare_eq hdeclare
    have hreads := (analyzeRange_keeps _ _).of_eq hrange
    have hgrows := ((openRange_opened hopen hd).leaveSingle body.shapes hbegin hbody
      hleave []).grows
    have hfinal3 := (scopedAll_shape (by simpa using body.shapes) hbegin
      (analyzeList_single hbody)).1.trans ((leaveScope_eq hleave).1.toGrows.trans hfinal)
    have hopened := (openScope_eq hopen).1.trans hd.declares
    obtain ⟨⟨hintegral, hfirst, hlast⟩, hstands1⟩ := hstands.finds (analyzeRange_finds
      (fun x hx => hnat x (by simp [exprs, hx])) fun x hx => hnat x (by simp [exprs, hx]))
      (analyzeRange_keeps _ _) hrange (hgrows.clean hs) (hgrows.trans hfinal)
    have hstands3 := hstands1.openRange hopen hd
      (by rw [hkind]; rfl) hslot howner (by rw [hty]; cases ty <;> trivial) hfinal3
    have hdone := scoped_analyzed (ih fun x hx => hnat x (by simp [exprs, hx])) hstands3
      hbegin hbody hleave hs hfinal hhomes fun y hy hle hlt => by
        rcases mem_append.mp hy with hy | hy
        · exact hclear.mono (hreads.toGrows.trans hopened.toGrows) (.refl _) y hy hle hlt
        · rw [mem_singleton.mp hy, hd.size, hd.fresh] at hle
          exact absurd hle (Nat.not_le.mpr (Nat.lt_succ_self _))
    have hsymbol := hfinal3.symbols _ _ hd.getElem?
    refine ⟨rfl, ⟨x, symbol, rfl, hsymbol, hkind, howner, hty ▸ hintegral, hty ▸ hfirst.typed,
      hty ▸ hlast.typed, hdone.checked⟩, fun a ha => ?_, hdone.tables, hdone.noted⟩
    obtain ⟨hexprs, hdeclarations⟩ := (hfirst.complete.annotated ha.shows).append
      ((hlast.complete.annotated ha.shows).append (hdone.annotated a ha))
    exact ⟨hexprs, forall_mem_cons.mpr
      ⟨⟨x, symbol, rfl, ha.symbols _ _ hsymbol, hname, hkind⟩, hdeclarations⟩⟩
  | ret span value =>
    simp only [analyze, bind_eq, pure_eq, Prod.mk.injEq] at h
    obtain ⟨value', _, hvalue, ⟨rfl, rfl⟩, rfl⟩ := h
    obtain ⟨⟨hmain, params, ret, hsig, hreturned, hcomplete⟩, hstands'⟩ := hstands.finds
      (analyzeReturn_finds _ (by
        rintro e he x hx
        cases he
        exact hnat x hx)) (analyzeReturn_keeps _ _) hvalue hs hfinal
    refine ⟨rfl, ⟨hmain, params, ret, hsig, hreturned⟩, fun a ha => ?_, hstands'.agrees.tables,
      hstands'.noted⟩
    cases value' with
    | none => exact .nil
    | some value' => exact (hcomplete value' rfl).annotated ha.shows
  | leave span =>
    rw [analyze] at h
    split_ifs at h with hin
    · cases pure_eq.mp h
      exact ⟨rfl, hin, fun _ _ => .nil, hstands.agrees.tables, hstands.noted⟩
    · cases h
      exact absurd hs (not_clean_of_report rfl)
  | next span =>
    rw [analyze] at h
    split_ifs at h with hin
    · cases h
      exact absurd hs (not_clean_of_report rfl)
    · cases pure_eq.mp h
      exact ⟨rfl, (by simpa using hin : c.inLoop = true), fun _ _ => .nil, hstands.agrees.tables,
        hstands.noted⟩
  | assign span target value =>
    simp only [analyze, bind_eq, pure_eq, Prod.exists, Prod.mk.injEq] at h
    obtain ⟨target', value', _, hassign, ⟨rfl, rfl⟩, rfl⟩ := h
    obtain ⟨⟨hchecked, htarget, hvalue⟩, hstands'⟩ := hstands.finds
      (analyzeAssign_finds (fun x hx => hnat x (by simp [exprs, hx]))
        fun x hx => hnat x (by simp [exprs, hx])) (analyzeAssign_keeps _ _) hassign hs hfinal
    exact ⟨rfl, hchecked, fun a ha => (htarget.annotated ha.shows).append
      (hvalue.annotated ha.shows), hstands'.agrees.tables, hstands'.noted⟩
  | expr value =>
    simp only [analyze, bind_eq, pure_eq, Prod.exists, Prod.mk.injEq] at h
    obtain ⟨value', ty, _, hvalue, ⟨rfl, rfl⟩, rfl⟩ := h
    obtain ⟨hfound, hstands'⟩ := hstands.finds (Expr.analyze_finds hnat none)
      (Keeps.analyze _ _ _) hvalue hs hfinal
    have hfound := hfound (by simp)
    exact ⟨rfl, ⟨ty, hfound.typed⟩, fun a ha => hfound.finished.complete.annotated ha.shows,
      hstands'.agrees.tables, hstands'.noted⟩

end All

end StackCompiler

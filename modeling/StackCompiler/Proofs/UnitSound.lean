import StackCompiler.Proofs.CaptureClosure
import StackCompiler.Proofs.StmtSound
import StackCompiler.Proofs.UnitItems

/-!
# Analysed units are sound

If the analysis of a unit finds nothing wrong, then its statements are checked in view of what the
functions capture in the end, and nothing is missing from their notes.

* **`SourceUnit.analyze_sound`**: units with nothing wrong in them are sound.
-/

namespace StackCompiler

open AnalysisState Analyze List Stmt

variable {site : CallSite} {ids : List (Option FnId)} {items items' : List Item} {index : Nat}
  {record : RecordDecl} {u : Unit} {exports : ExportTable}

/-! ## Sound units -/

/-- The place before the first statement of a unit. -/
def Place.top : Place := ⟨FnId.main, false, [], []⟩

namespace Analysis

def captures (a : Analysis) (f : FnId) : List SymbolId :=
  ((a.functions[f]?).map FunctionInfo.captures).getD []

/-- Code at a place can get at a local variable: the function has declared or captures it. -/
def Holds (a : Analysis) (c : Place) (x : SymbolId) : Prop :=
  ∀ symbol, a.symbols[x]? = some symbol → symbol.isLocal = true →
    symbol.owner = some c.function ∧ x ∈ c.known ∨
      symbol.owner ≠ some c.function ∧ x ∈ a.captures c.function

/-- What code at a place can refer to. A function can be called if what it captures is at hand. -/
def view (a : Analysis) (c : Place) : View where
  symbol id := a.symbols[id]?
  signature id := (a.functions[id]?).map fun info => (info.params, info.ret)
  record := a.record?
  sees := a.Holds c
  calls id := ∀ x ∈ a.captures id, a.Holds c x

/-- What is known of a unit with nothing wrong in it. -/
structure Sound (a : Analysis) (items : List Item) : Prop where
  proper : ∀ c, (a.view c).Proper
  fresh : ∀ (x : SymbolId) symbol, a.symbols[x]? = some symbol → symbol.Fresh
  fields : ∀ info ∈ a.records, ∀ field ∈ info.fields, ∀ c, (a.view c).Value field.2
  names : ∀ info ∈ a.declaredRecords, (info.fields.map Prod.fst).Nodup
  globals : ∀ x ∈ a.globals, ∃ symbol, a.symbols[x]? = some symbol ∧ symbol.kind = .variable_
  main : ∃ info, a.functions[FnId.main]? = some info ∧ info.params = [] ∧ info.ret = .void ∧
    info.captures = []
  captured : ∀ f, ∀ x ∈ a.captures f, ∃ symbol, a.symbols[x]? = some symbol ∧
    symbol.isLocal = true ∧ symbol.owner ≠ some f
  distinct : ∀ f, (a.captures f).Nodup
  checked : CheckedAll a.view (Place.top.scope (ownAll (Item.stmts items)))
    (Item.stmts items)
  declared : (declaredAll (Item.stmts items)).Nodup
  numbers : ∀ whole, (FnId.main :: idAll (Item.stmts items) ++
    (homesAll whole (Item.stmts items)).map Prod.fst).Nodup
  annotated : AllAnnotated a (exprsAll (Item.stmts items))
    (declarationsAll (Item.stmts items))

end Analysis

/-! ## Before the statements -/

/-- The parameters and fields of an export have values, and its result has one or is void. -/
def Export.Fits (v : View) (e : Export) : Prop :=
  match e.signature with
  | .function _ params result => (∀ ty ∈ params, v.Value ty) ∧ (result = .void ∨ v.Value result)
  | .record fields => ∀ field ∈ fields, v.Value field.2

namespace AnalysisState

variable {s s' final : AnalysisState} {around : FnId → List SymbolId} {c : Place}
  {records : List RecordInfo} {v : View} {symbol : Symbol}

/-- The state with other records in it. -/
def knowing (s : AnalysisState) (records : List RecordInfo) : AnalysisState :=
  { s with records := records }

theorem isSome_find?_decl {decl : DeclId} :
    (records.find? (·.decl = decl)).isSome ↔ decl ∈ records.map RecordInfo.decl := by
  simp [find?_isSome]

/-- More can be known of records, as long as their fields have values. -/
theorem Agrees.knowing (h : s.Agrees around c)
    (hdecls : records.map RecordInfo.decl = s.records.map RecordInfo.decl)
    (hfields : ∀ info ∈ records, ∀ field ∈ info.fields, (s.view around c).Value field.2) :
    (s.knowing records).Agrees around c := by
  have hsome (decl : DeclId) (h : (s.records.find? (·.decl = decl)).isSome) :
      (records.find? (·.decl = decl)).isSome :=
    isSome_find?_decl.mpr (hdecls ▸ isSome_find?_decl.mp h)
  have hvalue {ty : Ty} (hv : (s.view around c).Value ty) {around' : FnId → List SymbolId}
      {c' : Place} : ((s.knowing records).view around' c').Value ty :=
    hv.mono hsome
  have hsame {ty : Ty} {around' : FnId → List SymbolId} {c' : Place}
      (hv : (s.view around' c').Value ty) : (s.view around c).Value ty := (Grows.refl s).value hv
  refine ⟨⟨h.spelled.valid, h.spelled.names⟩, ⟨fun around' c' => ⟨fun id x hx hk => ?_,
    fun id ps r hsig ty hty => ?_,
    fun id ps r hsig => ?_, fun d info hd f hf => ?_, fun d info hd => ?_⟩, h.tables.fresh⟩,
    h.registered, fun id hid => ?_, h.knownLt, h.knownWhole, h.wholeKnown⟩
  · exact hvalue (hsame ((h.tables.proper around' c').symbol id x hx hk))
  · exact hvalue (hsame ((h.tables.proper around' c').params id ps r hsig ty hty))
  · exact ((h.tables.proper around' c').ret id ps r hsig).imp_right fun hv => hvalue (hsame hv)
  · exact hvalue (hfields info (mem_of_find?_eq_some hd) f hf)
  · simpa using find?_some hd
  · obtain ⟨symbol, hsymbol, hm⟩ := h.means id hid
    refine ⟨symbol, hsymbol, ?_⟩
    cases hk : symbol.kind with
    | record decl =>
      rw [hk] at hm
      obtain ⟨info, hinfo⟩ := hm
      exact Option.isSome_iff_exists.mp (hsome decl (by rw [hinfo]; rfl))
    | _ =>
      rw [hk] at hm
      exact hm

/-- What holds before the statements of a unit are looked at. -/
structure Early (s : AnalysisState) (around : FnId → List SymbolId) : Prop where
  agrees : s.Agrees around .top
  main : ∃ info, s.functions[FnId.main]? = some info ∧ info.params = [] ∧ info.ret = .void
  reads : s.outerReads = []
  calls : s.calls = #[]
  globals : ∀ x ∈ s.globals, ∃ symbol, s.symbols[x]? = some symbol ∧ symbol.kind = .variable_
  fields : ∀ info ∈ s.records, ∀ field ∈ info.fields, (s.view around .top).Value field.2
  names : ∀ info ∈ s.records, info.isExternal = false → (info.fields.map Prod.fst).Nodup

theorem Early.grows (h : s.Early around) (hd : s.Declares s') (hagrees : s'.Agrees around .top) :
    s'.Early around := by
  obtain ⟨main, hmain, htypes⟩ := h.main
  refine ⟨hagrees, ⟨main, hd.toGrows.functions _ _ hmain, htypes⟩, hd.sameReads.trans h.reads,
    hd.sameCalls.trans h.calls, fun x hx => ?_, fun info hinfo field hfield => ?_,
    hd.toGrows.records ▸ h.names⟩
  · rcases hd.toGrows.globals x hx with hx | hx
    · obtain ⟨symbol, hsymbol, hkind⟩ := h.globals x hx
      exact ⟨symbol, hd.toGrows.symbols _ _ hsymbol, hkind⟩
    · exact hx
  · exact hd.toGrows.value (h.fields info (hd.toGrows.records ▸ hinfo) field hfield)

theorem Early.open (h : s.Early around) {kind : ScopeKind} (ho : openScope kind s = (u, s')) :
    s'.Early around := by
  obtain ⟨hd, hsymbols, hfunctions, henclosed⟩ := openScope_eq ho
  exact h.grows hd (h.agrees.enclosed hd.toGrows hsymbols hfunctions henclosed)

theorem Early.named (h : s.Early around) {id : SymbolId} (hd : Declared s s' id symbol)
    (hkind : symbol.kind.isStorage = false) (hslot : symbol.slot = none)
    (herror : symbol.ty.containsError = false) (hmeans : s'.Means around .top id symbol.kind) :
    s'.Early around := by
  have hnever {P : Prop} (hk : symbol.kind.isStorage = true) : P := by
    rw [hkind] at hk
    cases hk
  have hvalue (hk) : (s.view around .top).Value symbol.ty := hnever hk
  have htables := h.agrees.tables.push hd.declares.toGrows hd.symbols ⟨hslot, hnever, herror⟩ hvalue
    fun f info hf => .inl (hd.functions ▸ hf)
  exact h.grows hd.declares (h.agrees.named hd.declares.toGrows htables hd.fresh
    hd.symbols hd.layered hmeans nofun)

theorem Early.knowing (h : s.Early around)
    (hdecls : records.map RecordInfo.decl = s.records.map RecordInfo.decl)
    (hfields : ∀ info ∈ records, ∀ field ∈ info.fields, (s.view around .top).Value field.2)
    (hnames : ∀ info ∈ records, info.isExternal = false → (info.fields.map Prod.fst).Nodup) :
    (s.knowing records).Early around :=
  ⟨h.agrees.knowing hdecls hfields, h.main, h.reads, h.calls, h.globals,
    fun info hinfo field hfield => (hfields info hinfo field hfield).mono fun _ hd =>
      isSome_find?_decl.mpr (hdecls ▸ isSome_find?_decl.mp hd), hnames⟩

/-! ### Names

Functions of other units may mention records that are made known only later, be it as imports or by
the unit itself. So what holds at each step is said of the state with all records in it that there
will be. -/

/-- The fields of a record have values, and different names if it is a record of the unit. -/
def Fills (v : View) (info : RecordInfo) : Prop :=
  (∀ field ∈ info.fields, v.Value field.2) ∧
    (info.isExternal = false → (info.fields.map Prod.fst).Nodup)

/-- Names are made known, with all records in view that there will be. Nothing is around functions
that are known so early. -/
structure Prepares (v : View) (records : List RecordInfo) (around : FnId → List SymbolId)
    (s s' : AnalysisState) : Prop where
  fills : ∀ info ∈ s'.records, info ∈ s.records ∨ Fills v info
  kept : ∀ info ∈ s.records, info ∈ s'.records
  functions : ∀ (f : FnId) info, s.functions[f]? = some info → s'.functions[f]? = some info
  early : (∀ info ∈ s'.records, info ∈ records) →
    (∀ (f : FnId) info, s'.functions[f]? = some info → around f = []) →
    (s.knowing records).Early around → (s'.knowing records).Early around

theorem start_early (unit : SourceUnit) (index : Nat)
    (hv : ∀ decl, (v.record decl).isSome → (records.find? (·.decl = decl)).isSome)
    (hfills : ∀ info ∈ records, Fills v info) :
    ((start unit index).knowing records).Early around := by
  have hnone (x : SymbolId) (symbol : Symbol) (h : (start unit index).symbols[x]? = some symbol) :
      False := by
    rw [start, Array.getElem?_empty] at h
    cases h
  have hmain (f : FnId) (ps : List Ty) (r : Ty) (h : ((start unit index).functions[f]?).map
      (fun info => (info.params, info.ret)) = some (ps, r)) : ps = [] ∧ r = .void := by
    obtain ⟨info, hinfo, heq⟩ := Option.map_eq_some_iff.mp h
    obtain ⟨hlt, rfl⟩ := Array.getElem?_eq_some_iff.mp hinfo
    obtain rfl : f = 0 := Nat.lt_one_iff.mp hlt
    cases heq
    exact ⟨rfl, rfl⟩
  have hvalue (info : RecordInfo) (hinfo : info ∈ records) (field : String × Ty)
      (hfield : field ∈ info.fields) (around : FnId → List SymbolId) (c : Place) :
      (((start unit index).knowing records).view around c).Value field.2 :=
    ((hfills info hinfo).1 field hfield).mono hv
  refine ⟨⟨⟨ScopeStack.empty_valid, trivial⟩,
    ⟨fun around c => ⟨fun x symbol h => (hnone x symbol h).elim,
    fun f ps r hsig ty hty => ?_, fun f ps r hsig => .inl (hmain f ps r hsig).2,
    fun decl info hinfo field hfield => hvalue info (mem_of_find?_eq_some hinfo) field hfield _ _,
    fun decl info hinfo => by simpa using find?_some hinfo⟩,
    fun x symbol h => (hnone x symbol h).elim⟩, ⟨_, rfl⟩, nofun, nofun, nofun, nofun⟩,
    ⟨_, rfl, rfl, rfl⟩, rfl, rfl, nofun, fun info hinfo field hfield =>
      hvalue info hinfo field hfield _ _, fun info hinfo => (hfills info hinfo).2⟩
  rw [(hmain f ps r hsig).1] at hty
  cases hty

theorem binds_knowing (records : List RecordInfo) (h : Binds s s' symbol) :
    Binds (s.knowing records) (s'.knowing records) symbol := by
  obtain ⟨hdepth, hbound, new, hs'⟩ := h
  refine ⟨hdepth, hbound, new, ?_⟩
  rw [hs']
  rfl

namespace Prepares

theorem trans {s'' : AnalysisState} (h : Prepares v records around s s')
    (h' : Prepares v records around s' s'') : Prepares v records around s s'' :=
  ⟨fun info hinfo => (h'.fills info hinfo).elim (h.fills info) .inr,
    fun info hinfo => h'.kept info (h.kept info hinfo),
    fun f info hinfo => h'.functions f info (h.functions f info hinfo),
    fun hrecords haround hearly => h'.early hrecords haround
      (h.early (fun info hinfo => hrecords info (h'.kept info hinfo))
        (fun f info hinfo => haround f info (h'.functions f info hinfo)) hearly)⟩

theorem of_same (hrecords : s'.records = s.records) (hfunctions : s'.functions = s.functions)
    (hearly : (s.knowing records).Early around → (s'.knowing records).Early around) :
    Prepares v records around s s' :=
  ⟨fun _ h => .inl (hrecords ▸ h), fun _ h => hrecords ▸ h, fun _ _ h => hfunctions ▸ h,
    fun _ _ => hearly⟩

theorem forM {α : Type} {f : α → Analyze Unit} {xs : List α}
    (hf : ∀ x ∈ xs, Keeps (Prepares v records around) (f x)) :
    Keeps (Prepares v records around) (xs.forM f) :=
  .forM (fun _ => of_same rfl rfl fun h => h) .trans hf

theorem openScope {kind : ScopeKind} (h : openScope kind s = (u, s')) :
    Prepares v records around s s' := by
  cases h
  exact of_same rfl rfl fun hearly => hearly.open rfl

theorem declareBuiltins : Keeps (Prepares v records around) declareBuiltins := by
  refine forM fun entry _ => .of_run fun s _ s' h => ?_
  have hbinds := bindName_binds h
  obtain ⟨new, hs'⟩ := hbinds.adds
  refine of_same (by rw [hs']) (by rw [hs']) fun hearly =>
    hearly.named (binds_knowing records hbinds).declared rfl rfl ?_ trivial
  cases entry.1 <;> rfl

/-- A record is made known, and the name that it has. -/
theorem addRecord {info : RecordInfo}
    (h : Binds { s with records := s.records ++ [info] } s' symbol) (hfills : Fills v info)
    (hkind : symbol.kind = .record info.decl) (hty : symbol.ty = info.recordType)
    (hslot : symbol.slot = none) : Prepares v records around s s' := by
  obtain ⟨new, hs'⟩ := h.adds
  have hrecords : s'.records = s.records ++ [info] := by rw [hs']
  refine ⟨fun x hx => ?_, fun x hx => ?_, fun f x hx => ?_, fun hsub _ hearly => ?_⟩
  · rw [hrecords] at hx
    refine (mem_append.mp hx).imp_right fun hx => ?_
    rwa [mem_singleton.mp hx]
  · rw [hrecords]
    exact mem_append_left _ hx
  · rw [hs']
    exact hx
  · refine Early.named (s := s.knowing records) hearly (binds_knowing records h).declared
      (by rw [hkind]; rfl) hslot (by rw [hty]; rfl) ?_
    rw [hkind]
    refine Option.isSome_iff_exists.mp (isSome_find?_decl.mpr (mem_map_of_mem (hsub info ?_)))
    rw [hrecords]
    exact mem_append_right _ mem_cons_self

section

variable (hv : ∀ decl, (v.record decl).isSome → (records.find? (·.decl = decl)).isSome)
include hv

theorem declareImport {e : Export} (hfits : e.Fits v) :
    Keeps (Prepares v records around) (declareImport e) := by
  refine .of_run fun s _ s' h => ?_
  unfold Export.Fits at hfits
  unfold StackCompiler.declareImport at h
  cases hsignature : e.signature with
  | record fields =>
    simp only [hsignature] at h hfits
    obtain ⟨_, s1, hset, h⟩ := bind_eq.mp h
    cases hset
    exact addRecord (bindName_binds h) ⟨hfits, nofun⟩ rfl rfl rfl
  | function method params ret =>
    simp only [hsignature] at h hfits
    replace h := set_bind.mp (get_bind.mp h)
    have hbinds := bindName_binds h
    obtain ⟨new, hs'⟩ := hbinds.adds
    have hfunctions := congrArg AnalysisState.functions hs'
    refine ⟨fun _ hx => .inl (by rw [hs'] at hx; exact hx), fun _ hx => by rw [hs']; exact hx,
      fun f info hinfo => hfunctions ▸ getElem?_push_of_some _ hinfo, fun _ haround hearly => ?_⟩
    have hd := (binds_knowing records hbinds).declared
    have hpush := Declares.pushFunction (s.knowing records)
    have hr : Registered (s.knowing records) (s'.knowing records) s.functions.size _ _ :=
      ⟨(hpush _).trans hd.declares, rfl, hfunctions, hd.symbols, rfl, rfl, rfl,
        (Layered.of_eq (hpush _).toGrows rfl []).trans hd.layered⟩
    have hnone := haround _ _ hr.getElem?
    exact hearly.grows hr.declares (hr.agrees hearly.agrees (fun ty hty => (hfits.1 ty hty).mono hv)
      (hfits.2.imp_right fun h => h.mono hv) (fun _ => hnone) (by rw [hnone]; exact nofun) nofun)

theorem declareImports (hfits : ∀ e ∈ exports.exports, e.Fits v) :
    Keeps (Prepares v records around) (declareImports exports) := by
  refine .bind .trans (fun s => of_same rfl rfl fun h => h) fun s => .bind .trans
    (forM fun e he => declareImport hv (hfits e (mem_of_mem_filter he))) fun _ => forM fun _ _ s =>
      of_same rfl rfl fun hearly => ?_
  exact hearly.grows (Keeps.report _ _ _ _ (s.knowing records)).declares
    (hearly.agrees.calm (Keeps.report _ _ _ _ (s.knowing records)).calm)

end

theorem declareRecordNames {items : List Item} {index : Nat} :
    Keeps (Prepares v records around) (declareRecordNames index items) := by
  induction items generalizing index with
  | nil => exact fun s => of_same rfl rfl fun h => h
  | cons item items ih =>
    cases item with
    | record r =>
      refine .bind .trans (.of_run fun s _ s' h => ?_) fun _ => .bind .trans ih fun _ s =>
        of_same rfl rfl fun h => h
      obtain ⟨_, _, hset, h⟩ := bind_eq.mp (get_bind.mp h)
      obtain ⟨_, _, hdeclare, h⟩ := bind_eq.mp h
      cases pure_eq.mp h
      cases hset
      exact addRecord (declare_binds hdeclare).2 ⟨nofun, fun _ => .nil⟩ rfl rfl rfl
    | function _ | stmt _ => exact .bind .trans ih fun _ s => of_same rfl rfl fun h => h

end Prepares

/-! ### Fields -/

theorem resolveFields_keeps (record : RecordDecl) (known : List (String × Ty))
    (fields : List FieldDecl) : Keeps Reports (resolveFields record known fields) := by
  induction fields generalizing known with
  | nil => exact Keeps.pure _
  | cons field fields ih =>
    refine (Keeps.resolveValueType _).andThen fun ty => ?_
    split_ifs
    · exact (Keeps.report _ _ _ _).andThen fun _ => ih _
    · exact ih _

theorem resolveFields_finds (record : RecordDecl) (known : List (String × Ty))
    (fields : List FieldDecl) :
    Finds around c (resolveFields record known fields) fun v types =>
      (∀ field ∈ known, v.Value field.2) → ∀ field ∈ types, v.Value field.2 := by
  induction fields generalizing known with
  | nil => exact .pure fun _ hknown => hknown
  | cons field fields ih =>
    refine (resolveValueType_finds _).bind fun ty => ?_
    split_ifs
    · exact .wrongThen rfl ((ih _).imp fun _ _ _ => trivial)
    · refine (ih _).imp fun v types htypes hty hknown => htypes fun x hx => ?_
      rcases mem_append.mp hx with hx | hx
      · exact hknown x hx
      · rw [mem_singleton.mp hx]
        exact hty

theorem resolveFields_names {known types : List (String × Ty)} {fields : List FieldDecl}
    (h : resolveFields record known fields s = (types, s')) (hknown : (known.map Prod.fst).Nodup) :
    (types.map Prod.fst).Nodup := by
  induction fields generalizing s known with
  | nil =>
    cases pure_eq.mp h
    exact hknown
  | cons field fields ih =>
    obtain ⟨ty, s1, hty, h⟩ := bind_eq.mp h
    by_cases hdup : known.any (·.1 == field.name.name) = true
    · rw [if_pos hdup] at h
      obtain ⟨_, s2, hreport, h⟩ := bind_eq.mp h
      exact ih h hknown
    · rw [if_neg hdup] at h
      refine ih h ?_
      rw [map_append, nodup_append]
      refine ⟨hknown, nodup_singleton _, fun x hx y hy => ?_⟩
      obtain ⟨entry, hentry, rfl⟩ := mem_map.mp hx
      rintro rfl
      refine hdup (any_eq_true.mpr ⟨entry, hentry, ?_⟩)
      simpa using hy

/-- If nothing is wrong in the end, then fields have been noted of the same records. -/
def NotesFields (around : FnId → List SymbolId) (s s' : AnalysisState) : Prop :=
  s'.Clean → s.Clean ∧ s'.records.map RecordInfo.decl = s.records.map RecordInfo.decl ∧
    s'.functions = s.functions ∧ (s.Early around → s'.Early around)

theorem declareFields_keeps (record : RecordDecl) :
    Keeps (NotesFields around) (declareFields record) := by
  refine .of_run fun s _ s' h hs => ?_
  obtain ⟨fields, s1, hfields, h⟩ := bind_eq.mp h
  cases modify_eq.mp h
  have hr := (resolveFields_keeps _ _ _).of_eq hfields
  have hs1 : s1.Clean := hs
  have hdecls (decl : Option DeclId) : (s1.records.map fun info => if some info.decl = decl then
      { info with fields := fields } else info).map RecordInfo.decl =
      s1.records.map RecordInfo.decl := by
    rw [map_map]
    refine map_congr_left fun info _ => ?_
    simp only [Function.comp_apply]
    split_ifs <;> rfl
  refine ⟨hr.grows.clean hs1, hr.records ▸ hdecls _, hr.functions, fun hearly => ?_⟩
  have hvalues := (resolveFields_finds _ _ _).of_eq hfields hs1 hearly.agrees (.refl _) nofun
  have hearly1 := hearly.grows hr.declares (hearly.agrees.calm hr.calm)
  refine hearly1.knowing (hdecls _) (fun info hinfo field hfield => ?_) fun info hinfo hown => ?_
  · obtain ⟨info', hinfo', rfl⟩ := mem_map.mp hinfo
    split_ifs at hfield
    · exact hvalues field hfield
    · exact hearly1.fields info' hinfo' field hfield
  · obtain ⟨info', hinfo', rfl⟩ := mem_map.mp hinfo
    split_ifs at hown ⊢
    · exact resolveFields_names hfields nodup_nil
    · exact hearly1.names info' hinfo' hown

theorem declareAllFields_keeps (items : List Item) :
    Keeps (NotesFields around) (items.forM fun item =>
      match item with
      | .record record => declareFields record
      | _ => pure ()) := by
  refine .forM (fun s hs => ⟨hs, rfl, rfl, fun h => h⟩) (fun h h' hs => ?_) fun item _ => ?_
  · obtain ⟨hs1, hdecls', hfunctions', hstep'⟩ := h' hs
    obtain ⟨hs0, hdecls, hfunctions, hstep⟩ := h hs1
    exact ⟨hs0, hdecls'.trans hdecls, hfunctions'.trans hfunctions, fun he => hstep' (hstep he)⟩
  · cases item with
    | record record => exact declareFields_keeps record
    | function _ | stmt _ => exact fun s hs => ⟨hs, rfl, rfl, fun h => h⟩

end AnalysisState

/-! ## Items -/

theorem registerItems_registers {s s' : AnalysisState}
    (h : registerItems index items s = (ids, s')) (hplain : ∀ item ∈ items, item.Plain) :
    ids.length = items.length ∧
      Registers none s (Item.stmts items) (Item.numbers items ids) s' := by
  induction items generalizing index s ids with
  | nil =>
    cases pure_eq.mp h
    exact ⟨rfl, .nil⟩
  | cons item items ih =>
    obtain ⟨hfirst, hothers⟩ := forall_mem_cons.mp hplain
    cases item with
    | function f =>
      obtain ⟨id, s3, hregister, h⟩ := bind_eq.mp (get_bind.mp h)
      obtain ⟨rest, s4, hrest, h⟩ := bind_eq.mp h
      cases pure_eq.mp h
      exact (ih hrest hothers).imp (congrArg (· + 1)) (.function (.refl _) hregister)
    | record record =>
      obtain ⟨rest, s4, hrest, h⟩ := bind_eq.mp h
      cases pure_eq.mp h
      exact (ih hrest hothers).imp_left (congrArg (· + 1))
    | stmt stmt =>
      obtain ⟨rest, s4, hrest, h⟩ := bind_eq.mp h
      cases pure_eq.mp h
      exact (ih hrest hothers).imp (congrArg (· + 1)) (.other hfirst)

/-! ## Captures -/

namespace AnalysisState

variable {s s' : AnalysisState} {around : FnId → List SymbolId} {callee : FunctionInfo}

theorem captures_within (hnoted : s.Noted s around) : s.captures.Within fun f x =>
    x ∈ around f ∧ ∃ symbol, s.symbols[x]? = some symbol ∧ symbol.isLocal = true ∧
      symbol.owner ≠ some f := by
  refine spread_within (fun site hsite x hx howner => ?_) _
    (directCaptures_within fun read hr => ?_)
  · obtain ⟨haround, symbol, hsymbol, hlocal, _⟩ := hx
    have hown : s.owner? x = symbol.owner := by rw [owner?, hsymbol]; rfl
    rw [hown] at howner
    refine ⟨?_, symbol, hsymbol, hlocal, howner⟩
    rcases (hnoted.calls site hsite).2.2 x haround with hx | hx | hx
    · exact hx
    · exact absurd (hown ▸ hx) howner
    · rw [hown] at hx
      simp [Symbol.isLocal, hx] at hlocal
  · obtain ⟨hmem, _, symbol, hsymbol, hlocal, howner⟩ := hnoted.reads read hr
    exact ⟨hmem, symbol, hsymbol, hlocal, howner⟩

theorem captures_nil (hnoted : s.Noted s around) {f : FnId} (hf : around f = []) :
    s.captures.of f = [] := by
  refine eq_nil_iff_forall_not_mem.mpr fun x hx => ?_
  have hmem := (captures_within hnoted f x hx).1
  rw [hf] at hmem
  cases hmem

theorem captures_size (s : AnalysisState) : s.captures.size = s.functions.size := by
  rw [AnalysisState.captures, (spread_grows _ _).size, directCaptures_size]

theorem mem_captures_of_read (hnoted : s.Noted s around) {f : FnId} {x : SymbolId}
    (hread : (f, x) ∈ s.outerReads) : x ∈ s.captures.of f := by
  obtain ⟨_, ⟨info, hinfo⟩, _⟩ := hnoted.reads _ hread
  exact (spread_grows _ _).mem (mem_directCaptures hread (Array.getElem?_eq_some_iff.mp hinfo).1)

theorem captures_closed (hnoted : s.Noted s around) (hsite : site ∈ s.calls) {x : SymbolId}
    (hx : x ∈ s.captures.of site.callee) (howner : s.owner? x ≠ some site.caller) :
    x ∈ s.captures.of site.caller := by
  obtain ⟨⟨info, hinfo⟩, _⟩ := hnoted.calls site hsite
  have hlt : (directCaptures s.functions.size s.outerReads).Within fun _ y => y < s.symbols.size :=
    directCaptures_within fun read hr => by
      obtain ⟨_, _, symbol, hsymbol, _⟩ := hnoted.reads read hr
      exact (Array.getElem?_eq_some_iff.mp hsymbol).1
  refine spread_closed directCaptures_sorted hlt ?_ hsite ?_ hx howner
  · rw [directCaptures_size]
    omega
  · rw [directCaptures_size]
    exact (Array.getElem?_eq_some_iff.mp hinfo).1

/-! ### The check of calls -/

theorem checkCall_keeps (site : CallSite) : Keeps Reports (checkCall site) := by
  refine Keeps.get.andThen fun s => ?_
  split
  · exact Keeps.pure _
  · exact forM_keeps (fun _ => Keeps.report _ _ _ _) _

theorem checkCall_late (h : checkCall site s = (u, s')) (hs : s'.Clean)
    (hcallee : s.functions[site.callee]? = some callee) :
    lateCaptures s.owner? callee.captures site = [] := by
  replace h := get_bind.mp h
  simp only [hcallee] at h
  cases hlate : lateCaptures s.owner? callee.captures site with
  | nil => rfl
  | cons x late =>
    rw [hlate] at h
    obtain ⟨_, s1, hreport, h⟩ := bind_eq.mp h
    cases hreport
    exact absurd (((forM_keeps (fun _ => Keeps.report _ _ _ _) _).of_eq h).grows.clean hs)
      (not_clean_of_report rfl)

theorem checkCalls_late {sites : List CallSite} (h : sites.forM checkCall s = (u, s'))
    (hs : s'.Clean) (hsite : site ∈ sites) (hcallee : s.functions[site.callee]? = some callee) :
    lateCaptures s.owner? callee.captures site = [] := by
  induction sites generalizing s with
  | nil => cases hsite
  | cons first sites ih =>
    obtain ⟨_, s1, hfirst, hrest⟩ := bind_eq.mp h
    have hr := (checkCall_keeps first).of_eq hfirst
    have hs1 := ((forM_keeps checkCall_keeps _).of_eq hrest).grows.clean hs
    rcases mem_cons.mp hsite with rfl | hsite
    · exact checkCall_late hfirst hs1 hcallee
    · have hlate := ih hrest hsite (hr.functions ▸ hcallee)
      have howner : s1.owner? = s.owner? := by
        funext x
        rw [owner?, owner?, hr.symbols]
      rwa [howner] at hlate

theorem closeCaptures_eq (h : closeCaptures s = (u, s')) :
    s'.symbols = s.symbols ∧ s'.records = s.records ∧ s'.globals = s.globals ∧
      s'.className = s.className ∧ s'.functions = s.functions.mapIdx (fun id info =>
        { info with captures := s.captures.of id }) ∧
      (s'.Clean → s.Clean ∧ ∀ site ∈ s.calls, ∀ info, s.functions[site.callee]? = some info →
        ∀ x ∈ s.captures.of site.callee, s.owner? x = some site.caller → x < site.watermark) := by
  replace h := set_bind.mp (get_bind.mp h)
  have hr := (forM_keeps checkCall_keeps _).of_eq h
  refine ⟨hr.symbols, hr.records, hr.globals, hr.unit.2, hr.functions, fun hs =>
    ⟨hr.grows.clean hs, ?_⟩⟩
  intro site hsite info hinfo x hx howner
  have hcallee : (s.functions.mapIdx fun id info =>
      { info with captures := s.captures.of id })[site.callee]? =
        some { info with captures := s.captures.of site.callee } := by
    rw [Array.getElem?_mapIdx, hinfo]
    rfl
  have hlate := checkCalls_late h hs (Array.mem_def.mp hsite) hcallee
  refine Nat.lt_of_not_le fun hle => ?_
  have hmem : x ∈ lateCaptures s.owner? (s.captures.of site.callee) site :=
    mem_filter.mpr ⟨hx, by simpa using ⟨howner, hle⟩⟩
  rw [show lateCaptures s.owner? (s.captures.of site.callee) site = [] from hlate] at hmem
  cases hmem

end AnalysisState

/-! ## Units -/

section Units

variable {s : AnalysisState} {a : Analysis} {around : FnId → List SymbolId}
  {unit unit' : SourceUnit}

theorem Analysis.captures_eq (hfunctions : a.functions = s.functions.mapIdx fun id info =>
      { info with captures := s.captures.of id }) (f : FnId) :
    a.captures f = s.captures.of f := by
  rw [Analysis.captures, hfunctions, Array.getElem?_mapIdx]
  cases hf : s.functions[f]? with
  | some info => rfl
  | none =>
    rw [Captures.of_eq, Array.getElem?_eq_none]
    · rfl
    · rw [captures_size]
      exact Array.getElem?_eq_none_iff.mp hf

/-- What can be seen with the captures noted is what was seen before. -/
theorem view_within (hsymbols : a.symbols = s.symbols) (hrecords : a.records = s.records)
    (hfunctions : a.functions = s.functions.mapIdx fun id info =>
      { info with captures := s.captures.of id })
    (hnoted : s.Noted s around)
    (hearly : ∀ site ∈ s.calls, ∀ info, s.functions[site.callee]? = some info →
      ∀ x ∈ s.captures.of site.callee, s.owner? x = some site.caller → x < site.watermark)
    (c : Place) : (s.view around c).Within (a.view c) := by
  refine ⟨by simp only [Analysis.view, view, hsymbols], ?_, ?_, fun x hx => ?_, fun f hf => ?_⟩
  · funext f
    simp only [Analysis.view, view, hfunctions, Array.getElem?_mapIdx, Option.map_map]
    rfl
  · funext decl
    simp only [Analysis.view, view, Analysis.record?, hrecords]
  · obtain ⟨hknown, hreads⟩ := hx
    intro symbol hsymbol hlocal
    rw [hsymbols] at hsymbol
    by_cases howner : symbol.owner = some c.function
    · exact .inl ⟨howner, hknown⟩
    · refine .inr ⟨howner, ?_⟩
      rw [Analysis.captures_eq hfunctions]
      exact mem_captures_of_read hnoted (hreads symbol hsymbol hlocal howner)
  · obtain ⟨hinside, hnone | ⟨site, hsite, hcaller, rfl, hbefore⟩⟩ := hf
    · intro x hx
      rw [Analysis.captures_eq hfunctions, captures_nil hnoted hnone] at hx
      cases hx
    · intro x hx symbol hsymbol hlocal
      rw [hsymbols] at hsymbol
      rw [Analysis.captures_eq hfunctions] at hx ⊢
      have hown : s.owner? x = symbol.owner := by rw [owner?, hsymbol]; rfl
      by_cases howner : symbol.owner = some c.function
      · refine .inl ⟨howner, ?_⟩
        obtain ⟨_, ⟨info, hinfo⟩, _⟩ := hnoted.calls site hsite
        exact hbefore x (hinside x (captures_within hnoted _ x hx).1)
          (hearly site hsite info hinfo x hx (hcaller ▸ hown.trans howner))
      · exact .inr ⟨howner, hcaller ▸ captures_closed hnoted hsite hx (hcaller ▸ hown ▸ howner)⟩

/-- There is a function that takes given values at different arguments, and nothing elsewhere. -/
theorem exists_around {homes : List (FnId × List SymbolId)} (h : (homes.map Prod.fst).Nodup) :
    ∃ around : FnId → List SymbolId, (∀ p ∈ homes, around p.1 = p.2) ∧
      ∀ f ∉ homes.map Prod.fst, around f = [] := by
  induction homes with
  | nil => exact ⟨fun _ => [], nofun, fun _ _ => rfl⟩
  | cons p homes ih =>
    obtain ⟨hp, hhomes⟩ := nodup_cons.mp h
    obtain ⟨around, hsome, hnone⟩ := ih hhomes
    refine ⟨fun f => if f = p.1 then p.2 else around f, fun q hq => ?_, fun f hf => ?_⟩
    · rcases mem_cons.mp hq with rfl | hq
      · exact if_pos rfl
      · have hne : q.1 ≠ p.1 := fun he => hp (he ▸ mem_map_of_mem hq)
        exact (if_neg hne).trans (hsome q hq)
    · obtain ⟨hne, hf⟩ := not_or.mp (mt mem_cons.mpr hf)
      exact (if_neg hne).trans (hnone f hf)

/-- The contents of a unit are checked, for the variables around each function in the end. -/
theorem analyzeContents_checked {s1 s2 s3 final : AnalysisState}
    (hearly : s.Grows final → ∀ around, (∀ (f : FnId) info, s.functions[f]? = some info →
      around f = []) → s.Early around) (hregister : registerItems 0 items s = (ids, s1))
    (hstate : modifyScopes (·.setState .analyzing) s1 = (u, s2))
    (hitems : analyzeItems .normal false ids items s2 = (items', s3)) (hdone : s3.Declares final)
    (hsymbols : final.symbols = s3.symbols) (hfunctions : final.functions = s3.functions)
    (hs : final.Clean) (hplain : ∀ item ∈ items, item.Plain)
    (hnatural : ∀ stmt ∈ Item.stmts items, stmt.Natural) :
    s.Grows final ∧ (declaredAll (Item.stmts items')).Nodup ∧
      (∀ whole, (FnId.main :: idAll (Item.stmts items') ++
        (homesAll whole (Item.stmts items')).map Prod.fst).Nodup) ∧
      (∀ a, final.KeptIn a → AllAnnotated a (exprsAll (Item.stmts items'))
        (declarationsAll (Item.stmts items'))) ∧
      ∃ around, around FnId.main = [] ∧ final.Tables ∧ final.Noted final around ∧
        CheckedAll (final.view around) (Place.top.scope (ownAll (Item.stmts items')))
          (Item.stmts items') := by
  obtain ⟨hlength, hregisters⟩ := registerItems_registers hregister hplain
  obtain ⟨hd1, hforall, hnumbered, _⟩ := hregisters.eq
  obtain ⟨hd2, hsymbols2, hfunctions2, _⟩ := setState_eq hstate
  obtain ⟨flow', hlist⟩ := analyzeItems_eq hitems hlength hplain hforall
  have hshape := analyzeList_shape (fun stmt _ => stmt.shapes) hlist hforall
  generalize Item.stmts items' = stmts at *
  have hsize := (hd1.trans hd2).toGrows.size_le
  have hgrows := (hd1.trans hd2).toGrows.trans (hshape.grows.trans hdone.toGrows)
  have hs3 := hdone.toGrows.clean hs
  have hearly := hearly hgrows
  -- functions are numbered in order, those at the top first
  have hkeys (whole : List SymbolId) : Numbered s.functions.size s3.functions.size
      (idAll stmts ++ (homesAll whole stmts).map Prod.fst) := by
    rw [hshape.numbers]
    exact hnumbered.append (hfunctions2 ▸ hshape.functions whole)
  have hmain (whole : List SymbolId) :
      FnId.main ∉ idAll stmts ++ (homesAll whole stmts).map Prod.fst := by
    intro hmem
    have hlow := ((hkeys whole).bounds _ hmem).1
    obtain ⟨info, hinfo, -⟩ := (hearly (fun _ => []) fun _ _ _ => rfl).main
    exact absurd (Array.getElem?_eq_some_iff.mp hinfo).1 (Nat.not_lt.mpr hlow)
  suffices ∃ around, (∀ a, final.KeptIn a →
      AllAnnotated a (exprsAll stmts) (declarationsAll stmts)) ∧ around FnId.main = [] ∧
        final.Tables ∧ final.Noted final around ∧
        CheckedAll (final.view around) (Place.top.scope (ownAll stmts)) stmts by
    obtain ⟨around, hannotated, hrest⟩ := this
    exact ⟨hgrows, hshape.symbols.nodup, fun whole => nodup_cons.mpr
      ⟨hmain whole, (hkeys whole).nodup⟩, hannotated, around, hrest⟩
  let own := ownAll stmts
  have hfst : ((idAll stmts).map (·, own) ++ homesAll own stmts).map Prod.fst =
      idAll stmts ++ (homesAll own stmts).map Prod.fst := by
    simp [Function.comp_def]
  obtain ⟨around, haround, hnone⟩ := exists_around (hfst ▸ (hkeys own).nodup)
  have hearly : s.Early around := hearly around fun f info hinfo => hnone f fun hf =>
    Nat.not_lt.mpr ((hkeys own).bounds f (hfst ▸ hf)).1 (Array.getElem?_eq_some_iff.mp hinfo).1
  have hstart : s.Stands final around .top :=
    ⟨hearly.agrees, nofun, by rw [hearly.reads]; exact nofun, by rw [hearly.calls]; exact nofun⟩
  have hownLt (x : SymbolId) (hx : x ∈ own) := (hshape.owned x hx).1
  have hstands : s.Stands final around (Place.top.scope own) := hstart.scope fun x hx =>
    ⟨Nat.le_trans hsize (hownLt x hx), owner?_of_owned hdone.toGrows (hshape.owned x hx).2⟩
  obtain ⟨hagrees1, hready⟩ := hregisters.agrees
    ((hd2.toGrows.trans hshape.grows).clean hs3) hstands.agrees
    (fun f hf => haround (f, own) (mem_append_left _ (mem_map.mpr ⟨f, hshape.numbers ▸ hf, rfl⟩)))
    fun x hx _ hlt => absurd (Nat.le_trans hd2.toGrows.size_le (hownLt x hx)) (Nat.not_le.mpr hlt)
  have hstands2 : s2.Stands final around (Place.top.scope own) :=
    ⟨setState_agrees hstate hagrees1, hstands.fits, hstands.noted.declares (hd1.trans hd2)⟩
  obtain ⟨_, hchecked, hannotated, htables, hnoted⟩ := analyzeList_analyzed
    (fun stmt hstmt => analyze_settles (hnatural stmt hstmt)) hstands2 hlist hs3 hdone.toGrows
    (hready.imp fun _ _ h => h.grows hd2.toGrows)
    (fun p hp => haround p (mem_append_right _ hp)) (fun x hx => hx) fun x hx _ _ => hx
  exact ⟨around, hannotated, hnone _ (hfst ▸ hmain own),
    htables.congr hsymbols hfunctions hdone.toGrows.records, hnoted.declares hdone, hchecked⟩

/-- **A unit in which nothing wrong is found is sound**, if what it imports stands for values that
it knows. -/
theorem SourceUnit.analyze_sound {number : Nat} {a : Analysis}
    (h : unit.analyze number exports = (unit', a)) (hok : a.isOk = true)
    (hplain : ∀ item ∈ unit.items, item.Plain)
    (hnatural : ∀ stmt ∈ Item.stmts unit.items, stmt.Natural)
    (hfits : ∀ e ∈ exports.exports, e.Fits (a.view .top)) : a.Sound unit'.items := by
  obtain @⟨_, _, _, _, _, s7, _, _, _, _, _, closed, _, _, hopen1, hbuiltins, hopen2, himports,
    hopen3, hrecordsRun, hregister, hstate, hitems, hleave1, hleave2, hleave3, hclose, ha⟩ :=
    SourceUnit.analyze_run h
  generalize unit.recorded number exports = final at *
  have hs : closed.Clean := by
    rw [ha] at hok
    simpa [Analysis.isOk, Clean, outcome] using hok
  obtain ⟨hsymbols, hrecords, hglobals, -, hfunctions, hclean⟩ := closeCaptures_eq hclose
  obtain ⟨hfinal, hearlyCalls⟩ := hclean hs
  replace hsymbols := (congrArg Analysis.symbols ha).trans hsymbols
  replace hrecords := (congrArg Analysis.records ha).trans hrecords
  replace hglobals := (congrArg Analysis.globals ha).trans hglobals
  replace hfunctions := (congrArg Analysis.functions ha).trans hfunctions
  obtain ⟨hl1, hls1, hlf1, _⟩ := leaveScope_eq hleave1
  obtain ⟨hl2, hls2, hlf2, _⟩ := leaveScope_eq hleave2
  obtain ⟨hl3, hls3, hlf3, _⟩ := leaveScope_eq hleave3
  have hdone := hl1.trans (hl2.trans hl3)
  obtain ⟨-, hstmts, hplain1⟩ := (declareRecords_items _).of_eq hrecordsRun
  obtain ⟨_, s6, hnames, hrecordsRun⟩ := bind_eq.mp hrecordsRun
  obtain ⟨_, _, hfields, hrecordsRun⟩ := bind_eq.mp hrecordsRun
  cases pure_eq.mp hrecordsRun
  have hearly (hgrows : s7.Grows final) (around : FnId → List SymbolId)
      (haround : ∀ (f : FnId) info, s7.functions[f]? = some info → around f = []) :
      s7.Early around := by
    obtain ⟨-, hdecls, hsame, hstep⟩ :=
      (declareAllFields_keeps _).of_eq hfields (hgrows.clean hfinal)
    have hv (decl : DeclId) (hd : ((a.view .top).record decl).isSome) :
        (s6.records.find? (·.decl = decl)).isSome := by
      rw [isSome_find?_decl, ← hdecls, ← hgrows.records, ← hrecords]
      exact isSome_find?_decl.mp hd
    have hprepares : Prepares (a.view .top) s6.records around (.start unit number) s6 :=
      (((((Prepares.openScope hopen1).trans (Prepares.declareBuiltins.of_eq hbuiltins)).trans
        (.openScope hopen2)).trans ((Prepares.declareImports hv hfits).of_eq himports)).trans
        (.openScope hopen3)).trans (Prepares.declareRecordNames.of_eq hnames)
    exact hstep (hprepares.early (fun _ h => h) (fun f info hinfo => haround f info (hsame ▸ hinfo))
      (start_early unit number hv fun info hinfo =>
        (hprepares.fills info hinfo).resolve_left not_mem_nil))
  obtain ⟨hgrows, hdeclared, hnumbers, hannotated, around, hmain, htables, hnoted, hchecked⟩ :=
    analyzeContents_checked hearly hregister hstate hitems hdone (hls3.trans (hls2.trans hls1))
      (hlf3.trans (hlf2.trans hlf1)) hfinal (hplain1 hplain) (hstmts ▸ hnatural)
  have hearly := hearly hgrows (fun _ => []) fun _ _ _ => rfl
  have hwithin := view_within hsymbols hrecords hfunctions hnoted hearlyCalls
  have hproper (c : Place) : (a.view c).Proper :=
    (htables.proper around c).congr (hwithin c).symbol (hwithin c).signature (hwithin c).record
  refine ⟨hproper, hsymbols ▸ htables.fresh, fun info hinfo field hfield c => ?_,
    fun info hinfo => ?_, fun x hx => ?_, ?_, fun f x hx => ?_, fun f => ?_, hchecked.mono hwithin,
    hdeclared, hnumbers, hannotated a ⟨fun _ _ h => hsymbols ▸ h, fun f info hinfo => ?_, hrecords⟩⟩
  · rw [hrecords, hgrows.records] at hinfo
    have hvalue : (final.view around c).Value field.2 :=
      hgrows.value (hearly.fields info hinfo field hfield)
    exact hvalue.congr (hwithin c).record
  · obtain ⟨hinfo, hown⟩ := mem_filter.mp hinfo
    rw [hrecords, hgrows.records] at hinfo
    exact hearly.names info hinfo (by simpa using hown)
  · rw [hglobals] at hx
    rcases hgrows.globals x hx with hx | ⟨symbol, hsymbol, hkind⟩
    · obtain ⟨symbol, hsymbol, hkind⟩ := hearly.globals x hx
      exact ⟨symbol, hsymbols ▸ hgrows.symbols _ _ hsymbol, hkind⟩
    · exact ⟨symbol, hsymbols ▸ hsymbol, hkind⟩
  · obtain ⟨info, hinfo, hparams, hret⟩ := hearly.main
    refine ⟨{ info with captures := final.captures.of FnId.main }, ?_, hparams, hret,
      captures_nil hnoted hmain⟩
    rw [hfunctions, Array.getElem?_mapIdx, hgrows.functions _ _ hinfo]
    rfl
  · rw [Analysis.captures_eq hfunctions] at hx
    rw [hsymbols]
    exact (captures_within hnoted f x hx).2
  · rw [Analysis.captures_eq hfunctions]
    exact (spread_sorted _ directCaptures_sorted f).imp Nat.ne_of_lt
  · refine ⟨{ info with captures := final.captures.of f }, ?_, rfl, rfl⟩
    rw [hfunctions, Array.getElem?_mapIdx, hinfo]
    rfl

theorem SourceUnit.analyzeAlone_sound {a : Analysis} (h : unit.analyzeAlone = (unit', a))
    (hok : a.isOk = true) (hplain : ∀ item ∈ unit.items, item.Plain)
    (hnatural : ∀ stmt ∈ Item.stmts unit.items, stmt.Natural) : a.Sound unit'.items :=
  SourceUnit.analyze_sound h hok hplain hnatural nofun

end Units

end StackCompiler

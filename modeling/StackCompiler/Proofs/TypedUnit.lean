import StackCompiler.Proofs.CallSites
import StackCompiler.Proofs.TypedRecord
import StackCompiler.Proofs.UnitFunctions

/-!
# Typed units

The methods of a unit with nothing wrong in it are made one after the other. Each is typed, with
the variables of the function or record that it is made of, and none fails to be made unless
something is too large.

* **`generateUnit_typed`**: all methods of a unit are typed.
-/

namespace StackCompiler

open Generate List FunctionDecl

variable {a : Analysis} {params : List Param} {m : Method} {info : RecordInfo} {id : FnId}

/-! ## Steps that send nothing -/

/-- The step sends nothing, even if it fails, and changes only slots in an analysis. -/
def Generate.Quiet {α : Type} (a : Analysis) (m : Generate α) : Prop :=
  ∀ s, a.SameButSlots s.analysis →
    Generate.Ends (fun _ s' => s'.requests = s.requests ∧ s'.methods = s.methods) m s
      fun _ s' => (s'.requests = s.requests ∧ s'.methods = s.methods) ∧ a.SameButSlots s'.analysis

theorem Generate.Ends.of_wp {α : Type} {s : GenState} {E : GenerateError → Prop} {m : Generate α}
    {Q : α → GenState → Prop} (h : Wp E m s Q) (hm : Quiet a m)
    (hs : a.SameButSlots s.analysis) :
    Ends (fun e s' => E e ∧ s'.requests = s.requests ∧ s'.methods = s.methods) m s
      fun c s' => (Q c s' ∧ m s = .ok c s') ∧ s'.requests = s.requests ∧
        s'.methods = s.methods := by
  have hquiet := hm s hs
  obtain ⟨r, hrun⟩ : ∃ r, m s = r := ⟨_, rfl⟩
  cases r with
  | ok c s' =>
    rw [Wp, Ends, hrun] at h
    rw [Ends, hrun] at hquiet
    exact .of_ok hrun ⟨⟨h, hrun⟩, hquiet.1⟩
  | error e s' =>
    rw [Wp, Ends, hrun] at h
    rw [Ends, hrun] at hquiet
    exact .of_error hrun ⟨h, hquiet⟩

namespace Generate.Quiet

variable {α β : Type} {a : Analysis}

theorem bind {m : Generate α} {f : α → Generate β} (hm : Quiet a m) (hf : ∀ c, Quiet a (f c)) :
    Quiet a (m >>= f) := fun s hs =>
  (hm s hs).bind fun c s' hs' => (hf c s' hs'.2).imp
    (fun _ _ h => ⟨h.1.trans hs'.1.1, h.2.trans hs'.1.2⟩)
    fun _ _ h => ⟨⟨h.1.1.trans hs'.1.1, h.1.2.trans hs'.1.2⟩, h.2⟩

theorem get : Quiet a (MonadState.get : Generate GenState) := fun _ hs => ⟨⟨rfl, rfl⟩, hs⟩

theorem compute (x : Except GenerateError α) : Quiet a (Generate.compute x) := by
  intro s hs
  cases x with
  | ok c => exact .of_ok rfl ⟨⟨rfl, rfl⟩, hs⟩
  | error e => exact .of_error rfl ⟨rfl, rfl⟩

end Generate.Quiet

theorem Generate.Built.quiet {α : Type} {W : Subject → Prop} {J : List LabelId} {m m' : Generate α}
    (h : Built a W J m m') : Quiet a m := by
  induction h with
  | pure c => exact fun _ hs => ⟨⟨rfl, rfl⟩, hs⟩
  | throw e => exact fun _ _ => .of_error rfl ⟨rfl, rfl⟩
  | compute x => exact .compute x
  | @ofEmit _ _ m _ h =>
    intro s hs
    unfold Ends Generate.ofEmit
    cases m s.code with
    | ok _ => exact ⟨⟨rfl, rfl⟩, hs⟩
    | error _ => exact ⟨rfl, rfl⟩
  | withLabel _ ih => exact .bind (fun _ hs => ⟨⟨rfl, rfl⟩, hs⟩) ih
  | isReachable => exact fun _ hs => ⟨⟨rfl, rfl⟩, hs⟩
  | allocate kind =>
    intro s hs
    unfold Ends Generate.allocate
    cases s.slots.allocate kind with
    | ok _ => exact ⟨⟨rfl, rfl⟩, hs⟩
    | error _ => exact ⟨rfl, rfl⟩
  | openSlots => exact fun _ hs => ⟨⟨rfl, rfl⟩, hs⟩
  | closeSlots =>
    intro s hs
    unfold Ends Generate.closeSlots
    cases s.slots.closeScope with
    | ok _ => exact ⟨⟨rfl, rfl⟩, hs⟩
    | error _ => exact ⟨rfl, rfl⟩
  | assignSlot id slot =>
    intro s hs
    unfold Ends Generate.assignSlot
    cases hassign : s.analysis.assignSlot id slot with
    | ok _ => exact ⟨⟨rfl, rfl⟩, hs.trans (assignSlot_sameButSlots hassign)⟩
    | error _ => exact ⟨rfl, rfl⟩
  | defer f => exact fun _ hs => ⟨⟨rfl, rfl⟩, hs⟩
  | withAnalysis _ ih => exact fun s hs => ih s.analysis _ hs (.refl _) s hs
  | bind _ _ ihm ihf => exact ihm.bind ihf

theorem generateMethod_quiet (a : Analysis) (id : FnId) (params : List Param) (body : List Stmt) :
    Quiet a (generateMethod id params body) :=
  Quiet.bind (fun _ hs => ⟨⟨rfl, rfl⟩, hs⟩) fun _ =>
    (allocateParams_built params).quiet.bind fun _ =>
    Quiet.get.bind fun _ => (Quiet.compute _).bind fun info =>
      (allocateCaptures_built info.captures []).quiet.bind fun _ =>
        (Stmt.generateBody_built _ _).quiet.bind
          fun _ => (endMethod_built info).quiet.bind fun _ => Quiet.get.bind fun _ =>
            (Quiet.compute _).bind fun _ => Quiet.compute _

/-! ## What has been sent -/

/-- The methods so far have a property, and the requests so far describe them. -/
structure GenState.Sent (P : Method → Prop) (s : GenState) : Prop where
  methods : ∀ m ∈ s.methods, P m
  requests : Described (fun body => ∃ m ∈ s.methods, m.body = body) s.requests.toList

theorem Described.mono {P Q : MethodBody → Prop} (hPQ : ∀ m, P m → Q m) {requests : List Request}
    (h : Described P requests) : Described Q requests := by
  induction h with
  | nil => exact .nil
  | other _ hr ih => exact ih.other hr
  | method _ hm ih => exact ih.method (hPQ _ hm)

section Sent

variable {P : Method → Prop} {s s' : GenState}

theorem GenState.Sent.congr (h : s.Sent P) (hrequests : s'.requests = s.requests)
    (hmethods : s'.methods = s.methods) : s'.Sent P := by
  refine ⟨hmethods ▸ h.methods, ?_⟩
  rw [hrequests, hmethods]
  exact h.requests

theorem GenState.Sent.other (h : s.Sent P) {r : Request} (hr : r.outsideMethods) :
    GenState.Sent P { s with requests := s.requests.push r } := by
  refine ⟨h.methods, ?_⟩
  rw [Array.toList_push]
  exact h.requests.other hr

theorem GenState.Sent.method (h : s.Sent P) (hm : P m) : GenState.Sent P { s with
      requests := s.requests ++ m.body.requests, methods := s.methods.push m } := by
  refine ⟨fun m' hm' => ?_, ?_⟩
  · rcases Array.mem_push.mp hm' with hm' | rfl
    · exact h.methods m' hm'
    · exact hm
  · rw [Array.toList_appendList]
    refine .method (h.requests.mono ?_) ⟨m, Array.mem_push_self, rfl⟩
    rintro body ⟨m', hm', rfl⟩
    exact ⟨m', Array.mem_push_of_mem _ hm', rfl⟩

end Sent

/-! ## Methods of a unit -/

/-- The error says that something is larger than the limit allows. -/
def GenerateError.ofSize : GenerateError → Prop
  | .buffer .overflow | .slots .exhausted | .stack (.tooLong _) => True
  | _ => False

/-- The errors that are left if nothing is wrong: something is larger than a limit allows, or an
array is too long to be counted. -/
def SourceUnit.TooLarge (unit : SourceUnit) (limit : Option Nat) (e : GenerateError) : Prop :=
  limit.isSome ∧ e.ofSize ∨
    ∃ note elems, .array note elems ∈ unit.exprs ∧ maxInt < (elems.length : Int) ∧
      e = .intRange elems.length

def Analysis.fieldTypes (a : Analysis) (info : RecordInfo) : List (String × JvmType) :=
  info.fields.filterMap fun field => (a.jvmType field.2).toOption.map (field.1, ·)

/-- What the methods of a unit are made of: functions, with what callers hand over, and records. -/
inductive SourceUnit.MadeOf (unit : SourceUnit) (a : Analysis) :
    MethodOrigin → MethodHeader → MethodTypes → List Entry → Prop
  | function {id : FnId} {header : MethodHeader} (h : methodHeader a id = .ok header)
      (hret : header.ret = (a.functionTypes id (unit.paramsOf id)).result)
      (hparams : id ≠ FnId.main →
        header.params = (unit.paramsOf id ++ a.captures id).filterMap a.variableType) :
      MadeOf unit a (.function id) header (a.functionTypes id (unit.paramsOf id))
        (a.handed id (unit.paramsOf id))
  | record {info : RecordInfo} (h : info ∈ a.declaredRecords) :
      MadeOf unit a (.record info.decl)
        ⟨"<init>", (a.fieldTypes info).map Prod.snd, .void, false⟩
        (constructorTypes info.className (a.fieldTypes info)) (handedFields (a.fieldTypes info))

/-- The method of a function or of a record of the unit, typed so, and safe on every path. -/
def SourceUnit.TypedMethod (unit : SourceUnit) (a : Analysis) (m : Method) : Prop :=
  ∃ types handed, unit.MadeOf a m.origin m.body.header types handed ∧
    m.Typed types (.of handed) ∧ m.Linked a ∧ ∃ ret, m.body.StackSafe ret

/-- A typed method; that of a function has been made of its body. -/
def SourceUnit.BodyMethod (unit : SourceUnit) (a : Analysis) (m : Method) : Prop :=
  unit.TypedMethod a m ∧ ∀ id, m.origin = .function id → ∃ params body,
    unit.Defines id params body ∧ a.Admits id params body ∧ ∃ s s', a.SameButSlots s.analysis ∧
      generateMethod id params body s = .ok m s'

theorem filterMap_of_mapM {α β ε : Type} {f : α → Except ε β} {xs : List α} {ys : List β}
    (h : List.Forall₂ (fun x y => f x = .ok y) xs ys) :
    xs.filterMap (fun x => (f x).toOption) = ys := by
  induction h with
  | nil => rfl
  | cons hx _ ih => rw [filterMap_cons_some (by rw [hx]; rfl), ih]

theorem Param.types_of_checked {tys : List Ty}
    (h : List.Forall₂ (Param.Checked (a.view .top) id) params tys) :
    (params.filterMap Param.symbol).filterMap a.variableType =
      tys.filterMap fun ty => (a.jvmType ty).toOption := by
  induction h with
  | nil => rfl
  | cons hparam _ ih =>
    obtain ⟨x, symbol, hx, hsymbol, -, -, rfl⟩ := hparam
    have htype : a.variableType x = (a.jvmType symbol.ty).toOption := by
      rw [Analysis.variableType, show a.symbols[x]? = some symbol from hsymbol, Option.bind_some]
    rw [filterMap_cons_some hx, filterMap_cons, filterMap_cons, htype, ih]

theorem Analysis.captureType_toOption (a : Analysis) (x : SymbolId) :
    (a.captureType x).toOption = a.variableType x := by
  unfold Analysis.captureType Analysis.variableType Analysis.symbol
  cases a.symbols[x]? <;> rfl

/-- The head of the method of a function names the types of its variables and of its result. -/
theorem Analysis.Sound.header_types {items : List Item} (h : a.Sound items) {body : List Stmt}
    (hf : a.Admits id params body) {header : MethodHeader}
    (hheader : methodHeader a id = .ok header) :
    header.ret = (a.functionTypes id (params.filterMap Param.symbol)).result ∧
    (id ≠ FnId.main → header.params =
      (params.filterMap Param.symbol ++ a.captures id).filterMap a.variableType) := by
  obtain ⟨info, hinfo, hparams, -⟩ := hf.info
  have hcaptures : a.captures id = info.captures := by rw [Analysis.captures, hinfo]; rfl
  have hresult := (h.knows none id (params.filterMap Param.symbol)).result info hinfo
  unfold methodHeader at hheader
  split_ifs at hheader with hmain
  · subst hmain
    cases hheader
    obtain ⟨info', hinfo', -, hret, -⟩ := h.main
    cases hinfo.symm.trans hinfo'
    rw [hret] at hresult
    exact ⟨Except.ok.inj hresult, fun hne => absurd rfl hne⟩
  · obtain ⟨ref, href, hheader⟩ := Except.bind_eq_ok.mp hheader
    have hfun : a.function id = .ok info := by rw [Analysis.function, hinfo]
    simp only [Analysis.methodRef, Except.bind_eq_ok, hfun, Except.ok.injEq, mapM_eq_ok] at href
    obtain ⟨_, rfl, ps, hps, cs, hcs, ret, hret, hr⟩ := href
    cases hr
    cases hheader
    refine ⟨Except.ok.inj (hret.symm.trans hresult), fun _ => ?_⟩
    rw [filterMap_append, Param.types_of_checked hparams, filterMap_of_mapM hps, hcaptures,
      ← funext a.captureType_toOption, filterMap_of_mapM hcs]

theorem SourceUnit.refuses (unit : SourceUnit) (limit : Option Nat) :
    Refuses limit (unit.TooLarge limit) :=
  ⟨fun h => .inl ⟨h, trivial⟩, fun h => .inl ⟨h, trivial⟩, fun h _ => .inl ⟨h, trivial⟩⟩

theorem SourceUnit.longIn (unit : SourceUnit) (limit : Option Nat) :
    Expr.LongIn (unit.TooLarge limit) unit.exprs :=
  fun note elems hmem hlong => .inr ⟨note, elems, hmem, hlong, rfl⟩

/-! ## Expressions of functions -/

theorem Stmt.functionsAll_exprs {stmts : List Stmt}
    (h : ∀ stmt ∈ stmts, ∀ f ∈ stmt.functions, Stmt.exprsAll f.body ⊆ stmt.exprs) :
    ∀ f ∈ Stmt.functionsAll stmts, Stmt.exprsAll f.body ⊆ Stmt.exprsAll stmts := by
  intro f hf x hx
  obtain ⟨stmt, hstmt, hf⟩ := Stmt.mem_functionsAll.mp hf
  exact Stmt.mem_exprsAll.mpr ⟨stmt, hstmt, h stmt hstmt f hf hx⟩

theorem Stmt.functions_exprs (stmt : Stmt) :
    ∀ f ∈ stmt.functions, Stmt.exprsAll f.body ⊆ stmt.exprs := by
  induction stmt with
  | function head body ih =>
    intro f hf
    rcases mem_cons.mp hf with rfl | hf
    · exact List.Subset.refl _
    · exact Stmt.functionsAll_exprs ih f hf
  | block span body ih => exact Stmt.functionsAll_exprs ih
  | branch span cond yes no ihyes ihno =>
    cases no with
    | none => exact fun f hf => subset_append_of_subset_right _ (ihyes f hf)
    | some no =>
      intro f hf
      rcases mem_append.mp hf with hf | hf
      · exact subset_append_of_subset_right _ (subset_append_of_subset_left _ (ihyes f hf))
      · exact subset_append_of_subset_right _ (subset_append_of_subset_right _ (ihno no rfl f hf))
  | loop span cond body ih =>
    exact fun f hf => subset_append_of_subset_right _ (ih f hf)
  | range span loopVar first last body ih =>
    exact fun f hf => subset_append_of_subset_right _ (subset_append_of_subset_right _ (ih f hf))
  | _ => exact fun f hf => absurd hf not_mem_nil

theorem SourceUnit.exprs_eq (unit : SourceUnit) :
    unit.exprs = Stmt.exprsAll (Item.stmts unit.items) := by
  unfold SourceUnit.exprs
  induction unit.items with
  | nil => rfl
  | cons item items ih =>
    cases item with
    | record record => exact ih
    | function f => exact congrArg (Stmt.exprsAll f.body ++ ·) ih
    | stmt stmt => exact congrArg (stmt.exprs ++ ·) ih

theorem SourceUnit.exprs_of_function {unit : SourceUnit} {f : FunctionDecl}
    (h : f ∈ unit.allFunctions) : Stmt.exprsAll f.body ⊆ unit.exprs := by
  rw [unit.exprs_eq]
  exact Stmt.functionsAll_exprs (fun stmt _ => stmt.functions_exprs) f h

theorem SourceUnit.exprs_of_main (unit : SourceUnit) :
    Stmt.exprsAll unit.mainBody ⊆ unit.exprs := by
  unfold SourceUnit.mainBody SourceUnit.exprs
  induction unit.items with
  | nil => exact List.Subset.refl _
  | cons item items ih =>
    cases item with
    | record record => exact ih
    | function f => exact subset_append_of_subset_right _ ih
    | stmt stmt => exact append_subset.mpr ⟨subset_append_left _ _,
        subset_append_of_subset_right _ ih⟩

/-! ## Making the classes of a unit -/

/-- While classes are made, the functions numbered `ids` are still to come: their variables have no
slots yet. -/
structure SourceUnit.Writing (unit : SourceUnit) (a : Analysis) (limit : Option Nat)
    (ids : List FnId) (s : GenState) : Prop where
  limit : s.code.limit = limit
  same : a.SameButSlots s.analysis
  sent : s.Sent (unit.BodyMethod a)
  fresh : ∀ id ∈ ids, ∀ (x : SymbolId) symbol, s.analysis.symbols[x]? = some symbol →
    symbol.owner = some id → symbol.slot = none
  homes : ∀ m ∈ s.methods, ∀ id, m.origin = .function id → id ∉ ids ∧
    ∀ x ∈ unit.paramsOf id, ∃ symbol, s.analysis.symbols[x]? = some symbol ∧
      symbol.slot = rowSlot (a.handed id (unit.paramsOf id)) (.symbol x)

/-- What holds of an error that ends the making of a unit, and of what has been made by then. -/
def SourceUnit.Stopped (unit : SourceUnit) (a : Analysis) (limit : Option Nat) (e : GenerateError)
    (s : GenState) : Prop :=
  unit.TooLarge limit e ∧ s.Sent (unit.BodyMethod a)

section Making

variable {unit : SourceUnit} {a : Analysis} {limit : Option Nat} {ids : List FnId} {s s' : GenState}

theorem SourceUnit.Writing.other (h : unit.Writing a limit ids s) {r : Request}
    (hr : r.outsideMethods) : unit.Writing a limit ids { s with requests := s.requests.push r } :=
  ⟨h.limit, h.same, h.sent.other hr, h.fresh, h.homes⟩

theorem SourceUnit.Writing.constructor (h : unit.Writing a limit ids s) {decl : DeclId}
    (horigin : m.origin = .record decl) (hm : unit.BodyMethod a m) : unit.Writing a limit ids
      { s with requests := s.requests ++ m.body.requests, methods := s.methods.push m } := by
  refine ⟨h.limit, h.same, h.sent.method hm, h.fresh, fun m' hm' id hid => ?_⟩
  rcases Array.mem_push.mp hm' with hm' | rfl
  · exact h.homes m' hm' id hid
  · rw [horigin] at hid
    cases hid

theorem Analysis.Sound.owner_of_param (h : a.Sound unit.items) {x : SymbolId}
    (hx : x ∈ unit.paramsOf id) : ∃ symbol, a.symbols[x]? = some symbol ∧
    symbol.owner = some id := by
  unfold SourceUnit.paramsOf at hx
  cases hfind : unit.allFunctions.find? (·.head.id = some id) with
  | none =>
    rw [hfind] at hx
    cases hx
  | some f =>
    rw [hfind] at hx
    obtain ⟨id', hid', hf⟩ := h.admits f (mem_of_find?_eq_some hfind)
    have hid : f.head.id = some id := by simpa using find?_some hfind
    cases hid.symm.trans hid'
    obtain ⟨info, -, hparams, -⟩ := hf.info
    obtain ⟨symbol, hsymbol, -, howner⟩ := Param.symbol_of_checked hparams hx
    exact ⟨symbol, hsymbol, howner⟩

theorem SourceUnit.Writing.made (h : unit.Writing a limit ids s)
    (ha : a.Sound unit.items) {inner : List FunctionDecl}
    (hmade : s.Made a id (unit.paramsOf id) inner s')
    (hrequests : s'.requests = s.requests) (hmethods : s'.methods = s.methods)
    (horigin : m.origin = .function id) (hm : unit.BodyMethod a m) (hid : id ∈ ids)
    {ids' : List FnId} (hids' : ids' ⊆ ids) (hnot : id ∉ ids') : unit.Writing a limit ids'
      { s' with requests := s'.requests ++ m.body.requests, methods := s'.methods.push m } := by
  refine ⟨hmade.limit.trans h.limit, hmade.same, (h.sent.congr hrequests hmethods).method hm,
    fun g hg x symbol hx howner => ?_, fun m' hm' g hg => ?_⟩
  · obtain ⟨symbol0, hx0, hsame⟩ := hmade.same.symbol_of hx
    have hother : symbol0.owner ≠ some id := by
      rw [← hsame.owner, howner]
      rintro ⟨⟩
      exact hnot hg
    rw [show (s'.analysis.symbols[x]?) = _ from hmade.others x symbol0 hx0 hother] at hx
    exact h.fresh g (hids' hg) x symbol hx howner
  · rcases Array.mem_push.mp hm' with hm' | rfl
    · rw [hmethods] at hm'
      obtain ⟨hnew, hslots⟩ := h.homes m' hm' g hg
      refine ⟨fun hmem => hnew (hids' hmem), fun x hx => ?_⟩
      obtain ⟨symbol, hsymbol, hslot⟩ := hslots x hx
      obtain ⟨symbol0, hx0, howner⟩ := ha.owner_of_param hx
      have hother : symbol0.owner ≠ some id := by
        rw [howner]
        rintro ⟨⟩
        exact hnew hid
      exact ⟨symbol, (hmade.others x symbol0 hx0 hother).trans hsymbol, hslot⟩
    · cases horigin.symm.trans hg
      exact ⟨hnot, hmade.slots⟩

/-! ## Records -/

theorem sendFields_typed {fields : List (String × Ty)}
    (hfields : ∀ field ∈ fields, ∃ t, a.jvmType field.2 = .ok t)
    (h : unit.Writing a limit ids s) :
    Ends (unit.Stopped a limit) (sendFields fields) s fun types s' =>
      types = fields.filterMap (fun field => (a.jvmType field.2).toOption.map (field.1, ·)) ∧
      unit.Writing a limit ids s' ∧ s'.pending = s.pending := by
  induction fields generalizing s with
  | nil => exact .pure ⟨rfl, h, rfl⟩
  | cons field fields ih =>
    obtain ⟨⟨t, ht⟩, hfields⟩ := forall_mem_cons.mp hfields
    refine .get (.compute ((h.same.jvmType field.2).trans ht) ?_)
    refine Ends.bind (P := fun _ s' => unit.Writing a limit ids s' ∧ s'.pending = s.pending)
      (.of_ok rfl ⟨h.other trivial, rfl⟩) ?_
    rintro _ s1 ⟨h1, hpending1⟩
    refine (ih hfields h1).bind ?_
    rintro types s2 ⟨htypes, h2, hpending2⟩
    refine .pure ⟨?_, h2, hpending2.trans hpending1⟩
    rw [filterMap_cons_some (b := (field.1, t)) (by rw [ht]; rfl), htypes]

theorem Analysis.fieldTypes_names (a : Analysis) (info : RecordInfo) :
    ((a.fieldTypes info).map Prod.fst).Sublist (info.fields.map Prod.fst) := by
  unfold Analysis.fieldTypes
  induction info.fields with
  | nil => exact .slnil
  | cons field fields ih =>
    cases ht : a.jvmType field.2 with
    | ok t =>
      rw [filterMap_cons_some (b := (field.1, t)) (by rw [ht]; rfl)]
      exact .cons_cons _ ih
    | error e =>
      rw [filterMap_cons_none (by rw [ht]; rfl)]
      exact .cons _ ih

theorem Analysis.mem_fieldTypes {field : String × JvmType} (h : field ∈ a.fieldTypes info) :
    ∃ ty, (field.1, ty) ∈ info.fields ∧ a.jvmType ty = .ok field.2 := by
  obtain ⟨⟨name, ty⟩, hmem, hty⟩ := mem_filterMap.mp h
  obtain ⟨t, ht, rfl⟩ := Option.map_eq_some_iff.mp hty
  refine ⟨ty, hmem, ?_⟩
  cases hjvm : a.jvmType ty with
  | ok u =>
    rw [hjvm] at ht
    cases ht
    rfl
  | error e =>
    rw [hjvm] at ht
    cases ht

theorem Analysis.hasFields_fieldTypes (a : Analysis) (hinfo : info ∈ a.records) :
    a.HasFields info.className (a.fieldTypes info) := by
  intro field hfield
  obtain ⟨ty, hmem, hty⟩ := a.mem_fieldTypes hfield
  exact ⟨info, hinfo, _, hmem, _, hty, rfl⟩

theorem Analysis.Sound.fieldTypes_kinds (h : a.Sound unit.items) (hinfo : info ∈ a.records) :
    ∀ field ∈ a.fieldTypes info, field.2.kind?.isSome := by
  intro field hfield
  obtain ⟨ty, hmem, hty⟩ := a.mem_fieldTypes hfield
  obtain ⟨kind, hkind⟩ := (h.fields info hinfo _ hmem .top).kind
  rw [kind?_of_jvmType hty, hkind]
  rfl

theorem generateRecord_typed (ha : a.Sound unit.items) (hroom : exceeds limit 2 = false)
    {record : RecordInfo} (hrecord : record ∈ a.declaredRecords) (source : String)
    (h : unit.Writing a limit ids s) :
    Ends (unit.Stopped a limit) (generateRecord source record) s fun _ s' =>
      unit.Writing a limit ids s' ∧ s'.pending = s.pending := by
  have hmem : record ∈ a.records := (mem_filter.mp hrecord).1
  have hvalue (field : String × Ty) (hfield : field ∈ record.fields) :=
    (ha.fields record hmem field hfield .top).jvmType
  refine Ends.bind (P := fun _ s' => unit.Writing a limit ids s' ∧ s'.pending = s.pending)
    (.of_ok rfl ⟨h.other trivial, rfl⟩) ?_
  rintro _ s1 ⟨h1, hpending1⟩
  refine (sendFields_typed (fun field hfield => ?_) h1).bind ?_
  · obtain ⟨t, ht, -⟩ := hvalue field hfield
    exact ⟨t, ht⟩
  rintro types s2 ⟨htypes, h2, hpending2⟩
  have htypes : types = a.fieldTypes record := htypes
  subst htypes
  refine .get ?_
  rw [h2.limit]
  have hfields : a.HasFields record.className (a.fieldTypes record) := a.hasFields_fieldTypes hmem
  have hnames : ((a.fieldTypes record).map Prod.fst).Nodup :=
    (ha.names record hrecord).sublist (a.fieldTypes_names record)
  have hconstructor := @generateConstructor_typed (a.fieldTypes record) _ limit
    (unit.refuses limit) hroom hnames (ha.fieldTypes_kinds hmem) record
  rcases hconstructor with ⟨m, hm, horigin, hheader, htyped⟩ | ⟨e, he, hlarge⟩
  · refine .compute hm ?_
    have htyped : unit.BodyMethod a m := by
      rw [SourceUnit.BodyMethod, SourceUnit.TypedMethod, horigin, hheader]
      exact ⟨⟨_, _, .record hrecord, htyped, generateConstructor_linked hfields hm, none,
        (generateConstructor_stackSafe hfields hroom hm).1⟩, by rintro _ ⟨⟩⟩
    exact .of_ok rfl ⟨(h2.constructor horigin htyped).other trivial, hpending2.trans hpending1⟩
  · exact .of_error (by rw [he]; rfl) ⟨hlarge, h2.sent⟩

theorem generateRecords_typed (ha : a.Sound unit.items) (hroom : exceeds limit 2 = false)
    {records : List RecordInfo} (hrecords : ∀ record ∈ records, record ∈ a.declaredRecords)
    (source : String) (h : unit.Writing a limit ids s) :
    Ends (unit.Stopped a limit) (records.forM (generateRecord source)) s fun _ s' =>
      unit.Writing a limit ids s' ∧ s'.pending = s.pending := by
  induction records generalizing s with
  | nil => exact .pure ⟨h, rfl⟩
  | cons record records ih =>
    obtain ⟨hrecord, hrecords⟩ := forall_mem_cons.mp hrecords
    refine (generateRecord_typed ha hroom hrecord source h).bind ?_
    rintro _ s1 ⟨h1, hpending1⟩
    refine (ih hrecords h1).imp (fun _ _ he => he) ?_
    rintro _ s2 ⟨h2, hpending2⟩
    exact ⟨h2, hpending2.trans hpending1⟩

/-! ## Global variables -/

theorem sendGlobals_typed (ha : a.Sound unit.items) {globals : List SymbolId}
    (hglobals : globals ⊆ a.globals) (h : unit.Writing a limit ids s) :
    Ends (unit.Stopped a limit) (globals.forM sendGlobal) s fun _ s' =>
      unit.Writing a limit ids s' ∧ s'.pending = s.pending := by
  induction globals generalizing s with
  | nil => exact .pure ⟨h, rfl⟩
  | cons x globals ih =>
    obtain ⟨hx, hglobals⟩ := forall_mem_cons.mp hglobals
    obtain ⟨symbol0, hsymbol0, hkind⟩ := ha.globals x hx
    obtain ⟨symbol, hsymbol, hsame⟩ := h.same.symbol hsymbol0
    obtain ⟨t, ht, -⟩ := ((ha.proper .top).symbol x symbol0 hsymbol0 (by rw [hkind]; rfl)).jvmType
    have hfield := (h.same.globalField hsame).trans (Analysis.globalField_eq_ok ht)
    refine Ends.bind (P := fun _ s' => unit.Writing a limit ids s' ∧ s'.pending = s.pending)
      (.get (.symbol hsymbol (.compute hfield (.of_ok rfl ⟨h.other trivial, rfl⟩)))) ?_
    rintro _ s1 ⟨h1, hpending1⟩
    refine (ih hglobals h1).imp (fun _ _ he => he) ?_
    rintro _ s2 ⟨h2, hpending2⟩
    exact ⟨h2, hpending2.trans hpending1⟩

/-! ## Functions -/

/-- While functions are made, `todo` are those still to come, apart from those inside of them. -/
structure SourceUnit.Remains (unit : SourceUnit) (a : Analysis) (limit : Option Nat)
    (todo : List FunctionDecl) (s : GenState) : Prop where
  writing : unit.Writing a limit (numbers todo) s
  nodup : (numbers todo).Nodup
  known : ∀ f ∈ todo, f ∈ unit.allFunctions

section

variable (ha : a.Sound unit.items) (hroom : exceeds limit 2 = false) {todo : List FunctionDecl}
include ha hroom

theorem generateMethod_ends {body : List Stmt} (hbody : unit.Defines id params body)
    (hf : a.Admits id params body) (hparams : unit.paramsOf id = params.filterMap Param.symbol)
    (hexprs : Stmt.exprsAll body ⊆ unit.exprs) (h : unit.Writing a limit ids s) (hid : id ∈ ids) :
    Ends (unit.Stopped a limit) (do sendMethod (← generateMethod id params body)) s fun _ s' =>
      ∃ fs, fs.Sublist (Stmt.innerAll body) ∧ s'.pending = s.pending ++ fs ∧
        ∀ ids' ⊆ ids, id ∉ ids' → unit.Writing a limit ids' s' := by
  have hmethod := generateMethod_typed ha (h.limit ▸ unit.refuses limit) (h.limit ▸ hroom) hf
    ((unit.longIn limit).mono hexprs) h.same (h.fresh id hid)
  have hends := Ends.of_wp hmethod (generateMethod_quiet a id params body) h.same
  have hstopped := hends.imp (fun e s' he =>
    (⟨he.1, h.sent.congr he.2.1 he.2.2⟩ : unit.Stopped a limit e s')) fun _ _ hQ => hQ
  refine hstopped.bind ?_
  rintro m s1 ⟨⟨⟨horigin, hheader, htyped, hmade⟩, hrun⟩, hrequests, hmethods⟩
  rw [← hparams] at htyped hmade
  have htyped : unit.BodyMethod a m := by
    rw [SourceUnit.BodyMethod, SourceUnit.TypedMethod, horigin]
    obtain ⟨hret, htypes⟩ := ha.header_types hf hheader
    rw [← hparams] at hret htypes
    refine ⟨⟨_, _, .function hheader hret htypes, htyped, generateMethod_linked h.same hrun,
      generateMethod_safe h.same (h.limit ▸ hroom) hrun⟩, ?_⟩
    rintro _ ⟨⟩
    exact ⟨params, body, hbody, hf, s, s1, h.same, hrun⟩
  obtain ⟨fs, hfs, hpending⟩ := hmade.pending
  exact .of_ok rfl ⟨fs, hfs, hpending, fun ids' hids' hnot =>
    h.made ha hmade hrequests hmethods horigin htyped hid hids' hnot⟩

/-- A function that is next is made; those that it puts aside come last. -/
theorem generateFunction_typed {f : FunctionDecl}
    (h : unit.Remains a limit (f :: (todo ++ s.pending)) s) :
    Ends (unit.Stopped a limit) (generateFunction f) s fun _ s' =>
      unit.Remains a limit (todo ++ s'.pending) s' := by
  have hknown := h.known f mem_cons_self
  obtain ⟨id, hid, hf⟩ := ha.admits f hknown
  have hnumbers := numbers_cons f (todo ++ s.pending)
  rw [hid, Option.toList_some, append_assoc, singleton_append] at hnumbers
  have hnodup := h.nodup
  rw [hnumbers] at hnodup
  obtain ⟨hnot, hrest⟩ := nodup_cons.mp hnodup
  have hmem : id ∈ numbers (f :: (todo ++ s.pending)) := by
    rw [hnumbers]
    exact mem_cons_self
  unfold generateFunction
  rw [hid]
  refine (generateMethod_ends ha hroom (.inr ⟨f, hknown, hid, rfl, rfl⟩) hf
    (ha.paramsOf_eq hknown hid)
    (SourceUnit.exprs_of_function hknown) h.writing hmem).imp (fun _ _ he => he) ?_
  rintro _ s' ⟨fs, hfs, hpending, hwriting⟩
  have hperm : (numbers (todo ++ s'.pending)).Perm (numbers fs ++ numbers (todo ++ s.pending)) := by
    rw [hpending, ← append_assoc, numbers_append]
    exact perm_append_comm
  have hsub : (numbers fs ++ numbers (todo ++ s.pending)).Sublist
      (numbers (Stmt.innerAll f.body) ++ numbers (todo ++ s.pending)) :=
    (numbers_sublist hfs).append_right _
  have hinner : numbers (todo ++ s'.pending) ⊆
      numbers (Stmt.innerAll f.body) ++ numbers (todo ++ s.pending) :=
    fun x hx => hsub.subset (hperm.subset hx)
  refine ⟨hwriting _ ?_ fun hx => hnot (hinner hx), hperm.nodup_iff.mpr (hrest.sublist hsub), ?_⟩
  · rw [hnumbers]
    exact fun x hx => mem_cons_of_mem _ (hinner hx)
  · intro g hg
    rw [hpending, ← append_assoc] at hg
    rcases mem_append.mp hg with hg | hg
    · exact h.known g (mem_cons_of_mem _ hg)
    · exact SourceUnit.mem_of_inner hknown (hfs.subset hg)

theorem generateFunctions_typed (h : unit.Remains a limit (todo ++ s.pending) s) :
    Ends (unit.Stopped a limit) (todo.forM generateFunction) s fun _ s' =>
      unit.Remains a limit s'.pending s' := by
  induction todo generalizing s with
  | nil => exact .pure h
  | cons f todo ih =>
    exact (generateFunction_typed ha hroom h).bind fun _ s' h' => ih h'

/-- Functions that were put aside are made, and those that they put aside in turn. -/
theorem generatePending_typed (fuel : Nat) (h : unit.Remains a limit s.pending s) :
    Ends (unit.Stopped a limit) (generatePending fuel) s fun _ s' =>
      unit.Remains a limit s'.pending s' := by
  induction fuel generalizing s with
  | zero => exact .pure h
  | succ fuel ih =>
    obtain ⟨analysis, pending, requests, methods, code, slots⟩ := s
    cases pending with
    | nil => exact .of_ok rfl h
    | cons f rest =>
      refine Ends.bind (P := fun f? s' => f? = some f ∧
        s' = ⟨analysis, rest, requests, methods, code, slots⟩) (.of_ok rfl ⟨rfl, rfl⟩) ?_
      rintro _ _ ⟨rfl, rfl⟩
      have hnext : unit.Remains a limit (f :: ([] ++ rest))
          ⟨analysis, rest, requests, methods, code, slots⟩ :=
        ⟨⟨h.writing.limit, h.writing.same, ⟨h.writing.sent.methods, h.writing.sent.requests⟩,
          h.writing.fresh, h.writing.homes⟩, h.nodup, h.known⟩
      have hfirst : Ends (unit.Stopped a limit) (generateFunction f)
          ⟨analysis, rest, requests, methods, code, slots⟩ fun _ s' =>
            unit.Remains a limit ([] ++ s'.pending) s' := generateFunction_typed ha hroom hnext
      exact hfirst.bind fun _ s' h' => ih h'

/-! ## Units -/

/-- **All methods of a unit with nothing wrong in it are typed**, and only size is in the way of
making them. -/
theorem generateUnit_typed (hs : s.code.limit = limit) (hanalysis : s.analysis = a)
    (hpending : s.pending = []) (hrequests : s.requests = #[]) (hmethods : s.methods = #[]) :
    Ends (unit.Stopped a limit) (generateUnit unit) s fun _ s' =>
      unit.Remains a limit s'.pending s' := by
  have hstart : unit.Writing a limit
      (FnId.main :: numbers (unit.functions ++ Stmt.innerAll unit.mainBody)) s := by
    refine ⟨hs, hanalysis ▸ .refl a, ⟨?_, ?_⟩, fun id _ x symbol hx _ => ?_, ?_⟩
    · rw [hmethods]
      exact fun m hm => absurd hm (Array.not_mem_empty m)
    · rw [hrequests]
      exact .nil
    · exact (ha.fresh x symbol (hanalysis ▸ hx)).slot
    · rw [hmethods]
      exact fun m hm => absurd hm (Array.not_mem_empty m)
  refine .get ((generateRecords_typed ha hroom (by rw [hanalysis]; exact fun _ hr => hr) unit.name
    hstart).bind ?_)
  rintro _ s1 ⟨h1, hpending1⟩
  refine .get (Ends.bind (P := fun _ s' => unit.Writing a limit _ s' ∧ s'.pending = s1.pending)
    (.of_ok rfl ⟨h1.other trivial, rfl⟩) ?_)
  rintro _ s2 ⟨h2, hpending2⟩
  refine .get ((sendGlobals_typed ha (by rw [h2.same.globals]; exact List.Subset.refl _) h2).bind
    ?_)
  rintro _ s3 ⟨h3, hpending3⟩
  have hnodup := ha.numbers_nodup
  rw [← bind_assoc]
  refine Ends.bind (P := fun _ s' => unit.Remains a limit (unit.functions ++ s'.pending) s') ?_ ?_
  · refine (generateMethod_ends ha hroom (.inl ⟨rfl, rfl, rfl⟩) ha.admits_main ha.paramsOf_main
      unit.exprs_of_main h3 mem_cons_self).imp (fun _ _ he => he) ?_
    rintro _ s4 ⟨fs, hfs, hpending4, hwriting⟩
    rw [hpending3, hpending2, hpending1, hpending, nil_append] at hpending4
    have hsub : (unit.functions ++ s4.pending).Sublist
        (unit.functions ++ Stmt.innerAll unit.mainBody) := hpending4 ▸ hfs.append_left _
    have hnumbers := numbers_sublist hsub
    obtain ⟨hnot, hrest⟩ := nodup_cons.mp hnodup
    refine ⟨hwriting _ (fun x hx => mem_cons_of_mem _ (hnumbers.subset hx))
      fun hx => hnot (hnumbers.subset hx), hrest.sublist hnumbers, fun f hf => ?_⟩
    exact unit.functions_perm.subset (mem_flatMap.mpr ⟨f, hsub.subset hf, mem_cons_self⟩)
  intro _ s4 h4
  refine (generateFunctions_typed ha hroom h4).bind fun _ s5 h5 => ?_
  refine (generatePending_typed ha hroom _ h5).bind fun _ s6 h6 => ?_
  exact .of_ok rfl ⟨h6.writing.other trivial, h6.nodup, h6.known⟩

end

section

variable (ha : a.Sound unit.items) (hok : a.isOk = true) (hroom : exceeds limit 2 = false)
include ha hok hroom

theorem generateUpTo_ends : ∃ s, (generateUpTo limit unit a).requests = s.requests.toList ∧
      (generateUpTo limit unit a).methods = s.methods.toList ∧
      (generateUpTo limit unit a).analysis = s.analysis ∧
      ((generateUpTo limit unit a).error = none ∧ unit.Remains a limit s.pending s ∨
        ∃ e, (generateUpTo limit unit a).error = some e ∧ unit.Stopped a limit e s) := by
  have hends := @generateUnit_typed unit a limit ⟨a, [], #[], #[], .start limit, .start limit 0⟩ ha
    hroom rfl rfl rfl rfl rfl
  unfold Ends at hends
  rw [generateUpTo, if_neg (by simp [hok])]
  split at hends
  · rename_i s hrun
    rw [hrun]
    exact ⟨s, rfl, rfl, rfl, .inl ⟨rfl, hends⟩⟩
  · rename_i e s hrun
    rw [hrun]
    exact ⟨s, rfl, rfl, rfl, .inr ⟨e, rfl, hends⟩⟩

theorem generateUpTo_error {e : GenerateError} (he : (generateUpTo limit unit a).error = some e) :
    unit.TooLarge limit e := by
  obtain ⟨s, -, -, -, hends⟩ := generateUpTo_ends ha hok hroom
  rcases hends with ⟨hnone, -⟩ | ⟨e', he', hlarge, -⟩
  · cases hnone.symm.trans he
  · cases he'.symm.trans he
    exact hlarge

theorem generateUpTo_bodies : ∃ s : GenState, s.Sent (unit.BodyMethod a) ∧
      (generateUpTo limit unit a).requests = s.requests.toList ∧
      (generateUpTo limit unit a).methods = s.methods.toList := by
  obtain ⟨s, hrequests, hmethods, -, hends⟩ := generateUpTo_ends ha hok hroom
  refine ⟨s, ?_, hrequests, hmethods⟩
  rcases hends with ⟨-, h⟩ | ⟨_, -, -, h⟩
  · exact h.writing.sent
  · exact h

/-- The methods that are made are typed, and they are those that the requests describe. -/
theorem generateUpTo_sent : (∀ m ∈ (generateUpTo limit unit a).methods, unit.TypedMethod a m) ∧
    ∀ body : MethodBody, body.requests <:+: (generateUpTo limit unit a).requests →
      ∃ m ∈ (generateUpTo limit unit a).methods, m.body = body := by
  obtain ⟨s, hsent, hrequests, hmethods⟩ := generateUpTo_bodies ha hok hroom
  rw [hrequests, hmethods]
  refine ⟨fun m hm => (hsent.methods m (Array.mem_toList_iff.mp hm)).1, fun body hbody => ?_⟩
  obtain ⟨m, hm, heq⟩ := hsent.requests.holds_of_mem hbody
  exact ⟨m, Array.mem_toList_iff.mpr hm, heq⟩

end

end Making

end StackCompiler

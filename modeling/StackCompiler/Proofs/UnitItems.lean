import StackCompiler.Proofs.Declarations

/-!
# The items of a unit

The analysis of a unit goes over its items three times: it makes records known, then functions, and
then it looks into everything. What comes out are the same items, with notes filled in, and items
that are functions or statements are analysed as statements are elsewhere.

* **`analyzeItems_eq`**: the items of a unit are analysed as statements;
* `SourceUnit.analyze_run`: the analysis of a unit from step to step.
-/

namespace StackCompiler

open Item

variable {s s' : AnalysisState} {ids : List (Option FnId)} {items items' : List Item}

/-! ## Outcomes -/

namespace Analyze

variable {α β : Type} {Q : α → Prop}

/-- Whatever the state, the outcome has a property. -/
def Returns (Q : α → Prop) (m : Analyze α) : Prop := ∀ s, Q (m s).1

namespace Returns

theorem andThen {m : Analyze β} {f : β → Analyze α} (h : ∀ b, Returns Q (f b)) :
    Returns Q (m >>= f) :=
  fun s => h (m s).1 (m s).2

theorem pure {a : α} (h : Q a) : Returns Q (Pure.pure a : Analyze α) := fun _ => h

theorem bind {P : β → Prop} {m : Analyze β} {f : β → Analyze α} (hm : Returns P m)
    (hf : ∀ b, P b → Returns Q (f b)) : Returns Q (m >>= f) :=
  fun s => hf _ (hm s) (m s).2

theorem of_eq {m : Analyze α} {a : α} (hm : Returns Q m) (h : m s = (a, s')) : Q a := by
  have := hm s
  rwa [h] at this

end Returns

end Analyze

attribute [local simp] Analyze.bind_apply Analyze.map_apply Analyze.pure_apply

/-! ## Functions -/

/-- The heads of two declarations say the same of the function. -/
structure FunctionHead.Alike (head head' : FunctionHead) : Prop where
  name : head'.name = head.name
  types : head'.params.map Param.ty = head.params.map Param.ty
  ret : head'.ret = head.ret
  span : head'.span = head.span

theorem declareParams_types (id : FnId) (params : List Param) (types : List Ty) :
    Analyze.Returns (fun params' => params'.map Param.ty = params.map Param.ty)
      (declareParams id params types) := by
  induction params generalizing types with
  | nil => exact .pure rfl
  | cons param params ih =>
    refine .andThen fun symbol => .bind (ih types.tail) fun rest hrest => .pure ?_
    rw [List.map_cons, List.map_cons, hrest]

theorem beginFunction_alike (id : FnId) (head : FunctionHead) :
    Analyze.Returns (fun head' => head.Alike head' ∧ head'.id = some id) (beginFunction id head) :=
  .andThen fun _ => .andThen fun _ => .bind (declareParams_types id head.params _) fun _ htypes =>
    .pure ⟨⟨rfl, htypes, rfl, rfl⟩, rfl⟩

theorem analyzeFunction_alike (id? : Option FnId) (f : FunctionDecl) :
    Analyze.Returns (fun f' => f.head.Alike f'.head ∧ ∀ id, id? = some id → f'.head.id = some id)
      (analyzeFunction id? f) := by
  refine .bind (P := fun id' => ∀ id, id? = some id → id' = id) ?_ fun _ hid =>
    .bind (beginFunction_alike _ f.head) fun _ halike => .andThen fun _ => .andThen fun _ =>
      .andThen fun _ => .pure ⟨halike.1, fun id h => hid id h ▸ halike.2⟩
  rintro s id rfl
  rfl

theorem analyzeFunction_eq (id? : Option FnId) (f : FunctionDecl) (ctx : Context)
    (s : AnalysisState) : (Stmt.function f.head f.body).analyze ctx id? s =
      ((.function (analyzeFunction id? f s).1.head (analyzeFunction id? f s).1.body, .normal),
        (analyzeFunction id? f s).2) := by
  rw [Stmt.analyze]
  rfl

/-! ## Items -/

theorem declareRecordNames_items (index : Nat) (items : List Item) :
    Analyze.Returns (fun items' => items'.length = items.length ∧ stmts items' = stmts items ∧
      ((∀ item ∈ items, item.Plain) → ∀ item ∈ items', item.Plain))
      (declareRecordNames index items) := by
  induction items generalizing index with
  | nil => exact .pure ⟨rfl, rfl, id⟩
  | cons item items ih =>
    cases item with
    | record record =>
      exact .andThen fun _ => .bind (ih _) fun _ hrest => .pure ⟨congrArg (· + 1) hrest.1,
        hrest.2.1, fun h => List.forall_mem_cons.mpr
          ⟨trivial, hrest.2.2 (List.forall_mem_cons.mp h).2⟩⟩
    | function _ | stmt _ =>
      exact .bind (ih _) fun _ hrest => .pure ⟨congrArg (· + 1) hrest.1,
        congrArg (_ :: ·) hrest.2.1, fun h => List.forall_mem_cons.mpr
          ((List.forall_mem_cons.mp h).imp_right hrest.2.2)⟩

theorem declareRecords_items (items : List Item) :
    Analyze.Returns (fun items' => items'.length = items.length ∧ stmts items' = stmts items ∧
      ((∀ item ∈ items, item.Plain) → ∀ item ∈ items', item.Plain)) (declareRecords items) :=
  .bind (declareRecordNames_items 0 items) fun _ hitems => .andThen fun _ => .pure hitems

/-- Two items look the same from outside. Records are filled in before anything else. -/
inductive Item.Alike : Item → Item → Prop
  | function {f f' : FunctionDecl} (h : f.head.Alike f'.head) : Alike (.function f) (.function f')
  | record (record : RecordDecl) : Alike (.record record) (.record record)
  | stmt (stmt stmt' : Stmt) : Alike (.stmt stmt) (.stmt stmt')

/-- Functions get the numbers that they are known by. -/
def Item.Keep (ids : List (Option FnId)) (items : List Item) : Prop :=
  ∀ (j : Nat) f id, items[j]? = some (.function f) → ids[j]? = some (some id) → f.head.id = some id

theorem Item.Keep.cons {item : Item} (h : Keep ids.tail items)
    (hitem : ∀ f id, item = .function f → ids.head?.join = some id → f.head.id = some id) :
    Keep ids (item :: items) := by
  intro j f id hf hid
  cases j with
  | zero => exact hitem f id (Option.some.inj hf) (by rw [List.head?_eq_getElem?, hid]; rfl)
  | succ j => exact h j f id hf (by rwa [List.getElem?_tail])

theorem analyzeItems_alike (flow : Flow) (warned : Bool) (ids : List (Option FnId))
    (items : List Item) :
    Analyze.Returns (fun items' => List.Forall₂ Alike items items' ∧ Keep ids items')
      (analyzeItems flow warned ids items) := by
  induction items generalizing flow warned ids with
  | nil => exact .pure ⟨.nil, nofun⟩
  | cons item items ih =>
    cases item with
    | record record =>
      exact .bind (ih _ _ _) fun _ hrest =>
        .pure ⟨.cons (.record record) hrest.1, hrest.2.cons nofun⟩
    | function f =>
      refine .bind (analyzeFunction_alike _ f) fun _ hf => .bind (ih _ _ _) fun _ hrest =>
        .pure ⟨.cons (.function hf.1) hrest.1, hrest.2.cons ?_⟩
      rintro _ id ⟨⟩
      exact hf.2 id
    | stmt stmt =>
      have hcons {stmt' : Stmt} {rest : List Item}
          (hrest : List.Forall₂ Alike items rest ∧ Keep ids.tail rest) :
          List.Forall₂ Alike (.stmt stmt :: items) (.stmt stmt' :: rest) ∧
            Keep ids (.stmt stmt' :: rest) :=
        ⟨.cons (.stmt _ _) hrest.1, hrest.2.cons nofun⟩
      rw [analyzeItems]
      split_ifs
      · exact .andThen fun _ => .andThen fun _ => .bind (ih _ _ _) fun _ hrest =>
          .pure (hcons hrest)
      · exact .andThen fun _ => .bind (ih _ _ _) fun _ hrest => .pure (hcons hrest)

theorem getElem?_of_forall₂ {α β : Type} {R : α → β → Prop} {xs : List α} {ys : List β}
    (h : List.Forall₂ R xs ys) {j : Nat} {x : α} (hx : xs[j]? = some x) :
    ∃ y, ys[j]? = some y ∧ R x y := by
  obtain ⟨hlength, hget⟩ := List.forall₂_iff_get.mp h
  obtain ⟨hlt, rfl⟩ := List.getElem?_eq_some_iff.mp hx
  exact ⟨ys[j], List.getElem?_eq_getElem (hlength ▸ hlt), hget j hlt (hlength ▸ hlt)⟩

/-- The numbers of those items that are statements. -/
def Item.numbers : List Item → List (Option FnId) → List (Option FnId)
  | .record _ :: items, _ :: ids => numbers items ids
  | _ :: items, id? :: ids => id? :: numbers items ids
  | _, _ => []

theorem Item.stmts_function (f : FunctionDecl) (items : List Item) :
    stmts (.function f :: items) = .function f.head f.body :: stmts items := rfl

theorem Item.stmts_stmt (stmt : Stmt) (items : List Item) :
    stmts (.stmt stmt :: items) = stmt :: stmts items := rfl

/-- **The items of a unit are analysed as statements.** -/
theorem analyzeItems_eq {flow : Flow} {warned : Bool}
    (h : analyzeItems flow warned ids items s = (items', s')) (hlength : ids.length = items.length)
    (hplain : ∀ item ∈ items, item.Plain)
    (hids : List.Forall₂ (fun stmt id? => stmt.isFunction = Option.isSome id?) (stmts items)
      (numbers items ids)) :
    ∃ flow', Stmt.analyzeList ⟨FnId.main, false⟩ flow warned (numbers items ids)
      (stmts items) s = ((stmts items', flow'), s') := by
  suffices heq : (Stmt.analyzeList ⟨FnId.main, false⟩ flow warned (numbers items ids)
      (stmts items) s).1.1 = stmts (analyzeItems flow warned ids items s).1 ∧
      (Stmt.analyzeList ⟨FnId.main, false⟩ flow warned (numbers items ids)
        (stmts items) s).2 = (analyzeItems flow warned ids items s).2 by
    rw [h] at heq
    exact ⟨_, Prod.ext (Prod.ext heq.1 rfl) heq.2⟩
  clear h
  induction items generalizing flow warned ids s with
  | nil => exact ⟨rfl, rfl⟩
  | cons item items ih =>
    obtain ⟨hfirst, hothers⟩ := List.forall_mem_cons.mp hplain
    obtain _ | ⟨id?, ids⟩ := ids
    · cases hlength
    have ih := fun s flow warned => @ih s ids flow warned (Nat.succ.inj hlength) hothers
    cases item with
    | record record => exact ih _ _ _ hids
    | function f =>
      obtain _ | ⟨-, hids⟩ := hids
      simp [stmts_function, numbers, Stmt.analyzeList, analyzeItems, analyzeFunction_eq,
        Stmt.isFunction, Flow.andThen_normal, ih _ _ _ hids]
    | stmt stmt =>
      obtain _ | ⟨hid, hids⟩ := hids
      have hstmt : stmt.isFunction = false := hfirst
      obtain rfl : id? = none := by simpa [hstmt] using hid.symm
      by_cases hwarns : (!flow.completes && !warned) = true
      · simp [stmts_stmt, numbers, Stmt.analyzeList, analyzeItems, hwarns, hstmt, ih _ _ _ hids]
      · simp [stmts_stmt, numbers, Stmt.analyzeList, analyzeItems, hwarns, hstmt, ih _ _ _ hids]

/-! ## Units -/

/-- Analyses all of a unit, apart from what functions capture. -/
def analyzeContents (exports : ExportTable) (items : List Item) : Analyze (List Item) := do
  openScope .builtins
  declareBuiltins
  openScope .imports
  declareImports exports
  openScope .unit
  let items ← declareRecords items
  let ids ← registerItems 0 items
  modifyScopes (·.setState .analyzing)
  let items ← analyzeItems .normal false ids items
  leaveScope
  leaveScope
  leaveScope
  return items

/-- What is known of a unit before captures are looked at. -/
def SourceUnit.recorded (unit : SourceUnit) (index : Nat) (exports : ExportTable) : AnalysisState :=
  (analyzeContents exports unit.items (.start unit index)).2

/-- What the analysis of the unit called `name` gives in the end. -/
def AnalysisState.outcome (s : AnalysisState) (name : String) : Analysis :=
  { unit := name, className := s.className, symbols := s.symbols, functions := s.functions
    records := s.records, globals := s.globals, diagnostics := s.diagnostics }

/-- The analysis of a unit from step to step. -/
inductive UnitRun (unit : SourceUnit) (index : Nat) (exports : ExportTable) (unit' : SourceUnit)
    (a : Analysis) : Prop
  | mk {s1 s2 s3 s4 s5 s6 s7 s8 s9 t1 t2 closed : AnalysisState} {items : List Item}
      {ids : List (Option FnId)} (inBuiltins : openScope .builtins (.start unit index) = ((), s1))
      (builtins : declareBuiltins s1 = ((), s2)) (inImports : openScope .imports s2 = ((), s3))
      (imports : declareImports exports s3 = ((), s4)) (inUnit : openScope .unit s4 = ((), s5))
      (records : declareRecords unit.items s5 = (items, s6))
      (functions : registerItems 0 items s6 = (ids, s7))
      (begins : modifyScopes (·.setState .analyzing) s7 = ((), s8))
      (contents : analyzeItems .normal false ids items s8 = (unit'.items, s9))
      (leavesUnit : leaveScope s9 = ((), t1)) (leavesImports : leaveScope t1 = ((), t2))
      (leavesBuiltins : leaveScope t2 = ((), unit.recorded index exports))
      (captures : closeCaptures (unit.recorded index exports) = ((), closed))
      (result : a = closed.outcome unit.name) : UnitRun unit index exports unit' a

theorem SourceUnit.analyze_run {unit unit' : SourceUnit} {index : Nat} {exports : ExportTable}
    {a : Analysis} (h : unit.analyze index exports = (unit', a)) :
    UnitRun unit index exports unit' a := by
  have hall : analyzeAll exports unit.items = do
      let items ← analyzeContents exports unit.items
      closeCaptures
      return items := rfl
  obtain ⟨items', hrun⟩ : ∃ items', analyzeContents exports unit.items (.start unit index) =
    (items', unit.recorded index exports) := ⟨_, (Prod.eta _).symm⟩
  cases hclose : closeCaptures (unit.recorded index exports) with
  | mk _ closed =>
    have hall : (analyzeAll exports unit.items).run (.start unit index) = (items', closed) :=
      (congrFun hall _).trans
        (Analyze.bind_eq.mpr ⟨_, _, hrun, Analyze.bind_eq.mpr ⟨_, _, hclose, rfl⟩⟩)
    unfold SourceUnit.analyze at h
    rw [hall] at h
    cases h
    simp only [analyzeContents, Analyze.bind_eq, Analyze.pure_eq, Prod.mk.injEq] at hrun
    obtain ⟨_, _, h1, _, _, h2, _, _, h3, _, _, h4, _, _, h5, _, _, h6, _, _, h7, _, _, h8, _, _,
      h9, _, _, h10, _, _, h11, _, _, h12, rfl, hdone⟩ := hrun
    exact ⟨h1, h2, h3, h4, h5, h6, h7, h8, h9, h10, h11, hdone ▸ h12, hclose, rfl⟩

end StackCompiler

import StackCompiler.Proofs.ExprSound
import StackCompiler.Proofs.Parsed
import StackCompiler.Proofs.UnitItems

/-!
# Analysing twice

An analysis fills in a unit, and reads nothing of what an analysis fills in. So a unit that has been
analysed can be analysed again, from the same state, and nothing changes.

* `Expr.Renoted`, `Expr.form`: what an analysis does not look at, and what it leaves;
* **`SourceUnit.analyze_again`**: this is so of every unit that a syntax tree stands for.
-/

namespace StackCompiler

open Analyze List Stmt

variable {e : Expr} {es : List Expr} {items items' : List Item} {note : Note}

variable {ctx : Context} {s : AnalysisState}

attribute [local simp] bind_apply map_apply pure_apply get_apply Note.typed

/-! ## Notes -/

/-- The same expression, but for what is known of it as a whole. -/
def Expr.Renoted (e e' : Expr) : Prop := ∃ note : Note, note.span = e.span ∧ e' = e.withNote note

namespace Expr.Renoted

theorem refl (e : Expr) : e.Renoted e := by
  refine ⟨e.note, rfl, ?_⟩
  cases e <;> rfl

theorem widenTo (target : Ty) (e : Expr) : e.Renoted (e.widenTo target) := by
  unfold Expr.widenTo
  split
  · split_ifs
    · exact ⟨{ e.note with coercion := some target }, rfl, rfl⟩
    · exact .refl e
  · exact .refl e

theorem expectType (e : Expr) (expected : Ty) (construct : Construct) :
    Returns e.Renoted (expectType e expected construct) := by
  simp only [StackCompiler.expectType]
  split_ifs
  · exact .pure (.widenTo _ _)
  · exact .andThen fun _ => .pure (.refl e)

theorem checkArg (name : String) (index : Nat) (reported : Bool) (arg : Expr × Ty)
    (expected : Option Ty) :
    Returns (fun x => arg.1.Renoted x.1) (checkArg name index reported arg expected) := by
  unfold StackCompiler.checkArg
  split
  · exact .pure (.refl _)
  · split_ifs
    · exact .pure (.widenTo _ _)
    · exact .pure (.refl _)
    · exact .andThen fun _ => .pure (.refl _)

theorem typeBinary (op : BinOp) (span : Span) (left right : Expr × Ty) :
    Returns (fun x => left.1.Renoted x.1 ∧ right.1.Renoted x.2.1)
      (typeBinary op span left right) := by
  unfold StackCompiler.typeBinary
  split_ifs
  · exact .pure ⟨.refl _, .refl _⟩
  · split
    · exact .pure ⟨.widenTo _ _, .widenTo _ _⟩
    · exact .andThen fun _ => .pure ⟨.refl _, .refl _⟩

theorem typeElements (span : Span) (xs : List (Expr × Ty)) :
    Returns (fun x => List.Forall₂ Expr.Renoted (xs.map Prod.fst) x.1) (typeElements span xs) := by
  have hsame : List.Forall₂ Expr.Renoted (xs.map Prod.fst) (xs.map Prod.fst) :=
    forall₂_same.mpr fun e _ => .refl e
  unfold StackCompiler.typeElements
  split
  · exact .andThen fun _ => .pure hsame
  · split_ifs
    · exact .pure hsame
    · split
      · exact .andThen fun _ => .pure hsame
      · exact .andThen fun _ => .pure hsame
      · exact .pure (forall₂_map_right_iff.mpr (forall₂_same.mpr fun e _ => .widenTo _ e))

theorem typeVar (declared : Option Ty) (init : Expr × Ty) :
    Returns (fun x => init.1.Renoted x.1) (typeVar declared init) := by
  unfold StackCompiler.typeVar
  split
  · exact .bind (.expectType _ _ _) fun _ he => .pure he
  · split_ifs
    · exact .andThen fun _ => .pure (.refl _)
    · exact .pure (.refl _)

end Expr.Renoted

/-! ## Forms -/

/-- What can be seen of an expression without its parts. -/
inductive ExprForm where
  | literal (value : Literal)
  | name | binary | unary | call | field | index | array | newArray | cast

def Expr.form : Expr → ExprForm
  | .literal _ value => .literal value
  | .name .. => .name
  | .binary .. => .binary
  | .unary .. => .unary
  | .call .. => .call
  | .field .. => .field
  | .index .. => .index
  | .array .. => .array
  | .newArray .. => .newArray
  | .cast .. => .cast

theorem Expr.form_withNote (e : Expr) (note : Note) : (e.withNote note).form = e.form := by
  cases e <;> rfl

@[simp] theorem Expr.withNote_withNote (e : Expr) (note note' : Note) :
    (e.withNote note).withNote note' = e.withNote note' := by
  cases e <;> rfl

theorem isLeastInt_of_form {e' : Expr} (h : e'.form = e.form) (op : UnOp) :
    isLeastInt op e' = isLeastInt op e := by
  cases e with
  | literal note value =>
    cases e' <;> cases h
    cases op <;> cases value <;> rfl
  | _ => cases e' <;> cases h; cases op <;> rfl

theorem Expr.analyze_call_other {callee : Expr} {args : List Expr} {target : Option CallTarget}
    {expected : Option Ty} (h : callee.form ≠ .name) :
    (Expr.call note callee args target).analyze ctx expected = (do
      let found ← callee.analyze ctx none
      if found.2.isError then
        return (.call (note.typed .error) found.1 args none, .error)
      else
        report .typeMismatch ("expression of type `" ++ found.2.text ++ "` is not callable")
          found.1.span .call
        let args ← Expr.analyzeAll ctx args
        return (.call (note.typed .error) found.1 (args.map Prod.fst) none, .error)) := by
  rw [Expr.analyze]
  rintro calleeNote ref rfl
  exact h rfl

theorem Expr.analyze_form (e : Expr) (expected : Option Ty) :
    Returns (fun x => x.1.form = e.form ∧ x.1.span = e.span) (e.analyze ctx expected) := by
  cases e with
  | binary note op left right =>
    rw [Expr.analyze]
    split_ifs <;> exact fun _ => ⟨rfl, rfl⟩
  | unary note op operand =>
    rw [Expr.analyze]
    split_ifs <;> exact fun _ => ⟨rfl, rfl⟩
  | call note callee args target =>
    by_cases hname : callee.form = .name
    · cases callee with
      | name calleeNote ref =>
        rw [Expr.analyze]
        refine .andThen fun callee => ?_
        obtain ⟨ref', calleeTy, found⟩ := callee
        cases found <;> exact fun _ => ⟨rfl, rfl⟩
      | _ => cases hname
    · rw [Expr.analyze_call_other hname]
      refine .andThen fun found => ?_
      split_ifs <;> exact fun _ => ⟨rfl, rfl⟩
  | array note elems =>
    rw [Expr.analyze]
    cases wantedElement? expected <;> exact fun _ => ⟨rfl, rfl⟩
  | _ => exact fun _ => ⟨rfl, rfl⟩

/-! ## Expressions -/

theorem Expr.analyze_withNote (e : Expr) (h : note.span = e.span) (expected : Option Ty) :
    (e.withNote note).analyze ctx expected = e.analyze ctx expected := by
  cases e with
  | call note' callee args target =>
    have hspan : note.span = note'.span := h
    by_cases hname : callee.form = .name
    · cases callee with
      | name calleeNote ref =>
        simp only [Expr.withNote, Expr.analyze, Note.typed, hspan]
      | _ => cases hname
    · simp only [Expr.withNote, Expr.analyze_call_other hname, Note.typed, hspan]
  | literal note' | name note' | binary note' | unary note' | field note' | index note'
  | array note' | newArray note' | cast note' =>
    have hspan : note.span = note'.span := h
    simp only [Expr.withNote, Expr.analyze, Note.typed, hspan]

/-- Analysing the outcome again, from the same state, ends as before, whatever is known of it as a
whole. -/
def Expr.Stable (ctx : Context) (e : Expr) : Prop :=
  ∀ ⦃expected s e'⦄, (e.analyze ctx expected s).1.1.Renoted e' →
    e'.analyze ctx expected s = e.analyze ctx expected s

namespace Expr.Stable

variable {e : Expr} {expected : Option Ty}

theorem of_again (h : ∀ expected s,
    (e.analyze ctx expected s).1.1.analyze ctx expected s = e.analyze ctx expected s) :
    e.Stable ctx := by
  rintro expected s _ ⟨note, hspan, rfl⟩
  rw [Expr.analyze_withNote _ hspan, h]

theorem again (h : e.Stable ctx) (expected : Option Ty) (s : AnalysisState) :
    (e.analyze ctx expected s).1.1.analyze ctx expected s = e.analyze ctx expected s := h (.refl _)

theorem expectType (h : e.Stable ctx) (ty : Ty) (construct : Construct) (s s1 : AnalysisState) :
    Expr.analyze ctx expected (expectType (e.analyze ctx expected s).1.1 ty construct s1).1 s =
      e.analyze ctx expected s :=
  h (.expectType _ _ _ _)

end Expr.Stable

theorem analyzeName_again (span : Span) (ref : NameRef) :
    analyzeName ctx span (analyzeName ctx span ref s).1.1 = analyzeName ctx span ref := by
  have hname : Returns (fun x => x.1.name = ref.name) (analyzeName ctx span ref) := by
    refine .andThen fun found => ?_
    obtain _ | ⟨binding, _ | symbol⟩ := found
    · exact .andThen fun _ => .pure rfl
    · exact .pure rfl
    · dsimp only
      cases symbol.kind <;> exact .andThen fun _ => .pure rfl
  have hsame : (analyzeName ctx span ref s).1.1.name = ref.name := hname s
  generalize (analyzeName ctx span ref s).1.1 = ref' at hsame ⊢
  simp only [analyzeName, hsame]

theorem resolveCallee_again (span : Span) (ref : NameRef) :
    resolveCallee ctx span (resolveCallee ctx span ref s).1.1 = resolveCallee ctx span ref := by
  have hname : Returns (fun x => x.1.name = ref.name) (resolveCallee ctx span ref) := by
    refine .andThen fun found => ?_
    obtain _ | ⟨binding, _ | symbol⟩ := found
    · exact .andThen fun _ => .pure rfl
    · exact .pure rfl
    · dsimp only
      cases symbol.kind with
      | function id =>
        refine .andThen fun s => ?_
        cases s.functions[id]? <;> exact .pure rfl
      | record decl =>
        refine .andThen fun s => ?_
        cases s.records.find? (·.decl = decl) <;> exact .pure rfl
      | builtin builtin => exact .pure rfl
      | _ => exact .andThen fun _ => .andThen fun _ => .pure rfl
  have hsame : (resolveCallee ctx span ref s).1.1.name = ref.name := hname s
  generalize (resolveCallee ctx span ref s).1.1 = ref' at hsame ⊢
  simp only [resolveCallee, hsame]

section

variable (hes : ∀ e ∈ es, e.Stable ctx)
include hes

theorem analyzeAll_again {es' : List Expr}
    (h : List.Forall₂ Expr.Renoted ((Expr.analyzeAll ctx es s).1.map Prod.fst) es') :
    Expr.analyzeAll ctx es' s = Expr.analyzeAll ctx es s := by
  induction es generalizing s es' with
  | nil =>
    cases h
    rfl
  | cons e es ih =>
    obtain ⟨he, hes⟩ := forall_mem_cons.mp hes
    obtain _ | ⟨hfirst, hrest⟩ := h
    simp [Expr.analyzeAll, he hfirst, ih hes hrest]

theorem analyzeAll_same :
    Expr.analyzeAll ctx ((Expr.analyzeAll ctx es s).1.map Prod.fst) s = Expr.analyzeAll ctx es s :=
  analyzeAll_again hes (forall₂_same.mpr fun e _ => .refl e)

theorem analyzeElements_again (elem : Ty) :
    Expr.analyzeElements ctx elem (Expr.analyzeElements ctx elem es s).1 s =
      Expr.analyzeElements ctx elem es s := by
  induction es generalizing s with
  | nil => rfl
  | cons e es ih =>
    obtain ⟨he, hes⟩ := forall_mem_cons.mp hes
    simp [Expr.analyzeElements, he.expectType, ih hes]

theorem analyzeArgs_again (name : String) (index : Nat) (reported : Bool) (params : List Ty) :
    Expr.analyzeArgs ctx name index reported params
        (Expr.analyzeArgs ctx name index reported params es s).1 s =
      Expr.analyzeArgs ctx name index reported params es s := by
  induction es generalizing s index reported params with
  | nil => rfl
  | cons e es ih =>
    obtain ⟨he, hes⟩ := forall_mem_cons.mp hes
    simp [Expr.analyzeArgs, he (.checkArg _ _ _ _ _ _), ih hes]

end

theorem analyzeArgs_length (es : List Expr) (name : String) (index : Nat) (reported : Bool)
    (params : List Ty) : Returns (fun es' => es'.length = es.length)
      (Expr.analyzeArgs ctx name index reported params es) := by
  induction es generalizing index reported params with
  | nil => exact .pure rfl
  | cons e es ih =>
    exact .andThen fun _ => .andThen fun _ => .bind (ih _ _ _) fun _ h => .pure (congrArg (· + 1) h)

/-- **An expression can be analysed again.** -/
theorem Expr.stable (e : Expr) : e.Stable ctx := by
  induction e with
  | literal note value => exact .of_again fun _ _ => rfl
  | name note ref =>
    refine .of_again fun expected s => ?_
    simp [Expr.analyze, analyzeName_again]
  | binary note op left right ihl ihr =>
    refine .of_again fun expected s => ?_
    by_cases hop : op.isLogical = true
    · simp [Expr.analyze, hop, ihl.expectType, ihr.expectType]
    · simp [Expr.analyze, hop, ihl (Expr.Renoted.typeBinary _ _ _ _ _).1,
        ihr (Expr.Renoted.typeBinary _ _ _ _ _).2]
  | unary note op operand ih =>
    refine .of_again fun expected s => ?_
    by_cases hleast : isLeastInt op operand = true
    · have hform := operand.form_withNote ⟨operand.note.span, some .int, none⟩
      simp [Expr.analyze, hleast, isLeastInt_of_form hform, Expr.note_withNote]
    · have hform : (operand.analyze ctx none s).1.1.form = operand.form :=
        (operand.analyze_form none s).1
      simp [Expr.analyze, hleast, isLeastInt_of_form hform, ih.again]
  | call note callee args target ihc ihargs =>
    refine .of_again fun expected s => ?_
    by_cases hname : callee.form = .name
    · cases callee with
      | name calleeNote ref =>
        have hagain : resolveCallee ctx calleeNote.span
            (resolveCallee ctx calleeNote.span ref s).1.1 = _ := resolveCallee_again _ _
        rcases hfound : resolveCallee ctx calleeNote.span ref s with ⟨⟨ref1, calleeTy, found⟩, s1⟩
        rw [hfound] at hagain
        cases found <;> simp [Expr.analyze, hfound, hagain, analyzeAll_same ihargs,
          analyzeArgs_again ihargs, analyzeArgs_length args _ _ _ _ _]
      | _ => cases hname
    · have hname1 : ((callee.analyze ctx none s).1.1).form ≠ .name := by
        rwa [(callee.analyze_form none s).1]
      by_cases herror : (callee.analyze ctx none s).1.2.isError = true
      · simp [Expr.analyze_call_other hname, Expr.analyze_call_other hname1, herror, ihc.again]
      · simp [Expr.analyze_call_other hname, Expr.analyze_call_other hname1, herror, ihc.again,
          analyzeAll_same ihargs]
  | array note elems ih =>
    refine .of_again fun expected s => ?_
    cases hwanted : wantedElement? expected with
    | some elem => simp [Expr.analyze, hwanted, analyzeElements_again ih]
    | none => simp [Expr.analyze, hwanted, analyzeAll_again ih (Expr.Renoted.typeElements _ _ _)]
  | field note base ident position ih | cast note base target ih =>
    refine .of_again fun expected s => ?_
    simp [Expr.analyze, ih.again]
  | index note base position ihb ihp =>
    refine .of_again fun expected s => ?_
    simp [Expr.analyze, ihb.again, ihp.expectType]
  | newArray note elem length ih =>
    refine .of_again fun expected s => ?_
    simp [Expr.analyze, ih.expectType]

/-! ## Single statements -/

theorem analyzeCondition_again (construct : Construct) (cond : Expr) :
    analyzeCondition ctx construct (analyzeCondition ctx construct cond s).1 s =
      analyzeCondition ctx construct cond s := by
  simp [analyzeCondition, cond.stable.expectType]

theorem analyzeVar_again (decl : VarDecl) :
    analyzeVar ctx (analyzeVar ctx decl s).1 s = analyzeVar ctx decl s := by
  obtain ⟨e, id, he, hout⟩ : ∃ e id, (decl.init.analyze ctx (resolveDeclared decl.ty s).1
      (resolveDeclared decl.ty s).2).1.1.Renoted e ∧
      (analyzeVar ctx decl s).1 = { decl with init := e, symbol := some id } := by
    simp only [analyzeVar, bind_apply]
    split_ifs <;> exact ⟨_, _, .typeVar _ _ _, rfl⟩
  rw [hout]
  simp [analyzeVar, decl.init.stable he]

theorem analyzeRange_again (first last : Expr) :
    analyzeRange ctx (analyzeRange ctx first last s).1.1 (analyzeRange ctx first last s).1.2.1 s =
      analyzeRange ctx first last s := by
  obtain ⟨hfirst, hlast⟩ :
      (first.analyze ctx none s).1.1.Renoted (analyzeRange ctx first last s).1.1 ∧
      (last.analyze ctx none (first.analyze ctx none s).2).1.1.Renoted
        (analyzeRange ctx first last s).1.2.1 := by
    simp only [analyzeRange, bind_apply]
    generalize first.analyze ctx none s = p
    generalize last.analyze ctx none p.2 = q
    split_ifs
    · exact ⟨.refl _, .refl _⟩
    · cases (p.1.2.join? q.1.2).filter Ty.isIntegral with
      | some ty => exact ⟨.widenTo _ _, .widenTo _ _⟩
      | none => exact ⟨.refl _, .refl _⟩
  generalize (analyzeRange ctx first last s).1 = out at hfirst hlast ⊢
  simp [analyzeRange, first.stable hfirst, last.stable hlast]

theorem analyzeReturn_again (span : Span) (value : Option Expr) :
    analyzeReturn ctx span (analyzeReturn ctx span value s).1 s =
      analyzeReturn ctx span value s := by
  by_cases hmain : ctx.function = FnId.main
  · cases value with
    | none => simp [analyzeReturn, hmain]
    | some value => simp [analyzeReturn, hmain, value.stable.again]
  · cases value with
    | none =>
      have hout : (analyzeReturn ctx span none s).1 = none := by
        simp only [analyzeReturn, if_neg hmain, bind_apply]
        split_ifs <;> rfl
      rw [hout]
    | some value =>
      obtain ⟨e, he, hout⟩ : ∃ e, (value.analyze ctx (some (((s.functions[ctx.function]?).map
          FunctionInfo.ret).getD .error)) s).1.1.Renoted e ∧
          (analyzeReturn ctx span (some value) s).1 = some e := by
        simp only [analyzeReturn, if_neg hmain, bind_apply]
        split_ifs
        · exact ⟨_, .refl _, rfl⟩
        · exact ⟨_, .expectType _ _ _ _, rfl⟩
      rw [hout]
      simp [analyzeReturn, hmain, value.stable he]

theorem analyzeAssignedName_again (span : Span) (ref : NameRef) :
    analyzeAssignedName ctx span (analyzeAssignedName ctx span ref s).1.1 =
      analyzeAssignedName ctx span ref := by
  have hname : Returns (fun x => x.1.name = ref.name) (analyzeAssignedName ctx span ref) := by
    refine .andThen fun found => ?_
    obtain _ | ⟨binding, _ | symbol⟩ := found
    · exact .andThen fun _ => .pure rfl
    · exact .pure rfl
    · dsimp only
      cases assignProblem? ctx symbol with
      | some problem => exact .andThen fun _ => .pure rfl
      | none => exact .pure rfl
  have hsame : (analyzeAssignedName ctx span ref s).1.1.name = ref.name := hname s
  generalize (analyzeAssignedName ctx span ref s).1.1 = ref' at hsame ⊢
  simp only [analyzeAssignedName, hsame]

/-- The parts of an array or of a record are assigned to where they are found. -/
theorem analyzeTarget_place (h : e.form = .index ∨ e.form = .field) :
    analyzeTarget ctx e = e.analyze ctx none := by
  cases e with
  | index | field => rfl
  | _ => rcases h with h | h <;> cases h

theorem analyzeTarget_other (hname : e.form ≠ .name)
    (hplace : ¬ (e.form = .index ∨ e.form = .field)) : analyzeTarget ctx e = (do
      report .invalidAssignment "invalid assignment target" e.span .assignment
      let found ← e.analyze ctx none
      return (found.1, .error)) := by
  cases e with
  | name => exact absurd rfl hname
  | index => exact absurd (.inl rfl) hplace
  | field => exact absurd (.inr rfl) hplace
  | _ => rfl

theorem analyzeTarget_again (target : Expr) :
    analyzeTarget ctx (analyzeTarget ctx target s).1.1 s = analyzeTarget ctx target s := by
  by_cases hname : target.form = .name
  · cases target with
    | name note ref => simp [analyzeTarget, analyzeAssignedName_again]
    | _ => cases hname
  · have hform (s) : (target.analyze ctx none s).1.1.form = target.form :=
      (target.analyze_form none s).1
    have hspan (s) : (target.analyze ctx none s).1.1.span = target.span :=
      (target.analyze_form none s).2
    by_cases hplace : target.form = .index ∨ target.form = .field
    · simp [analyzeTarget_place hplace, analyzeTarget_place (e := (target.analyze ctx none s).1.1)
        (by rwa [hform]), target.stable.again]
    · simp only [analyzeTarget_other hname hplace, bind_apply, pure_apply]
      rw [analyzeTarget_other (by rwa [hform]) (by rwa [hform])]
      simp [hspan, target.stable.again]

theorem analyzeAssign_again (target value : Expr) :
    analyzeAssign ctx (analyzeAssign ctx target value s).1.1
        (analyzeAssign ctx target value s).1.2 s =
      analyzeAssign ctx target value s := by
  simp [analyzeAssign, analyzeTarget_again, value.stable.expectType]

/-! ## Functions -/

theorem resolveParams_eq (params : List Param) :
    params.mapM (fun p => resolveValueType p.ty) = (params.map Param.ty).mapM resolveValueType := by
  induction params with
  | nil => rfl
  | cons param params ih => rw [map_cons, mapM_cons, mapM_cons, ih]

theorem FunctionHead.Alike.registerFunction {head head' : FunctionHead} (h : head.Alike head')
    (parent : Option FnId) (decl : DeclId) :
    registerFunction head' parent decl = registerFunction head parent decl := by
  unfold StackCompiler.registerFunction
  rw [resolveParams_eq, resolveParams_eq, h.types, h.ret, h.name, h.span]

theorem declareParams_again (id : FnId) (params : List Param) (types : List Ty) :
    declareParams id (declareParams id params types s).1 types s =
      declareParams id params types s := by
  induction params generalizing s types with
  | nil => rfl
  | cons param params ih => simp [declareParams, ih]

theorem beginFunction_again (id : FnId) (head : FunctionHead) :
    beginFunction id (beginFunction id head s).1 s = beginFunction id head s := by
  simp [beginFunction, declareParams_again]

/-! ## Statements -/

/-- Two statements look the same from outside. -/
structure Stmt.Alike (stmt stmt' : Stmt) : Prop where
  isFunction : stmt'.isFunction = stmt.isFunction
  span : stmt'.span = stmt.span
  register : ∀ parent, registerStmt parent stmt' = registerStmt parent stmt

theorem Stmt.Alike.warn {stmt stmt' : Stmt} (h : stmt.Alike stmt') :
    warnUnreachable stmt' = warnUnreachable stmt := by
  rw [warnUnreachable, warnUnreachable, h.span]

theorem Stmt.analyze_alike (stmt : Stmt) (ctx : Context) (id? : Option FnId) :
    Returns (fun x => stmt.Alike x.1) (stmt.analyze ctx id?) := by
  cases stmt with
  | var decl =>
    have hspan : Returns (fun decl' => decl'.span = decl.span) (analyzeVar ctx decl) := by
      refine .andThen fun _ => .andThen fun _ => .andThen fun _ => .andThen fun isGlobal =>
        .andThen fun _ => ?_
      dsimp only
      split_ifs <;> exact fun _ => rfl
    exact fun s => ⟨rfl, hspan s, fun _ => rfl⟩
  | function head body =>
    rw [analyze]
    refine .andThen fun id => .bind (beginFunction_alike id head) fun head' hhead => ?_
    have halike := hhead.1
    refine fun _ => ⟨rfl, halike.span, fun parent => ?_⟩
    show (do return some (← registerFunction head' (some parent) (← freshDecl))) = _
    simp only [halike.registerFunction]
    rfl
  | branch span cond yes no => cases no <;> exact fun _ => ⟨rfl, rfl, fun _ => rfl⟩
  | leave span | next span =>
    rw [analyze]
    split_ifs <;> exact fun _ => ⟨rfl, rfl, fun _ => rfl⟩
  | expr value => exact fun s => ⟨rfl, (value.analyze_form none s).2, fun _ => rfl⟩
  | _ => exact fun _ => ⟨rfl, rfl, fun _ => rfl⟩

theorem Stmt.analyzeList_alike (ctx : Context) (flow : Flow) (warned : Bool)
    (ids : List (Option FnId)) (stmts : List Stmt) :
    Returns (fun x => List.Forall₂ Alike stmts x.1) (analyzeList ctx flow warned ids stmts) := by
  induction stmts generalizing flow warned ids with
  | nil =>
    rw [analyzeList]
    exact .pure .nil
  | cons stmt stmts ih =>
    rw [analyzeList]
    split_ifs
    · exact .andThen fun _ => .bind (stmt.analyze_alike ctx _) fun _ hstmt =>
        .bind (ih _ _ _) fun _ hrest => .pure (.cons hstmt hrest)
    · exact .bind (stmt.analyze_alike ctx _) fun _ hstmt =>
        .bind (ih _ _ _) fun _ hrest => .pure (.cons hstmt hrest)

theorem beginBody_alike {body body' : List Stmt} (h : List.Forall₂ Alike body body')
    (parent : FnId) : beginBody parent body' = beginBody parent body := by
  have hmap : body'.mapM (registerStmt parent) = body.mapM (registerStmt parent) := by
    induction h with
    | nil => rfl
    | cons hstmt _ ih => rw [mapM_cons, mapM_cons, ih, hstmt.register]
  unfold beginBody
  rw [hmap]

/-- Analysing the outcome again, from the same state, ends as before, if its number is known. -/
def Stmt.Stable (stmt : Stmt) : Prop :=
  ∀ ⦃ctx id? s⦄, stmt.isFunction = Option.isSome id? →
    (stmt.analyze ctx id? s).1.1.analyze ctx id? s = stmt.analyze ctx id? s

theorem Stmt.analyzeList_again {flow : Flow} {warned : Bool} {ids : List (Option FnId)}
    {stmts : List Stmt} (hstmts : ∀ stmt ∈ stmts, stmt.Stable)
    (hids : List.Forall₂ (fun stmt id? => stmt.isFunction = Option.isSome id?) stmts ids) :
    analyzeList ctx flow warned ids (analyzeList ctx flow warned ids stmts s).1.1 s =
      analyzeList ctx flow warned ids stmts s := by
  induction hids generalizing s flow warned with
  | nil => rfl
  | @cons stmt id? stmts ids hid _ ih =>
    obtain ⟨hstmt, hstmts⟩ := forall_mem_cons.mp hstmts
    have halike := fun s => stmt.analyze_alike ctx id? s
    by_cases hwarns : (!flow.completes && !warned && !stmt.isFunction) = true
    · simp [analyzeList, hwarns, (halike _).isFunction, (halike _).warn, hstmt hid, ih hstmts]
    · simp [analyzeList, hwarns, (halike _).isFunction, hstmt hid, ih hstmts]

theorem analyzeSingle_again {stmt : Stmt} (h : stmt.Stable) (parent : FnId) (ctx : Context) :
    beginBody parent [(stmt.analyze ctx (beginBody parent [stmt] s).1.head?.join
        (beginBody parent [stmt] s).2).1.1] = beginBody parent [stmt] ∧
      (stmt.analyze ctx (beginBody parent [stmt] s).1.head?.join
          (beginBody parent [stmt] s).2).1.1.analyze
        ctx (beginBody parent [stmt] s).1.head?.join (beginBody parent [stmt] s).2 =
      stmt.analyze ctx (beginBody parent [stmt] s).1.head?.join (beginBody parent [stmt] s).2 := by
  refine ⟨beginBody_alike (.cons (stmt.analyze_alike _ _ _) .nil) _, ?_⟩
  rcases hbody : beginBody parent [stmt] s with ⟨ids, s1⟩
  obtain ⟨-, hforall, -⟩ := beginBody_eq hbody
  obtain _ | ⟨hid, -⟩ := hforall
  exact h hid

theorem analyzeBody_again {body : List Stmt} (h : ∀ stmt ∈ body, stmt.Stable) (parent : FnId)
    (ctx : Context) :
    beginBody parent (analyzeList ctx .normal false (beginBody parent body s).1 body
        (beginBody parent body s).2).1.1 = beginBody parent body ∧
      analyzeList ctx .normal false (beginBody parent body s).1
        (analyzeList ctx .normal false (beginBody parent body s).1 body
          (beginBody parent body s).2).1.1 (beginBody parent body s).2 =
      analyzeList ctx .normal false (beginBody parent body s).1 body (beginBody parent body s).2 :=
  ⟨beginBody_alike (analyzeList_alike _ _ _ _ _ _) _,
    analyzeList_again h (beginBody_eq (rfl : beginBody parent body s = _)).2.1⟩

/-- **A statement can be analysed again.** -/
theorem Stmt.stable (stmt : Stmt) : stmt.Stable := by
  induction stmt with
  | var decl =>
    intro ctx id? s _
    simp [analyze, analyzeVar_again]
  | function head body ih =>
    intro ctx id? s hid
    obtain ⟨id, rfl⟩ := Option.isSome_iff_exists.mp hid.symm
    simp [analyze, functionId, beginFunction_again, analyzeBody_again ih]
  | block span body ih =>
    intro ctx id? s _
    simp [analyze, analyzeBody_again ih]
  | branch span cond yes no ihyes ihno =>
    intro ctx id? s _
    cases no with
    | none => simp [analyze, analyzeCondition_again, analyzeSingle_again ihyes]
    | some no =>
      simp [analyze, analyzeCondition_again, analyzeSingle_again ihyes,
        analyzeSingle_again (ihno no rfl)]
  | loop span cond body ih =>
    intro ctx id? s _
    simp [analyze, analyzeCondition_again, analyzeSingle_again ih]
  | range span loopVar first last body ih =>
    intro ctx id? s _
    simp [analyze, analyzeRange_again, analyzeSingle_again ih]
  | ret span value =>
    intro ctx id? s _
    simp [analyze, analyzeReturn_again]
  | leave span | next span =>
    intro ctx id? s _
    rw [analyze]
    split_ifs <;> simp [analyze, *]
  | assign span target value =>
    intro ctx id? s _
    simp [analyze, analyzeAssign_again]
  | expr value =>
    intro ctx id? s _
    simp [analyze, value.stable.again]

/-! ## Units -/

theorem declareRecord_again (index : Nat) (record : RecordDecl) :
    declareRecord index (declareRecord index record s).1 s = declareRecord index record s :=
  rfl

theorem declareRecordNames_again (index : Nat)
    (h : List.Forall₂ Item.Alike (declareRecordNames index items s).1 items') :
    declareRecordNames index items' s = (items', (declareRecordNames index items s).2) := by
  induction items generalizing index s items' with
  | nil =>
    cases h
    rfl
  | cons item items ih =>
    cases item with
    | record record =>
      have hagain := declareRecord_again (s := s) index record
      simp only [declareRecordNames, bind_apply, pure_apply] at h ⊢
      generalize declareRecord index record s = r at h hagain ⊢
      obtain _ | ⟨hitem, hrest⟩ := h
      cases hitem
      simp [declareRecordNames, hagain, ih _ hrest]
    | function f | stmt stmt =>
      obtain _ | ⟨hitem, hrest⟩ := h
      cases hitem
      simp [declareRecordNames, ih _ hrest]

theorem forM_alike {step : Item → Analyze Unit}
    (hstep : ∀ item item', Item.Alike item item' → step item' = step item)
    (h : List.Forall₂ Item.Alike items items') : items'.forM step = items.forM step := by
  induction h with
  | nil => rfl
  | @cons item item' items items' hitem _ ih =>
    show (do step item'; items'.forM step) = _
    rw [ih, hstep _ _ hitem]
    rfl

theorem declareRecords_again (h : List.Forall₂ Item.Alike (declareRecords items s).1 items') :
    declareRecords items' s = (items', (declareRecords items s).2) := by
  simp only [declareRecords, bind_apply, pure_apply] at h ⊢
  rw [declareRecordNames_again 0 h]
  dsimp only
  rw [forM_alike ?_ h]
  intro item item' hitem
  cases hitem <;> rfl

theorem registerItems_alike (h : List.Forall₂ Item.Alike items items') (index : Nat) :
    registerItems index items' = registerItems index items := by
  induction h generalizing index with
  | nil => rfl
  | cons hitem _ ih =>
    cases hitem with
    | function hf =>
      rw [registerItems, registerItems, ih]
      simp only [hf.registerFunction]
    | record record | stmt stmt stmt' =>
      show (do return none :: (← registerItems (index + 1) _)) = _
      rw [ih]
      rfl

theorem registerItems_numbers (index : Nat) (items : List Item) : Returns
      (List.Forall₂ (fun item id? => ∀ f, item = .function f → Option.isSome id? = true) items)
      (registerItems index items) := by
  induction items generalizing index with
  | nil => exact .pure .nil
  | cons item items ih =>
    cases item with
    | function f =>
      exact .andThen fun _ => .andThen fun id => .bind (ih _) fun _ hrest =>
        .pure (.cons (fun _ _ => rfl) hrest)
    | record record | stmt stmt =>
      exact .bind (ih _) fun _ hrest => .pure (.cons (fun _ hf => by cases hf) hrest)

theorem analyzeFunction_again (id : FnId) (f : FunctionDecl) :
    analyzeFunction (some id) (analyzeFunction (some id) f s).1 s =
      analyzeFunction (some id) f s := by
  have hbody := fun s => analyzeBody_again (s := s) fun stmt (_ : stmt ∈ f.body) => stmt.stable
  simp [analyzeFunction, functionId, beginFunction_again, hbody]

theorem analyzeItems_again {flow : Flow} {warned : Bool} {ids : List (Option FnId)}
    (hplain : ∀ item ∈ items, item.Plain)
    (hids : List.Forall₂ (fun item id? => ∀ f, item = .function f → Option.isSome id? = true)
      items ids) : analyzeItems flow warned ids (analyzeItems flow warned ids items s).1 s =
      analyzeItems flow warned ids items s := by
  induction hids generalizing s flow warned with
  | nil => rfl
  | @cons item id? items ids hid _ ih =>
    obtain ⟨hitem, hothers⟩ := forall_mem_cons.mp hplain
    cases item with
    | record record => simp [analyzeItems, ih hothers]
    | function f =>
      obtain ⟨id, rfl⟩ := Option.isSome_iff_exists.mp (hid f rfl)
      simp [analyzeItems, analyzeFunction_again, ih hothers]
    | stmt stmt =>
      have hwarn (s) := (stmt.analyze_alike ⟨FnId.main, false⟩ none s).warn
      have hstable (s) := @stable stmt ⟨FnId.main, false⟩ none s hitem
      by_cases hwarns : (!flow.completes && !warned) = true
      · simp [analyzeItems, hwarns, hwarn, hstable, ih hothers]
      · simp [analyzeItems, hwarns, hstable, ih hothers]

theorem analyzeAll_items_again {e : ExportTable} (hplain : ∀ item ∈ items, item.Plain) :
    (analyzeAll e items s).1.length = items.length ∧
      analyzeAll e (analyzeAll e items s).1 s = analyzeAll e items s := by
  simp only [analyzeAll, bind_apply, pure_apply]
  generalize (openScope .unit _).2 = s1
  obtain ⟨hlength, -, hplain'⟩ := declareRecords_items items s1
  have hnumbers := registerItems_numbers 0 (declareRecords items s1).1 (declareRecords items s1).2
  have halike := fun s => (analyzeItems_alike .normal false
    (registerItems 0 (declareRecords items s1).1 (declareRecords items s1).2).1
    (declareRecords items s1).1 s).1
  refine ⟨(halike _).length_eq.symm.trans hlength, ?_⟩
  rw [declareRecords_again (halike _), registerItems_alike (halike _)]
  simp [analyzeItems_again (hplain' hplain) hnumbers]

/-- **A unit that has been analysed can be analysed again**, with the same number and the same
exports. The unit stays as the first analysis left it, and everything that is known of it is the
same, reports included. -/
theorem SourceUnit.analyze_again {name : String} {tree : ParseTree} {unit : SourceUnit}
    (h : SourceUnit.ofTree name tree = .ok unit) (index : Nat) (exports : ExportTable) :
    (unit.analyze index exports).1.analyze index exports = unit.analyze index exports := by
  obtain ⟨⟨items, s⟩, hrun⟩ : ∃ r, analyzeAll exports unit.items (.start unit index) = r := ⟨_, rfl⟩
  have hall := analyzeAll_items_again (s := .start unit index) (e := exports)
    (SourceUnit.ofTree_plain h)
  rw [hrun] at hall
  obtain ⟨hlength, hagain⟩ := hall
  have hstart : AnalysisState.start { unit with items := items } index = .start unit index := by
    simp only [AnalysisState.start, hlength]
  simp only [SourceUnit.analyze, StateT.run, hrun, hstart, hagain]

/-- The text `var x: long = 1 + y;`, in which `y` is not declared. -/
def undeclaredTree : ParseTree :=
  let leaf (kind : TokenKind) : ParseTree := .leaf ⟨kind, .nowhere⟩
  .node .unit .nowhere [.node .varDecl .nowhere [leaf (.keyword .var), leaf (.ident "x"),
    .node .type .nowhere [leaf (.ident "long")],
    .node .binary .nowhere [.node .literal .nowhere [leaf (.intLit 1)], leaf (.punct .plus),
      .node .name .nowhere [leaf (.ident "y")]]]]

theorem undeclared_again : ∃ unit, SourceUnit.ofTree "a" undeclaredTree = .ok unit ∧
    (unit.analyze 0 .empty).2.diagnostics.length = 1 ∧
    (unit.analyze 0 .empty).1.analyze 0 .empty = unit.analyze 0 .empty := by
  obtain ⟨unit, hunit⟩ : ∃ unit, SourceUnit.ofTree "a" undeclaredTree = .ok unit := ⟨_, rfl⟩
  refine ⟨unit, hunit, ?_, SourceUnit.analyze_again hunit 0 .empty⟩
  cases hunit
  decide +kernel

end StackCompiler

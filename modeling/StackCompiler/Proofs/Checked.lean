import StackCompiler.Proofs.Typed

/-!
# Checked statements

What an analysed statement says if nothing is wrong with the unit: its expressions are typed, its
variables are declared where they are used, loops are around what leaves them, and functions that
have a result do not end without one.

* `Stmt.Checked`, `Stmt.CheckedAll`: statements with nothing wrong in them.
-/

namespace StackCompiler

open Stmt

/-! ## Declarations -/

def FunctionHead.paramIds (head : FunctionHead) : List SymbolId :=
    head.params.filterMap Param.symbol

/-- The variables that a statement declares in the scope around it. -/
def Stmt.own : Stmt → List SymbolId
  | .var decl => decl.symbol.toList
  | _ => []

def Stmt.ownAll (stmts : List Stmt) : List SymbolId := stmts.flatMap Stmt.own

def Stmt.id? : Stmt → Option FnId
  | .function head _ => head.id
  | _ => none

def Stmt.idAll (stmts : List Stmt) : List FnId := stmts.filterMap id?

mutual

/-- All variables that are declared in a statement, those of functions inside of it too. -/
def Stmt.declared : Stmt → List SymbolId
  | .var decl => decl.symbol.toList
  | .function head body => head.paramIds ++ declaredAll body
  | .block _ body => declaredAll body
  | .branch _ _ yes none => yes.declared
  | .branch _ _ yes (some no) => yes.declared ++ no.declared
  | .loop _ _ body => body.declared
  | .range _ loopVar _ _ body => loopVar.symbol.toList ++ body.declared
  | .ret .. | .leave _ | .next _ | .assign .. | .expr _ => []

def Stmt.declaredAll : List Stmt → List SymbolId
  | [] => []
  | stmt :: rest => stmt.declared ++ declaredAll rest

end

mutual

/-- The functions inside of a statement, apart from itself, each with the variables around it. -/
def Stmt.homes (whole : List SymbolId) : Stmt → List (FnId × List SymbolId)
  | .function head body =>
    let inner := whole ++ head.paramIds ++ ownAll body
    (idAll body).map (·, inner) ++ homesAll inner body
  | .block _ body =>
    let inner := whole ++ ownAll body
    (idAll body).map (·, inner) ++ homesAll inner body
  | .branch _ _ yes none =>
    let inner := whole ++ yes.own
    yes.id?.toList.map (·, inner) ++ yes.homes inner
  | .branch _ _ yes (some no) =>
    let inner := whole ++ yes.own
    let inner' := whole ++ no.own
    (yes.id?.toList.map (·, inner) ++ yes.homes inner) ++
      (no.id?.toList.map (·, inner') ++ no.homes inner')
  | .loop _ _ body =>
    let inner := whole ++ body.own
    body.id?.toList.map (·, inner) ++ body.homes inner
  | .range _ loopVar _ _ body =>
    let inner := whole ++ loopVar.symbol.toList ++ body.own
    body.id?.toList.map (·, inner) ++ body.homes inner
  | .var _ | .ret .. | .leave _ | .next _ | .assign .. | .expr _ => []

def Stmt.homesAll (whole : List SymbolId) : List Stmt → List (FnId × List SymbolId)
  | [] => []
  | stmt :: rest => stmt.homes whole ++ homesAll whole rest

end

/-! ## Places -/

/-- Where in a unit a statement stands. -/
structure Place where
  function : FnId
  inLoop : Bool
  /-- The variables of the scopes around that have been declared. -/
  known : List SymbolId
  /-- All variables of the scopes around, those declared later too. -/
  whole : List SymbolId

namespace Place

def after (c : Place) (stmt : Stmt) : Place := { c with known := c.known ++ stmt.own }

def scope (c : Place) (own : List SymbolId) : Place := { c with whole := c.whole ++ own }

def loop (c : Place) : Place := { c with inLoop := true }

def starting (c : Place) (ids : List SymbolId) : Place :=
  { c with known := c.known ++ ids, whole := c.whole ++ ids }

def inside (c : Place) (id : FnId) : Place := { c with function := id, inLoop := false }

end Place

/-! ## How statements end -/

mutual

def Stmt.flow : Stmt → Flow
  | .block _ body => flowAll body
  | .branch _ _ yes none => yes.flow.orElse .normal
  | .branch _ _ yes (some no) => yes.flow.orElse no.flow
  | .loop _ cond body => ⟨!cond.isTrueLiteral || body.flow.breaks, false⟩
  | .leave _ => ⟨false, true⟩
  | .ret .. | .next _ => .stop
  | .var _ | .function .. | .range .. | .assign .. | .expr _ => .normal

def Stmt.flowAll : List Stmt → Flow
  | [] => .normal
  | stmt :: rest => stmt.flow.andThen (flowAll rest)

end

theorem Flow.andThen_assoc (a b c : Flow) : (a.andThen b).andThen c = a.andThen (b.andThen c) := by
  obtain ⟨ac, ab⟩ := a
  obtain ⟨bc, bb⟩ := b
  cases ac <;> cases ab <;> cases bc <;> cases bb <;> rfl

theorem Flow.normal_andThen (a : Flow) : Flow.normal.andThen a = a := by
  obtain ⟨ac, ab⟩ := a
  cases ab <;> rfl

theorem Flow.andThen_normal (a : Flow) : a.andThen .normal = a := by
  obtain ⟨ac, ab⟩ := a
  cases ac <;> cases ab <;> rfl

/-! ## Statements -/

def VarDecl.Checked (v : View) (c : Place) (decl : VarDecl) : Prop :=
  ∃ id symbol, decl.symbol = some id ∧ v.symbol id = some symbol ∧ symbol.kind = .variable_ ∧
    (symbol.owner = none ∨ symbol.owner = some c.function) ∧ decl.init.Typed v symbol.ty

/-- The expression names a place of a type that the function can assign to. -/
def Expr.Assignable (v : View) (c : Place) : Expr → Ty → Prop
  | .name _ ref, ty => ∃ binding symbol, ref.binding = some binding ∧
      v.symbol binding.symbol = some symbol ∧ symbol.kind = .variable_ ∧ symbol.ty = ty ∧
      binding.symbol ∈ c.known ∧ (symbol.owner = none ∨ symbol.owner = some c.function)
  | .index note base position, ty => (Expr.index note base position).HasTy v ty
  | .field note base ident position, ty => (Expr.field note base ident position).HasTy v ty
  | _, _ => False

def Param.Checked (v : View) (id : FnId) (param : Param) (ty : Ty) : Prop :=
  ∃ x symbol, param.symbol = some x ∧ v.symbol x = some symbol ∧ symbol.kind = .parameter ∧
    symbol.owner = some id ∧ symbol.ty = ty

/-- What holds of the value of a return statement. -/
def Expr.Returned (v : View) (ret : Ty) : Option Expr → Prop
  | none => ret = .void
  | some value => ret ≠ .void ∧ value.Typed v ret

mutual

/-- A statement with nothing wrong in it; `J` tells what can be seen from each place. -/
def Stmt.Checked (J : Place → View) (c : Place) : Stmt → Prop
  | .var decl => decl.Checked (J c) c
  | .function head body => ∃ id params ret, head.id = some id ∧
      (J c).signature id = some (params, ret) ∧
      List.Forall₂ (Param.Checked (J c) id) head.params params ∧
      (∀ x ∈ c.whole, ∀ symbol, (J c).symbol x = some symbol → symbol.owner ≠ some id) ∧
      CheckedAll J (((c.inside id).starting head.paramIds).scope (ownAll body)) body ∧
      (ret = .void ∨ (flowAll body).completes = false)
  | .block _ body => CheckedAll J (c.scope (ownAll body)) body
  | .branch _ cond yes none => cond.Typed (J c) .bool ∧ yes.Checked J (c.scope yes.own)
  | .branch _ cond yes (some no) => cond.Typed (J c) .bool ∧ yes.Checked J (c.scope yes.own) ∧
      no.Checked J (c.scope no.own)
  | .loop _ cond body => cond.Typed (J c) .bool ∧ body.Checked J (c.scope body.own).loop
  | .range _ loopVar first last body => ∃ id symbol, loopVar.symbol = some id ∧
      (J c).symbol id = some symbol ∧ symbol.kind = .loopVariable ∧
      symbol.owner = some c.function ∧ symbol.ty.isIntegral = true ∧
      first.Typed (J c) symbol.ty ∧ last.Typed (J c) symbol.ty ∧
      body.Checked J ((c.starting [id]).scope body.own).loop
  | .ret _ value => c.function ≠ FnId.main ∧ ∃ params ret,
      (J c).signature c.function = some (params, ret) ∧ Expr.Returned (J c) ret value
  | .leave _ | .next _ => c.inLoop = true
  | .assign _ target value => ∃ ty, target.Assignable (J c) c ty ∧ value.Typed (J c) ty
  | .expr value => ∃ ty, value.Typed (J c) ty

def Stmt.CheckedAll (J : Place → View) (c : Place) : List Stmt → Prop
  | [] => True
  | stmt :: rest => stmt.Checked J c ∧ CheckedAll J (c.after stmt) rest

end

/-! ## Seeing more -/

section Mono

variable {J J' : Place → View} {v v' : View} {c : Place}

theorem VarDecl.Checked.mono (hv : v.Within v') {decl : VarDecl} (h : decl.Checked v c) :
    decl.Checked v' c := by
  obtain ⟨id, symbol, hid, hsymbol, hkind, howner, hinit⟩ := h
  exact ⟨id, symbol, hid, hv.symbol ▸ hsymbol, hkind, howner, hinit.mono hv⟩

theorem Expr.Assignable.mono (hv : v.Within v') {target : Expr} {ty : Ty}
    (h : target.Assignable v c ty) : target.Assignable v' c ty := by
  cases target with
  | name note ref =>
    obtain ⟨binding, symbol, hbinding, hsymbol, hrest⟩ := h
    exact ⟨binding, symbol, hbinding, hv.symbol ▸ hsymbol, hrest⟩
  | index note base position => exact Expr.HasTy.mono hv h
  | field note base ident position => exact Expr.HasTy.mono hv h
  | _ => exact h

theorem Param.Checked.mono (hv : v.Within v') {id : FnId} {param : Param} {ty : Ty}
    (h : param.Checked v id ty) : param.Checked v' id ty := by
  obtain ⟨x, symbol, hx, hsymbol, hrest⟩ := h
  exact ⟨x, symbol, hx, hv.symbol ▸ hsymbol, hrest⟩

theorem Expr.Returned.mono (hv : v.Within v') {ret : Ty} {value : Option Expr}
    (h : Expr.Returned v ret value) : Expr.Returned v' ret value := by
  cases value with
  | none => exact h
  | some value => exact ⟨h.1, h.2.mono hv⟩

theorem Stmt.CheckedAll.mono_of {stmts : List Stmt}
    (hstmts : ∀ stmt ∈ stmts, ∀ c, stmt.Checked J c → stmt.Checked J' c)
    (h : CheckedAll J c stmts) : CheckedAll J' c stmts := by
  induction stmts generalizing c with
  | nil => trivial
  | cons stmt stmts ih =>
    obtain ⟨hstmts0, hothers⟩ := List.forall_mem_cons.mp hstmts
    exact ⟨hstmts0 c h.1, ih hothers h.2⟩

theorem Stmt.Checked.mono (hJ : ∀ c, (J c).Within (J' c)) {stmt : Stmt} (h : stmt.Checked J c) :
    stmt.Checked J' c := by
  induction stmt generalizing c with
  | var decl => exact VarDecl.Checked.mono (hJ c) h
  | function head body ih =>
    obtain ⟨id, params, ret, hid, hsig, hparams, houter, hbody, hends⟩ := h
    refine ⟨id, params, ret, hid, (hJ c).signature ▸ hsig,
      hparams.imp fun _ _ hp => hp.mono (hJ c), fun x hx symbol hsymbol => houter x hx symbol ?_,
      CheckedAll.mono_of (fun stmt hstmt _ => ih stmt hstmt) hbody, hends⟩
    rwa [(hJ c).symbol] at hsymbol
  | block span body ih => exact CheckedAll.mono_of (fun stmt hstmt _ => ih stmt hstmt) h
  | branch span cond yes no ihyes ihno =>
    cases no with
    | none => exact ⟨h.1.mono (hJ c), ihyes h.2⟩
    | some no => exact ⟨h.1.mono (hJ c), ihyes h.2.1, ihno no rfl h.2.2⟩
  | loop span cond body ih => exact ⟨h.1.mono (hJ c), ih h.2⟩
  | range span loopVar first last body ih =>
    obtain ⟨id, symbol, hid, hsymbol, hkind, howner, hty, hfirst, hlast, hbody⟩ := h
    exact ⟨id, symbol, hid, (hJ c).symbol ▸ hsymbol, hkind, howner, hty, hfirst.mono (hJ c),
      hlast.mono (hJ c), ih hbody⟩
  | ret span value =>
    obtain ⟨hmain, params, ret, hsig, hvalue⟩ := h
    exact ⟨hmain, params, ret, (hJ c).signature ▸ hsig, hvalue.mono (hJ c)⟩
  | leave span | next span => exact h
  | assign span target value =>
    obtain ⟨ty, htarget, hvalue⟩ := h
    exact ⟨ty, htarget.mono (hJ c), hvalue.mono (hJ c)⟩
  | expr value =>
    obtain ⟨ty, hvalue⟩ := h
    exact ⟨ty, hvalue.mono (hJ c)⟩

theorem Stmt.CheckedAll.mono (hJ : ∀ c, (J c).Within (J' c)) {stmts : List Stmt}
    (h : CheckedAll J c stmts) : CheckedAll J' c stmts :=
  h.mono_of fun _ _ _ => Checked.mono hJ

end Mono

end StackCompiler

import StackCompiler.Proofs.Typed

/-!
# Annotated syntax trees

Nothing is missing from the notes that the analysis leaves, and what they say fits together.
-/

namespace StackCompiler

variable {e : Expr} {es : List Expr} {ty : Ty} {v : View} {a : Analysis}

/-! ## Expressions -/

/-- What an expression has to do with others and with what is declared is settled. -/
def Expr.Resolved (a : Analysis) : Expr → Prop
  | .name _ ref => ∃ binding symbol, ref.binding = some binding ∧
      a.symbols[binding.symbol]? = some symbol ∧ symbol.name = ref.name ∧
      symbol.depth = binding.depth
  | .call _ _ _ none => False
  | .call _ _ args (some (.function id)) => ∃ info, a.functions[id]? = some info ∧
      List.Forall₂ (fun arg ty => arg.resultTy? = some ty) args info.params
  | .call _ _ args (some (.constructor decl)) => ∃ info, a.record? decl = some info ∧
      List.Forall₂ (fun arg ty => arg.resultTy? = some ty) args info.fieldTypes
  | .field _ base ident position? => ∃ decl name info position ty,
      base.ty? = some (.record decl name) ∧ a.record? decl = some info ∧
      position? = some position ∧ info.fields[position]? = some (ident.name, ty)
  | .binary _ op left right => op.isLogical = false → ∃ leftTy rightTy row,
      left.ty? = some leftTy ∧ right.ty? = some rightTy ∧
      binarySignature? op leftTy rightTy = some row ∧ left.resultTy? = some row.operand ∧
      right.resultTy? = some row.operand
  | .call _ _ _ (some (.builtin _)) | .literal .. | .unary .. | .index .. | .array ..
  | .newArray .. | .cast .. => True

/-- Nothing is missing from the notes of an expression. -/
structure Expr.Annotated (a : Analysis) (e : Expr) : Prop where
  typed : ∃ ty, e.ty? = some ty ∧ ty.containsError = false
  widens : ∀ ty c, e.ty? = some ty → e.note.coercion = some c → ty.widensTo c = true
  resolved : e.Resolved a

/-- Numbers are natural, operands of unary operators are not widened, and calls are of names. -/
def Expr.Regular : Expr → Prop
  | .literal _ value => value.Natural
  | .unary _ _ operand => operand.note.coercion = none
  | .call _ callee _ _ => ∃ note ref, callee = .name note ref
  | _ => True

/-- Nothing is missing from the notes of an expression that is made of what can be typed. -/
structure Expr.Noted (a : Analysis) (e : Expr) : Prop extends e.Annotated a where
  regular : e.Regular

/-- What can be seen is in the analysis of the unit. -/
structure Analysis.Shows (a : Analysis) (v : View) : Prop where
  symbol : ∀ id symbol, v.symbol id = some symbol → a.symbols[id]? = some symbol
  signature : ∀ id params ret, v.signature id = some (params, ret) →
    ∃ info, a.functions[id]? = some info ∧ info.params = params
  record : ∀ decl info, v.record decl = some info → a.record? decl = some info

/-- Nothing is missing from the notes of an expression and of all expressions inside. -/
def Expr.Complete (v : View) (e : Expr) : Prop :=
  ∀ a : Analysis, a.Shows v → ∀ x ∈ e.subs, x.Noted a

theorem Expr.noted_of_unwidened (hty : e.note.ty = some ty) (hnone : e.note.coercion = none)
    (herror : ty.containsError = false) (h : e.Resolved a ∧ e.Regular) : e.Noted a :=
  ⟨⟨⟨ty, hty, herror⟩, fun _ _ _ hc => (by rw [hnone] at hc; cases hc), h.1⟩, h.2⟩

theorem Expr.subs_eq_cons (e : Expr) : e.subs = e :: e.subs.tail := by
  cases e <;> rw [Expr.subs] <;> rfl

theorem Expr.subs_withNote (e : Expr) (note : Note) :
    (e.withNote note).subs = e.withNote note :: e.subs.tail := by
  cases e <;> simp only [Expr.withNote, Expr.subs, List.tail_cons]

theorem Expr.complete_all (h : ∀ e ∈ es, e.Complete v) (ha : a.Shows v) :
    ∀ x ∈ Expr.subsAll es, x.Noted a := by
  intro x hx
  obtain ⟨e, he, hx⟩ := Expr.mem_subsAll.mp hx
  exact h e he a ha x hx

theorem View.Value.containsError : ∀ {ty : Ty}, v.Value ty → ty.containsError = false
  | .array elem, h => by
    rw [Ty.containsError]
    exact @containsError elem h
  | .int, _ | .long, _ | .float, _ | .double, _ | .bool, _ | .string, _ | .record .., _ => rfl
  | .void, h | .function .., h | .error, h => h.elim

theorem Ty.containsError_function {decl : DeclId} {params : List Ty} {ret : Ty}
    (hparams : ∀ ty ∈ params, v.Value ty) (hret : ret = .void ∨ v.Value ret) :
    (Ty.function decl params ret).containsError = false := by
  have hany : Ty.anyError params = false := by
    induction params with
    | nil => rfl
    | cons ty tys ih =>
      obtain ⟨hty, htys⟩ := List.forall_mem_cons.mp hparams
      rw [Ty.anyError, hty.containsError, ih htys]
      rfl
  have hret : ret.containsError = false := by
    rcases hret with rfl | hret
    · rfl
    · exact hret.containsError
  rw [Ty.containsError, hret, hany]
  rfl

/-! ## Declarations -/

inductive Declaration where
  | variable_ (decl : VarDecl)
  | parameter (param : Param)
  | loopVariable (loopVar : LoopVar)
  | function (head : FunctionHead)
  | record (decl : RecordDecl)

mutual

def Stmt.declarations : Stmt → List Declaration
  | .var decl => [.variable_ decl]
  | .function head body =>
    .function head :: (head.params.map .parameter ++ Stmt.declarationsAll body)
  | .block _ body => Stmt.declarationsAll body
  | .branch _ _ yes none => yes.declarations
  | .branch _ _ yes (some no) => yes.declarations ++ no.declarations
  | .loop _ _ body => body.declarations
  | .range _ loopVar _ _ body => .loopVariable loopVar :: body.declarations
  | .ret .. | .leave _ | .next _ | .assign .. | .expr _ => []

def Stmt.declarationsAll : List Stmt → List Declaration
  | [] => []
  | stmt :: rest => stmt.declarations ++ Stmt.declarationsAll rest

end

theorem Stmt.mem_declarationsAll {stmts : List Stmt} {d : Declaration} :
    d ∈ Stmt.declarationsAll stmts ↔ ∃ stmt ∈ stmts, d ∈ stmt.declarations := by
  induction stmts with
  | nil => simp [Stmt.declarationsAll]
  | cons stmt stmts ih => simp [Stmt.declarationsAll, ih]

def Item.declarations : Item → List Declaration
  | .function f => (Stmt.function f.head f.body).declarations
  | .record decl => [.record decl]
  | .stmt s => s.declarations

def SourceUnit.declarations (unit : SourceUnit) : List Declaration :=
  unit.items.flatMap Item.declarations

/-- A name is declared as a symbol of a kind. -/
def Analysis.Names (a : Analysis) (name : Ident) (id? : Option SymbolId) (kind : SymbolKind) :
    Prop :=
  ∃ id symbol, id? = some id ∧ a.symbols[id]? = some symbol ∧ symbol.name = name.name ∧
    symbol.kind = kind

/-- A declaration has the number of what the analysis knows by its name. -/
def Declaration.Annotated (a : Analysis) : Declaration → Prop
  | .variable_ decl => a.Names decl.name decl.symbol .variable_
  | .parameter param => a.Names param.name param.symbol .parameter
  | .loopVariable loopVar => a.Names loopVar.name loopVar.symbol .loopVariable
  | .function head => ∃ id info, head.id = some id ∧ a.functions[id]? = some info ∧
      info.name = head.name.name
  | .record decl => ∃ id info, decl.decl = some id ∧ a.record? id = some info ∧
      info.name = decl.name.name

/-! ## Statements -/

/-- Nothing is missing from the notes of some expressions and declarations. -/
def AllAnnotated (a : Analysis) (exprs : List Expr) (declarations : List Declaration) : Prop :=
  (∀ e ∈ exprs, e.Noted a) ∧ ∀ d ∈ declarations, d.Annotated a

theorem AllAnnotated.nil : AllAnnotated a [] [] := ⟨List.forall_mem_nil _, List.forall_mem_nil _⟩

theorem AllAnnotated.append {exprs exprs' : List Expr}
    {declarations declarations' : List Declaration}
    (h : AllAnnotated a exprs declarations) (h' : AllAnnotated a exprs' declarations') :
    AllAnnotated a (exprs ++ exprs') (declarations ++ declarations') :=
  ⟨List.forall_mem_append.mpr ⟨h.1, h'.1⟩, List.forall_mem_append.mpr ⟨h.2, h'.2⟩⟩

theorem Expr.Complete.annotated (h : e.Complete v) (ha : a.Shows v) : AllAnnotated a e.subs [] :=
  ⟨h a ha, List.forall_mem_nil _⟩

end StackCompiler

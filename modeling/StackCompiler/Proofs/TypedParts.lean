import StackCompiler.Proofs.Checked

/-!
# Expressions of checked statements

What stands in a checked statement is typed, and so are the parts of a typed expression. A fact
about all expressions of a unit follows from one about an expression with typed parts.

* `Expr.parts`, `Expr.induction_parts`: the parts of an expression that have types of their own;
* **`Expr.HasTy.parts`**, **`Stmt.CheckedAll.roots`**: they are typed.
-/

namespace StackCompiler

open List Stmt

variable {e : Expr} {ty : Ty} {v : View} {c : Place} {stmts : List Stmt}

/-! ## Parts of expressions -/

/-- The parts of an expression that have types of their own; what is called has none. -/
def Expr.parts : Expr → List Expr
  | .literal .. | .name .. => []
  | .binary _ _ left right | .index _ left right => [left, right]
  | .unary _ _ part | .field _ part _ _ | .newArray _ _ part | .cast _ part _ => [part]
  | .call _ _ parts _ | .array _ parts => parts

theorem Expr.induction_parts {motive : Expr → Prop}
    (step : ∀ e, (∀ x ∈ e.parts, motive x) → motive e) (e : Expr) : motive e := by
  induction e with
  | literal | name => exact step _ (forall_mem_nil _)
  | binary _ _ _ _ ihl ihr | index _ _ _ ihl ihr => exact step _ (by simp [parts, ihl, ihr])
  | unary _ _ _ ih | field _ _ _ _ ih | newArray _ _ _ ih | cast _ _ _ ih =>
    exact step _ (forall_mem_singleton.mpr ih)
  | call _ _ _ _ _ ih | array _ _ ih => exact step _ ih

/-- The parts of a typed expression are typed, but for the number that needs a minus. -/
theorem Expr.HasTy.parts (h : e.HasTy v ty) :
    ∀ x ∈ e.parts, (∃ ty, x.HasTy v ty) ∨ ∃ note, e = .unary note .neg x ∧ x.IsLeastInt := by
  have hlist {es : List Expr} {tys : List Ty} (h : Expr.HaveTys v es tys) {P : Expr → Prop} :
      ∀ x ∈ es, (∃ ty, x.HasTy v ty) ∨ P x := by
    induction Expr.haveTys_iff.mp h with
    | nil => exact forall_mem_nil _
    | cons hfirst hrest ih =>
      obtain ⟨source, -, he⟩ := hfirst
      exact forall_mem_cons.mpr ⟨.inl ⟨source, he⟩, ih (Expr.haveTys_iff.mpr hrest)⟩
  cases e with
  | literal | name => exact forall_mem_nil _
  | binary note op left right =>
    obtain ⟨operand, -, ⟨sl, -, hl⟩, ⟨sr, -, hr⟩⟩ := h
    simp [Expr.parts, Exists.intro sl hl, Exists.intro sr hr]
  | unary note op operand =>
    refine forall_mem_singleton.mpr ?_
    cases op with
    | not =>
      obtain ⟨-, source, -, ho⟩ := h
      exact .inl ⟨source, ho⟩
    | neg =>
      obtain ⟨-, ⟨source, -, ho⟩ | ⟨-, hleast⟩⟩ := h
      · exact .inl ⟨source, ho⟩
      · exact .inr ⟨note, rfl, hleast⟩
  | call note callee args target =>
    cases target with
    | none => exact h.elim
    | some target =>
      cases target with
      | function id =>
        obtain ⟨params, -, -, h⟩ := h
        exact hlist h
      | constructor decl =>
        obtain ⟨info, -, -, h⟩ := h
        exact hlist h
      | builtin builtin =>
        obtain ⟨argTy, -, -, -, h⟩ := h
        exact hlist h
  | field note base field index =>
    obtain ⟨decl, name, info, position, fieldName, -, -, -, source, -, hb⟩ := h
    exact forall_mem_singleton.mpr (.inl ⟨source, hb⟩)
  | index note base index =>
    obtain ⟨⟨sb, -, hb⟩, ⟨si, -, hi⟩⟩ := h
    simp [Expr.parts, Exists.intro sb hb, Exists.intro si hi]
  | array note elems =>
    obtain ⟨elem, -, -, h⟩ := h
    exact hlist h
  | newArray note elem length =>
    obtain ⟨elemTy, -, -, source, -, hl⟩ := h
    exact forall_mem_singleton.mpr (.inl ⟨source, hl⟩)
  | cast note operand target =>
    obtain ⟨-, operandTy, -, source, -, ho⟩ := h
    exact forall_mem_singleton.mpr (.inl ⟨source, ho⟩)

theorem Expr.mem_subs_of_parts {x y : Expr} (hx : x ∈ e.parts) (hy : y ∈ x.subs) : y ∈ e.subs := by
  cases e with
  | literal | name => cases hx
  | call _ callee args _ =>
    exact mem_cons_of_mem _ (mem_append_right _ (Expr.mem_subsAll.mpr ⟨x, hx, hy⟩))
  | array _ elems => exact mem_cons_of_mem _ (Expr.mem_subsAll.mpr ⟨x, hx, hy⟩)
  | binary _ _ left right | index _ left right =>
    simp only [Expr.parts, mem_cons, not_mem_nil, or_false] at hx
    rcases hx with rfl | rfl <;> simp [Expr.subs, hy]
  | unary _ _ part | field _ part _ _ | newArray _ _ part | cast _ part _ =>
    rw [mem_singleton.mp hx] at hy
    exact mem_cons_of_mem _ hy

/-! ## Statements -/

mutual

/-- The expressions that stand in a statement, each with its place. -/
def Stmt.roots (c : Place) : Stmt → List (Place × Expr)
  | .var decl => [(c, decl.init)]
  | .function head body => rootsAll
      (((c.inside (head.id.getD c.function)).starting head.paramIds).scope (ownAll body)) body
  | .block _ body => rootsAll (c.scope (ownAll body)) body
  | .branch _ cond yes none => (c, cond) :: yes.roots (c.scope yes.own)
  | .branch _ cond yes (some no) =>
    (c, cond) :: (yes.roots (c.scope yes.own) ++ no.roots (c.scope no.own))
  | .loop _ cond body => (c, cond) :: body.roots (c.scope body.own).loop
  | .range _ loopVar first last body => (c, first) :: (c, last) ::
      body.roots ((c.starting loopVar.symbol.toList).scope body.own).loop
  | .ret _ value => value.toList.map (c, ·)
  | .leave _ | .next _ => []
  | .assign _ target value => [(c, target), (c, value)]
  | .expr value => [(c, value)]

def Stmt.rootsAll (c : Place) : List Stmt → List (Place × Expr)
  | [] => []
  | stmt :: rest => stmt.roots c ++ rootsAll (c.after stmt) rest

end

theorem Stmt.exprsAll_eq_roots
    (h : ∀ stmt ∈ stmts, ∀ c, stmt.exprs = (stmt.roots c).flatMap (·.2.subs)) (c : Place) :
    exprsAll stmts = (rootsAll c stmts).flatMap (·.2.subs) := by
  induction stmts generalizing c with
  | nil => rfl
  | cons stmt rest ih =>
    obtain ⟨hfirst, hrest⟩ := forall_mem_cons.mp h
    rw [exprsAll, rootsAll, flatMap_append, ← hfirst, ← ih hrest]

theorem Stmt.exprs_eq_roots (stmt : Stmt) (c : Place) :
    stmt.exprs = (stmt.roots c).flatMap (·.2.subs) := by
  induction stmt generalizing c with
  | function head body ih | block span body ih => exact exprsAll_eq_roots ih _
  | branch span cond yes no ihyes ihno =>
    cases no with
    | none => simp [exprs, roots, ← ihyes]
    | some no => simp [exprs, roots, ← ihyes, ← ihno no rfl]
  | loop span cond body ih | range span loopVar first last body ih =>
    simp [exprs, roots, ← ih]
  | ret span value => cases value <;> simp [exprs, roots]
  | _ => simp [exprs, roots]

/-- The expression is typed, or it is a variable that is assigned to. -/
def Expr.Stands (v : View) (e : Expr) : Prop :=
  (∃ ty, e.HasTy v ty) ∨ ∃ note ref, e = .name note ref

theorem Expr.Typed.stands (h : e.Typed v ty) : e.Stands v := by
  obtain ⟨source, -, he⟩ := h
  exact .inl ⟨source, he⟩

theorem Expr.Assignable.stands (h : e.Assignable v c ty) : e.Stands v := by
  cases e with
  | name note ref => exact .inr ⟨note, ref, rfl⟩
  | index note base position => exact .inl ⟨ty, h⟩
  | field note base ident position => exact .inl ⟨ty, h⟩
  | _ => exact h.elim

section Roots

variable {J : Place → View}

theorem Stmt.CheckedAll.roots_of
    (hstmts : ∀ stmt ∈ stmts, ∀ c, stmt.Checked J c → ∀ x ∈ stmt.roots c, x.2.Stands (J x.1))
    (h : CheckedAll J c stmts) : ∀ x ∈ rootsAll c stmts, x.2.Stands (J x.1) := by
  induction stmts generalizing c with
  | nil => exact forall_mem_nil _
  | cons stmt stmts ih =>
    obtain ⟨hfirst, hothers⟩ := forall_mem_cons.mp hstmts
    exact forall_mem_append.mpr ⟨hfirst c h.1, ih hothers h.2⟩

theorem Stmt.Checked.roots {stmt : Stmt} (h : stmt.Checked J c) :
    ∀ x ∈ stmt.roots c, x.2.Stands (J x.1) := by
  induction stmt generalizing c with
  | var decl =>
    obtain ⟨id, symbol, -, -, -, -, hinit⟩ := h
    exact forall_mem_singleton.mpr hinit.stands
  | function head body ih =>
    obtain ⟨id, params, ret, hid, -, -, -, hbody, -⟩ := h
    rw [roots, hid]
    exact CheckedAll.roots_of (fun stmt hstmt _ => ih stmt hstmt) hbody
  | block span body ih => exact CheckedAll.roots_of (fun stmt hstmt _ => ih stmt hstmt) h
  | branch span cond yes no ihyes ihno =>
    cases no with
    | none => exact forall_mem_cons.mpr ⟨h.1.stands, ihyes h.2⟩
    | some no =>
      exact forall_mem_cons.mpr ⟨h.1.stands, forall_mem_append.mpr ⟨ihyes h.2.1, ihno no rfl h.2.2⟩⟩
  | loop span cond body ih => exact forall_mem_cons.mpr ⟨h.1.stands, ih h.2⟩
  | range span loopVar first last body ih =>
    obtain ⟨id, symbol, hid, -, -, -, -, hfirst, hlast, hbody⟩ := h
    rw [roots, hid]
    exact forall_mem_cons.mpr ⟨hfirst.stands, forall_mem_cons.mpr ⟨hlast.stands, ih hbody⟩⟩
  | ret span value =>
    obtain ⟨-, params, ret, -, hvalue⟩ := h
    cases value with
    | none => exact forall_mem_nil _
    | some value => exact forall_mem_singleton.mpr hvalue.2.stands
  | leave span | next span => exact forall_mem_nil _
  | assign span target value =>
    obtain ⟨ty, htarget, hvalue⟩ := h
    exact forall_mem_cons.mpr ⟨htarget.stands, forall_mem_singleton.mpr hvalue.stands⟩
  | expr value =>
    obtain ⟨ty, hvalue⟩ := h
    exact forall_mem_singleton.mpr hvalue.stands

/-- What stands in checked statements is typed, but for variables that are assigned to. -/
theorem Stmt.CheckedAll.roots (h : CheckedAll J c stmts) :
    ∀ x ∈ rootsAll c stmts, x.2.Stands (J x.1) :=
  h.roots_of fun _ _ _ => Checked.roots

end Roots

end StackCompiler

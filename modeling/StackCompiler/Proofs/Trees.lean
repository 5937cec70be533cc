import StackCompiler.Ast
import StackCompiler.Token.Lexer

/-!
# Induction over syntax trees

A property of all expressions, or of all statements, is shown from the parts of each. The parts in
a list all have the property.

* `Expr.induction`, `Stmt.induction`;
* `Item.stmts`: the items of a unit as statements.
-/

namespace StackCompiler

@[induction_eliminator]
theorem Expr.induction {motive : Expr → Prop} (literal : ∀ note value, motive (.literal note value))
    (name : ∀ note ref, motive (.name note ref))
    (binary : ∀ note op left right, motive left → motive right →
      motive (.binary note op left right))
    (unary : ∀ note op operand, motive operand → motive (.unary note op operand))
    (call : ∀ note callee args target, motive callee → (∀ arg ∈ args, motive arg) →
      motive (.call note callee args target))
    (field : ∀ note base field index, motive base → motive (.field note base field index))
    (index : ∀ note base index, motive base → motive index → motive (.index note base index))
    (array : ∀ note elems, (∀ elem ∈ elems, motive elem) → motive (.array note elems))
    (newArray : ∀ note elem length, motive length → motive (.newArray note elem length))
    (cast : ∀ note operand target, motive operand → motive (.cast note operand target))
    (e : Expr) : motive e :=
  @Expr.rec motive (fun es => ∀ e ∈ es, motive e)
    literal name binary unary call field index array newArray cast
    (fun _ h => nomatch h)
    (fun _ _ he hes _ h => by
      cases h with
      | head => exact he
      | tail _ h => exact hes _ h) e

@[induction_eliminator]
theorem Stmt.induction {motive : Stmt → Prop} (var : ∀ decl, motive (.var decl))
    (function : ∀ head body, (∀ stmt ∈ body, motive stmt) → motive (.function head body))
    (block : ∀ span body, (∀ stmt ∈ body, motive stmt) → motive (.block span body))
    (branch : ∀ span cond yes no, motive yes → (∀ stmt ∈ no, motive stmt) →
      motive (.branch span cond yes no))
    (loop : ∀ span cond body, motive body → motive (.loop span cond body))
    (range : ∀ span var first last body, motive body → motive (.range span var first last body))
    (ret : ∀ span value, motive (.ret span value))
    (leave : ∀ span, motive (.leave span))
    (next : ∀ span, motive (.next span))
    (assign : ∀ span target value, motive (.assign span target value))
    (expr : ∀ value, motive (.expr value))
    (stmt : Stmt) : motive stmt :=
  @Stmt.rec motive (fun stmts => ∀ stmt ∈ stmts, motive stmt) (fun no => ∀ stmt ∈ no, motive stmt)
    var function block branch loop range ret leave next assign expr
    (fun _ h => nomatch h)
    (fun _ _ hs hrest _ h => by
      cases h with
      | head => exact hs
      | tail _ h => exact hrest _ h)
    (fun _ h => nomatch h)
    (fun _ hs _ h => by cases h; exact hs) stmt

/-! ## Parts -/

mutual

/-- An expression and all expressions inside of it. -/
def Expr.subs : Expr → List Expr
  | .literal note value => [.literal note value]
  | .name note ref => [.name note ref]
  | .binary note op left right => .binary note op left right :: (left.subs ++ right.subs)
  | .unary note op operand => .unary note op operand :: operand.subs
  | .call note callee args target =>
    .call note callee args target :: (callee.subs ++ Expr.subsAll args)
  | .field note base ident position => .field note base ident position :: base.subs
  | .index note base position => .index note base position :: (base.subs ++ position.subs)
  | .array note elems => .array note elems :: Expr.subsAll elems
  | .newArray note elem length => .newArray note elem length :: length.subs
  | .cast note operand target => .cast note operand target :: operand.subs

def Expr.subsAll : List Expr → List Expr
  | [] => []
  | e :: rest => e.subs ++ Expr.subsAll rest

end

theorem Expr.mem_subsAll {es : List Expr} {x : Expr} :
    x ∈ Expr.subsAll es ↔ ∃ e ∈ es, x ∈ e.subs := by
  induction es with
  | nil => simp [Expr.subsAll]
  | cons e es ih => simp [Expr.subsAll, ih]

mutual

def Stmt.exprs : Stmt → List Expr
  | .var decl => decl.init.subs
  | .function _ body => Stmt.exprsAll body
  | .block _ body => Stmt.exprsAll body
  | .branch _ cond yes none => cond.subs ++ yes.exprs
  | .branch _ cond yes (some no) => cond.subs ++ (yes.exprs ++ no.exprs)
  | .loop _ cond body => cond.subs ++ body.exprs
  | .range _ _ first last body => first.subs ++ (last.subs ++ body.exprs)
  | .ret _ none | .leave _ | .next _ => []
  | .ret _ (some value) => value.subs
  | .assign _ target value => target.subs ++ value.subs
  | .expr value => value.subs

def Stmt.exprsAll : List Stmt → List Expr
  | [] => []
  | stmt :: rest => stmt.exprs ++ Stmt.exprsAll rest

end

theorem Stmt.mem_exprsAll {stmts : List Stmt} {x : Expr} :
    x ∈ Stmt.exprsAll stmts ↔ ∃ stmt ∈ stmts, x ∈ stmt.exprs := by
  induction stmts with
  | nil => simp [Stmt.exprsAll]
  | cons stmt stmts ih => simp [Stmt.exprsAll, ih]

/-! ## Numbers -/

/-- A number is a natural number in the range of literals. -/
def Literal.Natural : Literal → Prop
  | .int value | .long value => 0 ≤ value ∧ value < integerLimit
  | _ => True

/-- All numbers that are written down are natural numbers. -/
def Expr.Natural (e : Expr) : Prop := ∀ x ∈ e.subs, ∀ note value,
    x = .literal note value → value.Natural

def Stmt.Natural (stmt : Stmt) : Prop :=
  ∀ x ∈ stmt.exprs, ∀ note value, x = .literal note value → value.Natural

theorem Expr.natural_of_parts {e : Expr} {parts : List Expr} (hsubs : e.subs = e :: parts)
    (hne : ∀ note value, e ≠ .literal note value)
    (h : ∀ x ∈ parts, ∀ note value, x = .literal note value → value.Natural) : e.Natural := by
  intro x hx note value heq
  rw [hsubs] at hx
  rcases List.mem_cons.mp hx with rfl | hx
  · exact absurd heq (hne note value)
  · exact h x hx note value heq

/-! ## Units -/

/-- An item as a statement, unless it is a record. -/
def Item.stmt? : Item → Option Stmt
  | .record _ => none
  | .function f => some (.function f.head f.body)
  | .stmt s => some s

def Item.stmts (items : List Item) : List Stmt := items.filterMap Item.stmt?

/-- A function at the top of a unit is an item of its own. -/
def Item.Plain : Item → Prop
  | .stmt s => s.isFunction = false
  | .record _ | .function _ => True

def Item.exprs : Item → List Expr
  | .function f => Stmt.exprsAll f.body
  | .record _ => []
  | .stmt s => s.exprs

def SourceUnit.exprs (unit : SourceUnit) : List Expr := unit.items.flatMap Item.exprs

end StackCompiler

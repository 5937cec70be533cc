import StackCompiler.Proofs.Trees
import StackCompiler.ParseTree.Parser

/-!
# Printing

A unit is written down as tokens, without their places. An expression in parentheses has none in
its tree, so they are written where the operators around an expression bind tighter than it does,
and nowhere else.
-/

namespace StackCompiler

variable {kind : TokenKind}

/-! ## Tokens -/

/-- The symbol of a binary operator. -/
def BinOp.punct : BinOp → Punct
  | .add => .plus
  | .sub => .minus
  | .mul => .star
  | .div => .slash
  | .rem => .percent
  | .eq => .equal
  | .ne => .notEqual
  | .lt => .less
  | .le => .lessEqual
  | .gt => .greater
  | .ge => .greaterEqual
  | .and => .andAnd
  | .or => .orOr

/-- How tightly a binary operator binds. -/
def BinOp.power : BinOp → Nat
  | .or => 1
  | .and => 2
  | .eq | .ne => 3
  | .lt | .le | .gt | .ge => 4
  | .add | .sub => 5
  | .mul | .div | .rem => 6

/-- The symbol of a sign. -/
def UnOp.punct : UnOp → Punct
  | .neg => .minus
  | .not => .bang

/-- The token of a literal; truth values are keywords. -/
def Literal.token : Literal → TokenKind
  | .int value => .intLit value
  | .long value => .longLit value
  | .float value => .floatLit value
  | .double value => .doubleLit value
  | .bool true => .keyword .true_
  | .bool false => .keyword .false_
  | .string value => .stringLit value

theorem BinOp.ofPunct?_punct (op : BinOp) : BinOp.ofPunct? op.punct = some op := by
  cases op <;> rfl

theorem BinOp.precedence?_punct (op : BinOp) : op.punct.precedence? = some op.power := by
  cases op <;> rfl

theorem BinOp.power_lt (op : BinOp) : op.power < 7 := by
  cases op <;> decide

/-- Between parentheses. -/
def inParens (kinds : List TokenKind) : List TokenKind :=
  .punct .lparen :: (kinds ++ [.punct .rparen])

/-- Between brackets. -/
def inBrackets (kinds : List TokenKind) : List TokenKind :=
  .punct .lbracket :: (kinds ++ [.punct .rbracket])

/-- Between braces. -/
def inBraces (kinds : List TokenKind) : List TokenKind :=
  .punct .lbrace :: (kinds ++ [.punct .rbrace])

/-- Parts with commas between them. -/
def withCommas : List (List TokenKind) → List TokenKind
  | [] => []
  | [kinds] => kinds
  | kinds :: next :: rest => kinds ++ .punct .comma :: withCommas (next :: rest)

/-! ## Expressions -/

/-- A type; arrays have brackets behind their elements. -/
def TypeExpr.print : TypeExpr → List TokenKind
  | .named ident => [.ident ident.name]
  | .array elem _ => elem.print ++ inBrackets []

/-- How tightly an expression binds: binary operators by their power, then signs, then operands. -/
def Expr.level : Expr → Nat
  | .binary _ op _ _ => op.power
  | .unary .. => 7
  | _ => 8

/-- What is printed of an operand that binds as tightly as `level`, where `least` is needed. -/
def enclosed (least level : Nat) (kinds : List TokenKind) : List TokenKind :=
  if level < least then inParens kinds else kinds

mutual

/-- An expression. The right operand of a binary operator binds tighter than it, since operators
associate to the left. -/
def Expr.print : Expr → List TokenKind
  | .literal _ value => [value.token]
  | .name _ ref => [.ident ref.name]
  | .binary _ op left right =>
    enclosed op.power left.level left.print ++
      .punct op.punct :: enclosed (op.power + 1) right.level right.print
  | .unary _ op operand => .punct op.punct :: enclosed 7 operand.level operand.print
  | .call _ callee args _ =>
    enclosed 8 callee.level callee.print ++ inParens (withCommas (Expr.printAll args))
  | .field _ base ident _ =>
    enclosed 8 base.level base.print ++ [.punct .dot, .ident ident.name]
  | .index _ base position => enclosed 8 base.level base.print ++ inBrackets position.print
  | .array _ elems => inBrackets (withCommas (Expr.printAll elems))
  | .newArray _ elem length => .keyword .new_ :: (elem.print ++ inBrackets length.print)
  | .cast _ operand target =>
    enclosed 8 operand.level operand.print ++ .keyword .as_ :: target.print

/-- Expressions, each for itself. -/
def Expr.printAll : List Expr → List (List TokenKind)
  | [] => []
  | e :: rest => e.print :: Expr.printAll rest

end

/-- An expression as an operand of something that binds as tightly as `least`. -/
def Expr.printFrom (least : Nat) (e : Expr) : List TokenKind := enclosed least e.level e.print

theorem Expr.printFrom_of_le {e : Expr} {least : Nat} (h : least ≤ e.level) :
    e.printFrom least = e.print := if_neg (Nat.not_lt.mpr h)

theorem Expr.printFrom_of_lt {e : Expr} {least : Nat} (h : e.level < least) :
    e.printFrom least = inParens e.print := if_pos h

theorem Expr.print_binary (note : Note) (op : BinOp) (left right : Expr) :
    (binary note op left right).print =
      left.printFrom op.power ++ .punct op.punct :: right.printFrom (op.power + 1) := rfl

theorem Expr.print_unary (note : Note) (op : UnOp) (operand : Expr) :
    (unary note op operand).print = .punct op.punct :: operand.printFrom 7 := rfl

theorem Expr.print_call (note : Note) (callee : Expr) (args : List Expr)
    (target : Option CallTarget) :
    (call note callee args target).print =
      callee.printFrom 8 ++ inParens (withCommas (Expr.printAll args)) := rfl

theorem Expr.print_field (note : Note) (base : Expr) (ident : Ident) (position : Option Nat) :
    (field note base ident position).print =
      base.printFrom 8 ++ [.punct .dot, .ident ident.name] := rfl

theorem Expr.print_index (note : Note) (base position : Expr) :
    (index note base position).print = base.printFrom 8 ++ inBrackets position.print := rfl

theorem Expr.print_cast (note : Note) (operand : Expr) (target : TypeExpr) :
    (cast note operand target).print = operand.printFrom 8 ++ .keyword .as_ :: target.print := rfl

/-! ## Statements -/

/-- A name and its type. -/
def printTyped (name : Ident) (ty : TypeExpr) : List TokenKind :=
  .ident name.name :: .punct .colon :: ty.print

/-- A type that may be left out, after a symbol. -/
def printAfter (symbol : Punct) : Option TypeExpr → List TokenKind
  | some ty => .punct symbol :: ty.print
  | none => []

/-- A function up to its body. -/
def FunctionHead.print (head : FunctionHead) : List TokenKind :=
  .keyword .function :: .ident head.name.name ::
    (inParens (withCommas (head.params.map fun param => printTyped param.name param.ty)) ++
      printAfter .arrow head.ret)

/-- A declaration of a variable, with its value. -/
def VarDecl.print (decl : VarDecl) : List TokenKind :=
  .keyword (if decl.mutable then .var else .val) :: .ident decl.name.name ::
    (printAfter .colon decl.ty ++ .punct .assign :: (decl.init.print ++ [.punct .semicolon]))

mutual

/-- A statement. -/
def Stmt.print : Stmt → List TokenKind
  | .var decl => decl.print
  | .function head body => head.print ++ inBraces (Stmt.printAll body)
  | .block _ body => inBraces (Stmt.printAll body)
  | .branch _ cond yes none => .keyword .if_ :: (inParens cond.print ++ yes.print)
  | .branch _ cond yes (some no) =>
    .keyword .if_ :: (inParens cond.print ++ (yes.print ++ .keyword .else_ :: no.print))
  | .loop _ cond body => .keyword .while_ :: (inParens cond.print ++ body.print)
  | .range _ loopVar first last body =>
    .keyword .for_ :: (inParens (.ident loopVar.name.name :: .keyword .in_ ::
      (first.print ++ .punct .dotDot :: last.print)) ++ body.print)
  | .ret _ none => [.keyword .return_, .punct .semicolon]
  | .ret _ (some value) => .keyword .return_ :: (value.print ++ [.punct .semicolon])
  | .leave _ => [.keyword .break_, .punct .semicolon]
  | .next _ => [.keyword .continue_, .punct .semicolon]
  | .assign _ target value =>
    target.print ++ .punct .assign :: (value.print ++ [.punct .semicolon])
  | .expr value => value.print ++ [.punct .semicolon]

/-- Statements, one after the other. -/
def Stmt.printAll : List Stmt → List TokenKind
  | [] => []
  | stmt :: rest => stmt.print ++ Stmt.printAll rest

end

/-- A record with its fields. -/
def RecordDecl.print (decl : RecordDecl) : List TokenKind :=
  .keyword .struct :: .ident decl.name.name ::
    inBraces (withCommas (decl.fields.map fun field => printTyped field.name field.ty))

/-- What stands at the top of a unit. -/
def Item.print : Item → List TokenKind
  | .function decl => decl.head.print ++ inBraces (Stmt.printAll decl.body)
  | .record decl => decl.print
  | .stmt s => s.print

/-- A unit and an end mark. -/
def SourceUnit.print (unit : SourceUnit) : List TokenKind :=
  unit.items.flatMap Item.print ++ [.eof]

/-! ## Branches -/

/-- The statement ends in a branch without an alternative: one that follows would belong to it. -/
def Stmt.isOpen : Stmt → Bool
  | .branch _ _ _ none => true
  | .branch _ _ _ (some no) => no.isOpen
  | .loop _ _ body | .range _ _ _ _ body => body.isOpen
  | _ => false

mutual

/-- No branch that has an alternative ends in one that has none before it. -/
def Stmt.Spellable : Stmt → Prop
  | .function _ body | .block _ body => Stmt.SpellableAll body
  | .branch _ _ yes none => yes.Spellable
  | .branch _ _ yes (some no) => yes.isOpen = false ∧ yes.Spellable ∧ no.Spellable
  | .loop _ _ body | .range _ _ _ _ body => body.Spellable
  | _ => True

def Stmt.SpellableAll : List Stmt → Prop
  | [] => True
  | stmt :: rest => stmt.Spellable ∧ Stmt.SpellableAll rest

end

theorem Stmt.spellableAll_iff {stmts : List Stmt} :
    Stmt.SpellableAll stmts ↔ ∀ stmt ∈ stmts, stmt.Spellable := by
  induction stmts with
  | nil => simp [Stmt.SpellableAll]
  | cons stmt stmts ih => simp [Stmt.SpellableAll, ih]

/-- The item can be printed without losing a branch. -/
def Item.Spellable : Item → Prop
  | .function decl => Stmt.SpellableAll decl.body
  | .record _ => True
  | .stmt s => s.Spellable

/-! ## Trees up to spans -/

/-- A name without its place. -/
def Ident.unspanned (ident : Ident) : Ident := { ident with span := .nowhere }

/-- A type without its places. -/
def TypeExpr.unspanned : TypeExpr → TypeExpr
  | .named ident => .named ident.unspanned
  | .array elem _ => .array elem.unspanned .nowhere

def Note.unspanned (note : Note) : Note := { note with span := .nowhere }

mutual

/-- An expression without its places. -/
def Expr.unspanned : Expr → Expr
  | .literal note value => .literal note.unspanned value
  | .name note ref => .name note.unspanned ref
  | .binary note op left right => .binary note.unspanned op left.unspanned right.unspanned
  | .unary note op operand => .unary note.unspanned op operand.unspanned
  | .call note callee args target =>
    .call note.unspanned callee.unspanned (Expr.unspannedAll args) target
  | .field note base ident position =>
    .field note.unspanned base.unspanned ident.unspanned position
  | .index note base position => .index note.unspanned base.unspanned position.unspanned
  | .array note elems => .array note.unspanned (Expr.unspannedAll elems)
  | .newArray note elem length => .newArray note.unspanned elem.unspanned length.unspanned
  | .cast note operand target => .cast note.unspanned operand.unspanned target.unspanned

def Expr.unspannedAll : List Expr → List Expr
  | [] => []
  | e :: rest => e.unspanned :: Expr.unspannedAll rest

end

attribute [simp] TypeExpr.unspanned Expr.unspanned Expr.unspannedAll

def Param.unspanned (param : Param) : Param :=
  { param with name := param.name.unspanned, ty := param.ty.unspanned, span := .nowhere }

/-- A head without its places. -/
def FunctionHead.unspanned (head : FunctionHead) : FunctionHead :=
  { head with
    name := head.name.unspanned
    params := head.params.map Param.unspanned
    ret := head.ret.map TypeExpr.unspanned
    span := .nowhere
    bodySpan := .nowhere }

/-- A declaration without its places. -/
def VarDecl.unspanned (decl : VarDecl) : VarDecl :=
  { decl with
    name := decl.name.unspanned
    ty := decl.ty.map TypeExpr.unspanned
    init := decl.init.unspanned
    span := .nowhere }

def LoopVar.unspanned (var : LoopVar) : LoopVar := { var with name := var.name.unspanned }

mutual

/-- A statement without its places. -/
def Stmt.unspanned : Stmt → Stmt
  | .var decl => .var decl.unspanned
  | .function head body => .function head.unspanned (Stmt.unspannedAll body)
  | .block _ body => .block .nowhere (Stmt.unspannedAll body)
  | .branch _ cond yes none => .branch .nowhere cond.unspanned yes.unspanned none
  | .branch _ cond yes (some no) =>
    .branch .nowhere cond.unspanned yes.unspanned (some no.unspanned)
  | .loop _ cond body => .loop .nowhere cond.unspanned body.unspanned
  | .range _ loopVar first last body =>
    .range .nowhere loopVar.unspanned first.unspanned last.unspanned body.unspanned
  | .ret _ value => .ret .nowhere (value.map Expr.unspanned)
  | .leave _ => .leave .nowhere
  | .next _ => .next .nowhere
  | .assign _ target value => .assign .nowhere target.unspanned value.unspanned
  | .expr value => .expr value.unspanned

def Stmt.unspannedAll : List Stmt → List Stmt
  | [] => []
  | stmt :: rest => stmt.unspanned :: Stmt.unspannedAll rest

end

attribute [simp] Stmt.unspanned Stmt.unspannedAll

def FieldDecl.unspanned (field : FieldDecl) : FieldDecl :=
  ⟨field.name.unspanned, field.ty.unspanned, .nowhere⟩

def RecordDecl.unspanned (decl : RecordDecl) : RecordDecl :=
  { decl with
    name := decl.name.unspanned
    fields := decl.fields.map FieldDecl.unspanned
    span := .nowhere }

/-- An item without its places. -/
def Item.unspanned : Item → Item
  | .function decl => .function ⟨decl.head.unspanned, Stmt.unspannedAll decl.body⟩
  | .record decl => .record decl.unspanned
  | .stmt s => .stmt s.unspanned

/-- A unit without its places. -/
def SourceUnit.unspanned (unit : SourceUnit) : SourceUnit :=
  { unit with items := unit.items.map Item.unspanned, span := .nowhere }

/-! ## Trees without notes -/

/-- Nothing is filled in. -/
def Note.Fresh (note : Note) : Prop := note.unspanned = .fresh .nowhere

theorem Note.unspanned_fresh (span : Span) : (Note.fresh span).unspanned = .fresh .nowhere := rfl

theorem Note.Fresh.eq {note : Note} (h : note.Fresh) : note.unspanned = .fresh .nowhere := h

mutual

/-- Nothing is filled in, inside neither. -/
def Expr.Fresh : Expr → Prop
  | .literal note _ => note.Fresh
  | .name note ref => note.Fresh ∧ ref.binding = none
  | .binary note _ left right => note.Fresh ∧ left.Fresh ∧ right.Fresh
  | .unary note _ operand => note.Fresh ∧ operand.Fresh
  | .call note callee args target =>
    note.Fresh ∧ callee.Fresh ∧ Expr.FreshAll args ∧ target = none
  | .field note base _ position => note.Fresh ∧ base.Fresh ∧ position = none
  | .index note base position => note.Fresh ∧ base.Fresh ∧ position.Fresh
  | .array note elems => note.Fresh ∧ Expr.FreshAll elems
  | .newArray note _ length => note.Fresh ∧ length.Fresh
  | .cast note operand _ => note.Fresh ∧ operand.Fresh

def Expr.FreshAll : List Expr → Prop
  | [] => True
  | e :: rest => e.Fresh ∧ Expr.FreshAll rest

end

theorem Expr.freshAll_iff {es : List Expr} : Expr.FreshAll es ↔ ∀ e ∈ es, e.Fresh := by
  induction es with
  | nil => simp [Expr.FreshAll]
  | cons e es ih => simp [Expr.FreshAll, ih]

/-- Neither a number nor symbols are filled in. -/
def FunctionHead.Fresh (head : FunctionHead) : Prop :=
  head.id = none ∧ ∀ param ∈ head.params, param.symbol = none

def VarDecl.Fresh (decl : VarDecl) : Prop := decl.init.Fresh ∧ decl.symbol = none

mutual

/-- Nothing is filled in, inside neither. -/
def Stmt.Fresh : Stmt → Prop
  | .var decl => decl.Fresh
  | .function head body => head.Fresh ∧ Stmt.FreshAll body
  | .block _ body => Stmt.FreshAll body
  | .branch _ cond yes none => cond.Fresh ∧ yes.Fresh
  | .branch _ cond yes (some no) => cond.Fresh ∧ yes.Fresh ∧ no.Fresh
  | .loop _ cond body => cond.Fresh ∧ body.Fresh
  | .range _ loopVar first last body =>
    loopVar.symbol = none ∧ first.Fresh ∧ last.Fresh ∧ body.Fresh
  | .ret _ value => ∀ e ∈ value, e.Fresh
  | .leave _ | .next _ => True
  | .assign _ target value => target.Fresh ∧ value.Fresh
  | .expr value => value.Fresh

def Stmt.FreshAll : List Stmt → Prop
  | [] => True
  | stmt :: rest => stmt.Fresh ∧ Stmt.FreshAll rest

end

theorem Stmt.freshAll_iff {stmts : List Stmt} :
    Stmt.FreshAll stmts ↔ ∀ stmt ∈ stmts, stmt.Fresh := by
  induction stmts with
  | nil => simp [Stmt.FreshAll]
  | cons stmt stmts ih => simp [Stmt.FreshAll, ih]

/-- Nothing is filled in yet. -/
def Item.Fresh : Item → Prop
  | .function decl => decl.head.Fresh ∧ Stmt.FreshAll decl.body
  | .record decl => decl.decl = none
  | .stmt s => s.Fresh

/-! ## First tokens -/

/-- Operands start with such a token. -/
def TokenKind.opensOperand : TokenKind → Bool
  | .intLit _ | .longLit _ | .floatLit _ | .doubleLit _ | .stringLit _ | .keyword .true_
  | .keyword .false_ | .ident _ | .punct .lparen | .punct .lbracket | .keyword .new_ => true
  | _ => false

/-- Expressions start with such a token. -/
def TokenKind.opensExpr : TokenKind → Bool
  | .punct .minus | .punct .bang => true
  | kind => kind.opensOperand

/-- Statements start with such a token. -/
def TokenKind.opensStmt : TokenKind → Bool
  | .punct .lbrace | .keyword .var | .keyword .val | .keyword .function | .keyword .if_
  | .keyword .while_ | .keyword .for_ | .keyword .return_ | .keyword .break_
  | .keyword .continue_ => true
  | kind => kind.opensExpr

/-- The first token is of such a kind. -/
def Opens (P : TokenKind → Bool) (kinds : List TokenKind) : Prop :=
  ∃ kind rest, kinds = kind :: rest ∧ P kind = true

namespace Opens

variable {P P' : TokenKind → Bool} {kinds kinds' : List TokenKind}

theorem cons (h : P kind = true) : Opens P (kind :: kinds) := ⟨kind, kinds, rfl, h⟩

theorem append (h : Opens P kinds) : Opens P (kinds ++ kinds') := by
  obtain ⟨kind, rest, rfl, hkind⟩ := h
  exact cons hkind

theorem mono (h : Opens P kinds) (himp : ∀ kind, P kind = true → P' kind = true) :
    Opens P' kinds := by
  obtain ⟨kind, rest, hkinds, hkind⟩ := h
  exact ⟨kind, rest, hkinds, himp kind hkind⟩

theorem enclosed (h : Opens P kinds) (hparen : P (.punct .lparen) = true) (least level : Nat) :
    Opens P (enclosed least level kinds) := by
  unfold StackCompiler.enclosed
  split
  · exact cons hparen
  · exact h

end Opens

theorem TokenKind.opensExpr_of_opensOperand (h : kind.opensOperand = true) :
    kind.opensExpr = true := by
  unfold TokenKind.opensExpr
  split <;> first | rfl | exact h

theorem TokenKind.opensStmt_of_opensExpr (h : kind.opensExpr = true) : kind.opensStmt = true := by
  unfold TokenKind.opensStmt
  split <;> first | rfl | exact h

theorem Expr.level_le (e : Expr) : e.level ≤ 8 := by
  cases e with
  | binary note op left right =>
    have := op.power_lt
    simp only [Expr.level]
    omega
  | _ => simp [Expr.level]

theorem Literal.token_opens (value : Literal) : value.token.opensOperand = true := by
  cases value with
  | bool value => cases value <;> rfl
  | _ => rfl

/-- What an operand without a sign starts with, if an expression that binds most tightly does. -/
theorem opens_enclosed {kinds : List TokenKind} {level : Nat} (hle : level ≤ 8)
    (h : level = 8 → Opens TokenKind.opensOperand kinds) :
    Opens TokenKind.opensOperand (enclosed 8 level kinds) := by
  unfold enclosed
  split
  · exact .cons rfl
  · exact h (by omega)

/-- An expression starts with a sign or an operand, and with an operand if it binds most
tightly. -/
theorem Expr.print_opens (e : Expr) :
    Opens TokenKind.opensExpr e.print ∧ (e.level = 8 → Opens TokenKind.opensOperand e.print) := by
  have hoperand {e : Expr} (h : Opens TokenKind.opensOperand e.print) :
      Opens TokenKind.opensExpr e.print ∧ (e.level = 8 → Opens TokenKind.opensOperand e.print) :=
    ⟨h.mono fun _ => TokenKind.opensExpr_of_opensOperand, fun _ => h⟩
  induction e with
  | literal note value => exact hoperand (.cons value.token_opens)
  | name note ref => exact hoperand (.cons rfl)
  | binary note op left right hleft _ =>
    refine ⟨(hleft.1.enclosed rfl _ _).append, fun h => ?_⟩
    have := op.power_lt
    simp only [Expr.level] at h
    omega
  | unary note op operand _ =>
    refine ⟨.cons ?_, fun h => absurd h (by simp [Expr.level])⟩
    cases op <;> rfl
  | call note callee args target hcallee _ =>
    exact hoperand (opens_enclosed callee.level_le hcallee.2).append
  | field note base field index hbase =>
    exact hoperand (opens_enclosed base.level_le hbase.2).append
  | index note base index hbase _ =>
    exact hoperand (opens_enclosed base.level_le hbase.2).append
  | array note elems _ => exact hoperand (.cons rfl)
  | newArray note elem length _ => exact hoperand (.cons rfl)
  | cast note operand target hoperand' =>
    exact hoperand (opens_enclosed operand.level_le hoperand'.2).append

/-- An operand of a call, an index, a field or a conversion starts without a sign. -/
theorem Expr.printFrom_opens (e : Expr) : Opens TokenKind.opensOperand (e.printFrom 8) :=
  opens_enclosed e.level_le e.print_opens.2

theorem Expr.print_opensStmt (e : Expr) : Opens TokenKind.opensStmt e.print :=
  e.print_opens.1.mono fun _ => TokenKind.opensStmt_of_opensExpr

theorem Stmt.print_opens (stmt : Stmt) : Opens TokenKind.opensStmt stmt.print := by
  cases stmt with
  | var decl =>
    refine .cons ?_
    cases decl.mutable <;> rfl
  | branch span cond yes no => cases no <;> exact .cons rfl
  | ret span value => cases value <;> exact .cons rfl
  | assign span target value => exact target.print_opensStmt.append
  | expr value => exact value.print_opensStmt.append
  | _ => exact .cons rfl

end StackCompiler

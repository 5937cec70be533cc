import StackCompiler.Proofs.Parsing
import StackCompiler.Proofs.RoundTrip

/-!
# Every tree of the parser is a unit

What the parser builds keeps all promises that the grammar makes: each node has the children that
its rule asks for, so that every tree of the parser stands for a unit. It holds only tokens of the
text. Numbers are written without a sign there, so that the numbers in a parsed unit are natural
numbers.

* `ParseTree.IsType`, `ParseTree.IsExpr`, `ParseTree.IsStmt`: trees that stand for something;
* `Derives.stands`, `Derives.all`: the trees of the grammar stand for something, and are made of the
  tokens that they take up;
* **`SourceUnit.ofTree_parsed`**: each tree of the parser gives a unit, with an item for each child;
* **`SourceUnit.parse_plain`**: in a parsed unit numbers are natural numbers, and functions at the
  top are items of their own.
-/

namespace StackCompiler

variable {trees : List ParseTree} {tree : ParseTree} {c : Category} {tokens : List Token}

namespace ParseTree

def IsType (tree : ParseTree) : Prop := ∃ ty, tree.GivesType ty

def IsExpr (tree : ParseTree) : Prop := ∃ e, tree.Gives e

def IsStmt (tree : ParseTree) : Prop := ∃ stmt, tree.GivesStmt stmt

def IsTyped (rule : Rule) (tree : ParseTree) : Prop := ∃ name ty, GivesTyped rule name ty tree

def IsOptional (trees : List ParseTree) : Prop := ∃ ty, GivesOptional trees ty

def IsList (rule : Rule) (P : ParseTree → Prop) (tree : ParseTree) : Prop :=
  ∃ span trees, tree = .node rule span trees ∧ ∀ tree ∈ trees, P tree

/-- Trees that each stand for something stand for a list of such things. -/
theorem exists_gives {α : Type} {G : List ParseTree → List α → Prop} {P : ParseTree → Prop}
    (hnil : G [] [])
    (hcons : ∀ tree trees xs, P tree → G trees xs → ∃ x, G (tree :: trees) (x :: xs))
    (h : ∀ tree ∈ trees, P tree) : ∃ xs, G trees xs := by
  induction trees with
  | nil => exact ⟨[], hnil⟩
  | cons tree trees ih =>
    obtain ⟨htree, hothers⟩ := List.forall_mem_cons.mp h
    obtain ⟨xs, hxs⟩ := ih hothers
    obtain ⟨x, hx⟩ := hcons tree trees xs htree hxs
    exact ⟨x :: xs, hx⟩

theorem exists_givesAll (h : ∀ tree ∈ trees, tree.IsExpr) : ∃ es, GivesAll trees es :=
  exists_gives givesAll_nil (fun _ _ _ htree hes => htree.imp fun _ he => he.cons hes) h

theorem exists_givesStmts (h : ∀ tree ∈ trees, tree.IsStmt) : ∃ stmts, GivesStmts trees stmts :=
  exists_gives givesStmts_nil (fun _ _ _ htree hes => htree.imp fun _ he => he.cons hes) h

theorem exists_givesParams (h : ∀ tree ∈ trees, tree.IsTyped .param) :
    ∃ params, GivesParams trees params := by
  refine exists_gives ⟨[], rfl, rfl⟩ (fun tree trees params htree hparams => ?_) h
  obtain ⟨name, ty, hparam⟩ := htree
  exact ⟨⟨name, ty, .nowhere, none⟩, Parser.gives_cons (hparam.param rfl) hparams⟩

theorem exists_givesFields (h : ∀ tree ∈ trees, tree.IsTyped .field) :
    ∃ fields, GivesFields trees fields := by
  refine exists_gives ⟨[], rfl, rfl⟩ (fun tree trees fields htree hfields => ?_) h
  obtain ⟨name, ty, hfield⟩ := htree
  exact ⟨⟨name, ty, .nowhere⟩, Parser.gives_cons hfield.field hfields⟩

end ParseTree

/-! ## Ranges of the text -/

/-- The range that the expression of a tree covers: parentheses around it leave no trace. -/
def ParseTree.bareSpan : ParseTree → Span
  | .node .paren _ (inner :: _) => inner.bareSpan
  | tree => tree.span

/-- The range that the item of a tree covers: an expression by itself goes without its semicolon. -/
def ParseTree.itemSpan : ParseTree → Span
  | .node .exprStmt _ (value :: _) => value.bareSpan
  | tree => tree.span

def Item.span : Item → Span
  | .function f => f.head.span
  | .record r => r.span
  | .stmt s => s.span

theorem Expr.ofTree_span {e : Expr} (h : Expr.ofTree tree = .ok e) : e.span = tree.bareSpan := by
  induction tree using ParseTree.induction generalizing e with
  | leaf token => cases h
  | node rule span children ih =>
    by_cases hparen : rule = .paren
    · subst hparen
      obtain _ | ⟨inner, children⟩ := children
      · cases h
      · exact (ih inner List.mem_cons_self).1 h
    · have hspan : e.span = span := by
        refine Expr.ofTree_induction (motive := fun tree e => tree.rule? ≠ some .paren →
          e.span = tree.span) ?_ ?_ ?_ ?_ ?_ ?_ ?_ ?_ ?_ ?_ ?_ h
          (by simpa [ParseTree.rule?] using hparen)
        case refine_3 => exact fun _ _ _ _ hne => absurd rfl hne
        all_goals intros; rfl
      rw [hspan, ParseTree.bareSpan]
      · rfl
      · rintro _ _ _ h
        exact hparen (ParseTree.node.inj h).1

theorem Stmt.ofTree_span {stmt : Stmt} (h : Stmt.ofTree tree = .ok stmt) :
    stmt.span = tree.itemSpan := by
  cases tree with
  | leaf token => cases h
  | node rule span children =>
    by_cases hexpr : rule = .exprStmt
    · subst hexpr
      obtain ⟨value, hvalue, h⟩ := Except.bind_eq_ok.mp h
      obtain ⟨e, he, h⟩ := Except.bind_eq_ok.mp h
      cases h
      obtain _ | ⟨first, children⟩ := children
      · cases hvalue
      · cases hvalue
        exact Expr.ofTree_span he
    · have hspan : stmt.span = span := by
        refine Stmt.ofTree_induction (motive := fun tree stmt => tree.rule? ≠ some .exprStmt →
          stmt.span = tree.span) ?_ ?_ ?_ ?_ ?_ ?_ ?_ ?_ ?_ ?_ ?_ h
          (by simpa [ParseTree.rule?] using hexpr)
        case refine_1 => exact fun _ _ _ hdecl _ => (VarDecl.ofChildren_init hdecl).2.1
        case refine_2 => exact fun _ _ _ _ _ hhead _ _ => (FunctionHead.ofChildren_fresh hhead).2
        case refine_11 => exact fun _ _ _ _ hne => absurd rfl hne
        all_goals intros; rfl
      rw [hspan, ParseTree.itemSpan]
      · rfl
      · rintro _ _ _ h
        exact hexpr (ParseTree.node.inj h).1

/-- The tree stands for an item, which covers the same range. -/
def ParseTree.IsItem (tree : ParseTree) : Prop :=
  ∃ item, Item.ofTree tree = .ok item ∧ item.span = tree.itemSpan

theorem ParseTree.IsStmt.isItem (h : tree.IsStmt) : tree.IsItem := by
  obtain ⟨_, stmt, hstmt, -⟩ := h
  have hspan := Stmt.ofTree_span hstmt
  unfold ParseTree.IsItem Item.ofTree
  split
  · obtain ⟨⟨head, body⟩, hfunction, h⟩ := Except.bind_eq_ok.mp hstmt
    cases h
    exact ⟨.function ⟨head, body⟩, Except.bind_eq_ok.mpr ⟨_, hfunction, rfl⟩, hspan⟩
  · cases hstmt
  · exact ⟨.stmt stmt, Except.bind_eq_ok.mpr ⟨stmt, hstmt, rfl⟩, hspan⟩

/-! ## Trees by the grammar -/

/-- The tree stands for what its category says. -/
def Category.Stands : Category → ParseTree → Prop
  | .type => ParseTree.IsType
  | .param => ParseTree.IsTyped .param
  | .field => ParseTree.IsTyped .field
  | .params => ParseTree.IsList .params (ParseTree.IsTyped .param)
  | .expr => ParseTree.IsExpr
  | .args => ParseTree.IsList .args ParseTree.IsExpr
  | .block => ParseTree.IsList .block ParseTree.IsStmt
  | .stmt => ParseTree.IsStmt
  | .item => ParseTree.IsItem
  | .unit => ParseTree.IsList .unit ParseTree.IsItem
  | .name => fun tree => ∃ token name, tree = .leaf token ∧ token.kind = .ident name
  | .literal => fun tree => ∃ token value, tree = .leaf token ∧ token.kind = Literal.token value
  | .sign => fun tree => ∃ token op, tree = .leaf token ∧ token.kind = .punct (UnOp.punct op)
  | .operator => fun tree => ∃ token op, tree = .leaf token ∧ token.kind = .punct (BinOp.punct op)
  | .binder => fun tree => ∃ (token : _) (mutable : Bool), tree = .leaf token ∧
      token.kind = .keyword (if mutable then .var else .val)

theorem forall_stands (c : Category) {cs : List Category}
    (h : List.Forall₂ Category.Stands cs trees) (hcs : ∀ d ∈ cs, d = c) :
    ∀ tree ∈ trees, c.Stands tree := by
  induction h with
  | nil => exact List.forall_mem_nil _
  | cons htree _ ih =>
    obtain ⟨rfl, hcs⟩ := List.forall_mem_cons.mp hcs
    exact List.forall_mem_cons.mpr ⟨htree, ih hcs⟩

theorem stands_struct {name : String} {token : Token} (htoken : token.kind = .ident name)
    (h : ∀ field ∈ trees, field.IsTyped .field) (span : Span) :
    ParseTree.IsItem (.node .struct span (.leaf token :: trees)) := by
  obtain ⟨fields, read, hread, -⟩ := ParseTree.exists_givesFields h
  exact ⟨.record _, Except.bind_eq_ok.mpr ⟨_, Parser.ofChildren_eq_ok htoken hread span, rfl⟩, rfl⟩

theorem stands_function {nameTree list body : ParseTree} (hname : Category.Stands .name nameTree)
    (hlist : Category.Stands .params list) (hret : ParseTree.IsOptional trees)
    (hbody : Category.Stands .block body) (span : Span) :
    ParseTree.IsStmt (.node .function span ([nameTree, list] ++ trees ++ [body])) := by
  obtain ⟨token, name, rfl, htoken⟩ := hname
  obtain ⟨paramsSpan, params, rfl, hparams⟩ := hlist
  obtain ⟨ret, hret⟩ := hret
  obtain ⟨bodySpan, stmts, rfl, hstmts⟩ := hbody
  obtain ⟨params, hparams⟩ := ParseTree.exists_givesParams hparams
  obtain ⟨stmts, hstmts⟩ := ParseTree.exists_givesStmts hstmts
  exact ⟨.function ⟨⟨name, span⟩, params, ret, span, span, none⟩ stmts,
    (ParseTree.gives_function htoken hparams hret hstmts rfl span paramsSpan bodySpan).stmt⟩

theorem stands_varDecl {binder nameTree init : ParseTree} (hbinder : Category.Stands .binder binder)
    (hname : Category.Stands .name nameTree) (hty : ParseTree.IsOptional trees)
    (hinit : init.IsExpr) (span : Span) :
    ParseTree.IsStmt (.node .varDecl span ([binder, nameTree] ++ trees ++ [init])) := by
  obtain ⟨keyword, mutable, rfl, hkeyword⟩ := hbinder
  obtain ⟨token, name, rfl, htoken⟩ := hname
  obtain ⟨ty, hty⟩ := hty
  obtain ⟨e, he⟩ := hinit
  exact ⟨.var ⟨⟨name, span⟩, mutable, ty, e, span, none⟩,
    ParseTree.gives_var hkeyword htoken hty he rfl span⟩

theorem Production.stands {rule : Rule} {parts : List Part} (h : Production c rule parts)
    (hparts : List.Forall₂ Category.Stands (parts.filterMap Part.category?) trees) (span : Span) :
    c.Stands (.node rule span trees) := by
  have hnote := Note.unspanned_fresh span
  cases h with
  | unit h =>
    exact ⟨span, trees, rfl, forall_stands .item hparts (Part.forall_concat h.categories)⟩
  | struct h =>
    obtain _ | ⟨⟨token, name, rfl, htoken⟩, hfields⟩ := hparts
    exact stands_struct htoken (forall_stands .field hfields (Part.forall_concat h.categories)) span
  | field | param =>
    obtain _ | ⟨⟨token, name, rfl, htoken⟩, _ | ⟨⟨ty, hty⟩, ⟨⟩⟩⟩ := hparts
    exact ⟨⟨name, span⟩, ty, span, token, _, rfl, htoken, hty⟩
  | params h =>
    exact ⟨span, trees, rfl, forall_stands .param hparts (Part.forall_concat h.categories)⟩
  | args h =>
    exact ⟨span, trees, rfl, forall_stands .expr hparts (Part.forall_concat h.categories)⟩
  | block h =>
    exact ⟨span, trees, rfl, forall_stands .stmt hparts (Part.forall_concat h.categories)⟩
  | function h =>
    obtain rfl | rfl := h
    · obtain _ | ⟨hname, _ | ⟨hlist, _ | ⟨hbody, ⟨⟩⟩⟩⟩ := hparts
      exact stands_function hname hlist ⟨none, rfl⟩ hbody span
    · obtain _ | ⟨hname, _ | ⟨hlist, _ | ⟨⟨ty, hty⟩, _ | ⟨hbody, ⟨⟩⟩⟩⟩⟩ := hparts
      exact stands_function hname hlist ⟨some ty, _, rfl, hty⟩ hbody span
  | type =>
    obtain _ | ⟨⟨token, name, rfl, htoken⟩, ⟨⟩⟩ := hparts
    exact ⟨.named ⟨name, span⟩, ParseTree.givesType_named htoken span⟩
  | arrayType =>
    obtain _ | ⟨⟨ty, hty⟩, ⟨⟩⟩ := hparts
    exact ⟨_, hty.array span span⟩
  | varDecl h =>
    obtain rfl | rfl := h
    · obtain _ | ⟨hbinder, _ | ⟨hname, _ | ⟨hinit, ⟨⟩⟩⟩⟩ := hparts
      exact stands_varDecl hbinder hname ⟨none, rfl⟩ hinit span
    · obtain _ | ⟨hbinder, _ | ⟨hname, _ | ⟨⟨ty, hty⟩, _ | ⟨hinit, ⟨⟩⟩⟩⟩⟩ := hparts
      exact stands_varDecl hbinder hname ⟨some ty, _, rfl, hty⟩ hinit span
  | branch =>
    obtain _ | ⟨⟨cond, hcond⟩, _ | ⟨⟨yes, hyes⟩, ⟨⟩⟩⟩ := hparts
    exact ⟨_, hcond.branch hyes span span⟩
  | choice =>
    obtain _ | ⟨⟨cond, hcond⟩, _ | ⟨⟨yes, hyes⟩, _ | ⟨⟨no, hno⟩, ⟨⟩⟩⟩⟩ := hparts
    exact ⟨_, hcond.choice hyes hno span span⟩
  | whileLoop =>
    obtain _ | ⟨⟨cond, hcond⟩, _ | ⟨⟨body, hbody⟩, ⟨⟩⟩⟩ := hparts
    exact ⟨_, hcond.loop hbody span span⟩
  | forLoop =>
    obtain _ | ⟨⟨token, name, rfl, htoken⟩, _ | ⟨⟨first, hfirst⟩, _ | ⟨⟨last, hlast⟩,
      _ | ⟨⟨body, hbody⟩, ⟨⟩⟩⟩⟩⟩ :=
      hparts
    exact ⟨.range span ⟨⟨name, span⟩, none⟩ first last body,
      ParseTree.gives_range htoken rfl hfirst hlast hbody span span⟩
  | ret =>
    obtain ⟨⟩ := hparts
    exact ⟨.ret span none, .ret span none, rfl, rfl⟩
  | retValue =>
    obtain _ | ⟨⟨value, hvalue⟩, ⟨⟩⟩ := hparts
    exact ⟨_, hvalue.ret span span⟩
  | breakStmt =>
    obtain ⟨⟩ := hparts
    exact ⟨.leave span, .leave span, rfl, rfl⟩
  | continueStmt =>
    obtain ⟨⟩ := hparts
    exact ⟨.next span, .next span, rfl, rfl⟩
  | assign =>
    obtain _ | ⟨⟨target, htarget⟩, _ | ⟨⟨value, hvalue⟩, ⟨⟩⟩⟩ := hparts
    exact ⟨_, htarget.assign hvalue span span⟩
  | exprStmt =>
    obtain _ | ⟨⟨value, hvalue⟩, ⟨⟩⟩ := hparts
    exact ⟨_, hvalue.stmt span⟩
  | binary =>
    obtain _ | ⟨⟨l, hl⟩, _ | ⟨⟨token, op, rfl, htoken⟩, _ | ⟨⟨r, hr⟩, ⟨⟩⟩⟩⟩ := hparts
    exact ⟨_, hl.binary hnote span htoken hr⟩
  | unary =>
    obtain _ | ⟨⟨token, op, rfl, htoken⟩, _ | ⟨⟨e, he⟩, ⟨⟩⟩⟩ := hparts
    exact ⟨_, ParseTree.Gives.unary hnote span htoken he⟩
  | cast =>
    obtain _ | ⟨⟨e, he⟩, _ | ⟨⟨ty, hty⟩, ⟨⟩⟩⟩ := hparts
    exact ⟨_, he.cast hnote span hty⟩
  | call =>
    obtain _ | ⟨⟨base, hbase⟩, _ | ⟨⟨argsSpan, args, rfl, hargs⟩, ⟨⟩⟩⟩ := hparts
    obtain ⟨es, hes⟩ := ParseTree.exists_givesAll hargs
    exact ⟨_, hbase.call hnote span hes argsSpan⟩
  | index =>
    obtain _ | ⟨⟨base, hbase⟩, _ | ⟨⟨e, he⟩, ⟨⟩⟩⟩ := hparts
    exact ⟨_, hbase.index hnote span he⟩
  | member =>
    obtain _ | ⟨⟨base, hbase⟩, _ | ⟨⟨token, name, rfl, htoken⟩, ⟨⟩⟩⟩ := hparts
    exact ⟨.field (.fresh span) base ⟨name, span⟩ none, hbase.field hnote span htoken⟩
  | arrayLit h =>
    obtain ⟨es, hes⟩ :=
      ParseTree.exists_givesAll (forall_stands .expr hparts (Part.forall_concat h.categories))
    exact ⟨_, hes.array hnote span⟩
  | newArray =>
    obtain _ | ⟨⟨ty, hty⟩, _ | ⟨⟨e, he⟩, ⟨⟩⟩⟩ := hparts
    exact ⟨_, hty.newArray hnote span he⟩
  | paren =>
    obtain _ | ⟨⟨e, he⟩, ⟨⟩⟩ := hparts
    exact ⟨e, he.paren span⟩
  | literal =>
    obtain _ | ⟨⟨token, value, rfl, htoken⟩, ⟨⟩⟩ := hparts
    exact ⟨_, ParseTree.gives_literal hnote span htoken⟩
  | name =>
    obtain _ | ⟨⟨token, name, rfl, htoken⟩, ⟨⟩⟩ := hparts
    exact ⟨.name (.fresh span) ⟨name, none⟩, ParseTree.gives_name hnote span htoken rfl⟩

/-- **Every tree of the grammar stands for what its category says.** -/
theorem Derives.stands {P : List Token → ParseTree → Prop} (h : Derives P c tokens tree) :
    c.Stands tree := by
  induction h using Derives.induct with
  | @leaf _ token htakes _ =>
    generalize hkind : token.kind = kind at htakes
    cases htakes <;> exact ⟨_, _, rfl, ‹_›⟩
  | node hproduction hfills _ =>
    exact hproduction.stands (hfills.forall₂ fun _ _ _ h => h.2) _
  | within hwithin _ ih =>
    cases hwithin with
    | block =>
      obtain ⟨span, trees, rfl, hstmts⟩ := ih
      obtain ⟨stmts, hstmts⟩ := ParseTree.exists_givesStmts hstmts
      exact ⟨.block span stmts, hstmts.block span span⟩
    | stmt => exact ParseTree.IsStmt.isItem ih

theorem Derives.all {P : Token → Prop} (h : Derives ParseTree.Covers c tokens tree)
    (htokens : ∀ token ∈ tokens, P token) :
    tree.All P := by
  induction h using Derives.induct with
  | leaf _ _ => exact .leaf (htokens _ List.mem_cons_self)
  | node _ hfills hcovers =>
    obtain ⟨first, hfirst, last, hlast, hspan⟩ := hcovers
    cases hspan
    refine .node (htokens _ (List.mem_of_mem_head? hfirst)) (htokens _ (List.mem_of_getLast? hlast))
      fun tree htree => ?_
    obtain ⟨c, taken, ⟨_, ih⟩, htaken⟩ := hfills.exists_of_mem htree
    exact ih fun token htoken => htokens token (htaken.subset htoken)
  | within _ _ ih => exact ih htokens

/-- Every tree of the parser is a node for a unit, made of the tokens. -/
theorem parseTokens_items {P : Token → Prop} (h : parseTokens tokens = .ok tree)
    (htokens : ∀ token ∈ tokens, P token) :
    tree.All P ∧ ∃ span children, tree = .node .unit span children ∧
      ∀ child ∈ children, child.IsItem := by
  obtain ⟨front, eof, back, rfl, -, htree⟩ := parseTokens_derives h
  refine ⟨htree.all fun token htoken => htokens token ?_, htree.stands⟩
  rw [List.append_cons]
  exact List.mem_append_left _ htoken

/-- **Every tree of the parser is the tree of a unit.** The unit has an item for each child of the
tree, in order, which covers the range of that child; an expression by itself covers the range of
the expression, without parentheses around it and the semicolon. -/
theorem SourceUnit.ofTree_parsed {tokens : List Token} {tree : ParseTree}
    (h : parseTokens tokens = .ok tree) (name : String) :
    ∃ span children unit, tree = .node .unit span children ∧
      SourceUnit.ofTree name tree = .ok unit ∧ unit.span = span ∧
      List.Forall₂ (fun child item => item.span = ParseTree.itemSpan child) children
        unit.items := by
  obtain ⟨-, span, children, rfl, hchildren⟩ := parseTokens_items h (fun _ _ => trivial)
  have hitems : ∃ items, List.Forall₂ (fun child item => Item.ofTree child = .ok item ∧
      item.span = child.itemSpan) children items :=
    ParseTree.exists_gives .nil (fun _ _ _ htree hitems => htree.imp fun _ h => .cons h hitems)
      hchildren
  obtain ⟨items, hitems⟩ := hitems
  refine ⟨span, children, ⟨name, items, span⟩, rfl, Except.bind_eq_ok.mpr
    ⟨(⟨.unit, span⟩, children), rfl, Except.bind_eq_ok.mpr ⟨items, ?_, rfl⟩⟩, rfl,
    hitems.imp fun _ _ h => h.2⟩
  exact mapM_eq_ok.mpr (hitems.imp fun _ _ h => h.1)

def twoTokens : List Token :=
  [⟨.punct .lparen, ⟨0, 1, 1, 1⟩⟩, ⟨.intLit 1, ⟨1, 2, 1, 2⟩⟩, ⟨.punct .rparen, ⟨2, 3, 1, 3⟩⟩,
    ⟨.punct .semicolon, ⟨3, 4, 1, 4⟩⟩, ⟨.keyword .return_, ⟨5, 11, 1, 6⟩⟩,
    ⟨.punct .semicolon, ⟨11, 12, 1, 12⟩⟩, ⟨.eof, ⟨12, 12, 1, 13⟩⟩]

theorem twoTokens_parsed : ∃ tree span children unit, parseTokens twoTokens = .ok tree ∧
    tree = .node .unit span children ∧ SourceUnit.ofTree "t" tree = .ok unit ∧ unit.span = span ∧
    List.Forall₂ (fun child item => item.span = ParseTree.itemSpan child) children unit.items := by
  obtain ⟨tree, htree⟩ : ∃ tree, parseTokens twoTokens = .ok tree := ⟨_, rfl⟩
  obtain ⟨span, children, unit, hrest⟩ := SourceUnit.ofTree_parsed htree "t"
  exact ⟨tree, span, children, unit, htree, hrest⟩

/-- An expression by itself does not cover the range of its tree, as in `1;`. -/
theorem lone_expression_span : ∃ span children unit,
    parseTokens [⟨.intLit 1, ⟨0, 1, 1, 1⟩⟩, ⟨.punct .semicolon, ⟨1, 2, 1, 2⟩⟩,
      ⟨.eof, ⟨2, 2, 1, 3⟩⟩] = .ok (.node .unit span children) ∧
    SourceUnit.ofTree "t" (.node .unit span children) = .ok unit ∧
    unit.items.map Item.span ≠ children.map ParseTree.span :=
  ⟨_, _, _, rfl, rfl, by decide⟩

/-! ## Tokens of the text -/

/-- **The items of a parsed unit are made of tokens of the text.** -/
theorem SourceUnit.parse_items {name source : String} {unit : SourceUnit}
    (h : SourceUnit.parse name source = .ok unit) {item : Item} (hitem : item ∈ unit.items) :
    ∃ tree, Item.ofTree tree = .ok item ∧ tree.All (· ∈ tokenize source) := by
  obtain ⟨tree, htree, h⟩ := Except.bind_eq_ok.mp h
  obtain ⟨hall, span, children, rfl, -⟩ := parseTokens_items htree fun _ => id
  obtain ⟨_, ⟨⟩, h⟩ := Except.bind_eq_ok.mp h
  obtain ⟨items, hitems, h⟩ := Except.bind_eq_ok.mp h
  cases h
  obtain ⟨child, hchild, hread⟩ := exists_of_mapM_eq_ok hitems hitem
  exact ⟨child, hread, hall.inner child hchild⟩

/-- **In a parsed unit numbers are natural, and functions at the top are items.** -/
theorem SourceUnit.parse_plain {name source : String} {unit : SourceUnit}
    (h : SourceUnit.parse name source = .ok unit) :
    (∀ item ∈ unit.items, item.Plain) ∧ ∀ stmt ∈ Item.stmts unit.items, stmt.Natural := by
  refine ⟨fun item hitem => ?_, fun stmt hstmt => ?_⟩
  · obtain ⟨tree, htree, -⟩ := SourceUnit.parse_items h hitem
    exact Item.ofTree_plain htree
  · obtain ⟨item, hitem, hstmt⟩ := List.mem_filterMap.mp hstmt
    obtain ⟨tree, htree, htokens⟩ := SourceUnit.parse_items h hitem
    exact Item.ofTree_natural htree (htokens.imp tokenize_written) stmt hstmt

end StackCompiler

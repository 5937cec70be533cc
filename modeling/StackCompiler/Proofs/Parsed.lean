import StackCompiler.Ast.OfParseTree
import StackCompiler.Proofs.Lexemes
import StackCompiler.Proofs.Steps
import StackCompiler.Proofs.Trees

/-!
# Syntax trees of parse trees

What is read from a parse tree follows the tree. The numbers of an expression are among the tokens
of its tree, and in a text they are written without a sign.

* `TokenKind.Written`, `tokenize_written`: names and numbers in a text;
* **`Item.ofTree_natural`**: numbers of an item are natural numbers if its tokens are as in a text;
* `SourceUnit.ofTree_plain`: functions at the top of a unit are items of their own.
-/

namespace StackCompiler

open List StackCompiler.Except

variable {e : Expr} {item : Item} {trees : List ParseTree} {tree : ParseTree} {span : Span}
  {stmt : Stmt} {token : Token} {P : Token → Prop}

/-- All tokens of a tree have a property, and each node reaches from one such token to another. -/
inductive ParseTree.All (P : Token → Prop) : ParseTree → Prop
  | leaf {token : Token} : P token → All P (.leaf token)
  | node {rule : Rule} {first last : Token} {children : List ParseTree} : P first → P last →
      (∀ tree ∈ children, All P tree) → All P (.node rule (first.span.merge last.span) children)

theorem ParseTree.All.imp {Q : Token → Prop} (h : tree.All P)
    (himp : ∀ {token}, P token → Q token) : tree.All Q := by
  induction h with
  | leaf htoken => exact .leaf (himp htoken)
  | node hfirst hlast _ ih => exact .node (himp hfirst) (himp hlast) ih

/-! ## Tokens of a text -/

/-- What a token of a text can be. -/
def TokenKind.Written (kind : TokenKind) : Prop := kind ≠ .eof → kind.Lexed

theorem tokenize_written {source : String} (h : token ∈ tokenize source) : token.kind.Written := by
  have hfrom (fuel : Nat) (p : Position) (cs : List Char) :
      ∀ token ∈ tokensFrom fuel p cs, token.kind.Written := by
    induction fuel generalizing p cs with
    | zero => exact forall_mem_singleton.mpr fun h => absurd rfl h
    | succ fuel ih =>
      rw [tokensFrom]
      dsimp only
      split
      · exact forall_mem_singleton.mpr fun h => absurd rfl h
      · exact forall_mem_cons.mpr ⟨fun _ => lexeme_lexed _ _, ih _ _⟩
  exact hfrom _ _ _ token h

/-! ## Syntax trees -/

def ParseTree.children : ParseTree → List ParseTree
  | .leaf _ => []
  | .node _ _ children => children

/-- Induction over parse trees: arguments and bodies stand two levels down. -/
theorem ParseTree.induction {motive : ParseTree → Prop} (leaf : ∀ token, motive (.leaf token))
    (node : ∀ rule span children, (∀ child ∈ children, motive child ∧
      ∀ inner ∈ child.children, motive inner) → motive (.node rule span children))
    (tree : ParseTree) : motive tree := by
  suffices h : motive tree ∧ ∀ inner ∈ tree.children, motive inner from h.1
  exact @ParseTree.rec (fun tree => motive tree ∧ ∀ inner ∈ tree.children, motive inner)
    (fun trees => ∀ tree ∈ trees, motive tree ∧ ∀ inner ∈ tree.children, motive inner)
    (fun token => ⟨leaf token, nofun⟩)
    (fun rule span children h =>
      ⟨node rule span children h, fun inner hinner => (h inner hinner).1⟩)
    (fun _ h => nomatch h)
    (fun _ _ ht hts _ h => by
      cases h with
      | head => exact ht
      | tail _ h => exact hts _ h) tree

theorem ParseTree.All.inner (h : tree.All P) : ∀ inner ∈ tree.children, inner.All P := by
  cases h with
  | leaf _ => exact nofun
  | node _ _ hchildren => exact hchildren

abbrev ParseTree.Written (tree : ParseTree) : Prop := tree.All fun token => token.kind.Written

theorem Except.map_eq_ok {α β ε : Type} {x : Except ε α} {f : α → β} {r : β} :
    f <$> x = .ok r ↔ ∃ a, x = .ok a ∧ f a = r := by
  cases x <;> simp

attribute [local simp] bind_eq_ok map_eq_ok malformed

theorem childAt_mem {node : NodeHead} {children : List ParseTree} {index : Nat} {what : String}
    {child : ParseTree} (h : childAt node children index what = .ok child) : child ∈ children := by
  unfold childAt at h
  split at h
  · cases h
    exact mem_of_getElem? ‹_›
  · cases h

theorem Literal.ofChildren_natural {children : List ParseTree} {value : Literal}
    (h : Literal.ofChildren span children = .ok value)
    (hchildren : ∀ child ∈ children, child.Written) : value.Natural := by
  obtain ⟨token, htoken, h⟩ := bind_eq_ok.mp h
  obtain ⟨child, hchild, htoken⟩ := bind_eq_ok.mp htoken
  cases child with
  | node rule span children => cases htoken
  | leaf token' =>
    cases htoken
    obtain ⟨hwritten⟩ := hchildren _ (childAt_mem hchild)
    split at h <;> cases h
    iterate 2
      · rw [‹token.kind = _›] at hwritten
        exact hwritten nofun
    all_goals trivial

theorem Expr.ofTrees_eq (trees : List ParseTree) : Expr.ofTrees trees = trees.mapM Expr.ofTree := by
  induction trees with
  | nil => rfl
  | cons tree trees ih => rw [Expr.ofTrees, ih, mapM_cons]

theorem Expr.exists_of_ofTrees {es : List Expr} (h : Expr.ofTrees trees = .ok es) (he : e ∈ es) :
    ∃ tree ∈ trees, Expr.ofTree tree = .ok e :=
  exists_of_mapM_eq_ok (Expr.ofTrees_eq trees ▸ h) he

/-- Induction over the trees of expressions: what holds of the parts holds of the expression made of
them. -/
theorem Expr.ofTree_induction {motive : ParseTree → Expr → Prop}
    (literal : ∀ span children value, Literal.ofChildren span children = .ok value →
      motive (.node .literal span children) (.literal (.fresh span) value))
    (name : ∀ span children name,
      motive (.node .name span children) (.name (.fresh span) ⟨name, none⟩))
    (paren : ∀ span children e, (∃ tree ∈ children, motive tree e) →
      motive (.node .paren span children) e)
    (binary : ∀ span children op left right, (∃ tree ∈ children, motive tree left) →
      (∃ tree ∈ children, motive tree right) →
      motive (.node .binary span children) (.binary (.fresh span) op left right))
    (unary : ∀ span children op operand, (∃ tree ∈ children, motive tree operand) →
      motive (.node .unary span children) (.unary (.fresh span) op operand))
    (call : ∀ span children callee args, (∃ tree ∈ children, motive tree callee) →
      (∃ list ∈ children, ∀ arg ∈ args, ∃ tree ∈ list.children, motive tree arg) →
      motive (.node .call span children) (.call (.fresh span) callee args none))
    (field : ∀ span children base ident, (∃ tree ∈ children, motive tree base) →
      motive (.node .member span children) (.field (.fresh span) base ident none))
    (index : ∀ span children base position, (∃ tree ∈ children, motive tree base) →
      (∃ tree ∈ children, motive tree position) →
      motive (.node .index span children) (.index (.fresh span) base position))
    (array : ∀ span children elems, (∀ elem ∈ elems, ∃ tree ∈ children, motive tree elem) →
      motive (.node .arrayLit span children) (.array (.fresh span) elems))
    (newArray : ∀ span children elem length, (∃ tree ∈ children, motive tree length) →
      motive (.node .newArray span children) (.newArray (.fresh span) elem length))
    (cast : ∀ span children operand target, (∃ tree ∈ children, motive tree operand) →
      motive (.node .cast span children) (.cast (.fresh span) operand target))
    (h : Expr.ofTree tree = .ok e) : motive tree e := by
  induction tree using ParseTree.induction generalizing e with
  | leaf token => cases h
  | node rule span children ih =>
    have hpart {child : ParseTree} (hmem : child ∈ children) {x : Expr}
        (hx : Expr.ofTree child = .ok x) : ∃ tree ∈ children, motive tree x :=
      ⟨child, hmem, (ih child hmem).1 hx⟩
    cases rule with
    | literal =>
      obtain ⟨value, hvalue, h⟩ := bind_eq_ok.mp h
      cases h
      exact literal span children value hvalue
    | name =>
      obtain ⟨ident, _, h⟩ := bind_eq_ok.mp h
      cases h
      exact name span children ident.name
    | paren =>
      obtain _ | ⟨inner, _⟩ := children
      · cases h
      · exact paren span _ e (hpart mem_cons_self h)
    | binary =>
      obtain _ | ⟨leftTree, _ | ⟨_, _ | ⟨rightTree, _⟩⟩⟩ := children <;> simp [Expr.ofTree] at h
      obtain ⟨_, _, op, _, left, hleft, right, hright, rfl⟩ := h
      exact binary span _ op left right (hpart (by simp) hleft) (hpart (by simp) hright)
    | unary =>
      obtain _ | ⟨_, _ | ⟨tree, _⟩⟩ := children <;> simp [Expr.ofTree] at h
      obtain ⟨_, _, op, _, operand, hoperand, rfl⟩ := h
      exact unary span _ op operand (hpart (by simp) hoperand)
    | cast =>
      obtain _ | ⟨tree, _ | ⟨_, _⟩⟩ := children <;> simp [Expr.ofTree] at h
      obtain ⟨operand, hoperand, target, _, rfl⟩ := h
      exact cast span _ operand target (hpart (by simp) hoperand)
    | call =>
      obtain _ | ⟨calleeTree, _ | ⟨_ | ⟨rule, argsSpan, trees⟩, _⟩⟩ := children
      iterate 3 cases h
      cases rule with
      | args =>
        simp [Expr.ofTree] at h
        obtain ⟨callee, hcallee, args, hargs, rfl⟩ := h
        refine call span _ callee args (hpart (by simp) hcallee)
          ⟨.node .args argsSpan trees, by simp, fun arg harg => ?_⟩
        obtain ⟨tree, htree, hread⟩ := Expr.exists_of_ofTrees hargs harg
        exact ⟨tree, htree, (ih (.node .args argsSpan trees) (by simp)).2 tree htree hread⟩
      | _ => cases h
    | index =>
      obtain _ | ⟨baseTree, _ | ⟨positionTree, _⟩⟩ := children <;> simp [Expr.ofTree] at h
      obtain ⟨base, hbase, position, hposition, rfl⟩ := h
      exact index span _ base position (hpart (by simp) hbase) (hpart (by simp) hposition)
    | member =>
      obtain _ | ⟨baseTree, _⟩ := children <;> simp [Expr.ofTree] at h
      obtain ⟨base, hbase, ident, _, rfl⟩ := h
      exact field span _ base ident (hpart (by simp) hbase)
    | arrayLit =>
      obtain ⟨elems, helems, h⟩ := bind_eq_ok.mp h
      cases h
      refine array span children elems fun elem helem => ?_
      obtain ⟨tree, htree, hread⟩ := Expr.exists_of_ofTrees helems helem
      exact hpart htree hread
    | newArray =>
      obtain _ | ⟨_, _ | ⟨lengthTree, _⟩⟩ := children <;> simp [Expr.ofTree] at h
      obtain ⟨_, _, elem, _, length, hlength, rfl⟩ := h
      exact newArray span _ elem length (hpart (by simp) hlength)
    | _ => cases h

theorem Expr.ofTree_natural (h : Expr.ofTree tree = .ok e) (htree : tree.Written) : e.Natural := by
  -- a part of a natural tree gives a natural expression
  have hpart {children : List ParseTree} {span : Span} {rule : Rule} {x : Expr}
      (h : ∃ tree ∈ children, tree.Written → x.Natural)
      (htree : (ParseTree.node rule span children).Written) : x.Natural := by
    obtain ⟨tree, hmem, hx⟩ := h
    exact hx (htree.inner tree hmem)
  have hparts {children : List ParseTree} {xs : List Expr}
      (h : ∀ x ∈ xs, ∃ tree ∈ children, tree.Written → x.Natural)
      (hchildren : ∀ tree ∈ children, tree.Written) :
      ∀ x ∈ Expr.subsAll xs, ∀ note value, x = .literal note value → value.Natural := by
    intro x hx
    obtain ⟨y, hy, hx⟩ := Expr.mem_subsAll.mp hx
    obtain ⟨tree, hmem, hy⟩ := h y hy
    exact hy (hchildren tree hmem) x hx
  refine Expr.ofTree_induction (motive := fun tree e => tree.Written → e.Natural) ?literal ?name
    ?paren ?binary ?unary ?call ?field ?index ?array ?newArray ?cast h htree
  case literal =>
    intro span children value hvalue htree x hx note v heq
    rw [mem_singleton.mp hx] at heq
    cases heq
    exact Literal.ofChildren_natural hvalue htree.inner
  case name => exact fun span children name _ => Expr.natural_of_parts rfl nofun nofun
  case paren => exact fun span children e => hpart
  case binary =>
    intro span children op left right hleft hright htree
    exact Expr.natural_of_parts rfl nofun (forall_mem_append.mpr
      ⟨hpart hleft htree, hpart hright htree⟩)
  case unary =>
    intro span children op operand hoperand htree
    exact Expr.natural_of_parts rfl nofun (hpart hoperand htree)
  case call =>
    intro span children callee args hcallee hargs htree
    obtain ⟨list, hlist, hargs⟩ := hargs
    exact Expr.natural_of_parts rfl nofun (forall_mem_append.mpr ⟨hpart hcallee htree,
      hparts hargs (htree.inner list hlist).inner⟩)
  case field =>
    intro span children base ident hbase htree
    exact Expr.natural_of_parts rfl nofun (hpart hbase htree)
  case index =>
    intro span children base position hbase hposition htree
    exact Expr.natural_of_parts rfl nofun (forall_mem_append.mpr
      ⟨hpart hbase htree, hpart hposition htree⟩)
  case array =>
    intro span children elems helems htree
    exact Expr.natural_of_parts rfl nofun (hparts helems htree.inner)
  case newArray =>
    intro span children elem length hlength htree
    exact Expr.natural_of_parts rfl nofun (hpart hlength htree)
  case cast =>
    intro span children operand target hoperand htree
    exact Expr.natural_of_parts rfl nofun (hpart hoperand htree)

theorem VarDecl.ofChildren_init {children : List ParseTree} {decl : VarDecl}
    (h : VarDecl.ofChildren span children = .ok decl) : decl.symbol = none ∧ decl.span = span ∧
      ∃ tree ∈ children, Expr.ofTree tree = .ok decl.init := by
  simp [VarDecl.ofChildren] at h
  obtain ⟨_, _, h⟩ := h
  split at h <;> simp at h
  all_goals
    obtain ⟨_, _, third, hthird, h⟩ := h
    split_ifs at h <;> simp at h
    · obtain ⟨_, _, child, hchild, init, hinit, rfl⟩ := h
      exact ⟨rfl, rfl, child, childAt_mem hchild, hinit⟩
    · obtain ⟨init, hinit, rfl⟩ := h
      exact ⟨rfl, rfl, third, childAt_mem hthird, hinit⟩

theorem Stmt.ofTrees_eq (trees : List ParseTree) : Stmt.ofTrees trees = trees.mapM Stmt.ofTree := by
  induction trees with
  | nil => rfl
  | cons tree trees ih => rw [Stmt.ofTrees, ih, mapM_cons]

theorem Stmt.exists_of_ofTrees {stmts : List Stmt} (h : Stmt.ofTrees trees = .ok stmts)
    (hstmt : stmt ∈ stmts) : ∃ tree ∈ trees, Stmt.ofTree tree = .ok stmt :=
  exists_of_mapM_eq_ok (Stmt.ofTrees_eq trees ▸ h) hstmt

/-- A function declaration has its head from the node, and its body from a block below it. -/
theorem Stmt.ofFunction_eq_ok {children : List ParseTree} {head : FunctionHead} {body : List Stmt}
    (h : Stmt.ofFunction span children = .ok (head, body)) :
    (∃ head' bodySpan, FunctionHead.ofChildren span children = .ok head' ∧
      head = { head' with bodySpan := bodySpan }) ∧
    ∃ block ∈ children, Stmt.ofTrees block.children = .ok body := by
  obtain _ | ⟨name, _ | ⟨list, _ | ⟨third, rest⟩⟩⟩ := children
  iterate 3
    rw [Stmt.ofFunction] at h
    · obtain ⟨_, _, h⟩ := bind_eq_ok.mp h
      cases h
    · exact nofun
  rw [Stmt.ofFunction] at h
  obtain ⟨head', hhead, h⟩ := bind_eq_ok.mp h
  split_ifs at h
  all_goals
    split at h
    · rename_i bodySpan trees _ _
      obtain ⟨stmts, hstmts, h⟩ := bind_eq_ok.mp h
      cases h
      exact ⟨⟨head', bodySpan, hhead, rfl⟩, .node .block bodySpan trees, by simp, hstmts⟩
    all_goals cases h

/-- Induction over the trees of statements. -/
theorem Stmt.ofTree_induction {motive : ParseTree → Stmt → Prop}
    (var : ∀ span children decl, VarDecl.ofChildren span children = .ok decl →
      motive (.node .varDecl span children) (.var decl))
    (function : ∀ span children head body bodySpan,
      FunctionHead.ofChildren span children = .ok head →
      (∃ block ∈ children, ∀ stmt ∈ body, ∃ tree ∈ block.children, motive tree stmt) →
      motive (.node .function span children) (.function { head with bodySpan := bodySpan } body))
    (block : ∀ span children body, (∀ stmt ∈ body, ∃ tree ∈ children, motive tree stmt) →
      motive (.node .block span children) (.block span body))
    (branch : ∀ span children cond yes no, (∃ tree ∈ children, Expr.ofTree tree = .ok cond) →
      (∃ tree ∈ children, motive tree yes) → (∀ stmt ∈ no, ∃ tree ∈ children, motive tree stmt) →
      motive (.node .branch span children) (.branch span cond yes no))
    (loop : ∀ span children cond body, (∃ tree ∈ children, Expr.ofTree tree = .ok cond) →
      (∃ tree ∈ children, motive tree body) →
      motive (.node .whileLoop span children) (.loop span cond body))
    (range : ∀ span children name first last body,
      (∃ tree ∈ children, Expr.ofTree tree = .ok first) →
      (∃ tree ∈ children, Expr.ofTree tree = .ok last) → (∃ tree ∈ children, motive tree body) →
      motive (.node .forLoop span children) (.range span ⟨name, none⟩ first last body))
    (ret : ∀ span children value, (∀ e ∈ value, ∃ tree ∈ children, Expr.ofTree tree = .ok e) →
      motive (.node .ret span children) (.ret span value))
    (leave : ∀ span children, motive (.node .breakStmt span children) (.leave span))
    (next : ∀ span children, motive (.node .continueStmt span children) (.next span))
    (assign : ∀ span children target value, (∃ tree ∈ children, Expr.ofTree tree = .ok target) →
      (∃ tree ∈ children, Expr.ofTree tree = .ok value) →
      motive (.node .assign span children) (.assign span target value))
    (expr : ∀ span children value, (∃ tree ∈ children, Expr.ofTree tree = .ok value) →
      motive (.node .exprStmt span children) (.expr value)) (h : Stmt.ofTree tree = .ok stmt) :
    motive tree stmt := by
  induction tree using ParseTree.induction generalizing stmt with
  | leaf token => cases h
  | node rule span children ih =>
    have hpart {child : ParseTree} (hmem : child ∈ children) {x : Stmt}
        (hx : Stmt.ofTree child = .ok x) : ∃ tree ∈ children, motive tree x :=
      ⟨child, hmem, (ih child hmem).1 hx⟩
    have hexpr {node : NodeHead} {index : Nat} {what : String} {child : ParseTree} {x : Expr}
        (hchild : childAt node children index what = .ok child)
        (hx : Expr.ofTree child = .ok x) : ∃ tree ∈ children, Expr.ofTree tree = .ok x :=
      ⟨child, childAt_mem hchild, hx⟩
    cases rule with
    | block =>
      obtain ⟨body, hbody, h⟩ := bind_eq_ok.mp h
      cases h
      refine block span children body fun stmt hstmt => ?_
      obtain ⟨tree, htree, hread⟩ := Stmt.exists_of_ofTrees hbody hstmt
      exact hpart htree hread
    | function =>
      obtain ⟨⟨head, body⟩, hbody, h⟩ := bind_eq_ok.mp h
      cases h
      obtain ⟨⟨head', bodySpan, hhead, rfl⟩, child, hchild, hbody⟩ := Stmt.ofFunction_eq_ok hbody
      refine function span children head' body bodySpan hhead ⟨child, hchild, fun stmt hstmt => ?_⟩
      obtain ⟨tree, htree, hread⟩ := Stmt.exists_of_ofTrees hbody hstmt
      exact ⟨tree, htree, (ih child hchild).2 tree htree hread⟩
    | varDecl =>
      obtain ⟨decl, hdecl, h⟩ := bind_eq_ok.mp h
      cases h
      exact var span children decl hdecl
    | branch =>
      obtain _ | ⟨_, _ | ⟨yesTree, _ | ⟨noTree, _⟩⟩⟩ := children <;> simp [Stmt.ofTree] at h
      · obtain ⟨child, hchild, cond, hcond, yes, hyes, rfl⟩ := h
        exact branch span _ cond yes none (hexpr hchild hcond) (hpart (by simp) hyes) nofun
      · obtain ⟨child, hchild, cond, hcond, yes, hyes, no, hno, rfl⟩ := h
        refine branch span _ cond yes (some no) (hexpr hchild hcond) (hpart (by simp) hyes) ?_
        rintro _ ⟨⟩
        exact hpart (by simp) hno
    | whileLoop =>
      obtain _ | ⟨_, _ | ⟨bodyTree, _⟩⟩ := children <;> simp [Stmt.ofTree] at h
      obtain ⟨child, hchild, cond, hcond, body, hbody, rfl⟩ := h
      exact loop span _ cond body (hexpr hchild hcond) (hpart (by simp) hbody)
    | forLoop =>
      obtain _ | ⟨_, _ | ⟨_, _ | ⟨_, _ | ⟨bodyTree, _⟩⟩⟩⟩ := children <;> simp [Stmt.ofTree] at h
      obtain ⟨name, _, _, hfirst, first, hfirst', _, hlast, last, hlast', body, hbody, rfl⟩ := h
      exact range span _ name first last body (hexpr hfirst hfirst') (hexpr hlast hlast')
        (hpart (by simp) hbody)
    | ret =>
      obtain _ | ⟨valueTree, _⟩ := children
      · cases h
        exact ret span _ none nofun
      · obtain ⟨value, hvalue, h⟩ := bind_eq_ok.mp h
        cases h
        refine ret span _ (some value) ?_
        rintro _ ⟨⟩
        exact ⟨valueTree, mem_cons_self, hvalue⟩
    | breakStmt =>
      cases h
      exact leave span children
    | continueStmt =>
      cases h
      exact next span children
    | assign =>
      simp [Stmt.ofTree] at h
      obtain ⟨_, hchild, target, htarget, _, hchild', value, hvalue, rfl⟩ := h
      exact assign span children target value (hexpr hchild htarget) (hexpr hchild' hvalue)
    | exprStmt =>
      obtain ⟨child, hchild, h⟩ := bind_eq_ok.mp h
      obtain ⟨value, hvalue, h⟩ := bind_eq_ok.mp h
      cases h
      exact expr span children value (hexpr hchild hvalue)
    | _ => cases h

theorem Stmt.ofTree_natural (h : Stmt.ofTree tree = .ok stmt) (htree : tree.Written) :
    stmt.Natural := by
  have hpart {children : List ParseTree} {span : Span} {rule : Rule} {x : Stmt}
      (h : ∃ tree ∈ children, tree.Written → x.Natural)
      (htree : (ParseTree.node rule span children).Written) : x.Natural := by
    obtain ⟨tree, hmem, hx⟩ := h
    exact hx (htree.inner tree hmem)
  have hparts {children : List ParseTree} {xs : List Stmt}
      (h : ∀ x ∈ xs, ∃ tree ∈ children, tree.Written → x.Natural)
      (hchildren : ∀ tree ∈ children, tree.Written) :
      ∀ x ∈ Stmt.exprsAll xs, ∀ note value, x = .literal note value → value.Natural := by
    intro x hx
    obtain ⟨y, hy, hx⟩ := Stmt.mem_exprsAll.mp hx
    obtain ⟨tree, hmem, hy⟩ := h y hy
    exact hy (hchildren tree hmem) x hx
  have hexpr {children : List ParseTree} {span : Span} {rule : Rule} {x : Expr}
      (h : ∃ tree ∈ children, Expr.ofTree tree = .ok x)
      (htree : (ParseTree.node rule span children).Written) : x.Natural := by
    obtain ⟨tree, hmem, hx⟩ := h
    exact Expr.ofTree_natural hx (htree.inner tree hmem)
  refine Stmt.ofTree_induction (motive := fun tree stmt => tree.Written → stmt.Natural) ?var
    ?function ?block ?branch ?loop ?range ?ret ?leave ?next ?assign ?expr h htree
  case var =>
    exact fun span children decl hdecl htree => hexpr (VarDecl.ofChildren_init hdecl).2.2 htree
  case function =>
    intro span children head body bodySpan _ hbody htree
    obtain ⟨block, hblock, hbody⟩ := hbody
    exact hparts hbody (htree.inner block hblock).inner
  case block =>
    exact fun span children body hbody htree => hparts hbody htree.inner
  case branch =>
    intro span children cond yes no hcond hyes hno htree
    cases no with
    | none => exact forall_mem_append.mpr ⟨hexpr hcond htree, hpart hyes htree⟩
    | some no =>
      exact forall_mem_append.mpr ⟨hexpr hcond htree, forall_mem_append.mpr
        ⟨hpart hyes htree, hpart (hno no rfl) htree⟩⟩
  case loop =>
    intro span children cond body hcond hbody htree
    exact forall_mem_append.mpr ⟨hexpr hcond htree, hpart hbody htree⟩
  case range =>
    intro span children name first last body hfirst hlast hbody htree
    exact forall_mem_append.mpr ⟨hexpr hfirst htree, forall_mem_append.mpr
      ⟨hexpr hlast htree, hpart hbody htree⟩⟩
  case ret =>
    intro span children value hvalue htree
    cases value with
    | none => exact nofun
    | some value => exact hexpr (hvalue value rfl) htree
  case leave => exact fun span children _ => nofun
  case next => exact fun span children _ => nofun
  case assign =>
    intro span children target value htarget hvalue htree
    exact forall_mem_append.mpr ⟨hexpr htarget htree, hexpr hvalue htree⟩
  case expr => exact fun span children value => hexpr

/-! ## Units -/

theorem Item.ofTree_eq_ok (h : Item.ofTree tree = .ok item) :
    (∃ decl span children, item = .record decl ∧ RecordDecl.ofChildren span children = .ok decl) ∨
      ∃ stmt ∈ item.stmt?, Stmt.ofTree tree = .ok stmt := by
  unfold Item.ofTree at h
  split at h
  · obtain ⟨⟨head, body⟩, hbody, h⟩ := bind_eq_ok.mp h
    cases h
    exact .inr ⟨.function head body, rfl, bind_eq_ok.mpr ⟨(head, body), hbody, rfl⟩⟩
  · rename_i span children
    obtain ⟨decl, hdecl, h⟩ := bind_eq_ok.mp h
    cases h
    exact .inl ⟨decl, span, children, rfl, hdecl⟩
  · obtain ⟨stmt, hstmt, h⟩ := bind_eq_ok.mp h
    cases h
    exact .inr ⟨stmt, rfl, hstmt⟩

theorem Item.ofTree_plain (h : Item.ofTree tree = .ok item) : item.Plain := by
  unfold Item.ofTree at h
  split at h
  · obtain ⟨_, _, h⟩ := bind_eq_ok.mp h
    cases h
    trivial
  · obtain ⟨_, _, h⟩ := bind_eq_ok.mp h
    cases h
    trivial
  · rename_i hfunction hrecord
    obtain ⟨stmt, hstmt, h⟩ := bind_eq_ok.mp h
    cases h
    refine Stmt.ofTree_induction (motive := fun t stmt => t = tree → stmt.isFunction = false) ?var
      ?function ?block ?branch ?loop ?range ?ret ?leave ?next ?assign ?expr hstmt rfl
    case function =>
      intro span children head body bodySpan _ _ heq
      exact absurd heq.symm (hfunction span children)
    all_goals intros; rfl

theorem Item.ofTree_natural (h : Item.ofTree tree = .ok item) (htree : tree.Written) :
    ∀ stmt ∈ item.stmt?, stmt.Natural := by
  intro stmt hstmt
  obtain ⟨decl, span, children, rfl, _⟩ | ⟨stmt', hstmt', hread⟩ := Item.ofTree_eq_ok h
  · cases hstmt
  · cases hstmt.symm.trans hstmt'
    exact Stmt.ofTree_natural hread htree

theorem SourceUnit.ofTree_plain {name : String} {unit : SourceUnit}
    (h : SourceUnit.ofTree name tree = .ok unit) : ∀ item ∈ unit.items, item.Plain := by
  obtain ⟨⟨node, children⟩, _, h⟩ := bind_eq_ok.mp h
  obtain ⟨items, hitems, h⟩ := bind_eq_ok.mp h
  cases h
  intro item hitem
  obtain ⟨tree, _, htree⟩ := exists_of_mapM_eq_ok hitems hitem
  exact Item.ofTree_plain htree

end StackCompiler

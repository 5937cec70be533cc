import StackCompiler.Proofs.Parsed
import StackCompiler.Proofs.Reading

/-!
# Printed units are read back

What is printed of a unit is read back as that unit, up to the places of its tokens. The tokens have
to be those of a unit that a parse tree gives: in such a unit nothing is filled in by the analysis.

* `ParseTree.GivesStmt`, `ParseTree.GivesFunction`, `Parser.GivesItem`: what a tree stands for;
* **`SourceUnit.parse_print`**: printing and reading.
-/

namespace StackCompiler

open List

variable {cond e value : Expr} {head : FunctionHead} {item : Item} {items : List Item}
  {trees : List ParseTree} {body : List Stmt} {tree : ParseTree} {token : Token}

namespace ParseTree

def GivesOptional (trees : List ParseTree) (ty : Option TypeExpr) : Prop :=
  match ty with
  | some ty => ∃ tree, trees = [tree] ∧ tree.GivesType ty
  | none => trees = []

def GivesTyped (rule : Rule) (name : Ident) (ty : TypeExpr) (tree : ParseTree) : Prop :=
  ∃ span token tyTree, tree = .node rule span [.leaf token, tyTree] ∧
    token.kind = .ident name.name ∧ tyTree.GivesType ty

def GivesParams (trees : List ParseTree) (params : List Param) : Prop :=
  ∃ read, trees.mapM Param.ofTree = .ok read ∧ read.map Param.unspanned = params.map Param.unspanned

def GivesFields (trees : List ParseTree) (fields : List FieldDecl) : Prop :=
  ∃ read, trees.mapM FieldDecl.ofTree = .ok read ∧
    read.map FieldDecl.unspanned = fields.map FieldDecl.unspanned

def GivesStmt (tree : ParseTree) (stmt : Stmt) : Prop :=
  ∃ read, Stmt.ofTree tree = .ok read ∧ read.unspanned = stmt.unspanned

def GivesStmts (trees : List ParseTree) (stmts : List Stmt) : Prop :=
  ∃ read, Stmt.ofTrees trees = .ok read ∧ Stmt.unspannedAll read = Stmt.unspannedAll stmts

/-- The tree stands for a function declaration. -/
def GivesFunction (tree : ParseTree) (head : FunctionHead) (body : List Stmt) : Prop :=
  ∃ span children read reads, tree = .node .function span children ∧
    Stmt.ofFunction span children = .ok (read, reads) ∧ read.unspanned = head.unspanned ∧
    Stmt.unspannedAll reads = Stmt.unspannedAll body

attribute [local simp] Except.ok_bind childAt tokenAt identAt nodeOf Stmt.ofTree Stmt.unspanned

theorem GivesType.isType {ty : TypeExpr} (h : tree.GivesType ty) : tree.isType = true := by
  obtain ⟨read, hread, _⟩ := h
  unfold TypeExpr.ofTree at hread
  split at hread
  · rfl
  · cases hread
  · rfl
  · cases hread
  · cases hread

theorem Gives.isType (h : tree.Gives e) : tree.isType = false := by
  obtain ⟨read, hread, _⟩ := h
  cases tree with
  | leaf token => rfl
  | node rule span children =>
    cases rule with
    | type => cases hread
    | arrayType => cases hread
    | _ => rfl

theorem GivesTyped.param {param : Param} (h : GivesTyped .param param.name param.ty tree)
    (hsymbol : param.symbol = none) :
    ∃ read, Param.ofTree tree = .ok read ∧ read.unspanned = param.unspanned := by
  obtain ⟨span, token, tyTree, rfl, htoken, ty, hty, htyEq⟩ := h
  refine ⟨⟨⟨param.name.name, token.span⟩, ty, span, none⟩, ?_, ?_⟩
  · simp [Param.ofTree, htoken, hty]
  · simp only [Param.unspanned, htyEq, hsymbol]
    rfl

theorem GivesTyped.field {field : FieldDecl} (h : GivesTyped .field field.name field.ty tree) :
    ∃ read, FieldDecl.ofTree tree = .ok read ∧ read.unspanned = field.unspanned := by
  obtain ⟨span, token, tyTree, rfl, htoken, ty, hty, htyEq⟩ := h
  refine ⟨⟨⟨field.name.name, token.span⟩, ty, span⟩, ?_, ?_⟩
  · simp [FieldDecl.ofTree, htoken, hty]
  · simp only [FieldDecl.unspanned, htyEq]
    rfl

theorem gives_var {keyword nameToken : Token} {init : ParseTree} {decl : VarDecl}
    (hkeyword : keyword.kind = .keyword (if decl.mutable then .var else .val))
    (hname : nameToken.kind = .ident decl.name.name) (hty : GivesOptional trees decl.ty)
    (hinit : init.Gives decl.init) (hsymbol : decl.symbol = none) (span : Span) :
    GivesStmt (.node .varDecl span ([.leaf keyword, .leaf nameToken] ++ trees ++ [init]))
      (.var decl) := by
  obtain ⟨name, mutable, ty, initE, declSpan, symbol⟩ := decl
  cases hsymbol
  have hisType := hinit.isType
  obtain ⟨read, hread, hreadEq⟩ := hinit
  have hvar (ty' : Option TypeExpr) (htyEq : ty'.map TypeExpr.unspanned = ty.map TypeExpr.unspanned)
      {children : List ParseTree}
      (h : VarDecl.ofChildren span children =
        .ok ⟨⟨name.name, nameToken.span⟩, mutable, ty', read, span, none⟩) :
      GivesStmt (.node .varDecl span children)
        (.var ⟨name, mutable, ty, initE, declSpan, none⟩) := by
    refine ⟨.var ⟨⟨name.name, nameToken.span⟩, mutable, ty', read, span, none⟩, ?_, ?_⟩
    · simp [h]
    · simp only [Stmt.unspanned, VarDecl.unspanned, hreadEq, htyEq]
      rfl
  obtain ⟨kind, keywordSpan⟩ := keyword
  cases hkeyword
  cases ty with
  | none =>
    cases hty
    refine hvar none rfl ?_
    cases mutable
    all_goals simp [VarDecl.ofChildren, hname, hisType, hread]
  | some ty =>
    obtain ⟨tree, rfl, htree⟩ := hty
    have htype := htree.isType
    obtain ⟨ty', hty', htyEq⟩ := htree
    refine hvar (some ty') (congrArg some htyEq) ?_
    cases mutable
    all_goals simp [VarDecl.ofChildren, hname, htype, hty', hread]

theorem givesStmts_nil : GivesStmts [] [] := ⟨[], rfl, rfl⟩

theorem GivesStmt.cons {stmt : Stmt} {stmts : List Stmt} (h : tree.GivesStmt stmt)
    (hstmts : GivesStmts trees stmts) : GivesStmts (tree :: trees) (stmt :: stmts) := by
  obtain ⟨read, hread, heq⟩ := h
  obtain ⟨reads, hreads, heqs⟩ := hstmts
  exact ⟨read :: reads, by simp [Stmt.ofTrees, hread, hreads],
    by simp [Stmt.unspannedAll, heq, heqs]⟩

theorem GivesStmts.block (h : GivesStmts trees body) (span bodySpan : Span) :
    GivesStmt (.node .block span trees) (.block bodySpan body) := by
  obtain ⟨read, hread, heq⟩ := h
  exact ⟨.block span read, by simp [hread], by simp [heq]⟩

theorem Gives.loop {stmt : Stmt} {body : ParseTree} (hcond : tree.Gives cond)
    (hbody : body.GivesStmt stmt) (span loopSpan : Span) :
    GivesStmt (.node .whileLoop span [tree, body]) (.loop loopSpan cond stmt) := by
  obtain ⟨cond', hcond', hcondEq⟩ := hcond
  obtain ⟨read, hread, heq⟩ := hbody
  exact ⟨.loop span cond' read, by simp [hcond', hread], by simp [hcondEq, heq]⟩

theorem Gives.branch {stmt : Stmt} {yes : ParseTree} (hcond : tree.Gives cond)
    (hyes : yes.GivesStmt stmt) (span branchSpan : Span) :
    GivesStmt (.node .branch span [tree, yes]) (.branch branchSpan cond stmt none) := by
  obtain ⟨cond', hcond', hcondEq⟩ := hcond
  obtain ⟨read, hread, heq⟩ := hyes
  exact ⟨.branch span cond' read none, by simp [hcond', hread], by simp [hcondEq, heq]⟩

theorem Gives.choice {yes no : ParseTree} {alt : Stmt} (hcond : tree.Gives cond)
    (hyes : yes.GivesStmt stmt) (hno : no.GivesStmt alt) (span branchSpan : Span) :
    GivesStmt (.node .branch span [tree, yes, no]) (.branch branchSpan cond stmt (some alt)) := by
  obtain ⟨cond', hcond', hcondEq⟩ := hcond
  obtain ⟨read, hread, heq⟩ := hyes
  obtain ⟨alt', halt', haltEq⟩ := hno
  exact ⟨.branch span cond' read (some alt'), by simp [hcond', hread, halt'],
    by simp [hcondEq, heq, haltEq]⟩

theorem gives_range {firstTree lastTree body : ParseTree} {loopVar : LoopVar} {first last : Expr}
    (htoken : token.kind = .ident loopVar.name.name) (hsymbol : loopVar.symbol = none)
    (hfirst : firstTree.Gives first) (hlast : lastTree.Gives last) (hbody : body.GivesStmt stmt)
    (span rangeSpan : Span) :
    GivesStmt (.node .forLoop span [.leaf token, firstTree, lastTree, body])
      (.range rangeSpan loopVar first last stmt) := by
  obtain ⟨first', hfirst', hfirstEq⟩ := hfirst
  obtain ⟨last', hlast', hlastEq⟩ := hlast
  obtain ⟨read, hread, heq⟩ := hbody
  refine ⟨.range span ⟨⟨loopVar.name.name, token.span⟩, none⟩ first' last' read, ?_, ?_⟩
  · simp [htoken, hfirst', hlast', hread]
  · simp only [Stmt.unspanned, LoopVar.unspanned, hfirstEq, hlastEq, heq, hsymbol]
    rfl

theorem Gives.ret (h : tree.Gives value) (span retSpan : Span) :
    GivesStmt (.node .ret span [tree]) (.ret retSpan (some value)) := by
  obtain ⟨read, hread, heq⟩ := h
  exact ⟨.ret span (some read), by simp [hread], by simp [heq]⟩

theorem Gives.assign {valueTree : ParseTree} {target : Expr} (htarget : tree.Gives target)
    (hvalue : valueTree.Gives value) (span assignSpan : Span) :
    GivesStmt (.node .assign span [tree, valueTree]) (.assign assignSpan target value) := by
  obtain ⟨target', htarget', htargetEq⟩ := htarget
  obtain ⟨read, hread, heq⟩ := hvalue
  exact ⟨.assign span target' read, by simp [htarget', hread], by simp [htargetEq, heq]⟩

theorem Gives.stmt (h : tree.Gives value) (span : Span) :
    GivesStmt (.node .exprStmt span [tree]) (.expr value) := by
  obtain ⟨read, hread, heq⟩ := h
  exact ⟨.expr read, by simp [hread], by simp [heq]⟩

theorem GivesFunction.stmt (h : tree.GivesFunction head body) :
    tree.GivesStmt (.function head body) := by
  obtain ⟨span, children, read, reads, rfl, hread, heq, heqs⟩ := h
  exact ⟨.function read reads, by simp [hread], by simp [heq, heqs]⟩

theorem gives_function {params bodyTrees : List ParseTree}
    (hname : token.kind = .ident head.name.name) (hparams : GivesParams params head.params)
    (hret : GivesOptional trees head.ret) (hbody : GivesStmts bodyTrees body) (hid : head.id = none)
    (span paramsSpan bodySpan : Span) :
    GivesFunction (.node .function span ([.leaf token, .node .params paramsSpan params] ++ trees ++
      [.node .block bodySpan bodyTrees])) head body := by
  obtain ⟨read, hread, heq⟩ := hparams
  obtain ⟨reads, hreads, heqs⟩ := hbody
  obtain ⟨name, headParams, ret, headSpan, headBodySpan, id⟩ := head
  cases hid
  cases ret with
  | none =>
    cases hret
    refine ⟨span, _, ⟨⟨name.name, token.span⟩, read, none, span, bodySpan, none⟩, reads, rfl, ?_,
      ?_, heqs⟩
    · simp [Stmt.ofFunction, FunctionHead.ofChildren, hname, hread, isType, rule?, hreads]
    · simp only [FunctionHead.unspanned, heq]
      rfl
  | some ret =>
    obtain ⟨tree, rfl, htree⟩ := hret
    have htype := htree.isType
    obtain ⟨ret', hret', hretEq⟩ := htree
    refine ⟨span, _, ⟨⟨name.name, token.span⟩, read, some ret', span, bodySpan, none⟩, reads, rfl,
      ?_, ?_, heqs⟩
    · simp [Stmt.ofFunction, FunctionHead.ofChildren, hname, hread, htype, hret', hreads]
    · simp only [FunctionHead.unspanned, Option.map_some, heq, hretEq]
      rfl

end ParseTree

namespace Parser

open ParseTree

variable {kinds rest : List TokenKind} {Q : ParseTree → Prop} {fuel : Nat} {fields : List FieldDecl}

/-! ## Declarations -/

theorem reads_typedName {rule : Rule} {name : Ident} {ty : TypeExpr}
    (hpair : opensPair rest = false) :
    Reads (printTyped name ty) rest (GivesTyped rule name ty) (typedName fuel rule) :=
  reads_here fun _ => reads_ident fun token htoken => reads_expect fun _ _ =>
    (reads_type hpair).last fun tyTree hty =>
      reads_node fun span => ⟨span, token, tyTree, rfl, htoken, hty⟩

theorem reads_typeAfter {symbol : Punct} {ty : Option TypeExpr}
    {f : List ParseTree → Parser ParseTree} (hpair : opensPair (kinds ++ rest) = false)
    (hhead : (kinds ++ rest).head? ≠ some (.punct symbol))
    (hf : ∀ trees, GivesOptional trees ty → Reads kinds rest Q (f trees)) :
    Reads (printAfter symbol ty ++ kinds) rest Q (do
      let trees ← if ← consume (.punct symbol) then pure [← type fuel] else pure []
      f trees) := by
  cases ty with
  | none => exact reads_consume_false hhead (hf [] rfl)
  | some ty =>
    exact reads_consume_true ((reads_type hpair).bind fun tree htree =>
      hf [tree] ⟨tree, rfl, htree⟩)

theorem gives_cons {α β : Type} {f : ParseTree → Except CompileError α} {g : α → β} {x : α}
    {xs : List α} (h : ∃ read, f tree = .ok read ∧ g read = g x)
    (hxs : ∃ reads, trees.mapM f = .ok reads ∧ reads.map g = xs.map g) :
    ∃ reads, (tree :: trees).mapM f = .ok reads ∧ reads.map g = (x :: xs).map g := by
  obtain ⟨read, hread, heq⟩ := h
  obtain ⟨reads, hreads, heqs⟩ := hxs
  refine ⟨read :: reads, mapM_eq_ok.mpr (.cons hread (mapM_eq_ok.mp hreads)), ?_⟩
  rw [map_cons, map_cons, heq, heqs]

theorem reads_params {params : List Param} (hparams : ∀ param ∈ params, param.symbol = none) :
    Reads (withCommas (params.map fun param => printTyped param.name param.ty))
      (.punct .rparen :: rest) (GivesParams · params) (Parser.params fuel) := by
  induction params generalizing fuel with
  | nil =>
    obtain _ | fuel := fuel
    · exact reads_exhausted
    unfold Parser.params
    exact reads_peek rfl (.pure ⟨[], rfl, rfl⟩)
  | cons param params ih =>
    obtain _ | fuel := fuel
    · exact reads_exhausted
    obtain ⟨hsymbol, hparams⟩ := forall_mem_cons.mp hparams
    unfold Parser.params
    obtain _ | ⟨next, params⟩ := params
    · exact reads_peek rfl ((reads_typedName rfl).last fun tree htree =>
        reads_consume_false (by simp) (.pure (gives_cons (htree.param hsymbol) ⟨[], rfl, rfl⟩)))
    · exact reads_peek rfl ((reads_typedName rfl).bind fun tree htree =>
        reads_consume_true ((ih hparams).last fun trees htrees =>
          .pure (gives_cons (htree.param hsymbol) htrees)))

theorem reads_fields :
    Reads (withCommas (fields.map fun field => printTyped field.name field.ty))
      (.punct .rbrace :: rest) (GivesFields · fields) (Parser.fields fuel) := by
  induction fields generalizing fuel with
  | nil =>
    obtain _ | fuel := fuel
    · exact reads_exhausted
    unfold Parser.fields
    exact reads_peek rfl (.pure ⟨[], rfl, rfl⟩)
  | cons field fields ih =>
    obtain _ | fuel := fuel
    · exact reads_exhausted
    unfold Parser.fields
    obtain _ | ⟨next, fields⟩ := fields
    · exact reads_peek rfl ((reads_typedName rfl).last fun tree htree =>
        reads_consume_false (by simp) (reads_consume_false (by simp) (ih.last fun trees htrees =>
          .pure (gives_cons htree.field htrees))))
    · exact reads_peek rfl ((reads_typedName rfl).bind fun tree htree =>
        reads_consume_true (ih.last fun trees htrees => .pure (gives_cons htree.field htrees)))

theorem reads_condition (hfresh : e.Fresh) :
    Reads (inParens e.print) rest (Gives · e) (condition fuel) :=
  reads_expect fun _ _ => (reads_expr hfresh (ends_cons rfl rfl)).bind fun _ htree =>
    reads_expect fun _ _ => .pure htree

theorem reads_varDecl {decl : VarDecl} (hfresh : decl.Fresh) :
    Reads decl.print rest (GivesStmt · (.var decl)) (varDecl fuel) := by
  obtain ⟨hinit, hsymbol⟩ := hfresh
  unfold varDecl
  refine reads_here fun start => reads_advance fun keyword hkeyword =>
    reads_ident fun name hname => ?_
  exact reads_typeAfter rfl (by simp) fun trees htrees => reads_expect fun _ _ =>
    (reads_expr hinit (ends_cons rfl rfl)).bind fun init hinit => reads_expect fun _ _ =>
      reads_node fun span => gives_var hkeyword hname htrees hinit hsymbol span

theorem reads_assign {assignSpan : Span} {target : Expr} (htarget : target.Fresh)
    (hvalue : value.Fresh) :
    Reads (Stmt.assign assignSpan target value).print rest
      (GivesStmt · (.assign assignSpan target value)) (exprStatement fuel) := by
  rw [Stmt.print]
  exact reads_here fun _ => (reads_expr htarget (ends_cons rfl rfl)).bind fun tree htree =>
    reads_consume_true ((reads_expr hvalue (ends_cons rfl rfl)).bind fun valueTree hvalueTree =>
      reads_expect fun _ _ => reads_node fun span => htree.assign hvalueTree span assignSpan)

theorem reads_exprStmt (hvalue : value.Fresh) :
    Reads (Stmt.expr value).print rest (GivesStmt · (.expr value)) (exprStatement fuel) := by
  rw [Stmt.print]
  exact reads_here fun _ => (reads_expr hvalue (ends_cons rfl rfl)).bind fun tree htree =>
    reads_consume_false (by simp) (reads_expect fun _ _ => reads_node fun span => htree.stmt span)

/-! ## Statements -/

/-- The parser reads a statement, unless an alternative follows that would belong to it. -/
def ReadsStmt (stmt : Stmt) : Prop :=
  ∀ fuel rest, (stmt.isOpen = true → rest.head? ≠ some (.keyword .else_)) →
    Reads stmt.print rest (GivesStmt · stmt) (statement fuel)

theorem reads_statement_expr {start : List TokenKind} (hstart : Opens TokenKind.opensExpr start)
    (h : Reads (start ++ kinds) rest Q (exprStatement fuel)) :
    Reads (start ++ kinds) rest Q (statement (fuel + 1)) := by
  obtain ⟨kind, tail, rfl, hkind⟩ := hstart
  unfold statement
  refine reads_here fun _ => reads_peek rfl ?_
  split
  iterate 10 cases hkind
  exact h

theorem head_printAll_ne_else (stmts : List Stmt) (rest : List TokenKind) :
    (Stmt.printAll stmts ++ .punct .rbrace :: rest).head? ≠ some (.keyword .else_) := by
  obtain _ | ⟨stmt, stmts⟩ := stmts
  · simp [Stmt.printAll]
  · obtain ⟨kind, tail, heq, hkind⟩ := stmt.print_opens
    rw [Stmt.printAll, heq]
    rintro h
    cases h
    cases hkind

theorem reads_statements (hbody : ∀ stmt ∈ body, ReadsStmt stmt) :
    Reads (Stmt.printAll body) (.punct .rbrace :: rest) (GivesStmts · body) (statements fuel) := by
  induction body generalizing fuel with
  | nil =>
    obtain _ | fuel := fuel
    · exact reads_exhausted
    unfold statements
    exact reads_peek rfl (.pure givesStmts_nil)
  | cons stmt body ih =>
    obtain _ | fuel := fuel
    · exact reads_exhausted
    obtain ⟨hstmt, hbody⟩ := forall_mem_cons.mp hbody
    obtain ⟨kind, tail, heq, hkind⟩ := stmt.print_opens
    rw [Stmt.printAll]
    unfold statements
    refine reads_peek (by rw [heq]; rfl) ?_
    have hrest : Reads (stmt.print ++ Stmt.printAll body) (.punct .rbrace :: rest)
        (GivesStmts · (stmt :: body)) (do
          let first ← statement fuel
          return first :: (← statements fuel)) :=
      (hstmt fuel _ fun _ => head_printAll_ne_else body rest).bind fun tree htree =>
        (ih hbody).last fun trees htrees => .pure (htree.cons htrees)
    split
    · cases hkind
    · cases hkind
    · exact hrest

theorem reads_block (hbody : ∀ stmt ∈ body, ReadsStmt stmt) :
    Reads (inBraces (Stmt.printAll body)) rest
      (fun tree => ∃ span trees, tree = .node .block span trees ∧ GivesStmts trees body)
      (block fuel) := by
  obtain _ | fuel := fuel
  · exact reads_exhausted
  unfold block
  exact reads_here fun _ => reads_expect fun _ _ => (reads_statements hbody).bind
    fun trees htrees => reads_expect fun _ _ => reads_node fun span => ⟨span, trees, rfl, htrees⟩

theorem reads_paramList {params : List Param} (hparams : ∀ param ∈ params, param.symbol = none) :
    Reads (inParens (withCommas (params.map fun param => printTyped param.name param.ty))) rest
      (fun tree => ∃ span trees, tree = .node .params span trees ∧ GivesParams trees params)
      (paramList fuel) :=
  reads_here fun _ => reads_expect fun _ _ => (reads_params hparams).bind fun trees htrees =>
    reads_expect fun _ _ => reads_node fun span => ⟨span, trees, rfl, htrees⟩

theorem reads_function (hhead : head.Fresh) (hbody : ∀ stmt ∈ body, ReadsStmt stmt) :
    Reads (head.print ++ inBraces (Stmt.printAll body)) rest (GivesFunction · head body)
      (function fuel) := by
  obtain ⟨hid, hparams⟩ := hhead
  simp only [FunctionHead.print, cons_append, append_assoc]
  obtain _ | fuel := fuel
  · exact reads_exhausted
  unfold function
  refine reads_here fun _ => reads_expect fun _ _ => reads_ident fun name hname =>
    (reads_paramList hparams).bind fun list hlist => reads_typeAfter rfl (by simp [inBraces])
      fun trees htrees => (reads_block hbody).last fun tree htree => ?_
  obtain ⟨paramsSpan, params, rfl, hparams⟩ := hlist
  obtain ⟨bodySpan, bodyTrees, rfl, hbodyTrees⟩ := htree
  exact reads_node fun span =>
    gives_function hname hparams htrees hbodyTrees hid span paramsSpan bodySpan

theorem reads_statement_function (hhead : head.Fresh) (hbody : ∀ stmt ∈ body, ReadsStmt stmt) :
    Reads (head.print ++ inBraces (Stmt.printAll body)) rest (GivesFunction · head body)
      (statement fuel) := by
  obtain _ | fuel := fuel
  · exact reads_exhausted
  unfold statement
  exact reads_here fun _ => reads_peek rfl (reads_function hhead hbody)

theorem ReadsStmt.of_succ {stmt : Stmt} (h : ∀ fuel rest,
    (stmt.isOpen = true → rest.head? ≠ some (.keyword .else_)) →
      Reads stmt.print rest (GivesStmt · stmt) (statement (fuel + 1))) : ReadsStmt stmt := by
  rintro (_ | fuel) rest hopen
  · exact reads_exhausted
  · exact h fuel rest hopen

/-- **The parser reads every statement with nothing filled in whose branches keep their
alternatives.** -/
theorem readsStmt {stmt : Stmt} (hfresh : stmt.Fresh) (hspell : stmt.Spellable) :
    ReadsStmt stmt := by
  induction stmt with
  | var decl =>
    refine .of_succ fun fuel rest _ => ?_
    rw [Stmt.print]
    have hvar : Reads decl.print rest (GivesStmt · (.var decl)) (varDecl fuel) :=
      reads_varDecl hfresh
    unfold statement
    refine reads_here fun _ => reads_peek rfl ?_
    generalize decl.mutable = mutable
    cases mutable <;> exact hvar
  | function head body ih =>
    intro fuel rest _
    rw [Stmt.print]
    have hbody (stmt : Stmt) (hstmt : stmt ∈ body) : ReadsStmt stmt :=
      ih stmt hstmt (Stmt.freshAll_iff.mp hfresh.2 stmt hstmt)
        (Stmt.spellableAll_iff.mp hspell stmt hstmt)
    exact (reads_statement_function hfresh.1 hbody).imp fun tree htree => htree.stmt
  | block span body ih =>
    refine .of_succ fun fuel rest _ => ?_
    rw [Stmt.print]
    have hbody (stmt : Stmt) (hstmt : stmt ∈ body) : ReadsStmt stmt :=
      ih stmt hstmt (Stmt.freshAll_iff.mp hfresh stmt hstmt)
        (Stmt.spellableAll_iff.mp hspell stmt hstmt)
    unfold statement
    refine reads_here fun _ => reads_peek rfl ((reads_block hbody).imp fun tree htree => ?_)
    obtain ⟨treeSpan, trees, rfl, htrees⟩ := htree
    exact htrees.block treeSpan span
  | branch span cond yes no hyes hno =>
    refine .of_succ fun fuel rest hopen => ?_
    obtain _ | no := no
    · rw [Stmt.print]
      unfold statement
      exact reads_here fun _ => reads_peek rfl (reads_advance fun _ _ =>
        (reads_condition hfresh.1).bind fun tree htree =>
          (hyes hfresh.2 hspell fuel _ fun _ => hopen rfl).last fun yesTree hyesTree =>
            reads_consume_false (hopen rfl) (reads_node fun treeSpan =>
              htree.branch hyesTree treeSpan span))
    · rw [Stmt.print]
      obtain ⟨hclosed, hyesSpell, hnoSpell⟩ := hspell
      unfold statement
      have hyesRead := hyes hfresh.2.1 hyesSpell fuel (.keyword .else_ :: (no.print ++ rest))
        fun h => by rw [hclosed] at h; cases h
      exact reads_here fun _ => reads_peek rfl (reads_advance fun _ _ =>
        (reads_condition hfresh.1).bind fun tree htree =>
          Reads.bind hyesRead fun yesTree hyesTree => reads_consume_true
            ((hno no rfl hfresh.2.2 hnoSpell fuel _ hopen).last fun noTree hnoTree =>
              reads_node fun treeSpan => htree.choice hyesTree hnoTree treeSpan span))
  | loop span cond body hbody =>
    refine .of_succ fun fuel rest hopen => ?_
    rw [Stmt.print]
    unfold statement
    exact reads_here fun _ => reads_peek rfl (reads_advance fun _ _ =>
      (reads_condition hfresh.1).bind fun tree htree =>
        (hbody hfresh.2 hspell fuel _ hopen).last fun bodyTree hbodyTree =>
          reads_node fun treeSpan => htree.loop hbodyTree treeSpan span)
  | range span loopVar first last body hbody =>
    obtain ⟨hsymbol, hfirst, hlast, hbodyFresh⟩ := hfresh
    refine .of_succ fun fuel rest hopen => ?_
    simp only [Stmt.print, inParens, cons_append, append_assoc, nil_append]
    unfold statement
    refine reads_here fun _ => reads_peek rfl (reads_advance fun _ _ => reads_expect fun _ _ =>
      reads_ident fun token htoken => reads_expect fun _ _ =>
        (reads_expr hfirst (ends_cons rfl rfl)).bind fun firstTree hfirstTree =>
          reads_expect fun _ _ => (reads_expr hlast (ends_cons rfl rfl)).bind
            fun lastTree hlastTree => reads_expect fun _ _ => ?_)
    exact (hbody hbodyFresh hspell fuel _ hopen).last fun bodyTree hbodyTree =>
      reads_node fun treeSpan =>
        gives_range htoken hsymbol hfirstTree hlastTree hbodyTree treeSpan span
  | ret span value =>
    refine .of_succ fun fuel rest _ => ?_
    obtain _ | value := value
    · unfold statement
      refine reads_here fun _ => reads_peek rfl (reads_advance fun _ _ => reads_check_true ?_)
      exact reads_expect fun _ _ => reads_node fun treeSpan => ⟨.ret treeSpan none, rfl, rfl⟩
    · rw [Stmt.print]
      have hhead : (value.print ++ [TokenKind.punct .semicolon] ++ rest).head? ≠
          some (.punct .semicolon) := by
        obtain ⟨kind, tail, heq, hkind⟩ := value.print_opens.1
        rw [heq]
        rintro h
        cases h
        cases hkind
      unfold statement
      refine reads_here fun _ => reads_peek rfl (reads_advance fun _ _ =>
        reads_check_false hhead ?_)
      exact (reads_expr (hfresh value rfl) (ends_cons rfl rfl)).bind fun tree htree =>
        reads_expect fun _ _ => reads_node fun treeSpan => htree.ret treeSpan span
  | leave span =>
    refine .of_succ fun fuel rest _ => ?_
    unfold statement
    exact reads_here fun _ => reads_peek rfl (reads_advance fun _ _ => reads_expect fun _ _ =>
      reads_node fun treeSpan => ⟨.leave treeSpan, rfl, rfl⟩)
  | next span =>
    refine .of_succ fun fuel rest _ => ?_
    unfold statement
    exact reads_here fun _ => reads_peek rfl (reads_advance fun _ _ => reads_expect fun _ _ =>
      reads_node fun treeSpan => ⟨.next treeSpan, rfl, rfl⟩)
  | assign span target value =>
    refine .of_succ fun fuel rest _ => ?_
    exact reads_statement_expr target.print_opens.1 (reads_assign hfresh.1 hfresh.2)
  | expr value =>
    refine .of_succ fun fuel rest _ => ?_
    exact reads_statement_expr value.print_opens.1 (reads_exprStmt hfresh)

/-! ## Items -/

def GivesItem (tree : ParseTree) (item : Item) : Prop :=
  ∃ read, Item.ofTree tree = .ok read ∧ read.unspanned = item.unspanned

def GivesItems (trees : List ParseTree) (items : List Item) : Prop :=
  ∃ read, trees.mapM Item.ofTree = .ok read ∧ read.map Item.unspanned = items.map Item.unspanned

theorem givesItem_function {decl : FunctionDecl} (h : tree.GivesFunction decl.head decl.body) :
    GivesItem tree (.function decl) := by
  obtain ⟨span, children, read, reads, rfl, hread, heq, heqs⟩ := h
  refine ⟨.function ⟨read, reads⟩, Except.bind_eq_ok.mpr ⟨(read, reads), hread, rfl⟩, ?_⟩
  simp only [Item.unspanned, heq, heqs]

theorem givesItem_stmt {stmt : Stmt} (h : tree.GivesStmt stmt) (hplain : stmt.isFunction = false) :
    GivesItem tree (.stmt stmt) := by
  obtain ⟨read, hread, heq⟩ := h
  refine ⟨.stmt read, ?_, congrArg Item.stmt heq⟩
  unfold Item.ofTree
  split
  · obtain ⟨⟨head, body⟩, _, hfunction⟩ := Except.bind_eq_ok.mp hread
    cases hfunction
    cases stmt with
    | function head body => cases hplain
    | branch span cond yes no => cases no <;> cases heq
    | _ => cases heq
  · cases hread
  · exact Except.bind_eq_ok.mpr ⟨read, hread, rfl⟩

theorem ofChildren_eq_ok {name : String} (htoken : token.kind = .ident name)
    (hfields : trees.mapM FieldDecl.ofTree = .ok fields) (span : Span) :
    RecordDecl.ofChildren span (.leaf token :: trees) =
      .ok ⟨⟨name, token.span⟩, fields, span, none⟩ := by
  simp [RecordDecl.ofChildren, identAt, tokenAt, childAt, Except.ok_bind, htoken, hfields]

theorem givesItem_record {decl : RecordDecl} (hname : token.kind = .ident decl.name.name)
    (hfields : GivesFields trees decl.fields) (hdecl : decl.decl = none) (span : Span) :
    GivesItem (.node .struct span (.leaf token :: trees)) (.record decl) := by
  obtain ⟨read, hread, heq⟩ := hfields
  refine ⟨.record ⟨⟨decl.name.name, token.span⟩, read, span, none⟩, ?_, ?_⟩
  · exact Except.bind_eq_ok.mpr ⟨_, ofChildren_eq_ok hname hread span, rfl⟩
  · simp only [Item.unspanned, RecordDecl.unspanned, heq, hdecl]
    rfl

theorem reads_struct {decl : RecordDecl} (hdecl : decl.decl = none) :
    Reads decl.print rest (GivesItem · (.record decl)) (struct fuel) :=
  reads_here fun _ => reads_expect fun _ _ => reads_ident fun _ htoken =>
    reads_expect fun _ _ => reads_fields.bind fun _ htrees => reads_expect fun _ _ =>
      reads_node fun span => givesItem_record htoken htrees hdecl span

def opensItem (kind : TokenKind) : Bool := kind == .keyword .struct || kind.opensStmt

theorem print_opensItem (item : Item) : Opens opensItem item.print := by
  cases item with
  | function decl => exact .cons rfl
  | record decl => exact .cons rfl
  | stmt s => exact s.print_opens.mono fun kind h => by simp [opensItem, h]

theorem head_items_ne_else (items : List Item) :
    (items.flatMap Item.print ++ [TokenKind.eof]).head? ≠ some (.keyword .else_) := by
  obtain _ | ⟨item, items⟩ := items
  · simp
  · obtain ⟨kind, tail, heq, hkind⟩ := print_opensItem item
    rw [flatMap_cons, heq]
    rintro h
    cases h
    cases hkind

theorem reads_items_cons {kinds : List TokenKind} (hfresh : item.Fresh) (hspell : item.Spellable)
    (hplain : item.Plain)
    (hhead : (kinds ++ [TokenKind.eof]).head? ≠ some (.keyword .else_))
    (hrest : Reads kinds [.eof] (GivesItems · items) (Parser.items fuel)) :
    Reads (item.print ++ kinds) [.eof] (GivesItems · (item :: items))
      (Parser.items (fuel + 1)) := by
  have hnext (tree : ParseTree) (htree : GivesItem tree item) : Reads kinds [.eof]
      (GivesItems · (item :: items)) (do return tree :: (← Parser.items fuel)) :=
    hrest.last fun trees htrees => .pure (gives_cons htree htrees)
  unfold Parser.items
  cases item with
  | function decl =>
    have hbody (stmt : Stmt) (hstmt : stmt ∈ decl.body) : ReadsStmt stmt :=
      readsStmt (Stmt.freshAll_iff.mp hfresh.2 stmt hstmt)
        (Stmt.spellableAll_iff.mp hspell stmt hstmt)
    refine reads_peek rfl ((reads_statement_function hfresh.1 hbody).bind fun tree htree => ?_)
    exact hnext tree (givesItem_function htree)
  | record decl =>
    exact reads_peek rfl ((reads_struct hfresh).bind hnext)
  | stmt s =>
    have hstmt : Reads (s.print ++ kinds) [.eof] (GivesItems · (.stmt s :: items)) (do
        let first ← statement fuel
        return first :: (← Parser.items fuel)) :=
      (readsStmt hfresh hspell fuel _ fun _ => hhead).bind fun tree htree =>
        hnext tree (givesItem_stmt htree hplain)
    obtain ⟨kind, tail, heq, hkind⟩ := s.print_opens
    refine reads_peek (by rw [Item.print, heq]; rfl) ?_
    split
    · cases hkind
    · cases hkind
    · exact hstmt

theorem reads_items (hfresh : ∀ item ∈ items, item.Fresh) (hspell : ∀ item ∈ items, item.Spellable)
    (hplain : ∀ item ∈ items, item.Plain) :
    Reads (items.flatMap Item.print) [.eof] (GivesItems · items) (Parser.items fuel) := by
  induction items generalizing fuel with
  | nil =>
    obtain _ | fuel := fuel
    · exact reads_exhausted
    unfold Parser.items
    exact reads_peek rfl (.pure ⟨[], rfl, rfl⟩)
  | cons item items ih =>
    obtain _ | fuel := fuel
    · exact reads_exhausted
    obtain ⟨hitemFresh, hfresh⟩ := forall_mem_cons.mp hfresh
    obtain ⟨hitemSpell, hspell⟩ := forall_mem_cons.mp hspell
    obtain ⟨hitemPlain, hplain⟩ := forall_mem_cons.mp hplain
    rw [flatMap_cons]
    exact reads_items_cons hitemFresh hitemSpell hitemPlain (head_items_ne_else items)
      (ih hfresh hspell hplain)

end Parser

/-- **The parser reads every unit with nothing filled in whose branches keep their alternatives.**
-/
theorem SourceUnit.reads_back {unit : SourceUnit} (hfresh : ∀ item ∈ unit.items, item.Fresh)
    (hspell : ∀ item ∈ unit.items, item.Spellable) (hplain : ∀ item ∈ unit.items, item.Plain)
    {tokens : List Token} (htokens : tokens.map Token.kind = unit.print) :
    ∃ tree read, parseTokens tokens = .ok tree ∧ SourceUnit.ofTree unit.name tree = .ok read ∧
      read.unspanned = unit.unspanned := by
  obtain _ | ⟨first, rest⟩ := tokens
  · simp [SourceUnit.print] at htokens
  have hunit : Parser.Reads (unit.items.flatMap Item.print) [.eof]
      (fun tree => ∃ span children, tree = .node .unit span children ∧
        Parser.GivesItems children unit.items)
      (Parser.unit (parseFuel (first :: rest).length)) := by
    exact Parser.reads_here fun _ => (Parser.reads_items hfresh hspell hplain).last
      fun children hchildren => Parser.reads_here fun _ => .pure ⟨_, children, rfl, hchildren⟩
  have hc : (Cursor.start first rest).HasEof := by
    have heof : TokenKind.eof ∈ (first :: rest).map Token.kind := by
      rw [htokens]
      exact mem_append_right _ mem_cons_self
    exact mem_map.mp heof
  obtain ⟨tree, c, hparse, _, span, children, rfl, items, hitems, heq⟩ :=
    hunit (.start first rest) htokens (by simp)
      (Parser.unit_ne_exhausted hc (by simp [Cursor.start, parseFuel]; omega))
  refine ⟨.node .unit span children, ⟨unit.name, items, span⟩, ?_, ?_, ?_⟩
  · simp only [parseTokens, hparse]
  · exact Except.bind_eq_ok.mpr ⟨(⟨.unit, span⟩, children), rfl, Except.bind_eq_ok.mpr
      ⟨items, hitems, rfl⟩⟩
  · simp only [SourceUnit.unspanned, heq]

/-! ## Trees of units -/

theorem Expr.ofTree_fresh (h : Expr.ofTree tree = .ok e) : e.Fresh := by
  refine Expr.ofTree_induction (motive := fun _ e => e.Fresh) ?literal ?name ?paren ?binary ?unary
    ?call ?field ?index ?array ?newArray ?cast h
  case literal => exact fun span children value _ => rfl
  case name => exact fun span children name => ⟨rfl, rfl⟩
  case paren => exact fun span children e he => he.elim fun _ h => h.2
  case binary =>
    rintro span children op left right ⟨_, _, hleft⟩ ⟨_, _, hright⟩
    exact ⟨rfl, hleft, hright⟩
  case unary =>
    rintro span children op operand ⟨_, _, hoperand⟩
    exact ⟨rfl, hoperand⟩
  case call =>
    rintro span children callee args ⟨_, _, hcallee⟩ ⟨list, _, hargs⟩
    refine ⟨rfl, hcallee, Expr.freshAll_iff.mpr fun arg harg => ?_, rfl⟩
    obtain ⟨_, _, h⟩ := hargs arg harg
    exact h
  case field =>
    rintro span children base ident ⟨_, _, hbase⟩
    exact ⟨rfl, hbase, rfl⟩
  case index =>
    rintro span children base position ⟨_, _, hbase⟩ ⟨_, _, hposition⟩
    exact ⟨rfl, hbase, hposition⟩
  case array =>
    rintro span children elems helems
    refine ⟨rfl, Expr.freshAll_iff.mpr fun elem helem => ?_⟩
    obtain ⟨_, _, h⟩ := helems elem helem
    exact h
  case newArray =>
    rintro span children elem length ⟨_, _, hlength⟩
    exact ⟨rfl, hlength⟩
  case cast =>
    rintro span children operand target ⟨_, _, hoperand⟩
    exact ⟨rfl, hoperand⟩

theorem Param.ofTree_symbol {param : Param} (h : Param.ofTree tree = .ok param) :
    param.symbol = none := by
  obtain ⟨⟨node, children⟩, _, h⟩ := Except.bind_eq_ok.mp h
  iterate 3 obtain ⟨_, _, h⟩ := Except.bind_eq_ok.mp h
  cases h
  rfl

theorem FunctionHead.ofChildren_fresh {span : Span} {children : List ParseTree}
    (h : FunctionHead.ofChildren span children = .ok head) : head.Fresh ∧ head.span = span := by
  obtain ⟨name, _, h⟩ := Except.bind_eq_ok.mp h
  obtain ⟨list, _, h⟩ := Except.bind_eq_ok.mp h
  obtain ⟨⟨node, trees⟩, _, h⟩ := Except.bind_eq_ok.mp h
  obtain ⟨params, hparams, h⟩ := Except.bind_eq_ok.mp h
  obtain ⟨third, _, h⟩ := Except.bind_eq_ok.mp h
  have hfresh : ∀ param ∈ params, param.symbol = none := by
    intro param hparam
    obtain ⟨tree, _, htree⟩ := exists_of_mapM_eq_ok hparams hparam
    exact Param.ofTree_symbol htree
  split_ifs at h
  · obtain ⟨ret, _, h⟩ := Except.bind_eq_ok.mp h
    cases h
    exact ⟨⟨rfl, hfresh⟩, rfl⟩
  · cases h
    exact ⟨⟨rfl, hfresh⟩, rfl⟩

theorem Stmt.ofTree_fresh {stmt : Stmt} (h : Stmt.ofTree tree = .ok stmt) : stmt.Fresh := by
  have hexpr {children : List ParseTree} {e : Expr}
      (h : ∃ tree ∈ children, Expr.ofTree tree = .ok e) : e.Fresh := by
    obtain ⟨_, _, he⟩ := h
    exact Expr.ofTree_fresh he
  have hparts {children : List ParseTree} {body : List Stmt}
      (h : ∀ stmt ∈ body, ∃ tree ∈ children, stmt.Fresh) : Stmt.FreshAll body := by
    refine Stmt.freshAll_iff.mpr fun stmt hstmt => ?_
    obtain ⟨_, _, hfresh⟩ := h stmt hstmt
    exact hfresh
  refine Stmt.ofTree_induction (motive := fun _ stmt => stmt.Fresh) ?var ?function ?block ?branch
    ?loop ?range ?ret ?leave ?next ?assign ?expr h
  case var =>
    intro span children decl hdecl
    obtain ⟨hsymbol, -, hinit⟩ := VarDecl.ofChildren_init hdecl
    exact ⟨hexpr hinit, hsymbol⟩
  case function =>
    rintro span children head body bodySpan hhead ⟨block, _, hbody⟩
    obtain ⟨⟨hid, hparams⟩, -⟩ := FunctionHead.ofChildren_fresh hhead
    exact ⟨⟨hid, hparams⟩, hparts hbody⟩
  case block => exact fun span children body => hparts
  case branch =>
    rintro span children cond yes no hcond ⟨_, _, hyes⟩ hno
    cases no with
    | none => exact ⟨hexpr hcond, hyes⟩
    | some no =>
      obtain ⟨_, _, hno⟩ := hno no rfl
      exact ⟨hexpr hcond, hyes, hno⟩
  case loop =>
    rintro span children cond body hcond ⟨_, _, hbody⟩
    exact ⟨hexpr hcond, hbody⟩
  case range =>
    rintro span children name first last body hfirst hlast ⟨_, _, hbody⟩
    exact ⟨rfl, hexpr hfirst, hexpr hlast, hbody⟩
  case ret => exact fun span children value hvalue e he => hexpr (hvalue e he)
  case leave => exact fun span children => trivial
  case next => exact fun span children => trivial
  case assign =>
    exact fun span children target value htarget hvalue => ⟨hexpr htarget, hexpr hvalue⟩
  case expr => exact fun span children value => hexpr

theorem Item.ofTree_fresh (h : Item.ofTree tree = .ok item) : item.Fresh := by
  obtain ⟨decl, span, children, rfl, hdecl⟩ | ⟨stmt, hstmt, hread⟩ := Item.ofTree_eq_ok h
  · obtain ⟨name, _, hdecl⟩ := Except.bind_eq_ok.mp hdecl
    obtain ⟨fields, _, hdecl⟩ := Except.bind_eq_ok.mp hdecl
    cases hdecl
    rfl
  · have hfresh := Stmt.ofTree_fresh hread
    cases item with
    | record decl => cases hstmt
    | function decl =>
      cases hstmt
      exact hfresh
    | stmt s =>
      cases hstmt
      exact hfresh

theorem SourceUnit.ofTree_fresh {name : String} {unit : SourceUnit}
    (h : SourceUnit.ofTree name tree = .ok unit) :
    unit.name = name ∧ ∀ item ∈ unit.items, item.Fresh := by
  obtain ⟨⟨node, children⟩, _, h⟩ := Except.bind_eq_ok.mp h
  obtain ⟨items, hitems, h⟩ := Except.bind_eq_ok.mp h
  cases h
  refine ⟨rfl, fun item hitem => ?_⟩
  obtain ⟨tree, _, htree⟩ := exists_of_mapM_eq_ok hitems hitem
  exact Item.ofTree_fresh htree

/-- **Round trip**: a unit that is made of a parse tree, printed with no more parentheses than
operators require and read again, is the same up to spans. Only a branch with an alternative must
not end in one without before it. -/
theorem SourceUnit.parse_print {name : String} {tree : ParseTree} {unit : SourceUnit}
    (h : SourceUnit.ofTree name tree = .ok unit) (hspell : ∀ item ∈ unit.items, item.Spellable)
    {tokens : List Token} (htokens : tokens.map Token.kind = unit.print) :
    ∃ tree' read, parseTokens tokens = .ok tree' ∧ SourceUnit.ofTree name tree' = .ok read ∧
      read.unspanned = unit.unspanned := by
  obtain ⟨rfl, hfresh⟩ := SourceUnit.ofTree_fresh h
  exact SourceUnit.reads_back hfresh hspell (SourceUnit.ofTree_plain h) htokens

/-- The tree of `if (c) a - (b - 1); else (d);`. -/
def branchTree : ParseTree :=
  let leaf (kind : TokenKind) : ParseTree := .leaf ⟨kind, .nowhere⟩
  let node (rule : Rule) (children : List ParseTree) : ParseTree := .node rule .nowhere children
  let name (text : String) : ParseTree := node .name [leaf (.ident text)]
  let minus (left right : ParseTree) : ParseTree := node .binary [left, leaf (.punct .minus), right]
  node .unit [node .branch [name "c",
    node .exprStmt [minus (name "a")
      (node .paren [minus (name "b") (node .literal [leaf (.intLit 1)])])],
    node .exprStmt [node .paren [name "d"]]]]

theorem branchTree_parse_print : ∃ unit tree' read,
    SourceUnit.ofTree "a" branchTree = .ok unit ∧
    unit.print = [.keyword .if_, .punct .lparen, .ident "c", .punct .rparen, .ident "a",
      .punct .minus, .punct .lparen, .ident "b", .punct .minus, .intLit 1, .punct .rparen,
      .punct .semicolon, .keyword .else_, .ident "d", .punct .semicolon, .eof] ∧
    parseTokens (unit.print.map fun kind => ⟨kind, .nowhere⟩) = .ok tree' ∧
    SourceUnit.ofTree "a" tree' = .ok read ∧ read.unspanned = unit.unspanned := by
  have htokens (unit : SourceUnit) :
      (unit.print.map fun kind => (⟨kind, .nowhere⟩ : Token)).map Token.kind = unit.print := by
    rw [List.map_map]
    exact List.map_id' _
  have hunit : SourceUnit.ofTree "a" branchTree = .ok _ := rfl
  obtain ⟨tree', read, hparse, hread, heq⟩ := SourceUnit.parse_print hunit (fun item hitem => by
    cases List.mem_singleton.mp hitem
    exact ⟨rfl, trivial, trivial⟩) (htokens _)
  exact ⟨_, tree', read, hunit, rfl, hparse, hread, heq⟩

end StackCompiler

import Mathlib.Data.List.Forall2
import StackCompiler.Ast.OfParseTree
import StackCompiler.Proofs.Parsing

/-!
# Reading back

The parser takes exactly the tokens that an expression is printed to, and gives a tree for that
expression. What may follow depends on what is read: an expression goes on as long as the next
token can continue it.

* `Parser.reads_type`, `Parser.readsExpr`: types and expressions.
-/

namespace StackCompiler

open List StackCompiler.Expr

variable {e : Expr} {children trees : List ParseTree} {rest : List TokenKind} {least : Nat}
  {note : Note} {tree : ParseTree} {token : Token} {ty : TypeExpr} {kind : TokenKind}
  {elem : TypeExpr} {value : Literal} {ref : NameRef} {args : List Expr} {elems : List Expr}
  {es : List Expr}

def Cursor.kinds (c : Cursor) : List TokenKind := c.current.kind :: c.rest.map Token.kind

theorem Cursor.kinds_advance {c : Cursor} (h : c.kinds = kind :: rest) (hrest : rest ≠ []) :
    c.current.kind = kind ∧ c.advance.kinds = rest := by
  obtain ⟨prev, current, tokens⟩ := c
  obtain ⟨hkind, htokens⟩ := List.cons.inj h
  cases tokens with
  | nil => exact absurd htokens.symm hrest
  | cons next tokens => exact ⟨hkind, htokens⟩

namespace Parser

variable {α β : Type} {kinds rest : List TokenKind} {kind : TokenKind} {Q : α → Prop} {R : β → Prop}
  {m : Parser α} {f : Bool → Parser β} {rule : Rule} {start : Span}

/-- The step takes tokens of these kinds if they are next, and what it gives has a property, unless
its fuel is used up. -/
def Reads (kinds rest : List TokenKind) (Q : α → Prop) (m : Parser α) : Prop :=
  ∀ c : Cursor, c.kinds = kinds ++ rest → rest ≠ [] → (∀ c', m c ≠ .error (.exhausted c')) →
    ∃ a c', m c = .ok (a, c') ∧ c'.kinds = rest ∧ Q a

/-! ## Steps on single tokens -/

theorem Reads.bind {kinds' : List TokenKind} {f : α → Parser β}
    (hm : Reads kinds (kinds' ++ rest) Q m) (hf : ∀ a, Q a → Reads kinds' rest R (f a)) :
    Reads (kinds ++ kinds') rest R (m >>= f) := by
  intro c hc hrest hfuel
  have hrun : (m >>= f) c = m c >>= fun p => f p.1 p.2 := rfl
  rw [hrun] at hfuel ⊢
  have hm := hm c (by rw [hc, append_assoc]) (by simp [hrest])
  obtain ⟨a, c', ha, hc', hQ⟩ := hm fun c' h => hfuel c' (by rw [h]; rfl)
  rw [ha] at hfuel ⊢
  exact hf a hQ c' hc' hrest hfuel

theorem Reads.last {f : α → Parser β} (hm : Reads kinds rest Q m)
    (hf : ∀ a, Q a → Reads [] rest R (f a)) : Reads kinds rest R (m >>= f) :=
  append_nil kinds ▸ Reads.bind hm hf

theorem Reads.pure {a : α} (h : Q a) : Reads [] rest Q (pure a : Parser α) :=
  fun c hc _ _ => ⟨a, c, rfl, hc, h⟩

theorem reads_exhausted : Reads kinds rest Q exhausted := fun c _ _ h => absurd rfl (h c)

theorem Reads.imp {Q' : α → Prop} (h : Reads kinds rest Q m) (himp : ∀ a, Q a → Q' a) :
    Reads kinds rest Q' m := by
  intro c hc hrest hfuel
  obtain ⟨a, c', ha, hc', hQ⟩ := h c hc hrest hfuel
  exact ⟨a, c', ha, hc', himp a hQ⟩

theorem reads_get {f : Cursor → Parser β}
    (h : ∀ c : Cursor, c.kinds = kinds ++ rest → Reads kinds rest R (f c)) :
    Reads kinds rest R (get >>= f) :=
  fun c hc => h c hc c hc

theorem reads_here {f : Span → Parser β} (h : ∀ span, Reads kinds rest R (f span)) :
    Reads kinds rest R (here >>= f) :=
  fun c => h c.current.span c

theorem reads_peek {f : TokenKind → Parser β} (hhead : (kinds ++ rest).head? = some kind)
    (h : Reads kinds rest R (f kind)) : Reads kinds rest R (peekKind >>= f) := by
  intro c hc
  have hkind : c.current.kind = kind := by
    rw [← hc] at hhead
    exact Option.some.inj hhead
  subst hkind
  exact h c hc

theorem reads_advance {f : Token → Parser β}
    (h : ∀ token, token.kind = kind → Reads kinds rest R (f token)) :
    Reads (kind :: kinds) rest R (advance >>= f) := by
  intro c hc hrest
  obtain ⟨hkind, hadvance⟩ := Cursor.kinds_advance hc (by simp [hrest])
  exact h c.current hkind c.advance hadvance hrest

theorem reads_check_true (h : Reads (kind :: kinds) rest R (f true)) :
    Reads (kind :: kinds) rest R (check kind >>= f) := by
  intro c hc
  have hkind : (c.current.kind == kind) = true := by
    rw [beq_iff_eq]
    exact (List.cons.inj hc).1
  rw [← hkind] at h
  exact h c hc

theorem reads_check_false (hhead : (kinds ++ rest).head? ≠ some kind)
    (h : Reads kinds rest R (f false)) : Reads kinds rest R (check kind >>= f) := by
  intro c hc
  have hkind : (c.current.kind == kind) = false := by
    rw [beq_eq_false_iff_ne]
    rintro hkind
    rw [← hc] at hhead
    exact hhead (congrArg some hkind)
  rw [← hkind] at h
  exact h c hc

theorem expect_bind (f : Token → Parser β) : expect kind >>= f =
      check kind >>= fun b => if b then advance >>= f else unexpected kind.describe >>= f := by
  unfold expect
  rw [bind_assoc]
  congr
  funext b
  split <;> rfl

theorem reads_expect {f : Token → Parser β}
    (h : ∀ token, token.kind = kind → Reads kinds rest R (f token)) :
    Reads (kind :: kinds) rest R (expect kind >>= f) := by
  rw [expect_bind]
  exact reads_check_true (reads_advance h)

theorem reads_consume_true (h : Reads kinds rest R (f true)) :
    Reads (kind :: kinds) rest R (consume kind >>= f) := by
  rw [consume_bind]
  exact reads_check_true (reads_advance fun _ _ => h)

theorem reads_consume_false (hhead : (kinds ++ rest).head? ≠ some kind)
    (h : Reads kinds rest R (f false)) : Reads kinds rest R (consume kind >>= f) := by
  rw [consume_bind]
  exact reads_check_false hhead h

theorem reads_ident {name : String} {f : ParseTree → Parser β}
    (h : ∀ token, token.kind = .ident name → Reads kinds rest R (f (.leaf token))) :
    Reads (.ident name :: kinds) rest R (ident >>= f) := by
  unfold ident
  rw [bind_assoc]
  refine reads_peek rfl ?_
  rw [bind_assoc]
  simp only [pure_bind]
  exact reads_advance h

theorem reads_node_bind {f : ParseTree → Parser β}
    (h : ∀ span, Reads kinds rest R (f (.node rule span children))) :
    Reads kinds rest R (node rule start children >>= f) :=
  fun c => h (start.merge c.prev) c

theorem reads_node {R : ParseTree → Prop} (h : ∀ span, R (.node rule span children)) :
    Reads [] rest R (node rule start children) :=
  fun c hc _ _ => ⟨_, c, rfl, hc, h (start.merge c.prev)⟩

end Parser

/-! ## Trees and what they stand for -/

theorem Except.ok_bind {ε α β : Type} (a : α) (f : α → Except ε β) : (Except.ok a >>= f) = f a :=
  rfl

namespace ParseTree

/-- The tree stands for a type, up to spans. -/
def GivesType (tree : ParseTree) (ty : TypeExpr) : Prop :=
  ∃ read, TypeExpr.ofTree tree = .ok read ∧ read.unspanned = ty.unspanned

def Gives (tree : ParseTree) (e : Expr) : Prop :=
  ∃ read, ofTree tree = .ok read ∧ read.unspanned = e.unspanned

def GivesAll (trees : List ParseTree) (es : List Expr) : Prop :=
  ∃ read, ofTrees trees = .ok read ∧ unspannedAll read = unspannedAll es

attribute [local simp] Except.ok_bind childAt tokenAt identAt nodeOf TypeExpr.ofTree ofTree
  ofTrees unspanned Note.unspanned_fresh

theorem givesType_named {ident : Ident} (htoken : token.kind = .ident ident.name) (span : Span) :
    GivesType (.node .type span [.leaf token]) (.named ident) :=
  ⟨.named ⟨ident.name, token.span⟩, by simp [htoken, pure, Except.pure], rfl⟩

theorem GivesType.array (h : tree.GivesType elem) (span elemSpan : Span) :
    GivesType (.node .arrayType span [tree]) (.array elem elemSpan) := by
  obtain ⟨read, hread, heq⟩ := h
  exact ⟨.array read span, by simp [hread], by simp [TypeExpr.unspanned, heq]⟩

variable {tree left right : ParseTree} {token : Token} {e l r : Expr} {note : Note}

theorem Gives.paren (h : tree.Gives e) (span : Span) : Gives (.node .paren span [tree]) e := by
  obtain ⟨read, hread, heq⟩ := h
  exact ⟨read, by simp [hread], heq⟩

section

variable (hnote : note.Fresh) (span : Span)
include hnote

theorem gives_literal (htoken : token.kind = value.token) :
    Gives (.node .literal span [.leaf token]) (.literal note value) := by
  obtain ⟨kind, tokenSpan⟩ := token
  subst htoken
  refine ⟨.literal (.fresh span) value, ?_, by simp [hnote.eq]⟩
  cases value with
  | bool value => cases value <;> rfl
  | _ => rfl

theorem gives_name (htoken : token.kind = .ident ref.name) (hbinding : ref.binding = none) :
    Gives (.node .name span [.leaf token]) (.name note ref) :=
  ⟨.name (.fresh span) ⟨ref.name, none⟩, by simp [htoken, pure, Except.pure],
    by simp [hnote.eq, ← hbinding]⟩

theorem Gives.binary {op : BinOp} (hl : left.Gives l) (htoken : token.kind = .punct op.punct)
    (hr : right.Gives r) :
    Gives (.node .binary span [left, .leaf token, right]) (.binary note op l r) := by
  obtain ⟨l', hl', hleq⟩ := hl
  obtain ⟨r', hr', hreq⟩ := hr
  exact ⟨.binary (.fresh span) op l' r',
    by simp [hl', hr', htoken, binaryOperator, BinOp.ofPunct?_punct],
    by simp [hnote.eq, hleq, hreq]⟩

theorem Gives.unary {op : UnOp} (htoken : token.kind = .punct op.punct) (h : tree.Gives e) :
    Gives (.node .unary span [.leaf token, tree]) (.unary note op e) := by
  obtain ⟨read, hread, heq⟩ := h
  exact ⟨.unary (.fresh span) op read,
    by cases op <;> simp [hread, htoken, unaryOperator, UnOp.punct], by simp [hnote.eq, heq]⟩

theorem Gives.call (h : tree.Gives e) (hargs : GivesAll trees args) (argsSpan : Span) :
    Gives (.node .call span [tree, .node .args argsSpan trees]) (.call note e args none) := by
  obtain ⟨read, hread, heq⟩ := h
  obtain ⟨args', hargs', hargsEq⟩ := hargs
  exact ⟨.call (.fresh span) read args' none, by simp [hread, hargs'],
    by simp [hnote.eq, heq, hargsEq]⟩

theorem Gives.field {ident : Ident} (h : tree.Gives e) (htoken : token.kind = .ident ident.name) :
    Gives (.node .member span [tree, .leaf token]) (.field note e ident none) := by
  obtain ⟨read, hread, heq⟩ := h
  exact ⟨.field (.fresh span) read ⟨ident.name, token.span⟩ none, by simp [hread, htoken],
    by simp [hnote.eq, heq, Ident.unspanned]⟩

theorem Gives.index (hl : left.Gives l) (hr : right.Gives r) :
    Gives (.node .index span [left, right]) (.index note l r) := by
  obtain ⟨l', hl', hleq⟩ := hl
  obtain ⟨r', hr', hreq⟩ := hr
  exact ⟨.index (.fresh span) l' r', by simp [hl', hr'], by simp [hnote.eq, hleq, hreq]⟩

theorem GivesAll.array (h : GivesAll trees elems) :
    Gives (.node .arrayLit span trees) (.array note elems) := by
  obtain ⟨read, hread, heq⟩ := h
  exact ⟨.array (.fresh span) read, by simp [hread], by simp [hnote.eq, heq]⟩

theorem GivesType.newArray (hty : left.GivesType ty) (h : right.Gives e) :
    Gives (.node .newArray span [left, right]) (.newArray note ty e) := by
  obtain ⟨ty', hty', htyEq⟩ := hty
  obtain ⟨read, hread, heq⟩ := h
  exact ⟨.newArray (.fresh span) ty' read, by simp [hread, hty'], by simp [hnote.eq, htyEq, heq]⟩

theorem Gives.cast (h : left.Gives e) (hty : right.GivesType ty) :
    Gives (.node .cast span [left, right]) (.cast note e ty) := by
  obtain ⟨read, hread, heq⟩ := h
  obtain ⟨ty', hty', htyEq⟩ := hty
  exact ⟨.cast (.fresh span) read ty', by simp [hread, hty'], by simp [hnote.eq, htyEq, heq]⟩

end

theorem givesAll_nil : GivesAll [] [] := ⟨[], rfl, rfl⟩

theorem Gives.cons (h : tree.Gives e) (hes : GivesAll trees es) :
    GivesAll (tree :: trees) (e :: es) := by
  obtain ⟨read, hread, heq⟩ := h
  obtain ⟨reads, hreads, hesEq⟩ := hes
  exact ⟨read :: reads, by simp [hread, hreads], by simp [unspannedAll, heq, hesEq]⟩

end ParseTree

/-! ## Types -/

def opensPair : List TokenKind → Bool
  | .punct .lbracket :: .punct .rbracket :: _ => true
  | _ => false

namespace Parser

open ParseTree

variable {kinds rest : List TokenKind} {Q : ParseTree → Prop} {start : Span} {fuel : Nat}

theorem reads_arraySuffix_pair
    (h : ∀ span, Reads kinds rest Q (arraySuffix start fuel (.node .arrayType span [tree]))) :
    Reads (inBrackets [] ++ kinds) rest Q (arraySuffix start (fuel + 1) tree) := by
  have hpair : Reads (inBrackets [] ++ kinds) rest Q (do
      let _ ← advance
      let _ ← advance
      arraySuffix start fuel (← node .arrayType start [tree])) :=
    reads_advance fun _ _ => reads_advance fun _ _ => reads_node_bind h
  unfold arraySuffix
  refine reads_get fun c hc => ?_
  obtain ⟨prev, ⟨kind, span⟩, _ | ⟨⟨kind', span'⟩, tokens⟩⟩ := c
  · simp [inBrackets, Cursor.kinds] at hc
  simp only [inBrackets, Cursor.kinds, map_cons, cons_append, nil_append, List.cons.injEq] at hc
  obtain ⟨rfl, rfl, _⟩ := hc
  exact hpair

theorem reads_arraySuffix_nil (hpair : opensPair rest = false) (h : Q tree) :
    Reads [] rest Q (arraySuffix start (fuel + 1) tree) := by
  unfold arraySuffix
  refine reads_get fun c hc => ?_
  split
  · rename_i hkind htokens
    rw [nil_append] at hc
    rw [← hc, Cursor.kinds, hkind, htokens] at hpair
    cases hpair
  · exact .pure h

/-- A type and what follows it: the brackets are read from left to right, while the tree grows at
its root. -/
theorem reads_type_append (h : ∀ start tree fuel', tree.GivesType ty →
      Reads kinds rest Q (arraySuffix start fuel' tree)) :
    Reads (ty.print ++ kinds) rest Q (type fuel) := by
  induction ty generalizing kinds with
  | named ident =>
    unfold type
    exact reads_here fun span => reads_peek rfl (reads_advance fun token htoken =>
      reads_node_bind fun _ => h _ _ _ (givesType_named htoken _))
  | array elem span ih =>
    rw [TypeExpr.print, append_assoc]
    refine ih fun start tree fuel' htree => ?_
    obtain _ | fuel' := fuel'
    · exact reads_exhausted
    exact reads_arraySuffix_pair fun _ => h _ _ _ (htree.array _ _)

theorem reads_type (hpair : opensPair rest = false) :
    Reads ty.print rest (GivesType · ty) (type fuel) := by
  rw [← append_nil ty.print]
  refine reads_type_append fun start tree fuel' htree => ?_
  obtain _ | fuel' := fuel'
  · exact reads_exhausted
  exact reads_arraySuffix_nil hpair htree

end Parser

/-! ## Expressions -/

def TokenKind.opensSuffix : TokenKind → Bool
  | .punct .lparen | .punct .lbracket | .punct .dot | .keyword .as_ => true
  | _ => false

/-- The next token is neither an operand nor an operator that binds as tightly as `least`. -/
def EndsExpr (least : Nat) (rest : List TokenKind) : Prop :=
  ∀ kind ∈ rest.head?, kind.opensSuffix = false ∧ ∀ power ∈ Parser.power? kind, power < least

theorem EndsExpr.mono {least' : Nat} (h : EndsExpr least rest) (hle : least ≤ least') :
    EndsExpr least' rest :=
  fun kind hkind => ⟨(h kind hkind).1, fun power hpower =>
    Nat.lt_of_lt_of_le ((h kind hkind).2 power hpower) hle⟩

theorem EndsExpr.opensPair (h : EndsExpr least rest) : opensPair rest = false := by
  unfold StackCompiler.opensPair
  split
  · exact absurd (h _ rfl).1 (by decide)
  · rfl

theorem ends_cons (hsuffix : kind.opensSuffix = false) (hpower : Parser.power? kind = none) :
    EndsExpr least (kind :: rest) := by
  intro kind' hkind'
  cases hkind'
  refine ⟨hsuffix, fun power h => ?_⟩
  rw [hpower] at h
  cases h

theorem ends_binary (op : BinOp) : EndsExpr (op.power + 1) (.punct op.punct :: rest) := by
  intro kind hkind
  cases hkind
  refine ⟨by cases op <;> rfl, fun power hpower => ?_⟩
  have hpower : op.punct.precedence? = some power := hpower
  rw [op.precedence?_punct] at hpower
  cases hpower
  exact Nat.lt_succ_self _

theorem opensPair_index {kinds : List TokenKind} (h : Opens TokenKind.opensExpr kinds) :
    opensPair (.punct .lbracket :: (kinds ++ rest)) = false := by
  obtain ⟨kind, tail, rfl, hkind⟩ := h
  unfold opensPair
  split
  · rename_i heq
    cases heq
    cases hkind
  · rfl

namespace Parser

open ParseTree

/-- The parser reads an operand without anything after it. -/
def ReadsPrimary (e : Expr) : Prop :=
  ∀ fuel rest, Reads (e.printFrom 8) rest (Gives · e) (primary fuel)

/-- The parser reads an operand, as far as the reading goes on with what follows. -/
def ReadsSpine (e : Expr) : Prop :=
  ∀ fuel start kinds rest Q, opensPair (kinds ++ rest) = false →
    (∀ tree fuel', tree.Gives e → Reads kinds rest Q (suffixes fuel' start tree)) →
    Reads (e.printFrom 8 ++ kinds) rest Q (primary fuel >>= suffixes fuel start)

/-- The parser reads an operand with its signs. -/
def ReadsSigned (e : Expr) : Prop :=
  ∀ fuel rest least, EndsExpr least rest →
    Reads (e.printFrom 7) rest (Gives · e) (unary fuel)

/-- The parser reads the left operand of an operator of that power, if the reading goes on with what
follows. -/
def ReadsLeft (power : Nat) (e : Expr) : Prop :=
  ∀ fuel least start kinds rest Q, least ≤ power → EndsExpr (power + 1) (kinds ++ rest) →
    (∀ tree fuel', tree.Gives e → Reads kinds rest Q (operators fuel' least start tree)) →
    Reads (e.printFrom power ++ kinds) rest Q (unary fuel >>= operators fuel least start)

/-- The parser reads an expression of operators that bind as tightly as `least`. -/
def ReadsFrom (least : Nat) (e : Expr) : Prop :=
  ∀ fuel rest, EndsExpr least rest →
    Reads (e.printFrom least) rest (Gives · e) (exprFrom fuel least)

variable {kinds rest : List TokenKind} {Q : ParseTree → Prop} {start : Span} {fuel : Nat} {e : Expr}

theorem reads_suffixes_nil (hends : EndsExpr least rest) (h : Q tree) :
    Reads [] rest Q (suffixes fuel start tree) := by
  obtain _ | fuel := fuel
  · exact reads_exhausted
  obtain _ | ⟨kind, rest⟩ := rest
  · exact fun c hc hrest => absurd rfl hrest
  have hsuffix := (hends kind rfl).1
  unfold suffixes
  refine reads_peek rfl ?_
  split
  iterate 4 cases hsuffix
  exact .pure h

theorem reads_operators_nil (hends : EndsExpr least rest) (h : Q tree) :
    Reads [] rest Q (operators fuel least start tree) := by
  obtain _ | fuel := fuel
  · exact reads_exhausted
  obtain _ | ⟨kind, rest⟩ := rest
  · exact fun c hc hrest => absurd rfl hrest
  have hpower := (hends kind rfl).2
  unfold operators
  refine reads_peek rfl ?_
  split
  · exact .pure h
  · rename_i power heq
    rw [if_pos (hpower power heq)]
    exact .pure h

/-! ### From one form to the next -/

theorem ReadsPrimary.spine (h : ReadsPrimary e) : ReadsSpine e := by
  intro fuel start kinds rest Q _ hnext
  exact (h fuel _).bind fun tree htree => hnext tree fuel htree

theorem ReadsSpine.signed (h : ReadsSpine e) (hlevel : e.level ≠ 7) : ReadsSigned e := by
  intro fuel rest least hends
  have hprint : e.printFrom 7 = e.printFrom 8 := by
    have := e.level_le
    obtain hlt | hle : e.level < 7 ∨ 8 ≤ e.level := by omega
    · rw [printFrom_of_lt hlt, printFrom_of_lt (by omega)]
    · rw [printFrom_of_le (by omega), printFrom_of_le hle]
  rw [hprint]
  obtain ⟨kind, tail, heq, hkind⟩ := e.printFrom_opens
  obtain _ | fuel := fuel
  · exact reads_exhausted
  have hspine (start : Span) := h fuel start [] rest (Gives · e) hends.opensPair
    fun tree fuel' htree => reads_suffixes_nil hends htree
  have hhead : (e.printFrom 8 ++ rest).head? = some kind := by rw [heq]; rfl
  unfold unary
  refine reads_here fun start => reads_peek hhead ?_
  rw [← append_nil (e.printFrom 8)]
  split
  · cases hkind
  · cases hkind
  · exact hspine start

theorem ReadsSigned.left {power : Nat} (h : ReadsSigned e) (hpower : power ≤ 7)
    (hlevel : e.level < power ∨ 7 ≤ e.level) : ReadsLeft power e := by
  intro fuel least start kinds rest Q _ hends hnext
  have hprint : e.printFrom power = e.printFrom 7 := by
    obtain hlt | hle := hlevel
    · rw [printFrom_of_lt hlt, printFrom_of_lt (by omega)]
    · rw [printFrom_of_le (by omega), printFrom_of_le hle]
  rw [hprint]
  exact (h fuel _ _ hends).bind fun tree htree => hnext tree fuel htree

theorem ReadsLeft.whole (h : ReadsLeft least e) : ReadsFrom least e := by
  intro fuel rest hends
  obtain _ | fuel := fuel
  · exact reads_exhausted
  unfold exprFrom
  refine reads_here fun start => ?_
  rw [← append_nil (e.printFrom least)]
  exact h fuel least start [] rest _ (Nat.le_refl _) (hends.mono (Nat.le_succ _))
    fun tree fuel' htree => reads_operators_nil hends htree

theorem ReadsFrom.primary (h : ReadsFrom 0 e) (hlevel : e.level < 8) : ReadsPrimary e := by
  intro fuel rest
  rw [printFrom_of_lt hlevel]
  obtain _ | fuel := fuel
  · exact reads_exhausted
  unfold Parser.primary
  refine reads_here fun start => reads_peek rfl (reads_advance fun _ _ => ?_)
  have hinner := h fuel (.punct .rparen :: rest)
  rw [printFrom_of_le (Nat.zero_le _)] at hinner
  exact (hinner (ends_cons rfl rfl)).bind fun tree htree =>
    reads_expect fun _ _ => reads_node fun span => htree.paren span

/-- The parser reads an expression wherever it can stand. -/
structure ReadsExpr (e : Expr) : Prop where
  spine : ReadsSpine e
  signed : ReadsSigned e
  left : ∀ power ≤ 7, ReadsLeft power e
  whole : ∀ least ≤ 7, ReadsFrom least e

theorem ReadsExpr.all (h : ReadsExpr e) (hends : EndsExpr 0 rest) :
    Reads e.print rest (Gives · e) (exprFrom fuel 0) := by
  rw [← printFrom_of_le (Nat.zero_le e.level)]
  exact h.whole 0 (Nat.zero_le _) fuel rest hends

theorem ReadsSpine.readsExpr (h : ReadsSpine e) (hlevel : e.level = 8) : ReadsExpr e := by
  have hsigned := h.signed (by omega)
  have hleft (power : Nat) (hpower : power ≤ 7) := hsigned.left hpower (by omega)
  exact ⟨h, hsigned, hleft, fun least hleast => (hleft least hleast).whole⟩

theorem ReadsSigned.readsExpr (h : ReadsSigned e) (hlevel : e.level = 7) : ReadsExpr e := by
  have hleft (power : Nat) (hpower : power ≤ 7) := h.left hpower (by omega)
  have hwhole (least : Nat) (hleast : least ≤ 7) := (hleft least hleast).whole
  exact ⟨((hwhole 0 (by omega)).primary (by omega)).spine, h, hleft, hwhole⟩

theorem ReadsLeft.readsExpr (h : ∀ power ≤ e.level, ReadsLeft power e) (hlevel : e.level < 7) :
    ReadsExpr e := by
  have hspine := ((h 0 (Nat.zero_le _)).whole.primary (by omega)).spine
  have hsigned := hspine.signed (by omega)
  have hleft (power : Nat) (hpower : power ≤ 7) : ReadsLeft power e := by
    obtain hle | hlt := Nat.lt_or_ge e.level power
    · exact hsigned.left hpower (.inl hle)
    · exact h power hlt
  exact ⟨hspine, hsigned, hleft, fun least hleast => (hleft least hleast).whole⟩

/-! ### Operators -/

theorem reads_binary {op : BinOp} {l r : Expr} (hl : ReadsExpr l) (hr : ReadsExpr r)
    (hnote : note.Fresh) : ReadsExpr (.binary note op l r) := by
  have hpower := op.power_lt
  refine ReadsLeft.readsExpr (fun power hle => ?_) hpower
  intro fuel least start kinds rest Q hleast hends hnext
  have hle : power ≤ op.power := hle
  have hprint : (Expr.binary note op l r).printFrom power =
      l.printFrom op.power ++ .punct op.punct :: r.printFrom (op.power + 1) := by
    rw [printFrom_of_le hle, print_binary]
  rw [hprint, append_assoc, cons_append]
  -- the operator is read once its left operand is, and its result is the operand of the next one
  refine hl.left op.power (by omega) fuel least start _ rest Q (by omega) (ends_binary op)
    fun left fuel' hleft => ?_
  obtain _ | fuel' := fuel'
  · exact reads_exhausted
  unfold operators
  refine reads_peek rfl ?_
  simp only [power?, op.precedence?_punct]
  rw [if_neg (by omega)]
  refine reads_advance fun token htoken => ?_
  refine (hr.whole (op.power + 1) (by omega) fuel' _ (hends.mono (by omega))).bind
    fun right hright => reads_node_bind fun span => ?_
  exact hnext _ fuel' (hleft.binary hnote span htoken hright)

theorem reads_unary {op : UnOp} (h : ReadsExpr e) (hnote : note.Fresh) :
    ReadsExpr (.unary note op e) := by
  refine ReadsSigned.readsExpr ?_ rfl
  intro fuel rest least hends
  have hprint : (Expr.unary note op e).printFrom 7 = .punct op.punct :: e.printFrom 7 := by
    rw [printFrom_of_le (by simp [level]), print_unary]
  rw [hprint]
  obtain _ | fuel := fuel
  · exact reads_exhausted
  have hsigned (start : Span) : Reads (.punct op.punct :: e.printFrom 7) rest
      (Gives · (.unary note op e)) (do
        let token ← advance
        let operand ← unary fuel
        node .unary start [.leaf token, operand]) := by
    exact reads_advance fun token htoken => (h.signed fuel _ least hends).last fun tree htree =>
      reads_node fun span => htree.unary hnote span htoken
  unfold unary
  refine reads_here fun start => reads_peek rfl ?_
  cases op <;> exact hsigned start

/-! ### Operands -/

theorem readsExpr_of_primary (hlevel : e.level = 8)
    (h : ∀ fuel rest, Reads e.print rest (Gives · e) (primary (fuel + 1))) : ReadsExpr e := by
  refine ReadsSpine.readsExpr (ReadsPrimary.spine fun fuel rest => ?_) hlevel
  rw [printFrom_of_le (Nat.le_of_eq hlevel.symm)]
  obtain _ | fuel := fuel
  · exact reads_exhausted
  · exact h fuel rest

theorem reads_literal (hnote : note.Fresh) : ReadsExpr (.literal note value) := by
  refine readsExpr_of_primary rfl fun fuel rest => ?_
  have hliteral (start : Span) : Reads [value.token] rest (Gives · (.literal note value)) (do
      let token ← advance
      node .literal start [.leaf token]) :=
    reads_advance fun token htoken => reads_node fun span => gives_literal hnote span htoken
  unfold primary
  refine reads_here fun start => reads_peek rfl ?_
  cases value with
  | bool value => cases value <;> exact hliteral start
  | _ => exact hliteral start

theorem reads_name (hnote : note.Fresh) (href : ref.binding = none) :
    ReadsExpr (.name note ref) := by
  refine readsExpr_of_primary rfl fun fuel rest => ?_
  unfold primary
  exact reads_here fun start => reads_peek rfl (reads_advance fun token htoken =>
    reads_node fun span => gives_name hnote span htoken href)

/-- Expressions with commas between them are read up to a closing parenthesis or bracket. -/
theorem reads_exprList {close : TokenKind}
    (hclose : close = .punct .rparen ∨ close = .punct .rbracket) (hes : ∀ e ∈ es, ReadsExpr e) :
    Reads (withCommas (printAll es)) (close :: rest) (GivesAll · es) (exprList fuel close) := by
  induction es generalizing fuel with
  | nil =>
    obtain _ | fuel := fuel
    · exact reads_exhausted
    unfold exprList
    refine reads_peek rfl ?_
    rw [if_pos (by simp)]
    exact .pure givesAll_nil
  | cons e es ih =>
    have hends (least : Nat) : EndsExpr least (close :: rest) := by
      obtain rfl | rfl := hclose <;> exact ends_cons rfl rfl
    obtain ⟨hfirst, hes⟩ := forall_mem_cons.mp hes
    obtain _ | fuel := fuel
    · exact reads_exhausted
    obtain ⟨kind, tail, heq, hkind⟩ := e.print_opens.1
    have hopen : ¬(kind == close || kind == .eof) = true := by
      simp only [Bool.or_eq_true, beq_iff_eq]
      rintro (rfl | rfl)
      · obtain rfl | rfl := hclose <;> cases hkind
      · cases hkind
    unfold exprList
    obtain _ | ⟨next, es⟩ := es
    · simp only [printAll, withCommas]
      refine reads_peek (by rw [heq]; rfl) ?_
      rw [if_neg hopen]
      refine (hfirst.all (hends 0)).last fun tree htree => ?_
      refine reads_consume_false ?_ (.pure (htree.cons givesAll_nil))
      obtain rfl | rfl := hclose <;> simp
    · simp only [printAll, withCommas]
      refine reads_peek (by rw [heq]; rfl) ?_
      rw [if_neg hopen]
      exact (hfirst.all (ends_cons rfl rfl)).bind fun tree htree => reads_consume_true
        ((ih hes).last fun trees htrees =>
          .pure (htree.cons htrees))

theorem reads_array (helems : ∀ e ∈ elems, ReadsExpr e) (hnote : note.Fresh) :
    ReadsExpr (.array note elems) := by
  refine readsExpr_of_primary rfl fun fuel rest => ?_
  unfold primary
  refine reads_here fun start => reads_peek rfl (reads_advance fun _ _ => ?_)
  exact (reads_exprList (.inr rfl) helems).bind fun trees htrees =>
    reads_expect fun _ _ => reads_node fun span => htrees.array hnote span

theorem reads_newArray (h : ReadsExpr e) (hnote : note.Fresh) :
    ReadsExpr (.newArray note elem e) := by
  refine readsExpr_of_primary rfl fun fuel rest => ?_
  unfold primary
  refine reads_here fun start => reads_peek rfl (reads_advance fun _ _ => ?_)
  have hpair : opensPair (inBrackets e.print ++ rest) = false := by
    rw [inBrackets, cons_append, append_assoc]
    exact opensPair_index e.print_opens.1
  refine (reads_type hpair).bind fun left hleft => reads_expect fun _ _ => ?_
  exact (h.all (ends_cons rfl rfl)).bind fun right hright =>
    reads_expect fun _ _ => reads_node fun span => hleft.newArray hnote span hright

theorem reads_suffix {base : Expr} {suffix : List TokenKind} (hbase : ReadsExpr base)
    (hlevel : e.level = 8) (hprint : e.print = base.printFrom 8 ++ suffix)
    (hpair : ∀ rest, opensPair (suffix ++ rest) = false)
    (hsuffix : ∀ fuel start kinds rest Q tree, opensPair (kinds ++ rest) = false → tree.Gives base →
      (∀ tree fuel', tree.Gives e → Reads kinds rest Q (suffixes fuel' start tree)) →
      Reads (suffix ++ kinds) rest Q (suffixes (fuel + 1) start tree)) : ReadsExpr e := by
  refine ReadsSpine.readsExpr (fun fuel start kinds rest Q hnext hread => ?_) hlevel
  rw [printFrom_of_le (Nat.le_of_eq hlevel.symm), hprint, append_assoc]
  refine hbase.spine fuel start _ rest Q (by rw [append_assoc]; exact hpair _)
    fun tree fuel' htree => ?_
  obtain _ | fuel' := fuel'
  · exact reads_exhausted
  exact hsuffix fuel' start kinds rest Q tree hnext htree hread

theorem reads_call (h : ReadsExpr e) (hargs : ∀ arg ∈ args, ReadsExpr arg) (hnote : note.Fresh) :
    ReadsExpr (.call note e args none) := by
  refine reads_suffix h rfl (print_call ..) (fun _ => rfl)
    fun fuel start kinds rest Q tree _ htree hnext => ?_
  simp only [inParens, cons_append, append_assoc]
  unfold suffixes
  refine reads_peek rfl (reads_advance fun opening _ => ?_)
  refine (reads_exprList (.inl rfl) hargs).bind fun trees htrees =>
    reads_expect fun _ _ => reads_node_bind fun argsSpan => reads_node_bind fun span => ?_
  exact hnext _ fuel (htree.call hnote span htrees argsSpan)

theorem reads_field {ident : Ident} (h : ReadsExpr e) (hnote : note.Fresh) :
    ReadsExpr (.field note e ident none) := by
  refine reads_suffix h rfl (print_field ..) (fun _ => rfl)
    fun fuel start kinds rest Q tree _ htree hnext => ?_
  simp only [cons_append, nil_append]
  unfold suffixes
  refine reads_peek rfl (reads_advance fun _ _ => reads_ident fun token htoken =>
    reads_node_bind fun span => ?_)
  exact hnext _ fuel (htree.field hnote span htoken)

theorem reads_index {position : Expr} (h : ReadsExpr e) (hposition : ReadsExpr position)
    (hnote : note.Fresh) : ReadsExpr (.index note e position) := by
  refine reads_suffix h rfl (print_index ..) (fun rest => ?_)
    fun fuel start kinds rest Q tree _ htree hnext => ?_
  · rw [inBrackets, cons_append, append_assoc]
    exact opensPair_index position.print_opens.1
  simp only [inBrackets, cons_append, append_assoc]
  unfold suffixes
  refine reads_peek rfl (reads_advance fun _ _ => ?_)
  refine (hposition.all (ends_cons rfl rfl)).bind fun right hright =>
    reads_expect fun _ _ => reads_node_bind fun span => ?_
  exact hnext _ fuel (htree.index hnote span hright)

theorem reads_cast {target : TypeExpr} (h : ReadsExpr e) (hnote : note.Fresh) :
    ReadsExpr (.cast note e target) := by
  refine reads_suffix h rfl (print_cast ..) (fun _ => rfl)
    fun fuel start kinds rest Q tree hpair htree hnext => ?_
  simp only [cons_append]
  unfold suffixes
  refine reads_peek rfl (reads_advance fun _ _ => ?_)
  refine (reads_type hpair).bind fun right hright => reads_node_bind fun span => ?_
  exact hnext _ fuel (htree.cast hnote span hright)

/-- **The parser reads every expression in which nothing is filled in.** -/
theorem readsExpr (hfresh : e.Fresh) : ReadsExpr e := by
  induction e with
  | literal note value => exact reads_literal hfresh
  | name note ref => exact reads_name hfresh.1 hfresh.2
  | binary note op left right hleft hright =>
    exact reads_binary (hleft hfresh.2.1) (hright hfresh.2.2) hfresh.1
  | unary note op operand hoperand => exact reads_unary (hoperand hfresh.2) hfresh.1
  | call note callee args target hcallee hargs =>
    obtain ⟨hnote, hcalleeFresh, hargsFresh, rfl⟩ := hfresh
    exact reads_call (hcallee hcalleeFresh)
      (fun arg harg => hargs arg harg (freshAll_iff.mp hargsFresh arg harg)) hnote
  | field note base ident position hbase =>
    obtain ⟨hnote, hbaseFresh, rfl⟩ := hfresh
    exact reads_field (hbase hbaseFresh) hnote
  | index note base position hbase hposition =>
    exact reads_index (hbase hfresh.2.1) (hposition hfresh.2.2) hfresh.1
  | array note elems helems =>
    exact reads_array (fun e he => helems e he (freshAll_iff.mp hfresh.2 e he)) hfresh.1
  | newArray note elem length hlength => exact reads_newArray (hlength hfresh.2) hfresh.1
  | cast note operand target hoperand => exact reads_cast (hoperand hfresh.2) hfresh.1

theorem reads_expr (hfresh : e.Fresh) (hends : EndsExpr 0 rest) :
    Reads e.print rest (Gives · e) (expr fuel) :=
  (readsExpr hfresh).all hends

end Parser

end StackCompiler

import Mathlib.Data.List.Forall2
import StackCompiler.Proofs.Printing

/-!
# The grammar

Which tokens a tree takes up. Each rule says what stands in a node, in order: tokens that are not
kept, and trees. The tokens of a tree are those of its parts, one after another.
-/

namespace StackCompiler

open List

inductive Category where
  | name | literal | sign | operator | binder
  | type | param | field | params | expr | args | block | stmt | item | unit

/-- A tree of a category can be a token of this kind. -/
inductive Category.Takes : Category → TokenKind → Prop
  | name (name : String) : Takes .name (.ident name)
  | literal (value : Literal) : Takes .literal value.token
  | sign (op : UnOp) : Takes .sign (.punct op.punct)
  | operator (op : BinOp) : Takes .operator (.punct op.punct)
  | binder (mutable : Bool) : Takes .binder (.keyword (if mutable then .var else .val))

/-- Trees of one category that can stand for another. -/
inductive Category.Within : Category → Category → Prop
  | block : Within .block .stmt
  | stmt : Within .stmt .item

/-- A part of a node: a token that is not kept, or a tree. -/
inductive Part where
  | token (kind : TokenKind)
  | tree (category : Category)

namespace Part

abbrev mark (symbol : Punct) : Part := .token (.punct symbol)

abbrev word (keyword : Keyword) : Part := .token (.keyword keyword)

def category? : Part → Option Category
  | .token _ => none
  | .tree category => some category

end Part

def Many (c : Category) (parts : List Part) : Prop := ∀ part ∈ parts, part = .tree c

/-- Trees with commas between them; there may be one after the last. -/
inductive Commas (c : Category) : List Part → Prop
  | nil : Commas c []
  | last : Commas c [.tree c]
  | cons {parts : List Part} : Commas c parts → Commas c (.tree c :: .mark .comma :: parts)

/-- Fields; a comma or a semicolon may follow each. -/
inductive Fields : List Part → Prop
  | nil : Fields []
  | cons {separator parts : List Part} :
      separator ∈ [[], [Part.mark .comma], [Part.mark .semicolon]] → Fields parts →
      Fields (.tree .field :: (separator ++ parts))

/-- A type after a symbol, or nothing. -/
def TypeAfter (symbol : Punct) (parts : List Part) : Prop :=
  parts = [] ∨ parts = [.mark symbol, .tree .type]

/-- The parts of a node by its rule. -/
inductive Production : Category → Rule → List Part → Prop
  | unit {parts : List Part} : Many .item parts →
      Production .unit .unit (parts ++ [.token .eof])
  | struct {parts : List Part} : Fields parts → Production .item .struct
      ([.word .struct, .tree .name, .mark .lbrace] ++ parts ++ [.mark .rbrace])
  | field : Production .field .field [.tree .name, .mark .colon, .tree .type]
  | param : Production .param .param [.tree .name, .mark .colon, .tree .type]
  | params {parts : List Part} : Commas .param parts →
      Production .params .params ([.mark .lparen] ++ parts ++ [.mark .rparen])
  | function {parts : List Part} : TypeAfter .arrow parts → Production .stmt .function
      ([.word .function, .tree .name, .tree .params] ++ parts ++ [.tree .block])
  | type : Production .type .type [.tree .name]
  | arrayType : Production .type .arrayType [.tree .type, .mark .lbracket, .mark .rbracket]
  | block {parts : List Part} : Many .stmt parts →
      Production .block .block ([.mark .lbrace] ++ parts ++ [.mark .rbrace])
  | varDecl {parts : List Part} : TypeAfter .colon parts → Production .stmt .varDecl
      ([.tree .binder, .tree .name] ++ parts ++ [.mark .assign, .tree .expr, .mark .semicolon])
  | branch : Production .stmt .branch
      [.word .if_, .mark .lparen, .tree .expr, .mark .rparen, .tree .stmt]
  | choice : Production .stmt .branch
      [.word .if_, .mark .lparen, .tree .expr, .mark .rparen, .tree .stmt,
        .word .else_, .tree .stmt]
  | whileLoop : Production .stmt .whileLoop
      [.word .while_, .mark .lparen, .tree .expr, .mark .rparen, .tree .stmt]
  | forLoop : Production .stmt .forLoop [.word .for_, .mark .lparen, .tree .name, .word .in_,
      .tree .expr, .mark .dotDot, .tree .expr, .mark .rparen, .tree .stmt]
  | ret : Production .stmt .ret [.word .return_, .mark .semicolon]
  | retValue : Production .stmt .ret [.word .return_, .tree .expr, .mark .semicolon]
  | breakStmt : Production .stmt .breakStmt [.word .break_, .mark .semicolon]
  | continueStmt : Production .stmt .continueStmt [.word .continue_, .mark .semicolon]
  | assign : Production .stmt .assign
      [.tree .expr, .mark .assign, .tree .expr, .mark .semicolon]
  | exprStmt : Production .stmt .exprStmt [.tree .expr, .mark .semicolon]
  | binary : Production .expr .binary [.tree .expr, .tree .operator, .tree .expr]
  | unary : Production .expr .unary [.tree .sign, .tree .expr]
  | cast : Production .expr .cast [.tree .expr, .word .as_, .tree .type]
  | call : Production .expr .call [.tree .expr, .tree .args]
  | args {parts : List Part} : Commas .expr parts →
      Production .args .args ([.mark .lparen] ++ parts ++ [.mark .rparen])
  | index : Production .expr .index
      [.tree .expr, .mark .lbracket, .tree .expr, .mark .rbracket]
  | member : Production .expr .member [.tree .expr, .mark .dot, .tree .name]
  | arrayLit {parts : List Part} : Commas .expr parts →
      Production .expr .arrayLit ([.mark .lbracket] ++ parts ++ [.mark .rbracket])
  | newArray : Production .expr .newArray
      [.word .new_, .tree .type, .mark .lbracket, .tree .expr, .mark .rbracket]
  | paren : Production .expr .paren [.mark .lparen, .tree .expr, .mark .rparen]
  | literal : Production .expr .literal [.tree .literal]
  | name : Production .expr .name [.tree .name]

/-- Trees in the places of some parts, and the tokens that all the parts take up. -/
inductive Fills (D : Category → List Token → ParseTree → Prop) :
    List Part → List Token → List ParseTree → Prop
  | nil : Fills D [] [] []
  | token {token : Token} {parts : List Part} {tokens : List Token} {trees : List ParseTree} :
      Fills D parts tokens trees → Fills D (.token token.kind :: parts) (token :: tokens) trees
  | tree {c : Category} {parts : List Part} {taken tokens : List Token} {tree : ParseTree}
      {trees : List ParseTree} : D c taken tree → Fills D parts tokens trees →
      Fills D (.tree c :: parts) (taken ++ tokens) (tree :: trees)

/-- The tree is of a category and takes up these tokens. Each tree in it has a property, given the
tokens that it takes up. -/
inductive Derives (P : List Token → ParseTree → Prop) : Category → List Token → ParseTree → Prop
  | leaf {c : Category} {token : Token} : c.Takes token.kind → P [token] (.leaf token) →
      Derives P c [token] (.leaf token)
  | node {c : Category} {rule : Rule} {parts : List Part} {span : Span} {tokens : List Token}
      {children : List ParseTree} : Production c rule parts →
      Fills (Derives P) parts tokens children → P tokens (.node rule span children) →
      Derives P c tokens (.node rule span children)
  | within {c c' : Category} {tokens : List Token} {tree : ParseTree} : c.Within c' →
      Derives P c tokens tree → Derives P c' tokens tree

/-! ## Trees and their tokens -/

variable {D E : Category → List Token → ParseTree → Prop} {P : List Token → ParseTree → Prop}
  {parts parts' : List Part} {tokens tokens' : List Token} {trees trees' : List ParseTree}
  {c : Category} {tree : ParseTree}

theorem Fills.append (h : Fills D parts tokens trees) (h' : Fills D parts' tokens' trees') :
    Fills D (parts ++ parts') (tokens ++ tokens') (trees ++ trees') := by
  induction h with
  | nil => exact h'
  | token _ ih => exact .token ih
  | tree htree _ ih =>
    rw [append_assoc]
    exact .tree htree ih

theorem Fills.singleton (h : D c tokens tree) : Fills D [.tree c] tokens [tree] := by
  simpa using Fills.tree h .nil

theorem Fills.imp (h : Fills D parts tokens trees)
    (himp : ∀ c taken tree, taken <:+: tokens → D c taken tree → E c taken tree) :
    Fills E parts tokens trees := by
  induction h with
  | nil => exact .nil
  | token _ ih =>
    exact .token (ih fun c taken tree htaken => himp c taken tree (infix_cons htaken))
  | tree htree _ ih =>
    exact .tree (himp _ _ _ (prefix_append _ _).isInfix htree) (ih fun c taken tree htaken =>
      himp c taken tree (htaken.trans (suffix_append _ _).isInfix))

theorem Fills.forall₂ {S : Category → ParseTree → Prop} (h : Fills D parts tokens trees)
    (hS : ∀ c tokens tree, D c tokens tree → S c tree) :
    List.Forall₂ S (parts.filterMap Part.category?) trees := by
  induction h with
  | nil => exact .nil
  | token _ ih => exact ih
  | tree htree _ ih => exact .cons (hS _ _ _ htree) ih

theorem Fills.exists_of_mem (h : Fills D parts tokens trees) (htree : tree ∈ trees) :
    ∃ c taken, D c taken tree ∧ taken <:+: tokens := by
  induction h with
  | nil => cases htree
  | token _ ih =>
    obtain ⟨c, taken, hD, htaken⟩ := ih htree
    exact ⟨c, taken, hD, infix_cons htaken⟩
  | tree hfirst _ ih =>
    obtain rfl | htree := mem_cons.mp htree
    · exact ⟨_, _, hfirst, (prefix_append _ _).isInfix⟩
    · obtain ⟨c, taken, hD, htaken⟩ := ih htree
      exact ⟨c, taken, hD, htaken.trans (suffix_append _ _).isInfix⟩

/-- Induction over trees with their tokens. -/
theorem Derives.induct {motive : ∀ c tokens tree, Derives P c tokens tree → Prop}
    (leaf : ∀ {c token} (htakes : c.Takes token.kind) (hP : P [token] (.leaf token)),
      motive c [token] (.leaf token) (.leaf htakes hP))
    (node : ∀ {c rule parts span tokens children} (hproduction : Production c rule parts)
      (hfills : Fills (fun c tokens tree => ∃ h : Derives P c tokens tree, motive c tokens tree h)
        parts tokens children) (hP : P tokens (.node rule span children)),
      motive c tokens (.node rule span children)
        (.node hproduction (hfills.imp fun _ _ _ _ h => h.1) hP))
    (within : ∀ {c c' tokens tree} (hwithin : c.Within c') (h : Derives P c tokens tree),
      motive c tokens tree h → motive c' tokens tree (.within hwithin h))
    {c : Category} {tokens : List Token} {tree : ParseTree} (h : Derives P c tokens tree) :
    motive c tokens tree h :=
  @Derives.rec P motive (fun parts tokens trees _ =>
      Fills (fun c tokens tree => ∃ h, motive c tokens tree h) parts tokens trees)
    leaf (fun hproduction _ hP hfills => node hproduction hfills hP) within .nil
      (fun _ h => .token h)
    (fun htree _ h hfills => .tree ⟨htree, h⟩ hfills) c tokens tree h

theorem Many.categories (h : Many c parts) : ∀ d ∈ parts.filterMap Part.category?, d = c := by
  intro d hd
  obtain ⟨part, hpart, hd⟩ := mem_filterMap.mp hd
  rw [h part hpart] at hd
  exact (Option.some.inj hd).symm

theorem Commas.categories (h : Commas c parts) : ∀ d ∈ parts.filterMap Part.category?, d = c := by
  induction h with
  | nil => exact forall_mem_nil _
  | last => exact forall_mem_singleton.mpr rfl
  | cons _ ih => exact forall_mem_cons.mpr ⟨rfl, ih⟩

theorem Fields.categories (h : Fields parts) :
    ∀ d ∈ parts.filterMap Part.category?, d = .field := by
  induction h with
  | nil => exact forall_mem_nil _
  | cons hseparator _ ih =>
    refine forall_mem_cons.mpr ⟨rfl, ?_⟩
    simp only [mem_cons, not_mem_nil, or_false] at hseparator
    obtain rfl | rfl | rfl := hseparator <;> exact ih

theorem Part.forall_concat {kind : TokenKind} (h : ∀ d ∈ parts.filterMap Part.category?, d = c) :
    ∀ d ∈ (parts ++ [Part.token kind]).filterMap Part.category?, d = c := by
  simpa [Part.category?] using h

theorem Production.ne_nil {rule : Rule} (h : Production c rule parts) : parts ≠ [] := by
  cases h <;> simp

theorem Derives.holds (h : Derives P c tokens tree) : P tokens tree := by
  induction h using Derives.induct with
  | leaf _ hP => exact hP
  | node _ _ hP => exact hP
  | within _ _ ih => exact ih

theorem Derives.ne_nil (h : Derives P c tokens tree) : tokens ≠ [] := by
  induction h using Derives.induct with
  | leaf _ _ => exact cons_ne_nil _ _
  | node hproduction hfills _ =>
    cases hfills with
    | nil => exact absurd rfl hproduction.ne_nil
    | token _ => exact cons_ne_nil _ _
    | tree htree _ => exact append_ne_nil_of_left_ne_nil htree.2 _
  | within _ _ ih => exact ih

theorem Fills.length_le (h : Fills (Derives P) parts tokens trees) :
    parts.length ≤ tokens.length := by
  induction h with
  | nil => exact Nat.le_refl _
  | token _ ih => exact Nat.succ_le_succ ih
  | tree htree _ ih =>
    have := length_pos_iff.mpr htree.ne_nil
    simp only [length_cons, length_append]
    omega

end StackCompiler

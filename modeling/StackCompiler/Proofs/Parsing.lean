import StackCompiler.Proofs.Grammar
import StackCompiler.Proofs.Steps

/-!
# Runs of the parser

What a function of the parser does at a place: it takes tokens, none of them an end mark, and gives
a tree for them, or it rejects a token, or its fuel is used up. Each call takes one unit of fuel,
and between two tokens that are taken lies a chain of at most eight calls. What stands behind an end
mark makes no difference.

* **`parseTokens_derives`**: a parsed unit takes up the tokens to an end mark.
-/

namespace StackCompiler

open List

/-! ## Places -/

namespace Cursor

/-- From one place the other is reached by taking tokens, none of them an end mark. -/
inductive Moves : Cursor → List Token → Cursor → Prop
  | refl (c : Cursor) : Moves c [] c
  | step {c c' : Cursor} {tokens : List Token} : c.current.kind ≠ .eof →
      Moves c.advance tokens c' → Moves c (c.current :: tokens) c'

def append (c : Cursor) (more : List Token) : Cursor := { c with rest := c.rest ++ more }

def HasEof (c : Cursor) : Prop := ∃ token ∈ c.current :: c.rest, token.kind = .eof

variable {c c' c'' : Cursor} {tokens tokens' more : List Token}

theorem Moves.trans (h : c.Moves tokens c') (h' : c'.Moves tokens' c'') :
    c.Moves (tokens ++ tokens') c'' := by
  induction h with
  | refl _ => exact h'
  | step hkind _ ih => exact .step hkind (ih h')

theorem Moves.one (h : c.current.kind ≠ .eof) : c.Moves [c.current] c.advance := .step h (.refl _)

theorem HasEof.rest_ne_nil (h : c.HasEof) (hkind : c.current.kind ≠ .eof) : c.rest ≠ [] := by
  rintro hrest
  obtain ⟨token, htoken, heof⟩ := h
  rw [hrest, mem_singleton] at htoken
  exact hkind (htoken ▸ heof)

theorem hasEof_advance_iff (hkind : c.current.kind ≠ .eof) : c.advance.HasEof ↔ c.HasEof := by
  unfold HasEof advance
  cases hrest : c.rest <;> simp [hkind, hrest]

theorem Moves.hasEof_iff (h : c.Moves tokens c') : c'.HasEof ↔ c.HasEof := by
  induction h with
  | refl _ => exact Iff.rfl
  | step hkind _ ih => rw [ih, hasEof_advance_iff hkind]

/-- The tokens that are taken stand in the text, and the last one is right before the place. -/
theorem Moves.taken (h : c.Moves tokens c') (hc : c.HasEof) :
    c.current :: c.rest = tokens ++ c'.current :: c'.rest ∧
      ∀ last ∈ tokens.getLast?, c'.prev = last.span := by
  induction h with
  | refl _ => exact ⟨rfl, by simp⟩
  | step hkind hmoves ih =>
    rename_i c c' tokens
    obtain ⟨htaken, hlast⟩ := ih ((hasEof_advance_iff hkind).mpr hc)
    obtain ⟨next, rest, hrest⟩ := exists_cons_of_ne_nil (hc.rest_ne_nil hkind)
    simp only [advance, hrest] at htaken
    refine ⟨by rw [hrest, htaken, cons_append], ?_⟩
    cases hmoves with
    | refl _ => simp [advance, hrest]
    | step _ _ => simpa using hlast

end Cursor

/-- The tree reaches from the first of the tokens to the last. -/
def ParseTree.Covers (tokens : List Token) (tree : ParseTree) : Prop :=
  ∃ first ∈ tokens.head?, ∃ last ∈ tokens.getLast?, tree.span = first.span.merge last.span

namespace Parser

variable {α β : Type}

/-- The answer of a step on a text that goes on. -/
def extend (more : List Token) : Except ParseFault (α × Cursor) → Except ParseFault (α × Cursor)
  | .ok (a, c) => .ok (a, c.append more)
  | .error (.exhausted c) => .error (.exhausted (c.append more))
  | .error (.rejected error) => .error (.rejected error)

/-- What can come of a step after some tokens. A chain of as many calls as given has to take some
tokens. -/
inductive Outcome (before : List Token) (c : Cursor) (R : List Token → α → Prop) (calls : Nat) :
    Except ParseFault (α × Cursor) → Prop
  | done {a : α} {c' : Cursor} {tokens : List Token} : c.Moves tokens c' → R (before ++ tokens) a →
      Outcome before c R calls (.ok (a, c'))
  | rejected (error : CompileError) : Outcome before c R calls (.error (.rejected error))
  | exhausted {c' : Cursor} {tokens : List Token} : c.Moves tokens c' → calls ≤ 8 * tokens.length →
      Outcome before c R calls (.error (.exhausted c'))

/-- What is kept of the places that are reached, and what holds of the nodes made there. -/
structure Survey where
  /-- The text goes on with these tokens. -/
  more : List Token
  At : Cursor → Prop
  P : List Token → ParseTree → Prop
  advance : ∀ {c}, At c → c.current.kind ≠ .eof → At c.advance
  rest : ∀ {c}, At c → c.current.kind ≠ .eof → c.rest = [] → more = []
  leaf : ∀ token, P [token] (.leaf token)
  node : ∀ {c0 c tokens rule children}, At c0 → c0.Moves tokens c → tokens ≠ [] →
    P tokens (.node rule (c0.current.span.merge c.prev) children)

/-- A step in the middle of a node: some parts of it have been read. -/
def Runs (s : Survey) (c0 : Cursor) (parts : List Part) (trees : List ParseTree) (c : Cursor)
    (m : Parser α) (R : List Token → α → Prop) (calls : Nat) : Prop :=
  s.At c0 → ∀ tokens, c0.Moves tokens c → Fills (Derives s.P) parts tokens trees →
    m (c.append s.more) = extend s.more (m c) ∧ Outcome tokens c R calls (m c)

/-- A step at the start of something. -/
abbrev Starts (s : Survey) (m : Parser α) (R : List Token → α → Prop) (calls : Nat) : Prop :=
  ∀ c, Runs s c [] [] c m R calls

variable {s : Survey} {c0 c : Cursor} {parts : List Part} {trees : List ParseTree}
  {R : List Token → α → Prop} {S : List Token → β → Prop} {calls calls' fuel : Nat}
  {kind : TokenKind} {category : Category} {c' : Cursor} {m : Parser α} {f : ParseTree → Parser β}
  {L : List Part → Prop} {rule : Rule}

theorem Survey.moves (s : Survey) {tokens : List Token} (hmoves : c.Moves tokens c') (hc : s.At c) :
    s.At c' := by
  induction hmoves with
  | refl _ => exact hc
  | step hkind _ ih => exact ih (s.advance hc hkind)

theorem Outcome.after {before tokens : List Token} (hmoves : c.Moves tokens c')
    (hcalls : calls ≤ calls' + 8 * tokens.length) {answer : Except ParseFault (α × Cursor)}
    (h : Outcome (before ++ tokens) c' R calls' answer) : Outcome before c R calls answer := by
  cases h with
  | done hmoves' ha => exact .done (hmoves.trans hmoves') (append_assoc .. ▸ ha)
  | rejected error => exact .rejected error
  | exhausted hmoves' hle =>
    refine .exhausted (hmoves.trans hmoves') ?_
    rw [length_append]
    omega

theorem Runs.imp {R' : List Token → α → Prop} (h : Runs s c0 parts trees c m R calls)
    (himp : ∀ tokens a, R tokens a → R' tokens a) :
    Runs s c0 parts trees c m R' calls := by
  intro hc0 tokens hmoves hfills
  refine (h hc0 tokens hmoves hfills).imp_right fun hout => ?_
  generalize m c = answer at hout
  cases hout with
  | done hmoves' ha => exact .done hmoves' (himp _ _ ha)
  | rejected error => exact .rejected error
  | exhausted hmoves' hle => exact .exhausted hmoves' hle

theorem Runs.mono (h : Runs s c0 parts trees c m R calls') (hle : calls ≤ calls' := by omega) :
    Runs s c0 parts trees c m R calls :=
  fun hc0 tokens hmoves hfills =>
    (h hc0 tokens hmoves hfills).imp_right fun hout =>
      .after (.refl c) hle (by rwa [append_nil])

/-! ## Single steps -/

theorem Runs.bind {f : α → Parser β} (hm : Runs s c [] [] c m R calls') (hcalls : calls ≤ calls')
    (hf : ∀ tokens a c', R tokens a → ∃ parts' trees', Fills (Derives s.P) parts' tokens trees' ∧
      Runs s c0 (parts ++ parts') (trees ++ trees') c' (f a) S (calls - 8 * parts'.length)) :
    Runs s c0 parts trees c (m >>= f) S calls := by
  intro hc0 tokens hmoves hfills
  obtain ⟨hsame, hout⟩ := hm (s.moves hmoves hc0) [] (.refl c) .nil
  have hrun (c : Cursor) : (m >>= f) c = m c >>= fun p => f p.1 p.2 := rfl
  rw [hrun, hrun, hsame]
  generalize m c = answer at hout
  cases hout with
  | rejected error => exact ⟨rfl, .rejected error⟩
  | exhausted hmoves' hle => exact ⟨rfl, .exhausted hmoves' (Nat.le_trans hcalls hle)⟩
  | done hmoves' ha =>
    obtain ⟨parts', trees', hfills', hnext⟩ := hf _ _ _ ha
    rw [nil_append] at hfills'
    have := hfills'.length_le
    exact (hnext hc0 _ (hmoves.trans hmoves') (hfills.append hfills')).imp_right
      (.after hmoves' (by omega))

theorem Runs.call {m : Parser ParseTree} (hm : Starts s m (Derives s.P category) calls')
    (hf : ∀ tree c', Runs s c0 (parts ++ [.tree category]) (trees ++ [tree]) c' (f tree) S
      (calls - 8)) (hcalls : calls ≤ calls' := by omega) :
    Runs s c0 parts trees c (m >>= f) S calls :=
  .bind (hm c) hcalls fun _ tree c' h => ⟨_, _, .singleton h, hf tree c'⟩

def Listed (s : Survey) (L : List Part → Prop) (tokens : List Token)
    (trees : List ParseTree) : Prop :=
  ∃ parts, L parts ∧ Fills (Derives s.P) parts tokens trees

theorem Runs.list {m : Parser (List ParseTree)} {f : List ParseTree → Parser β}
    (hm : Starts s m (Listed s L) calls') (hf : ∀ parts' trees' c', L parts' →
      Runs s c0 (parts ++ parts') (trees ++ trees') c' (f trees') S calls)
    (hcalls : calls ≤ calls' := by omega) : Runs s c0 parts trees c (m >>= f) S calls := by
  refine .bind (hm c) hcalls fun tokens trees' c' h => ?_
  obtain ⟨parts', hparts', hfills⟩ := h
  exact ⟨parts', trees', hfills, (hf parts' trees' c' hparts').mono (Nat.sub_le _ _)⟩

theorem runs_reject (error : CompileError) : Runs s c0 parts trees c (reject error) R calls :=
  fun _ _ _ _ => ⟨rfl, .rejected error⟩

theorem runs_exhausted : Runs s c0 parts trees c exhausted R 0 :=
  fun _ _ _ _ => ⟨rfl, .exhausted (.refl c) (Nat.zero_le _)⟩

theorem runs_pure {a : α} (h : ∀ tokens, Fills (Derives s.P) parts tokens trees → R tokens a) :
    Runs s c0 parts trees c (pure a) R calls :=
  fun _ tokens _ hfills => ⟨rfl, .done (.refl c) (by rw [append_nil]; exact h tokens hfills)⟩

theorem Runs.listed (h : L parts) : Runs s c0 parts trees c (pure trees) (Listed s L) calls :=
  runs_pure fun _ hfills => ⟨parts, h, hfills⟩

theorem Runs.found {tree : ParseTree} :
    Runs s c0 [.tree category] [tree] c (pure tree) (Derives s.P category) calls := by
  refine runs_pure fun tokens hfills => ?_
  cases hfills with
  | tree htree hnil =>
    cases hnil
    rwa [append_nil]

theorem runs_advance {f : Token → Parser β} {part : List Part}
    {tree : List ParseTree} (hkind : c.current.kind ≠ .eof)
    (hpart : Fills (Derives s.P) part [c.current] tree)
    (hf : Runs s c0 (parts ++ part) (trees ++ tree) c.advance (f c.current) S (calls - 8)) :
    Runs s c0 parts trees c (advance >>= f) S calls := by
  intro hc0 tokens hmoves hfills
  have hrest := s.rest (s.moves hmoves hc0) hkind
  have hsame : (c.append s.more).advance = c.advance.append s.more := by
    unfold Cursor.append Cursor.advance
    cases h : c.rest with
    | nil => simp [hrest h, h]
    | cons next rest => rfl
  have hnext := hf hc0 _ (hmoves.trans (.one hkind)) (hfills.append hpart)
  exact ⟨show f c.current (c.append s.more).advance = _ by rw [hsame]; exact hnext.1,
    hnext.2.after (.one hkind) (by simp; omega)⟩

theorem Runs.skip {f : Token → Parser β} (hkind : c.current.kind = kind)
    (hf : Runs s c0 (parts ++ [.token kind]) trees c.advance (f c.current) S (calls - 8))
    (heof : kind ≠ .eof := by decide) : Runs s c0 parts trees c (advance >>= f) S calls := by
  subst hkind
  have hpart : Fills (Derives s.P) [.token c.current.kind] [c.current] [] := .token .nil
  exact runs_advance heof hpart (by simpa using hf)

theorem ne_eof_of_takes (h : category.Takes kind) : kind ≠ .eof := by
  intro heof
  cases h with
  | literal value =>
    cases value with
    | bool value => cases value <;> cases heof
    | _ => cases heof
  | _ => cases heof

theorem Runs.keep {f : Token → Parser β} (hkind : c.current.kind = kind)
    (htakes : category.Takes kind)
    (hf : Runs s c0 (parts ++ [.tree category]) (trees ++ [.leaf c.current]) c.advance
      (f c.current) S (calls - 8)) : Runs s c0 parts trees c (advance >>= f) S calls := by
  subst hkind
  exact runs_advance (ne_eof_of_takes htakes) (.singleton (.leaf htakes (s.leaf _))) hf

theorem runs_unexpected (expected : String) {f : α → Parser β} :
    Runs s c0 parts trees c (unexpected expected >>= f) S calls := by
  have hpeek {g : Token → Parser α} (h : Runs s c0 parts trees c (g c.current >>= f) S calls) :
      Runs s c0 parts trees c ((peek >>= g) >>= f) S calls := h
  refine hpeek ?_
  split <;> exact fun _ _ _ _ => ⟨rfl, .rejected _⟩

theorem runs_expect {f : Token → Parser β}
    (hf : Runs s c0 (parts ++ [.token kind]) trees c.advance (f c.current) S (calls - 8))
    (heof : kind ≠ .eof := by decide) : Runs s c0 parts trees c (expect kind >>= f) S calls := by
  have hcheck : Runs s c0 parts trees c
      ((if c.current.kind == kind then advance else unexpected kind.describe) >>= f) S calls := by
    split
    · exact .skip (eq_of_beq ‹_›) hf heof
    · exact runs_unexpected _
  exact hcheck

theorem consume_bind (f : Bool → Parser β) : consume kind >>= f =
      check kind >>= fun b => if b then advance >>= fun _ => f true else f false := by
  unfold consume
  rw [bind_assoc]
  congr
  funext b
  split
  · rw [bind_assoc]
    simp only [pure_bind]
  · rw [pure_bind]

theorem runs_consume {f : Bool → Parser β}
    (htrue : Runs s c0 (parts ++ [.token kind]) trees c.advance (f true) S (calls - 8))
    (hfalse : Runs s c0 parts trees c (f false) S calls) (heof : kind ≠ .eof := by decide) :
    Runs s c0 parts trees c (consume kind >>= f) S calls := by
  have hcheck : Runs s c0 parts trees c
      (if c.current.kind == kind then advance >>= fun _ => f true else f false) S calls := by
    split
    · exact .skip (eq_of_beq ‹_›) htrue heof
    · exact hfalse
  rw [consume_bind]
  exact hcheck

theorem runs_here {f : Span → Parser β} (h : Runs s c0 parts trees c (f c.current.span) S calls) :
    Runs s c0 parts trees c (here >>= f) S calls := h

theorem runs_peekKind {f : TokenKind → Parser β}
    (h : Runs s c0 parts trees c (f c.current.kind) S calls) :
    Runs s c0 parts trees c (peekKind >>= f) S calls := h

theorem runs_check {f : Bool → Parser β}
    (h : Runs s c0 parts trees c (f (c.current.kind == kind)) S calls) :
    Runs s c0 parts trees c (check kind >>= f) S calls := h

theorem starts_ident : Starts s ident (Derives s.P .name) calls := by
  intro c
  refine runs_peekKind ?_
  split
  · exact .keep ‹_› (.name _) .found
  · exact runs_here (runs_reject _)

theorem runs_ident
    (hf : ∀ tree c', Runs s c0 (parts ++ [.tree .name]) (trees ++ [tree]) c' (f tree) S (calls - 8)
    ) : Runs s c0 parts trees c (ident >>= f) S calls :=
  .call starts_ident hf (Nat.le_refl _)

theorem runs_node_bind (h : Production category rule parts)
    (hf : ∀ tree, Runs s c0 [.tree category] [tree] c (f tree) S calls) :
    Runs s c0 parts trees c (node rule c0.current.span trees >>= f) S calls := by
  intro hc0 tokens hmoves hfills
  have hne : tokens ≠ [] := by
    intro hnil
    have := hfills.length_le
    simp [hnil, h.ne_nil] at this
  exact hf (.node rule (c0.current.span.merge c.prev) trees) hc0 tokens hmoves
    (.singleton (.node h hfills (s.node hc0 hmoves hne)))

theorem runs_node (h : Production category rule parts) :
    Runs s c0 parts trees c (node rule c0.current.span trees) (Derives s.P category) calls :=
  bind_pure (node rule _ trees) ▸ runs_node_bind h fun _ => .found

/-! ## Types and declarations -/

def OpensPair (c : Cursor) : Prop :=
  c.current.kind = .punct .lbracket ∧ ∃ span rest, c.rest = ⟨.punct .rbracket, span⟩ :: rest

theorem arraySuffix_eq_ok {start : Span} {tree : ParseTree} (h : ¬OpensPair c) :
    arraySuffix start (fuel + 1) tree c = .ok (tree, c) := by
  have hget (f : Cursor → Parser ParseTree) : (get >>= f) c = f c c := rfl
  rw [arraySuffix, hget]
  refine congrFun (g := (pure tree : Parser ParseTree)) ?_ c
  split
  · exact absurd ⟨‹_›, _, _, ‹_›⟩ h
  · rfl

theorem runs_arraySuffix {tree : ParseTree} :
    Runs s c0 [.tree .type] [tree] c (arraySuffix c0.current.span fuel tree)
      (Derives s.P .type) fuel := by
  induction fuel generalizing c tree with
  | zero => exact runs_exhausted
  | succ fuel ih =>
    by_cases hpair : OpensPair c
    · obtain ⟨hkind, span, rest, hrest⟩ := hpair
      have hrun : Runs s c0 [.tree .type] [tree] c (do
          let _ ← advance
          let _ ← advance
          arraySuffix c0.current.span fuel (← node .arrayType c0.current.span [tree]))
          (Derives s.P .type) (fuel + 1) :=
        .skip hkind <| .skip (by simp [Cursor.advance, hrest]) <|
          runs_node_bind .arrayType fun _ => ih.mono
      obtain ⟨prev, ⟨kind, _⟩, _⟩ := c
      cases hkind
      cases hrest
      exact hrun
    · intro hc0 tokens hmoves hfills
      have hpair' : ¬OpensPair (c.append s.more) := by
        rintro ⟨hkind, span, rest, hrest⟩
        have hkind : c.current.kind = .punct .lbracket := hkind
        have hmore := s.rest (s.moves hmoves hc0) (by rw [hkind]; decide)
        cases h : c.rest with
        | nil => simp [Cursor.append, h, hmore h] at hrest
        | cons next tail =>
          simp only [Cursor.append, h, cons_append, List.cons.injEq] at hrest
          exact hpair ⟨hkind, span, tail, by rw [h, hrest.1]⟩
      rw [arraySuffix_eq_ok hpair, arraySuffix_eq_ok hpair']
      exact Runs.found hc0 tokens hmoves hfills

theorem starts_type (fuel : Nat) : Starts s (type fuel) (Derives s.P .type) fuel := by
  refine fun c => runs_here (runs_peekKind ?_)
  split
  · exact .keep ‹_› (.name _) <| runs_node_bind .type fun _ => runs_arraySuffix.mono
  · exact runs_reject _

theorem starts_typedName (h : Production category rule [.tree .name, .mark .colon, .tree .type])
    (fuel : Nat) :
    Starts s (typedName fuel rule) (Derives s.P category) fuel :=
  fun _ => runs_here <| runs_ident fun _ _ => runs_expect <|
    .call (starts_type fuel) fun _ _ => runs_node h

theorem starts_params (fuel : Nat) :
    Starts s (params fuel) (Listed s (Commas .param)) (fuel - 1) := by
  induction fuel with
  | zero => exact fun _ => runs_exhausted
  | succ fuel ih =>
    refine fun c => runs_peekKind ?_
    split
    · exact .listed .nil
    · exact .listed .nil
    · refine .call (starts_typedName .param fuel) fun _ _ => runs_consume ?_ (.listed .last)
      exact .list ih fun _ _ _ h => .listed (.cons h)

theorem starts_paramList (fuel : Nat) : Starts s (paramList fuel) (Derives s.P .params) fuel :=
  fun _ => runs_here <| runs_expect <| .list (starts_params fuel)
    fun _ _ _ h => runs_expect <| runs_node (.params h)

theorem starts_fields (fuel : Nat) : Starts s (fields fuel) (Listed s Fields) (fuel - 1) := by
  induction fuel with
  | zero => exact fun _ => runs_exhausted
  | succ fuel ih =>
    refine fun c => runs_peekKind ?_
    split
    · exact .listed .nil
    · exact .listed .nil
    · refine .call (starts_typedName .field fuel) fun _ _ => runs_consume ?_ (runs_consume ?_ ?_)
      all_goals exact .list ih fun _ _ _ h => .listed (.cons (by simp) h)

theorem starts_struct (fuel : Nat) : Starts s (struct fuel) (Derives s.P .item) fuel :=
  fun _ => runs_here <| runs_expect <| runs_ident fun _ _ =>
    runs_expect <| .list (starts_fields fuel) fun _ _ _ h => runs_expect <| runs_node (.struct h)

/-! ## Expressions -/

theorem exists_binOp {power : Nat} (h : power? kind = some power) :
    ∃ op : BinOp, kind = .punct op.punct := by
  cases kind with
  | punct p =>
    refine ⟨(BinOp.ofPunct? p).getD .add, ?_⟩
    cases p <;> cases h <;> rfl
  | _ => cases h

/-- What the functions for expressions do with some fuel. -/
structure RunsExprs (s : Survey) (fuel : Nat) : Prop where
  exprFrom : ∀ least, Starts s (exprFrom fuel least) (Derives s.P .expr) (fuel - 2)
  operators : ∀ least c0 c left, Runs s c0 [.tree .expr] [left] c
    (operators fuel least c0.current.span left) (Derives s.P .expr) fuel
  unary : Starts s (unary fuel) (Derives s.P .expr) (fuel - 1)
  primary : Starts s (primary fuel) (Derives s.P .expr) fuel
  exprList : ∀ close, Starts s (exprList fuel close) (Listed s (Commas .expr)) (fuel - 3)
  suffixes : ∀ c0 c operand, Runs s c0 [.tree .expr] [operand] c
    (suffixes fuel c0.current.span operand) (Derives s.P .expr) fuel

theorem runs_literal (value : Literal) (hkind : c.current.kind = value.token) : Runs s c [] [] c (do
      let literal ← advance
      node .literal c.current.span [.leaf literal]) (Derives s.P .expr) calls :=
  .keep hkind (.literal value) <| runs_node .literal

theorem starts_primary (h : RunsExprs s fuel) :
    Starts s (primary (fuel + 1)) (Derives s.P .expr) (fuel + 1) := by
  refine fun c => runs_here (runs_peekKind ?_)
  split
  · exact runs_literal (.int _) ‹_›
  · exact runs_literal (.long _) ‹_›
  · exact runs_literal (.float _) ‹_›
  · exact runs_literal (.double _) ‹_›
  · exact runs_literal (.string _) ‹_›
  · exact runs_literal (.bool true) ‹_›
  · exact runs_literal (.bool false) ‹_›
  · exact .keep ‹_› (.name _) <| runs_node .name
  · exact .skip ‹_› <| .call (h.exprFrom 0) fun _ _ => runs_expect <| runs_node .paren
  · exact .skip ‹_› <| .list (h.exprList _) fun _ _ _ hparts =>
      runs_expect <| runs_node (.arrayLit hparts)
  · exact .skip ‹_› <| .call (starts_type fuel) fun _ _ =>
      runs_expect <| .call (h.exprFrom 0) fun _ _ => runs_expect <| runs_node .newArray
  · exact runs_reject _
  · exact runs_reject _

theorem runs_suffixes (h : RunsExprs s fuel) {operand : ParseTree} :
    Runs s c0 [.tree .expr] [operand] c (suffixes (fuel + 1) c0.current.span operand)
      (Derives s.P .expr) (fuel + 1) := by
  refine runs_peekKind ?_
  split
  · have hargs : Runs s c [] [] c (do
        let opening ← advance
        let items ← exprList fuel (.punct .rparen)
        let _ ← expect (.punct .rparen)
        node .args opening.span items) (Derives s.P .args) (fuel + 1) :=
      .skip ‹_› <| .list (h.exprList _) fun _ _ _ hparts => runs_expect <| runs_node (.args hparts)
    have hcall : Runs s c0 [.tree .expr] [operand] c _ (Derives s.P .expr) (fuel + 1) :=
      .bind hargs (Nat.le_refl _) fun _ args _ hargs => ⟨_, [args], .singleton hargs,
        runs_node_bind .call fun _ => (h.suffixes _ _ _).mono (by simp)⟩
    simpa only [bind_assoc, singleton_append] using hcall
  · exact .skip ‹_› <| .call (h.exprFrom 0) fun _ _ => runs_expect <| runs_node_bind .index fun _ =>
        (h.suffixes _ _ _).mono
  · exact .skip ‹_› <| runs_ident fun _ _ => runs_node_bind .member fun _ => (h.suffixes _ _ _).mono
  · exact .skip ‹_› <| .call (starts_type fuel) fun _ _ =>
      runs_node_bind .cast fun _ => (h.suffixes _ _ _).mono
  · exact .found

theorem runsExprs (fuel : Nat) : RunsExprs s fuel := by
  induction fuel with
  | zero =>
    exact ⟨fun _ _ => runs_exhausted, fun _ _ _ _ => runs_exhausted, fun _ => runs_exhausted,
      fun _ => runs_exhausted, fun _ _ => runs_exhausted, fun _ _ _ => runs_exhausted⟩
  | succ fuel ih =>
    refine ⟨fun least c => ?_, fun least c0 c left => ?_, fun c => ?_, starts_primary ih,
      fun close c => ?_, fun c0 c operand => runs_suffixes ih⟩
    · exact runs_here <| .call ih.unary fun _ _ => (ih.operators _ _ _ _).mono
    · refine runs_peekKind ?_
      split
      · exact .found
      · split
        · exact .found
        · obtain ⟨op, hop⟩ := exists_binOp ‹_›
          exact .keep hop (.operator op) <| .call (ih.exprFrom _) fun _ _ =>
            runs_node_bind .binary fun _ => (ih.operators _ _ _ _).mono
    · refine runs_here (runs_peekKind ?_)
      split
      · exact .keep ‹_› (.sign .neg) <| .call ih.unary fun _ _ => runs_node .unary
      · exact .keep ‹_› (.sign .not) <| .call ih.unary fun _ _ => runs_node .unary
      · exact .call ih.primary fun _ _ => (ih.suffixes _ _ _).mono
    · refine runs_peekKind ?_
      split
      · exact .listed .nil
      · refine .call (ih.exprFrom 0) fun _ _ => runs_consume ?_ (.listed .last)
        exact .list (ih.exprList _) fun _ _ _ h => .listed (.cons h)

theorem starts_expr (fuel : Nat) : Starts s (expr fuel) (Derives s.P .expr) (fuel - 2) :=
  (runsExprs fuel).exprFrom 0

theorem runs_condition
    (hf : ∀ tree c', Runs s c0 (parts ++ [.mark .lparen] ++ [.tree .expr] ++ [.mark .rparen])
      (trees ++ [tree]) c' (f tree) S (calls - 24)) (hcalls : calls ≤ fuel + 6 := by omega) :
    Runs s c0 parts trees c (condition fuel >>= f) S calls := by
  simp only [condition, bind_assoc, pure_bind]
  exact runs_expect <| .call (starts_expr fuel) fun _ _ => runs_expect <| (hf _ _).mono

theorem starts_condition (fuel : Nat) : Starts s (condition fuel) (fun _ _ => True) (fuel - 2) :=
  fun _ => bind_pure (condition fuel) ▸ runs_condition fun _ _ => runs_pure fun _ _ => trivial

/-! ## Statements -/

theorem runs_typeAfter {symbol : Punct} {f : List ParseTree → Parser β}
    (hf : ∀ parts' trees' c', TypeAfter symbol parts' →
      Runs s c0 (parts ++ parts') (trees ++ trees') c' (f trees') S calls)
    (hcalls : calls ≤ fuel + 8 := by omega) :
    Runs s c0 parts trees c (do
      let ty ← if ← consume (.punct symbol) then pure [← type fuel] else pure []
      f ty) S calls := by
  refine runs_consume ?_ ?_ (by simp)
  · refine .call (starts_type fuel) fun tree c' => ?_
    have htype := hf [.mark symbol, .tree .type] [tree] c' (.inr rfl)
    simpa using htype.mono
  · simpa using hf [] [] c (.inl rfl)

theorem starts_varDecl (mutable : Bool)
    (hkind : c.current.kind = .keyword (if mutable then .var else .val)) :
    Runs s c [] [] c (varDecl fuel) (Derives s.P .stmt) fuel :=
  runs_here <| .keep hkind (.binder mutable) <| runs_ident fun _ _ =>
    runs_typeAfter fun _ _ _ h => runs_expect <| .call (starts_expr fuel) fun _ _ => runs_expect <|
        runs_node (by simpa using Production.varDecl h)

theorem starts_exprStatement (fuel : Nat) :
    Starts s (exprStatement fuel) (Derives s.P .stmt) (fuel - 2) := by
  refine fun c => runs_here <| .call (starts_expr fuel) fun _ _ => runs_consume ?_ ?_
  · exact .call (starts_expr fuel) fun _ _ => runs_expect <| runs_node .assign
  · exact runs_expect <| runs_node .exprStmt

structure RunsStmts (s : Survey) (fuel : Nat) : Prop where
  statement : Starts s (statement fuel) (Derives s.P .stmt) (fuel - 3)
  block : Starts s (block fuel) (Derives s.P .block) fuel
  statements : Starts s (statements fuel) (Listed s (Many .stmt)) (fuel - 4)
  function : Starts s (function fuel) (Derives s.P .stmt) fuel

theorem starts_statement (h : RunsStmts s fuel) :
    Starts s (statement (fuel + 1)) (Derives s.P .stmt) (fuel + 1 - 3) := by
  refine fun c => runs_here (runs_peekKind ?_)
  split
  · exact ((h.block c).imp fun _ _ => .within .block).mono
  · exact (starts_varDecl true ‹_›).mono
  · exact (starts_varDecl false ‹_›).mono
  · exact (h.function c).mono
  · refine .skip ‹_› <| runs_condition fun _ _ =>
      .call h.statement fun _ _ => runs_consume ?_ (runs_node .branch)
    exact .call h.statement fun _ _ => runs_node .choice
  · exact .skip ‹_› <| runs_condition fun _ _ => .call h.statement fun _ _ => runs_node .whileLoop
  · exact .skip ‹_› <| runs_expect <| runs_ident fun _ _ =>
      runs_expect <| .call (starts_expr fuel) fun _ _ =>
        runs_expect <| .call (starts_expr fuel) fun _ _ =>
          runs_expect <| .call h.statement fun _ _ => runs_node .forLoop
  · refine .skip ‹_› (runs_check ?_)
    simp only [pure_bind]
    split
    · exact runs_expect <| runs_node .ret
    · exact .call (starts_expr fuel) fun _ _ => runs_expect <| runs_node .retValue
  · exact .skip ‹_› <| runs_expect <| runs_node .breakStmt
  · exact .skip ‹_› <| runs_expect <| runs_node .continueStmt
  · exact (starts_exprStatement fuel c).mono

theorem runsStmts (fuel : Nat) : RunsStmts s fuel := by
  induction fuel with
  | zero =>
    exact ⟨fun _ => runs_exhausted, fun _ => runs_exhausted, fun _ => runs_exhausted,
      fun _ => runs_exhausted⟩
  | succ fuel ih =>
    refine ⟨starts_statement ih, fun c => ?_, fun c => ?_, fun c => ?_⟩
    · exact runs_here <| runs_expect <| .list ih.statements
        fun _ _ _ h => runs_expect <| runs_node (.block h)
    · refine runs_peekKind ?_
      split
      · exact .listed (forall_mem_nil _)
      · exact .listed (forall_mem_nil _)
      · exact .call ih.statement fun _ _ => .list ih.statements
          fun _ _ _ h => .listed (forall_mem_cons.mpr ⟨rfl, h⟩)
    · exact runs_here <| runs_expect <| runs_ident fun _ _ =>
        .call (starts_paramList fuel) fun _ _ =>
          runs_typeAfter fun _ _ _ h => .call ih.block fun _ _ => runs_node (.function h)

theorem starts_items (fuel : Nat) : Starts s (items fuel) (Listed s (Many .item)) (fuel - 4) := by
  induction fuel with
  | zero => exact fun _ => runs_exhausted
  | succ fuel ih =>
    refine fun c => runs_peekKind ?_
    split
    · exact .listed (forall_mem_nil _)
    · exact .call (starts_struct fuel) fun _ _ => .list ih
        fun _ _ _ h => .listed (forall_mem_cons.mpr ⟨rfl, h⟩)
    · have hitem : Starts s (statement fuel) (Derives s.P .item) (fuel - 3) :=
        fun c => ((runsStmts fuel).statement c).imp fun _ _ => .within .stmt
      exact .call hitem fun _ _ => .list ih fun _ _ _ h =>
        .listed (forall_mem_cons.mpr ⟨rfl, h⟩)

/-! ## Units -/

def Survey.any : Survey where
  more := []
  At _ := True
  P _ _ := True
  advance _ _ := trivial
  rest _ _ _ := rfl
  leaf _ := trivial
  node _ _ _ := trivial

def Survey.closed (more : List Token) : Survey where
  more := more
  At := Cursor.HasEof
  P := ParseTree.Covers
  advance hc hkind := (Cursor.hasEof_advance_iff hkind).mpr hc
  rest hc hkind hrest := absurd hrest (hc.rest_ne_nil hkind)
  leaf token := ⟨token, rfl, token, rfl, by simp [ParseTree.span, Span.merge]⟩
  node := by
    intro c0 c tokens rule children hc0 hmoves hne
    obtain ⟨htaken, hlast⟩ := hmoves.taken hc0
    refine ⟨c0.current, ?_, tokens.getLast hne, getLast?_eq_some_getLast hne, ?_⟩
    · obtain ⟨first, rest, rfl⟩ := exists_cons_of_ne_nil hne
      exact congrArg some (List.cons.inj htaken).1.symm
    · rw [ParseTree.span, hlast _ (getLast?_eq_some_getLast hne)]

theorem bind_eq_ok {f : α → Parser β} {r : β × Cursor} :
    (m >>= f) c = .ok r ↔ ∃ a c', m c = .ok (a, c') ∧ f a c' = .ok r :=
  (Except.bind_eq_ok (x := m c) (f := fun p => f p.1 p.2)).trans Prod.exists

/-- The step ends at an end mark. -/
def Stops (c : Cursor) (m : Parser α) : Prop :=
  ∀ a c', m c = .ok (a, c') → c'.current.kind = .eof

theorem stops_items (fuel : Nat) (c : Cursor) : Stops c (items fuel) := by
  induction fuel generalizing c with
  | zero =>
    intro _ _ h
    cases h
  | succ fuel ih =>
    have hrest (m : Parser ParseTree) : Stops c (do return (← m) :: (← items fuel)) := by
      intro _ _ h
      obtain ⟨_, _, -, h⟩ := bind_eq_ok.mp h
      obtain ⟨_, _, hitems, h⟩ := bind_eq_ok.mp h
      cases h
      exact ih _ _ _ hitems
    have hpeek {f : TokenKind → Parser (List ParseTree)} (h : Stops c (f c.current.kind)) :
        Stops c (peekKind >>= f) := h
    refine hpeek ?_
    split
    · intro _ _ h
      cases h
      assumption
    · exact hrest _
    · exact hrest _

theorem Starts.of_eq_ok {a : α} (h : Starts s m R calls) (hc : s.At c) (hrun : m c = .ok (a, c')) :
    ∃ tokens, c.Moves tokens c' ∧ R tokens a := by
  have hout := (h c hc [] (.refl c) .nil).2
  rw [hrun] at hout
  cases hout with
  | done hmoves ha => exact ⟨_, hmoves, ha⟩

theorem unit_eq_ok {tree : ParseTree} (h : unit fuel c = .ok (tree, c')) :
    c.HasEof ∧ c'.current.kind = .eof ∧
      ∃ front, c.Moves front c' ∧ Derives ParseTree.Covers .unit (front ++ [c'.current]) tree := by
  obtain ⟨_, _, hstart, h⟩ := bind_eq_ok.mp h
  cases hstart
  obtain ⟨children, _, hitems, h⟩ := bind_eq_ok.mp h
  cases h
  have hstop := stops_items _ _ _ _ hitems
  obtain ⟨_, hmoves, -⟩ := (starts_items fuel).of_eq_ok (s := .any) trivial hitems
  have hc : c.HasEof := hmoves.hasEof_iff.mp ⟨c'.current, mem_cons_self, hstop⟩
  obtain ⟨front, hmoves, parts, hparts, hfills⟩ :=
    (starts_items fuel).of_eq_ok (s := .closed []) hc hitems
  have heof : Fills (Derives ParseTree.Covers) [.token c'.current.kind] [c'.current] [] :=
    .token .nil
  have hunit := hfills.append heof
  rw [hstop, append_nil] at hunit
  refine ⟨hc, hstop, front, hmoves, .node (.unit hparts) hunit ⟨c.current, ?_, c'.current, ?_, rfl⟩⟩
  · cases hmoves <;> rfl
  · exact getLast?_concat

theorem starts_unit (fuel : Nat) : Starts s (unit fuel) (fun _ _ => True) (fuel - 4) :=
  fun _ => runs_here <| .list (starts_items fuel) fun _ _ _ _ =>
    runs_here <| runs_pure fun _ _ => trivial

/-- The fuel for each token is enough. -/
theorem unit_ne_exhausted (hc : c.HasEof) (hfuel : 8 * c.rest.length + 4 < fuel) (c' : Cursor) :
    unit fuel c ≠ .error (.exhausted c') := by
  intro h
  have hout := (starts_unit (s := .closed []) fuel c hc [] (.refl c) .nil).2
  rw [h] at hout
  cases hout with
  | exhausted hmoves hle =>
    have hlength := congrArg List.length (hmoves.taken hc).1
    simp only [length_cons, length_append] at hlength
    omega

/-! ## Chains of calls -/

/-- The functions of the parser that can be entered anywhere. -/
inductive Entry (fuel : Nat) : {α : Type} → Parser α → Prop
  | unit : Entry fuel (unit fuel)
  | items : Entry fuel (items fuel)
  | struct : Entry fuel (struct fuel)
  | fields : Entry fuel (fields fuel)
  | field : Entry fuel (typedName fuel .field)
  | function : Entry fuel (function fuel)
  | paramList : Entry fuel (paramList fuel)
  | params : Entry fuel (params fuel)
  | param : Entry fuel (typedName fuel .param)
  | block : Entry fuel (block fuel)
  | statements : Entry fuel (statements fuel)
  | statement : Entry fuel (statement fuel)
  | exprStatement : Entry fuel (exprStatement fuel)
  | condition : Entry fuel (condition fuel)
  | type : Entry fuel (type fuel)
  | exprFrom (least : Nat) : Entry fuel (exprFrom fuel least)
  | unary : Entry fuel (unary fuel)
  | primary : Entry fuel (primary fuel)
  | exprList (close : TokenKind) : Entry fuel (exprList fuel close)

/-- The functions of the parser that go on after an operand or a type. -/
inductive Loop (fuel : Nat) (start : Span) (tree : ParseTree) : Category → Parser ParseTree → Prop
  | arraySuffix : Loop fuel start tree .type (arraySuffix start fuel tree)
  | operators (least : Nat) : Loop fuel start tree .expr (operators fuel least start tree)
  | suffixes : Loop fuel start tree .expr (suffixes fuel start tree)

/-- A function of the parser is called at a place with an end mark ahead. -/
inductive Called (fuel : Nat) : {α : Type} → Parser α → Cursor → Prop
  | entry {α : Type} {m : Parser α} {c : Cursor} : Entry fuel m → c.HasEof → Called fuel m c
  | varDecl {c : Cursor} (mutable : Bool) :
      c.current.kind = .keyword (if mutable then .var else .val) → c.HasEof →
      Called fuel (varDecl fuel) c
  | loop {category : Category} {m : Parser ParseTree} {c0 c : Cursor} {before : List Token}
      {tree : ParseTree} : Loop fuel c0.current.span tree category m → c0.HasEof →
      c0.Moves before c → Derives ParseTree.Covers category before tree → Called fuel m c

/-- A step looks at nothing behind an end mark and takes none, and it ends or takes a token for each
eight calls. -/
def Progress (fuel : Nat) (m : Parser α) (c : Cursor) : Prop :=
  (∀ more, m (c.append more) = extend more (m c)) ∧ Outcome [] c (fun _ _ => True) (fuel - 4) (m c)

theorem progress_of_runs {before : List Token} {R : Survey → List Token → α → Prop}
    (h : ∀ s, Runs s c0 parts trees c m (R s) calls) (hc0 : c0.HasEof) (hmoves : c0.Moves before c)
    (hfills : Fills (Derives ParseTree.Covers) parts before trees)
    (hcalls : fuel - 4 ≤ calls := by omega) : Progress fuel m c := by
  have hrun (more : List Token) := h (.closed more) hc0 before hmoves hfills
  refine ⟨fun more => (hrun more).1, ?_⟩
  obtain ⟨-, hout⟩ := hrun []
  generalize m c = answer at hout
  cases hout with
  | done hmoves _ => exact .done hmoves trivial
  | rejected error => exact .rejected error
  | exhausted hmoves hle => exact .exhausted hmoves (Nat.le_trans hcalls hle)

theorem progress_of_starts {R : Survey → List Token → α → Prop} (h : ∀ s, Starts s m (R s) calls)
    (hc : c.HasEof) (hcalls : fuel - 4 ≤ calls := by omega) :
    Progress fuel m c :=
  progress_of_runs (fun s => h s c) hc (.refl c) .nil hcalls

theorem Entry.progress (h : Entry fuel m) (hc : c.HasEof) : Progress fuel m c := by
  cases h with
  | unit => exact progress_of_starts (fun _ => starts_unit fuel) hc
  | items => exact progress_of_starts (fun _ => starts_items fuel) hc
  | struct => exact progress_of_starts (fun _ => starts_struct fuel) hc
  | fields => exact progress_of_starts (fun _ => starts_fields fuel) hc
  | field => exact progress_of_starts (fun _ => starts_typedName .field fuel) hc
  | function => exact progress_of_starts (fun _ => (runsStmts fuel).function) hc
  | paramList => exact progress_of_starts (fun _ => starts_paramList fuel) hc
  | params => exact progress_of_starts (fun _ => starts_params fuel) hc
  | param => exact progress_of_starts (fun _ => starts_typedName .param fuel) hc
  | block => exact progress_of_starts (fun _ => (runsStmts fuel).block) hc
  | statements => exact progress_of_starts (fun _ => (runsStmts fuel).statements) hc
  | statement => exact progress_of_starts (fun _ => (runsStmts fuel).statement) hc
  | exprStatement => exact progress_of_starts (fun _ => starts_exprStatement fuel) hc
  | condition => exact progress_of_starts (fun _ => starts_condition fuel) hc
  | type => exact progress_of_starts (fun _ => starts_type fuel) hc
  | exprFrom least => exact progress_of_starts (fun _ => (runsExprs fuel).exprFrom least) hc
  | unary => exact progress_of_starts (fun _ => (runsExprs fuel).unary) hc
  | primary => exact progress_of_starts (fun _ => (runsExprs fuel).primary) hc
  | exprList close => exact progress_of_starts (fun _ => (runsExprs fuel).exprList close) hc

theorem Loop.runs {m : Parser ParseTree} {tree : ParseTree}
    (h : Loop fuel c0.current.span tree category m) (s : Survey) :
    Runs s c0 [.tree category] [tree] c m (Derives s.P category) fuel := by
  cases h with
  | arraySuffix => exact runs_arraySuffix
  | operators least => exact (runsExprs fuel).operators least _ _ _
  | suffixes => exact (runsExprs fuel).suffixes _ _ _

theorem Called.progress (h : Called fuel m c) : Progress fuel m c := by
  cases h with
  | entry h hc => exact h.progress hc
  | varDecl mutable hkind hc =>
    exact progress_of_runs (fun _ => starts_varDecl mutable hkind) hc (.refl c) .nil
  | loop h hc0 hmoves htree => exact progress_of_runs h.runs hc0 hmoves (.singleton htree)

end Parser

/-- **A parsed unit takes up the tokens to an end mark.** -/
theorem parseTokens_derives {tokens : List Token} {tree : ParseTree}
    (h : parseTokens tokens = .ok tree) : ∃ front eof back, tokens = front ++ eof :: back ∧
      eof.kind = .eof ∧ Derives ParseTree.Covers .unit (front ++ [eof]) tree := by
  obtain _ | ⟨first, rest⟩ := tokens
  · cases h
  rw [parseTokens] at h
  split at h <;> cases h
  rename_i c hrun
  obtain ⟨hc, hstop, front, hmoves, htree⟩ := Parser.unit_eq_ok hrun
  exact ⟨front, c.current, c.rest, (hmoves.taken hc).1, hstop, htree⟩

/-- **The parser comes to an end.** On a list of tokens that ends with an end mark it gives a tree,
at an end mark, or rejects a token. Each of its functions takes no end mark and looks at nothing
behind one, and takes a token for each eight calls in a chain. -/
theorem parser_terminates {first : Token} {rest : List Token}
    (heof : (first :: rest).getLast?.map Token.kind = some .eof) {fuel : Nat}
    (hfuel : parseFuel (first :: rest).length ≤ fuel) :
    ((∃ tree c, Parser.unit fuel (.start first rest) = .ok (tree, c) ∧ c.current.kind = .eof) ∨
      ∃ error, Parser.unit fuel (.start first rest) = .error (.rejected error)) ∧
    ∀ {α : Type} {m : Parser α} {fuel : Nat} {c : Cursor}, Parser.Called fuel m c →
      Parser.Progress fuel m c := by
  refine ⟨?_, Parser.Called.progress⟩
  have hc : (Cursor.start first rest).HasEof := by
    obtain ⟨last, hlast, hkind⟩ := Option.map_eq_some_iff.mp heof
    exact ⟨last, List.mem_of_getLast? hlast, hkind⟩
  have hends (c : Cursor) : Parser.unit fuel (.start first rest) ≠ .error (.exhausted c) := by
    refine Parser.unit_ne_exhausted hc ?_ c
    simp only [parseFuel, List.length_cons, Cursor.start] at hfuel ⊢
    omega
  cases h : Parser.unit fuel (.start first rest) with
  | ok result => exact .inl ⟨result.1, result.2, rfl, (Parser.unit_eq_ok h).2.1⟩
  | error fault =>
    cases fault with
    | rejected error => exact .inr ⟨error, rfl⟩
    | exhausted c => exact absurd h (hends c)

/-- Before `-x` and an end mark. -/
def negatedName : Cursor :=
  .start ⟨.punct .minus, ⟨0, 1, 1, 1⟩⟩ [⟨.ident "x", ⟨1, 2, 1, 2⟩⟩, ⟨.eof, ⟨2, 2, 1, 3⟩⟩]

/-- Two end marks after `[` alone; an operand that is read to its end. -/
theorem lone_bracket_terminates :
    (∃ error, Parser.unit 64 (.start ⟨.punct .lbracket, ⟨0, 1, 1, 1⟩⟩
      [⟨.eof, ⟨1, 1, 1, 2⟩⟩, ⟨.eof, ⟨1, 1, 1, 2⟩⟩]) = .error (.rejected error)) ∧
    Parser.Progress 64 (Parser.unary 64) negatedName ∧
      ∃ tree c, Parser.unary 64 negatedName = .ok (tree, c) ∧ c.rest = [] := by
  have h := @parser_terminates ⟨.punct .lbracket, ⟨0, 1, 1, 1⟩⟩
    [⟨.eof, ⟨1, 1, 1, 2⟩⟩, ⟨.eof, ⟨1, 1, 1, 2⟩⟩] (by decide) 64 (by decide)
  refine ⟨h.1.resolve_left ?_, h.2 (.entry .unary ?_), _, _, rfl, rfl⟩
  · rintro ⟨_, _, hok, -⟩
    cases hok
  · exact ⟨_, .tail _ (.tail _ (.head _)), rfl⟩

end StackCompiler

import StackCompiler.Proofs.EndPositions

/-!
# Spans of the parse tree

A tree covers the text from the first of its tokens to the last. Tokens stand in the text one after
another, so the spans of the parts of a tree are nested and in order.

* **`parseSource_exact`**: all trees in a parsed text have such spans.
-/

namespace StackCompiler

open List

variable {tokens : List Token} {tree : ParseTree} {text : List Char} {n : Nat}

/-- The tree reaches from its first token to its last and is marked with the line and column of its
start. Its children lie in it, one after another. -/
structure ParseTree.Exact (text : List Char) (tokens : List Token) (tree : ParseTree) : Prop where
  start : tokens.head?.map (·.span.start) = some tree.span.start
  stop : tokens.getLast?.map (·.span.stop) = some tree.span.stop
  marks : tree.span.Marks text
  inside : ∀ child ∈ tree.children,
    tree.span.start ≤ child.span.start ∧ child.span.stop ≤ tree.span.stop
  ordered : tree.children.Pairwise fun a b => a.span.stop ≤ b.span.start

/-- The tokens stand in the text one after another. -/
structure InOrder (text : List Char) (tokens : List Token) : Prop where
  marks : ∀ token ∈ tokens, token.span.Marks text
  ordered : tokens.Pairwise fun a b => a.span.stop ≤ b.span.start

theorem InOrder.of_infix {taken : List Token} (h : InOrder text tokens)
    (htaken : taken <:+: tokens) : InOrder text taken :=
  ⟨fun token htoken => h.marks token (htaken.subset htoken), h.ordered.sublist htaken.sublist⟩

theorem InOrder.head_le (h : InOrder text tokens) {first token : Token}
    (hfirst : first ∈ tokens.head?)
    (htoken : token ∈ tokens) : first.span.start ≤ token.span.start := by
  obtain _ | ⟨head, tokens⟩ := tokens
  · cases htoken
  cases hfirst
  obtain rfl | htoken := mem_cons.mp htoken
  · exact Nat.le_refl _
  · exact (h.marks _ mem_cons_self).order.trans (rel_of_pairwise_cons h.ordered htoken)

theorem InOrder.le_last (h : InOrder text tokens) {last token : Token}
    (hlast : last ∈ tokens.getLast?)
    (htoken : token ∈ tokens) : token.span.stop ≤ last.span.stop := by
  obtain ⟨front, rfl⟩ := getLast?_eq_some_iff.mp hlast
  obtain htoken | htoken := mem_append.mp htoken
  · exact ((pairwise_append.mp h.ordered).2.2 _ htoken _ mem_cons_self).trans
      (h.marks _ (mem_append_right _ mem_cons_self)).order
  · rw [mem_singleton.mp htoken]

/-- A tree that reaches from the first token to the last starts and stops with them. -/
theorem ParseTree.Covers.span_eq (h : tree.Covers tokens) (htokens : InOrder text tokens) :
    ∃ first ∈ tokens.head?, ∃ last ∈ tokens.getLast?,
      tree.span = { first.span with stop := last.span.stop } := by
  obtain ⟨first, hfirst, last, hlast, hspan⟩ := h
  have hstart := htokens.head_le hfirst (mem_of_getLast? hlast)
  have hstop := htokens.le_last hlast (mem_of_mem_head? hfirst)
  refine ⟨first, hfirst, last, hlast, hspan.trans ?_⟩
  rw [Span.merge, Nat.min_eq_left hstart, Nat.max_eq_right hstop, if_neg (Nat.not_lt.mpr hstart),
    if_neg (Nat.not_lt.mpr hstart)]

/-- The trees of some parts stand in their tokens, one after another. -/
theorem Fills.spans {D : Category → List Token → ParseTree → Prop} {parts : List Part}
    {trees : List ParseTree} (h : Fills D parts tokens trees) (htokens : InOrder text tokens)
    (hD : ∀ c taken tree, D c taken tree → tree.Covers taken) :
    (∀ tree ∈ trees, ∃ first ∈ tokens, ∃ last ∈ tokens,
      tree.span = { first.span with stop := last.span.stop }) ∧
    trees.Pairwise fun a b => a.span.stop ≤ b.span.start := by
  induction h with
  | nil => exact ⟨forall_mem_nil _, .nil⟩
  | @token token parts tokens trees _ ih =>
    obtain ⟨hwithin, hordered⟩ := ih (htokens.of_infix (suffix_cons _ _).isInfix)
    refine ⟨fun tree htree => ?_, hordered⟩
    obtain ⟨first, hfirst, last, hlast, hspan⟩ := hwithin tree htree
    exact ⟨first, .tail _ hfirst, last, .tail _ hlast, hspan⟩
  | @tree c parts taken tokens tree trees htree _ ih =>
    obtain ⟨hwithin, hordered⟩ := ih (htokens.of_infix (suffix_append _ _).isInfix)
    obtain ⟨first, hfirst, last, hlast, hspan⟩ :=
      (hD c taken tree htree).span_eq (htokens.of_infix (prefix_append _ _).isInfix)
    have hlast := mem_of_getLast? hlast
    refine ⟨forall_mem_cons.mpr ⟨⟨first, mem_append_left _ (mem_of_mem_head? hfirst),
      last, mem_append_left _ hlast, hspan⟩, fun tree htree => ?_⟩,
      pairwise_cons.mpr ⟨fun next hnext => ?_, hordered⟩⟩
    · obtain ⟨first, hfirst, last, hlast, hspan⟩ := hwithin tree htree
      exact ⟨first, mem_append_right _ hfirst, last, mem_append_right _ hlast, hspan⟩
    · obtain ⟨first, hfirst, _, _, hnextSpan⟩ := hwithin next hnext
      rw [hspan, hnextSpan]
      exact (pairwise_append.mp htokens.ordered).2.2 _ hlast _ hfirst

theorem ParseTree.Covers.exact (h : tree.Covers tokens) (htokens : InOrder text tokens)
    (hwithin : ∀ child ∈ tree.children, ∃ first ∈ tokens, ∃ last ∈ tokens,
      child.span = { first.span with stop := last.span.stop })
    (hordered : tree.children.Pairwise fun a b => a.span.stop ≤ b.span.start) :
    tree.Exact text tokens := by
  obtain ⟨first, hfirst, last, hlast, hspan⟩ := h.span_eq htokens
  have hmarks := htokens.marks first (mem_of_mem_head? hfirst)
  have hend := htokens.marks last (mem_of_getLast? hlast)
  refine ⟨?_, ?_, ?_, fun child hchild => ?_, hordered⟩
  · rw [hfirst, hspan, Option.map_some]
  · rw [hlast, hspan, Option.map_some]
  · rw [hspan]
    exact ⟨hmarks.order.trans (htokens.le_last hlast (mem_of_mem_head? hfirst)), hend.le,
      hmarks.line, hmarks.column⟩
  · obtain ⟨first', hfirst', last', hlast', hchild⟩ := hwithin child hchild
    rw [hspan, hchild]
    exact ⟨htokens.head_le hfirst hfirst', htokens.le_last hlast hlast'⟩

theorem Derives.exact {c : Category} (h : Derives ParseTree.Covers c tokens tree)
    (htokens : InOrder text tokens) : Derives (ParseTree.Exact text) c tokens tree := by
  induction h using Derives.induct with
  | leaf htakes hcovers =>
    exact .leaf htakes (hcovers.exact htokens (forall_mem_nil _) .nil)
  | node hproduction hfills hcovers =>
    obtain ⟨hwithin, hordered⟩ := hfills.spans htokens fun _ _ _ h => h.1.holds
    exact .node hproduction (hfills.imp fun c taken tree htaken h =>
      h.2 (htokens.of_infix htaken)) (hcovers.exact htokens hwithin hordered)
  | within hwithin _ ih => exact .within hwithin (ih htokens)

theorem Tiles.le_start (h : Tiles text n tokens) (hn : n ≤ text.length) :
    ∀ token ∈ tokens, n ≤ token.span.start := by
  induction h with
  | last _ _ hstart _ => exact forall_mem_singleton.mpr (hstart ▸ hn)
  | next hle _ _ hlt hstop _ ih =>
    exact forall_mem_cons.mpr ⟨hle, fun token htoken =>
      (hle.trans hlt.le).trans (ih hstop token htoken)⟩

theorem Tiles.pairwise (h : Tiles text n tokens) :
    tokens.Pairwise fun a b => a.span.stop ≤ b.span.start := by
  induction h with
  | last _ _ _ _ => exact pairwise_singleton _ _
  | next _ _ _ _ hstop htiles ih => exact pairwise_cons.mpr ⟨htiles.le_start hstop, ih⟩

/-- Nothing stands behind the end mark. -/
theorem Tiles.eq_nil (h : Tiles text n tokens) {front back : List Token} {eof : Token}
    (htokens : tokens = front ++ eof :: back) (heof : eof.kind = .eof) : back = [] := by
  induction h generalizing front with
  | last _ _ _ _ =>
    obtain _ | ⟨_, _⟩ := front
    · exact (List.cons.inj htokens).2.symm
    · simp at htokens
  | next _ _ hkind _ _ _ ih =>
    obtain _ | ⟨_, _⟩ := front
    · exact absurd ((List.cons.inj htokens).1 ▸ heof) hkind
    · exact ih (List.cons.inj htokens).2

/-- **The spans of a parse tree are exact and nested.** -/
theorem parseSource_exact {source : String} {tree : ParseTree}
    (h : parseSource source = .ok tree) :
    Derives (ParseTree.Exact source.toList) .unit (tokenize source) tree := by
  have htiles : Tiles source.toList 0 (tokenize source) := (tokensFrom_tiles [] (by simp)).1
  obtain ⟨front, eof, back, htokens, hkind, htree⟩ := parseTokens_derives h
  obtain rfl := htiles.eq_nil htokens hkind
  rw [← htokens] at htree
  exact htree.exact ⟨fun token htoken => SpanIn.marks (.token htoken), htiles.pairwise⟩

theorem call_exact : ∃ tree, parseSource "f(-x) /* */ ;\n" = .ok tree ∧
    Derives (ParseTree.Exact "f(-x) /* */ ;\n".toList) .unit (tokenize "f(-x) /* */ ;\n") tree := by
  have htokens : tokenize "f(-x) /* */ ;\n" = [⟨.ident "f", ⟨0, 1, 1, 1⟩⟩,
      ⟨.punct .lparen, ⟨1, 2, 1, 2⟩⟩, ⟨.punct .minus, ⟨2, 3, 1, 3⟩⟩, ⟨.ident "x", ⟨3, 4, 1, 4⟩⟩,
      ⟨.punct .rparen, ⟨4, 5, 1, 5⟩⟩, ⟨.punct .semicolon, ⟨12, 13, 1, 13⟩⟩,
      ⟨.eof, ⟨14, 14, 2, 1⟩⟩] := by decide +kernel
  obtain ⟨tree, htree⟩ : ∃ tree, parseSource "f(-x) /* */ ;\n" = .ok tree := by
    rw [parseSource, htokens]
    exact ⟨_, rfl⟩
  exact ⟨tree, htree, parseSource_exact htree⟩

end StackCompiler

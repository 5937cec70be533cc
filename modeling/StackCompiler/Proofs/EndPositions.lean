import Mathlib.Logic.Relation
import StackCompiler.Proofs.Adapted
import StackCompiler.Proofs.Lexing
import StackCompiler.Report

/-!
# Where spans end

Spans count characters, but the end of a place in a report is looked up as if the span counted
bytes. It is right exactly if every character up to there takes one byte.

* **`location_stop_iff`**: which ends are right, and how many carets are drawn then.
-/

namespace StackCompiler

open List

variable {before text word cs : List Char} {a b span : Span} {source : String} {n : Nat}

/-! ## Places after bytes -/

def byteCount : List Char → Nat
  | [] => 0
  | c :: cs => c.utf8Size + byteCount cs

theorem length_le_byteCount (cs : List Char) : cs.length ≤ byteCount cs := by
  induction cs with
  | nil => exact Nat.le_refl _
  | cons c cs ih =>
    have hpos := c.utf8Size_pos
    rw [length_cons, byteCount]
    omega

theorem byteCount_eq_length : byteCount cs = cs.length ↔ ∀ c ∈ cs, c.utf8Size = 1 := by
  induction cs with
  | nil => simp [byteCount]
  | cons c cs ih =>
    have hpos := c.utf8Size_pos
    have hle := length_le_byteCount cs
    rw [length_cons, byteCount, forall_mem_cons, ← ih]
    omega

theorem lineColumnFrom_cons {p : Position} (h : 0 < n) (c : Char) (cs : List Char) :
    lineColumnFrom p.line p.column n (c :: cs) = if n < c.utf8Size then none else
      lineColumnFrom (p.step c).line (p.step c).column (n - c.utf8Size) cs := by
  obtain ⟨n, rfl⟩ := Nat.exists_eq_add_one_of_ne_zero h.ne'
  by_cases hc : c = '\n' <;> simp [lineColumnFrom, Position.step, hc]

/-- The place after some bytes is the one after the characters that take them. -/
theorem lineColumnFrom_eq_some {p : Position} {r : Nat × Nat} :
    lineColumnFrom p.line p.column n cs = some r ↔ ∃ before rest, cs = before ++ rest ∧
      byteCount before = n ∧ r = ((p.advance before).line, (p.advance before).column) := by
  induction cs generalizing p n with
  | nil => cases n <;> simp [lineColumnFrom, byteCount, Position.advance, eq_comm]
  | cons c cs ih =>
    rcases Nat.eq_zero_or_pos n with rfl | hn
    · have hzero : lineColumnFrom p.line p.column 0 (c :: cs) = some (p.line, p.column) := by
        simp [lineColumnFrom]
      rw [hzero]
      constructor
      · rintro ⟨⟩
        exact ⟨[], _, rfl, rfl, rfl⟩
      · rintro ⟨_ | ⟨d, before⟩, rest, -, hbytes, rfl⟩
        · rfl
        · have hpos := d.utf8Size_pos
          rw [byteCount] at hbytes
          omega
    · rw [lineColumnFrom_cons hn]
      constructor
      · intro h
        split_ifs at h with hlt
        obtain ⟨before, rest, rfl, hbytes, hr⟩ := ih.mp h
        exact ⟨c :: before, rest, rfl, by rw [byteCount]; omega, hr⟩
      · rintro ⟨_ | ⟨d, before⟩, rest, heq, hbytes, hr⟩
        · rw [byteCount] at hbytes
          omega
        · obtain ⟨rfl, hcs⟩ := List.cons.inj heq
          rw [byteCount] at hbytes
          rw [if_neg (by omega)]
          exact ih.mpr ⟨before, rest, hcs, by omega, hr⟩

theorem lineAfter_append (before word : List Char) :
    lineAfter (before ++ word) = lineAfter before + word.count '\n' := by
  rw [lineAfter, lineAfter, count_append, Nat.add_assoc]

theorem columnAfter_append (before : List Char) (h : '\n' ∉ word) :
    columnAfter (before ++ word) = columnAfter before + word.length := by
  have hword : ∀ c ∈ word.reverse, (c != '\n') = true := by
    intro c hc
    rw [bne_iff_ne]
    rintro rfl
    exact h (mem_reverse.mp hc)
  rw [columnAfter, columnAfter, List.rtakeWhile, List.rtakeWhile, reverse_append,
    takeWhile_append_of_pos hword]
  simp only [length_reverse, length_append]
  omega

theorem place_append_ne (before : List Char) (h : word ≠ []) :
    (lineAfter (before ++ word), columnAfter (before ++ word)) ≠
      (lineAfter before, columnAfter before) := by
  intro heq
  obtain ⟨hline, hcolumn⟩ := Prod.mk.inj heq
  rw [lineAfter_append, Nat.add_eq_left, count_eq_zero] at hline
  rw [columnAfter_append before hline, Nat.add_eq_left] at hcolumn
  exact h (eq_nil_of_length_eq_zero hcolumn)

/-! ## Spans of a text -/

/-- The span is a range of the text, and it is marked with the line and column of its start. -/
structure Span.Marks (text : List Char) (span : Span) : Prop where
  order : span.start ≤ span.stop
  le : span.stop ≤ text.length
  line : span.line = lineAfter (text.take span.start)
  column : span.column = columnAfter (text.take span.start)

theorem Span.Marks.merge (ha : a.Marks text) (hb : b.Marks text) : (a.merge b).Marks text := by
  obtain ⟨hao, hal, haline, hacolumn⟩ := ha
  obtain ⟨hbo, hbl, hbline, hbcolumn⟩ := hb
  unfold Span.merge
  by_cases h : b.start < a.start
  · rw [Nat.min_eq_right (Nat.le_of_lt h), if_pos h, if_pos h]
    exact ⟨Nat.le_trans hbo (Nat.le_max_right _ _), Nat.max_le.mpr ⟨hal, hbl⟩, hbline, hbcolumn⟩
  · rw [Nat.min_eq_left (Nat.le_of_not_lt h), if_neg h, if_neg h]
    exact ⟨Nat.le_trans hao (Nat.le_max_left _ _), Nat.max_le.mpr ⟨hal, hbl⟩, haline, hacolumn⟩

theorem Tiles.range {tokens : List Token} (h : Tiles text n tokens) :
    ∀ token ∈ tokens, token.span.start ≤ token.span.stop ∧ token.span.stop ≤ text.length := by
  induction h with
  | last _ _ hstart hstop =>
    exact forall_mem_singleton.mpr ⟨Nat.le_of_eq (hstart.trans hstop.symm), Nat.le_of_eq hstop⟩
  | next _ _ _ hlt hle _ ih => exact forall_mem_cons.mpr ⟨⟨Nat.le_of_lt hlt, hle⟩, ih⟩

abbrev ParseTree.Contains : ParseTree → ParseTree → Prop :=
  Relation.ReflTransGen fun tree child => child ∈ tree.children

/-- The spans of tokens and of nodes of the parse tree. -/
inductive SpanIn (source : String) : Span → Prop
  | token {token : Token} : token ∈ tokenize source → SpanIn source token.span
  | node {tree part : ParseTree} : parseSource source = .ok tree → tree.Contains part →
      SpanIn source part.span

theorem SpanIn.marks (h : SpanIn source span) : span.Marks source.toList := by
  obtain ⟨htiles, hstands⟩ : Tiles source.toList 0 (tokenize source) ∧ _ :=
    tokensFrom_tiles [] (by simp)
  have htoken (token : Token) (h : token ∈ tokenize source) : token.span.Marks source.toList :=
    ⟨(htiles.range token h).1, (htiles.range token h).2, (hstands token h).line,
      (hstands token h).column⟩
  cases h with
  | token h => exact htoken _ h
  | @node tree part htree hpart =>
    have hall : part.All (·.span.Marks source.toList) := by
      induction hpart with
      | refl => exact (parseTokens_items htree htoken).1
      | tail _ hchild ih => exact ih.inner _ hchild
    cases hall with
    | leaf h => exact h
    | node hfirst hlast _ => exact hfirst.merge hlast

/-! ## Reports -/

/-- **The end of a place is right if and only if all characters up to it take one byte.** Then the
carets under the place are as many as its characters, if it does not go beyond its line. -/
theorem location_stop_iff (file : String) (h : SpanIn source span) :
    let location := Location.of file span (some source)
    let upTo := source.toList.take span.stop
    let covered := source.toList.extract span.start span.stop
    (location.line = lineAfter (source.toList.take span.start) ∧
      location.column = columnAfter (source.toList.take span.start)) ∧
    (location.stop = some (lineAfter upTo, columnAfter upTo) ↔ ∀ c ∈ upTo, c.utf8Size = 1) ∧
    ((∀ c ∈ upTo, c.utf8Size = 1) →
      Report.caretWidth location = if '\n' ∈ covered then 1 else max 1 covered.length) := by
  intro location upTo covered
  obtain ⟨horder, hle, hline, hcolumn⟩ := h.marks
  have hlength : upTo.length = span.stop := List.length_take_of_le hle
  have hexact : location.stop = some (lineAfter upTo, columnAfter upTo) ↔
      ∀ c ∈ upTo, c.utf8Size = 1 := by
    have hplace (cs : List Char) : (lineAfter cs, columnAfter cs) =
        ((Position.start.advance cs).line, (Position.start.advance cs).column) := by
      rw [Position.advance_start]
    refine (lineColumnFrom_eq_some (p := Position.start)).trans ⟨?_, fun hbytes => ?_⟩
    · rintro ⟨before, rest, hsource, hbytes, heq⟩
      rw [← hplace] at heq
      have hshort := length_le_byteCount before
      have hup : upTo = before ++ rest.take (span.stop - before.length) := by
        show source.toList.take span.stop = _
        rw [hsource, List.take_append, List.take_of_length_le (hbytes ▸ hshort)]
      rw [hup] at heq
      have hword := not_imp_comm.mp (place_append_ne before) (not_not.mpr heq)
      rw [hword, List.append_nil] at hup
      rw [← byteCount_eq_length, hlength, hup, hbytes]
    · exact ⟨upTo, _, (List.take_append_drop _ _).symm,
        (byteCount_eq_length.mpr hbytes).trans hlength, hplace upTo⟩
  refine ⟨⟨hline, hcolumn⟩, hexact, fun hbytes => ?_⟩
  have hsplit : upTo = source.toList.take span.start ++ covered := by
    show source.toList.take span.stop = _ ++ source.toList.extract span.start span.stop
    rw [List.extract_eq_take_drop, ← List.take_add, Nat.add_sub_cancel' horder]
  have hcolumn' : max location.column 1 = columnAfter (source.toList.take span.start) := by
    show max span.column 1 = _
    rw [hcolumn, columnAfter]
    omega
  rw [Report.caretWidth, hexact.mpr hbytes, hcolumn', hsplit, lineAfter_append]
  have hline' : location.line = lineAfter (source.toList.take span.start) := hline
  simp only [hline', Nat.add_eq_left, List.count_eq_zero]
  split_ifs with hone hline hline
  · exact absurd hline hone.1
  · rw [columnAfter_append _ hline] at hone ⊢
    omega
  · rfl
  · rw [columnAfter_append _ hline] at hone
    have hempty := not_and.mp hone hline
    omega

/-- The end of a call that goes over two lines is right, and there is one caret under its start. -/
theorem longCall_located : SpanIn "f(\n1);" ⟨0, 6, 1, 1⟩ ∧
    (Location.of "f" ⟨0, 6, 1, 1⟩ (some "f(\n1);")).stop = some (2, 4) ∧
    Report.caretWidth (Location.of "f" ⟨0, 6, 1, 1⟩ (some "f(\n1);")) = 1 := by
  have hpart : (parseSource "f(\n1);").toOption.any
      (·.children.any (·.span = ⟨0, 6, 1, 1⟩)) = true := by decide +kernel
  have h : SpanIn "f(\n1);" ⟨0, 6, 1, 1⟩ := by
    cases htree : parseSource "f(\n1);" with
    | error e =>
      rw [htree] at hpart
      cases hpart
    | ok tree =>
      rw [htree] at hpart
      obtain ⟨part, hmem, hspan⟩ := List.any_eq_true.mp hpart
      rw [← of_decide_eq_true hspan]
      exact .node htree (.single hmem)
  obtain ⟨-, hstop, hcarets⟩ := location_stop_iff "f" h
  have hbytes : ∀ c ∈ "f(\n1);".toList.take 6, c.utf8Size = 1 := by simp [Char.utf8Size]
  exact ⟨h, hstop.mpr hbytes, hcarets hbytes⟩

/-- A letter of two bytes makes the end of a string literal wrong. -/
theorem accented_located : SpanIn "\"é\"" ⟨0, 3, 1, 1⟩ ∧
    (Location.of "f" ⟨0, 3, 1, 1⟩ (some "\"é\"")).stop = some (1, 3) ∧
    columnAfter ("\"é\"".toList.take 3) = 4 := by
  refine ⟨.token (show ⟨.stringLit "é", ⟨0, 3, 1, 1⟩⟩ ∈ _ by decide +kernel), ?_, ?_⟩ <;>
    decide +kernel

end StackCompiler

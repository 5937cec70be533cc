import Mathlib.Data.List.DropRight
import StackCompiler.Proofs.Lexemes

/-!
# Tokens of a text

The tokens of a text stand in it one after another. What is between them is white space and
comments, and the characters of a token are all that is needed to read it.

* **`tokenize_tiles`**: the tokens of a text.
-/

namespace StackCompiler

open Text List Position

variable {cs : List Char} {c : Char}

/-! ## Places in a text -/

def lineAfter (cs : List Char) : Nat := 1 + cs.count '\n'

def columnAfter (cs : List Char) : Nat := 1 + (cs.rtakeWhile (· != '\n')).length

theorem Position.advance_append (p : Position) (cs cs' : List Char) :
    p.advance (cs ++ cs') = (p.advance cs).advance cs' := foldl_append

theorem Position.advance_start (cs : List Char) :
    start.advance cs = ⟨cs.length, lineAfter cs, columnAfter cs⟩ := by
  induction cs using List.reverseRecOn with
  | nil => rfl
  | append_singleton cs c ih =>
    rw [advance_append, ih]
    by_cases hc : c = '\n' <;>
      simp [advance, step, lineAfter, columnAfter, hc, Nat.add_assoc]

/-! ## Comments -/

/-- The text starts with a mark that opens or closes a comment. -/
def StartsMark (cs : List Char) : Prop := ['/', '*'] <+: cs ∨ ['*', '/'] <+: cs

/-- What follows the opening mark of a block comment: others nest in it, and it goes on to its
closing mark or to the end of the text. -/
inductive BlockRest : (closed : Bool) → List Char → Prop
  | close : BlockRest true ['*', '/']
  | stop : BlockRest false []
  | char {closed : Bool} {c : Char} {rest : List Char} : ¬StartsMark (c :: rest) →
      BlockRest closed rest → BlockRest closed (c :: rest)
  | nest {closed : Bool} {inner rest : List Char} : BlockRest true inner → BlockRest closed rest →
      BlockRest closed ('/' :: '*' :: (inner ++ rest))
  | into {inner : List Char} : BlockRest false inner → BlockRest false ('/' :: '*' :: inner)

/-- White space and comments. The last comment of the text may be without an end. -/
inductive Gap (last : Prop) : List Char → Prop
  | nil : Gap last []
  | blank {c : Char} {rest : List Char} : isBlank c → Gap last rest → Gap last (c :: rest)
  | line {text rest : List Char} : '\n' ∉ text → Gap last rest →
      Gap last ('/' :: '/' :: (text ++ '\n' :: rest))
  | lineEnd {text : List Char} : last → '\n' ∉ text → Gap last ('/' :: '/' :: text)
  | block {text rest : List Char} : BlockRest true text → Gap last rest →
      Gap last ('/' :: '*' :: (text ++ rest))
  | blockEnd {text : List Char} : last → BlockRest false text → Gap last ('/' :: '*' :: text)

theorem skipped_lineComment (cs : List Char) :
    (∃ text rest, cs = text ++ '\n' :: rest ∧ '\n' ∉ text ∧
      skipped .lineComment cs = text.length + 1 + skipped .outside rest) ∨
    '\n' ∉ cs ∧ skipped .lineComment cs = cs.length := by
  induction cs with
  | nil => exact .inr ⟨not_mem_nil, rfl⟩
  | cons c cs ih =>
    by_cases hc : c = '\n'
    · exact .inl ⟨[], cs, by rw [hc]; rfl, not_mem_nil, by simp [skipped, hc]⟩
    · have hstep : skipped .lineComment (c :: cs) = 1 + skipped .lineComment cs := by
        simp [skipped, hc]
      rcases ih with ⟨text, rest, rfl, htext, heq⟩ | ⟨hcs, heq⟩
      · refine .inl ⟨c :: text, rest, rfl, by simp [htext, Ne.symm hc], ?_⟩
        rw [hstep, heq, length_cons]
        omega
      · exact .inr ⟨by simp [hcs, Ne.symm hc], by rw [hstep, heq, length_cons, Nat.add_comm]⟩

theorem skipped_block_char {depth : Nat} (h : ¬StartsMark (c :: cs)) :
    skipped (.blockComment depth) (c :: cs) = 1 + skipped (.blockComment depth) cs := by
  rw [skipped.eq_7]
  · rintro rest rfl rfl
    exact h (.inl ⟨rest, rfl⟩)
  · rintro rest rfl rfl
    exact h (.inr ⟨rest, rfl⟩)

theorem skipped_blockComment (depth : Nat) (cs : List Char) :
    (∃ text rest, cs = text ++ rest ∧ BlockRest true text ∧ skipped (.blockComment (depth + 1)) cs =
        text.length + skipped (if depth = 0 then .outside else .blockComment depth) rest) ∨
    BlockRest false cs ∧ skipped (.blockComment (depth + 1)) cs = cs.length := by
  -- after a comment inside of this one, the text goes on further down: the induction is on length
  obtain ⟨n, hn⟩ : ∃ n, cs.length < n := ⟨_, Nat.lt_succ_self _⟩
  induction n generalizing cs depth with
  | zero => cases hn
  | succ n ih =>
  by_cases hmark : StartsMark cs
  · rcases hmark with ⟨rest, rfl⟩ | ⟨rest, rfl⟩
    · have hlength : rest.length + 1 < n := by simpa using hn
      have hstep : skipped (.blockComment (depth + 1)) (['/', '*'] ++ rest) =
        2 + skipped (.blockComment (depth + 2)) rest := rfl
      rw [hstep]
      rcases ih (depth + 1) rest (by omega) with
        ⟨inner, after, rfl, hinner, heq⟩ | ⟨hinner, heq⟩
      · rw [length_append] at hlength
        rw [heq, if_neg (Nat.succ_ne_zero depth)]
        rcases ih depth after (by omega) with ⟨text, rest, rfl, htext, heq⟩ | ⟨hafter, heq⟩
        · refine .inl ⟨'/' :: '*' :: (inner ++ text), rest, by simp, .nest hinner htext, ?_⟩
          simp only [heq, length_cons, length_append]
          omega
        · refine .inr ⟨show BlockRest false ('/' :: '*' :: (inner ++ after)) from
            .nest hinner hafter, ?_⟩
          simp only [heq, length_append, length_cons, length_nil]
      · refine .inr ⟨.into hinner, ?_⟩
        simp only [heq, length_append, length_cons, length_nil]
    · refine .inl ⟨['*', '/'], rest, rfl, .close, ?_⟩
      cases depth <;> simp [skipped]
  · cases cs with
    | nil => exact .inr ⟨.stop, rfl⟩
    | cons c cs =>
      rw [skipped_block_char hmark]
      rcases ih depth cs (Nat.lt_of_succ_lt_succ hn) with
        ⟨text, rest, rfl, htext, heq⟩ | ⟨hcs, heq⟩
      · refine .inl ⟨c :: text, rest, rfl, .char ?_ htext, ?_⟩
        · exact fun hstarts => hmark (hstarts.imp (·.trans (prefix_append _ _))
            (·.trans (prefix_append _ _)))
        · rw [heq, length_cons]
          omega
      · exact .inr ⟨.char hmark hcs, by rw [heq, length_cons, Nat.add_comm]⟩

theorem skipped_char (hline : ¬['/', '/'] <+: c :: cs) (hblock : ¬['/', '*'] <+: c :: cs) :
    skipped .outside (c :: cs) = if isBlank c then 1 + skipped .outside cs else 0 := by
  rw [skipped.eq_3]
  · rintro rest rfl rfl
    exact hline ⟨rest, rfl⟩
  · rintro rest rfl rfl
    exact hblock ⟨rest, rfl⟩

/-- **What is skipped before a token is a gap**, and no gap follows. -/
theorem skipped_gap (cs : List Char) : ∃ gap rest, cs = gap ++ rest ∧
    skipped .outside cs = gap.length ∧ Gap (rest = []) gap ∧ skipped .outside rest = 0 := by
  obtain ⟨n, hn⟩ : ∃ n, cs.length < n := ⟨_, Nat.lt_succ_self _⟩
  induction n generalizing cs with
  | zero => cases hn
  | succ n ih =>
  by_cases hline : ['/', '/'] <+: cs
  · obtain ⟨cs, rfl⟩ := hline
    have hstep : skipped .outside (['/', '/'] ++ cs) = 2 + skipped .lineComment cs := rfl
    rw [hstep]
    rcases skipped_lineComment cs with ⟨text, after, rfl, htext, heq⟩ | ⟨hcs, heq⟩
    · obtain ⟨gap, rest, rfl, hlength, hgap, hrest⟩ := ih after (by simp at hn; omega)
      refine ⟨'/' :: '/' :: (text ++ '\n' :: gap), rest, by simp, ?_, .line htext hgap, hrest⟩
      simp only [heq, hlength, length_cons, length_append]
      omega
    · exact ⟨_, [], (append_nil _).symm, by rw [heq, length_append]; rfl, .lineEnd rfl hcs, rfl⟩
  by_cases hblock : ['/', '*'] <+: cs
  · obtain ⟨cs, rfl⟩ := hblock
    have hstep : skipped .outside (['/', '*'] ++ cs) = 2 + skipped (.blockComment 1) cs := rfl
    rw [hstep]
    rcases skipped_blockComment 0 cs with ⟨text, after, rfl, htext, heq⟩ | ⟨hcs, heq⟩
    · obtain ⟨gap, rest, rfl, hlength, hgap, hrest⟩ := ih after (by simp at hn; omega)
      refine ⟨'/' :: '*' :: (text ++ gap), rest, by simp, ?_, .block htext hgap, hrest⟩
      simp only [heq, if_pos, hlength, length_cons, length_append]
      omega
    · exact ⟨_, [], (append_nil _).symm, by rw [heq, length_append]; rfl, .blockEnd rfl hcs, rfl⟩
  cases cs with
  | nil => exact ⟨[], [], rfl, rfl, .nil, rfl⟩
  | cons c cs =>
    rw [skipped_char hline hblock]
    split_ifs with hc
    · obtain ⟨gap, rest, rfl, hlength, hgap, hrest⟩ := ih cs (Nat.lt_of_succ_lt_succ hn)
      exact ⟨c :: gap, rest, rfl, by rw [hlength, length_cons, Nat.add_comm], .blank hc hgap, hrest⟩
    · exact ⟨[], c :: cs, rfl, rfl, .nil, by rw [skipped_char hline hblock, if_neg hc]⟩

/-- Where nothing is skipped, nothing is if less of the text follows. -/
theorem skipped_take {rest : List Char} (h : skipped .outside (c :: rest) = 0) (k : Nat) :
    skipped .outside (c :: rest.take k) = 0 := by
  have hmark (mark : List Char) (hnot : ¬mark <+: c :: rest) : ¬mark <+: c :: rest.take k := by
    exact fun hfront => hnot (hfront.trans (List.take_prefix (k + 1) (c :: rest)))
  have hline : ¬['/', '/'] <+: c :: rest := by
    rintro ⟨text, heq⟩
    rw [← heq] at h
    exact absurd h (by simp [skipped])
  have hblock : ¬['/', '*'] <+: c :: rest := by
    rintro ⟨text, heq⟩
    rw [← heq] at h
    exact absurd h (by simp [skipped])
  rw [skipped_char hline hblock] at h
  rw [skipped_char (hmark _ hline) (hmark _ hblock)]
  split_ifs at h ⊢
  · omega
  · rfl

/-! ## Tokens -/

/-- The characters are read as this token when nothing else is there. -/
def ReadAlone (word : List Char) (kind : TokenKind) : Prop :=
  (tokenize (String.ofList word)).map Token.kind = [kind, .eof]

theorem tokensFrom_nil (fuel : Nat) (p : Position) :
    tokensFrom fuel p [] = [⟨.eof, p.spanTo p⟩] := by
  cases fuel <;> rfl

theorem readAlone_of_lexeme {rest : List Char} {kind : TokenKind}
    (hskip : skipped .outside (c :: rest) = 0) (h : lexeme c rest = ⟨kind, rest.length + 1⟩) :
    ReadAlone (c :: rest) kind := by
  simp [ReadAlone, tokenize, tokensFrom, hskip, h, tokensFrom_nil]

/-- Read from a position: there is only a gap, or there is a gap and a token. -/
theorem tokensFrom_cases (fuel : Nat) (p : Position) (cs : List Char) :
    (Gap True cs ∧ tokensFrom (fuel + 1) p cs = [⟨.eof, (p.advance cs).spanTo (p.advance cs)⟩]) ∨
    ∃ gap word rest kind, cs = gap ++ (word ++ rest) ∧ Gap False gap ∧ word ≠ [] ∧ kind ≠ .eof ∧
      ReadAlone word kind ∧ tokensFrom (fuel + 1) p cs =
        ⟨kind, (p.advance gap).spanTo ((p.advance gap).advance word)⟩ ::
          tokensFrom fuel ((p.advance gap).advance word) rest := by
  obtain ⟨gap, after, rfl, hlength, hgap, hafter⟩ := skipped_gap cs
  cases after with
  | nil =>
    rw [append_nil] at hlength ⊢
    refine .inl ⟨by simpa using hgap, ?_⟩
    simp [tokensFrom, hlength]
  | cons c rest =>
    obtain ⟨k, hk, hle, hsame⟩ := lexeme_slices c rest
    refine .inr ⟨gap, c :: rest.take k, rest.drop k, (lexeme c rest).kind, by simp,
      by simpa using hgap, cons_ne_nil _ _, fun heof => ?_, ?_, ?_⟩
    · exact (heof ▸ lexeme_lexed c rest : TokenKind.eof.Lexed)
    · have hall : (rest.take k).length = k := by rw [length_take, Nat.min_eq_left hle]
      exact readAlone_of_lexeme (skipped_take hafter k) (by rw [hsame, hall, ← hk])
    · simp [tokensFrom, hlength, hk]

/-- Tokens of a text, with gaps between them, from an offset on. The last one is the mark of the
end. -/
inductive Tiles (text : List Char) : Nat → List Token → Prop
  | last {n : Nat} {token : Token} : Gap True (text.drop n) → token.kind = .eof →
      token.span.start = text.length → token.span.stop = text.length → Tiles text n [token]
  | next {n : Nat} {token : Token} {tokens : List Token} : n ≤ token.span.start →
      Gap False (text.extract n token.span.start) → token.kind ≠ .eof →
      token.span.start < token.span.stop → token.span.stop ≤ text.length →
      Tiles text token.span.stop tokens → Tiles text n (token :: tokens)

/-- A token of a text is marked with its place and told from its own characters. -/
structure Token.Stands (text : List Char) (token : Token) : Prop where
  line : token.span.line = lineAfter (text.take token.span.start)
  column : token.span.column = columnAfter (text.take token.span.start)
  alone : token.kind ≠ .eof →
    ReadAlone (text.extract token.span.start token.span.stop) token.kind

theorem Token.stands_between (kind : TokenKind) (before word rest : List Char)
    (h : kind ≠ .eof → ReadAlone word kind) : Token.Stands (before ++ (word ++ rest))
      ⟨kind, (start.advance before).spanTo (start.advance (before ++ word))⟩ := by
  rw [advance_start, advance_start]
  refine ⟨by simp [spanTo], by simp [spanTo], fun hkind => ?_⟩
  simpa [spanTo] using h hkind

theorem tokensFrom_tiles {fuel : Nat} (before : List Char) (hfuel : cs.length < fuel) :
    Tiles (before ++ cs) before.length (tokensFrom fuel (start.advance before) cs) ∧
      ∀ token ∈ tokensFrom fuel (start.advance before) cs, token.Stands (before ++ cs) := by
  induction fuel generalizing before cs with
  | zero => cases hfuel
  | succ fuel ih =>
    rcases tokensFrom_cases fuel (start.advance before) cs with
      ⟨hgap, heq⟩ | ⟨gap, word, rest, kind, rfl, hgap, hword, hkind, halone, heq⟩
    · rw [heq, ← advance_append]
      refine ⟨.last (by simpa using hgap) rfl ?_ ?_, forall_mem_singleton.mpr ?_⟩
      · rw [advance_start]
        rfl
      · rw [advance_start]
        rfl
      · simpa using Token.stands_between .eof (before ++ cs) [] [] (absurd rfl)
    · have hpos := length_pos_iff.mpr hword
      have hless : rest.length < fuel := by
        simp only [length_append] at hfuel
        omega
      have hrest := ih (before ++ gap ++ word) hless
      rw [heq, ← advance_append, ← advance_append]
      have htoken := Token.stands_between kind (before ++ gap) word rest fun _ => halone
      simp only [append_assoc] at hrest htoken ⊢
      refine ⟨.next ?_ ?_ hkind ?_ ?_ ?_, forall_mem_cons.mpr ⟨htoken, hrest.2⟩⟩
      all_goals simp only [advance_start, spanTo, length_append]
      · omega
      · simpa using hgap
      · omega
      · omega
      · simpa [advance_start] using hrest.1

/-- **The tokens of a text**: they stand in it in order, with white space and comments between them
and the mark of the end as the last one. Each has its line and column, and its characters, read
alone, give this token. -/
theorem tokenize_tiles (source : String) : Tiles source.toList 0 (tokenize source) ∧
    ∀ token ∈ tokenize source, token.Stands source.toList :=
  tokensFrom_tiles [] (by simp)

end StackCompiler

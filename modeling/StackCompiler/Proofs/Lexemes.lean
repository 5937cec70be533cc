import Mathlib.Data.List.TakeWhile
import Mathlib.Tactic.SplitIfs
import StackCompiler.Token.Lexer

/-!
# Single tokens

What can be read at the front of a text, and how far it goes. A token is told from the characters
that it takes: read without what follows, it is the same.

* `TokenKind.Lexed`, `lexeme_lexed`: the tokens that can be read;
* **`lexeme_slices`**: every token is read so.
-/

namespace StackCompiler

open Number Text List

variable {p : Char → Bool} {suffix allowed cs : List Char} {kind? : Option TokenKind}
  {c mark : Char}

/-! ## Kinds of tokens -/

/-- A token as it can be read: names have only characters of names, and numbers have no sign and are
in range. -/
def TokenKind.Lexed : TokenKind → Prop
  | .ident name => ∀ c ∈ name.toList, isWordPart c = true
  | .intLit value | .longLit value => 0 ≤ value ∧ value < integerLimit
  | .eof => False
  | _ => True

theorem literalLexeme_lexed (cs : List Char) (length : Nat) (h : ∀ kind ∈ kind?, kind.Lexed) :
    (literalLexeme cs length kind?).kind.Lexed := by
  cases kind? with
  | none => trivial
  | some kind => exact h kind rfl

theorem integerKind?_lexed {long : Bool} {value : Nat} :
    ∀ kind ∈ integerKind? long value, kind.Lexed := by
  intro kind h
  unfold integerKind? at h
  split_ifs at h with hlimit <;> cases h <;>
    exact ⟨Int.natCast_nonneg _, Int.ofNat_lt.mpr hlimit⟩

theorem decimalLexeme_lexed (cs : List Char) : (decimalLexeme cs).kind.Lexed := by
  have hkinds (fractional : Bool) (digits rest : List Char) :
      ∀ kind ∈ (decimalKind? fractional digits rest).2, kind.Lexed := by
    intro kind hkind
    unfold decimalKind? at hkind
    split at hkind
    · exact integerKind?_lexed kind hkind
    · split_ifs at hkind
      iterate 2
        · obtain ⟨d, -, rfl⟩ := Option.map_eq_some_iff.mp hkind
          trivial
      · exact integerKind?_lexed kind hkind
  exact literalLexeme_lexed _ _ (hkinds _ _ _)

theorem lexeme_lexed (c : Char) (rest : List Char) : (lexeme c rest).kind.Lexed := by
  unfold lexeme
  split_ifs
  · unfold wordLexeme
    dsimp only
    split
    · trivial
    · intro c hc
      rw [String.toList_ofList] at hc
      exact mem_takeWhile_imp hc
  · unfold numberLexeme
    split
    · split_ifs
      · refine literalLexeme_lexed _ _ fun kind hkind => ?_
        split at hkind
        · cases hkind
        · exact integerKind?_lexed kind hkind
      · exact decimalLexeme_lexed _
    · exact decimalLexeme_lexed _
  · refine literalLexeme_lexed _ _ fun kind hkind => ?_
    obtain ⟨value, -, rfl⟩ := Option.map_eq_some_iff.mp hkind
    trivial
  · have hpair (second : Char) (pair : Punct) {other : TokenKind} (hother : other.Lexed) :
        (pairLexeme second pair other rest).kind.Lexed := by
      unfold pairLexeme
      split
      · split_ifs
        · trivial
        · exact hother
      · exact hother
    unfold symbolLexeme
    split <;> first
      | exact hpair _ _ trivial
      | trivial

/-! ## Where a part of a literal ends -/

/-- The text is at an end or goes on with one of these characters. -/
def GoesOn (allowed cs : List Char) : Prop := ∀ c ∈ cs.head?, c ∈ allowed

theorem GoesOn.append (h : GoesOn allowed cs) (h' : GoesOn allowed suffix) :
    GoesOn allowed (cs ++ suffix) := by
  cases cs with
  | nil => exact h'
  | cons c cs => exact h

theorem GoesOn.mono {allowed' : List Char} (h : GoesOn allowed cs) (hsub : allowed ⊆ allowed') :
    GoesOn allowed' cs := fun c hc => hsub (h c hc)

def Stops (p : Char → Bool) (cs : List Char) : Prop := ∀ c ∈ cs.head?, p c = false

theorem GoesOn.stops (h : GoesOn allowed cs) (hp : allowed.any p = false) :
    Stops p cs := fun c hc => by simpa using any_eq_false.mp hp c (h c hc)

theorem takeWhile_stops (cs : List Char) (h : Stops p suffix) :
    (cs.takeWhile p ++ suffix).takeWhile p = cs.takeWhile p := by
  rw [takeWhile_append_of_pos fun c hc => mem_takeWhile_imp hc]
  cases suffix with
  | nil => simp
  | cons c suffix => simp [h c rfl]

theorem fractionPart_cases (cs : List Char) : fractionPart cs = [] ∨
    ∃ c rest, c.isDigit ∧ cs = '.' :: c :: rest ∧
      fractionPart cs = '.' :: c :: rest.takeWhile isDigitPart := by
  fun_cases fractionPart cs with
  | case1 c rest hc => exact .inr ⟨c, rest, hc, rfl, by simp [isDigitPart, hc]⟩
  | case2 | case3 => exact .inl rfl

theorem fractionPart_prefix (cs : List Char) : fractionPart cs <+: cs := by
  rcases fractionPart_cases cs with heq | ⟨c, rest, -, hcs, heq⟩
  · rw [heq]
    exact nil_prefix
  · rw [heq, hcs, prefix_cons_inj, prefix_cons_inj]
    exact takeWhile_prefix _

theorem fractionPart_goesOn (cs : List Char) : GoesOn ['.'] (fractionPart cs) := by
  rcases fractionPart_cases cs with heq | ⟨c, rest, -, -, heq⟩ <;> simp [heq, GoesOn]

theorem fractionPart_stops (cs : List Char) (h : Stops isDigitPart suffix)
    (hdot : Stops (· == '.') suffix) : fractionPart (fractionPart cs ++ suffix) =
    fractionPart cs := by
  rcases fractionPart_cases cs with heq | ⟨c, rest, hc, -, heq⟩
  · rw [heq, nil_append]
    fun_cases fractionPart suffix with
    | case1 | case2 => simp [Stops] at hdot
    | case3 => rfl
  · rw [heq, cons_append, cons_append, fractionPart, if_pos hc,
      takeWhile_cons_of_pos (by simp [isDigitPart, hc]), takeWhile_stops _ h]

/-- What may stand between the mark of an exponent and its digits. -/
def IsSign (sign rest : List Char) : Prop :=
  sign = ['+'] ∨ sign = ['-'] ∨ sign = [] ∧ Stops (fun c => c == '+' || c == '-') rest

theorem exponentPart_mark {sign rest : List Char} (hmark : mark = 'e' ∨ mark = 'E')
    (hsign : IsSign sign rest) :
    exponentPart (mark :: (sign ++ rest)) = mark :: (sign ++ rest.takeWhile isDigitPart) := by
  have hm : (mark == 'e' || mark == 'E') = true := by simpa using hmark
  rcases hsign with rfl | rfl | ⟨rfl, hrest⟩
  · simp [exponentPart, hm]
  · simp [exponentPart, hm]
  · cases rest with
    | nil => simp [exponentPart, hm]
    | cons c rest =>
      have := hrest c rfl
      simp_all [exponentPart]

theorem exponentPart_cases (cs : List Char) : exponentPart cs = [] ∨ ∃ mark sign rest,
    (mark = 'e' ∨ mark = 'E') ∧ IsSign sign rest ∧ cs = mark :: (sign ++ rest) := by
  fun_cases exponentPart cs with
  | case1 mark hm sign after hs =>
    exact .inr ⟨mark, [sign], after, by simpa using hm, by simpa [IsSign] using hs, rfl⟩
  | case2 mark hm sign after hs =>
    exact .inr ⟨mark, [], sign :: after, by simpa using hm,
      .inr (.inr ⟨rfl, by simpa [Stops] using hs⟩), rfl⟩
  | case3 mark hm =>
    exact .inr ⟨mark, [], [], by simpa using hm, .inr (.inr ⟨rfl, by simp [Stops]⟩), rfl⟩
  | case4 | case5 => exact .inl rfl

theorem exponentPart_prefix (cs : List Char) : exponentPart cs <+: cs := by
  rcases exponentPart_cases cs with heq | ⟨mark, sign, rest, hm, hs, rfl⟩
  · rw [heq]
    exact nil_prefix
  · rw [exponentPart_mark hm hs, prefix_cons_inj, prefix_append_right_inj]
    exact takeWhile_prefix _

theorem exponentPart_goesOn (cs : List Char) : GoesOn ['e', 'E'] (exponentPart cs) := by
  rcases exponentPart_cases cs with heq | ⟨mark, sign, rest, hm, hs, rfl⟩
  · simp [heq, GoesOn]
  · simpa [exponentPart_mark hm hs, GoesOn] using hm

theorem exponentPart_stops (cs : List Char) (h : Stops isDigitPart suffix)
    (hsign : Stops (fun c => c == '+' || c == '-') suffix)
    (hmark : Stops (fun c => c == 'e' || c == 'E') suffix) :
    exponentPart (exponentPart cs ++ suffix) = exponentPart cs := by
  rcases exponentPart_cases cs with heq | ⟨mark, sign, rest, hm, hs, rfl⟩
  · rw [heq, nil_append]
    cases suffix with
    | nil => rfl
    | cons c suffix =>
      have := hmark c rfl
      simp_all [exponentPart]
  · rw [exponentPart_mark hm hs, cons_append, append_assoc, exponentPart_mark hm ?_,
      takeWhile_stops _ h]
    refine hs.imp_right (Or.imp_right (And.imp_right fun hs => ?_))
    cases rest with
    | nil => exact hsign
    | cons c rest =>
      rw [takeWhile_cons]
      split
      · exact hs
      · exact hsign

/-! ## Literals -/

/-- The reader takes at least one character, and it takes the same token if nothing follows. -/
structure Slices (f : List Char → Lexeme) (cs : List Char) : Prop where
  pos : 0 < (f cs).length
  le : (f cs).length ≤ cs.length
  same : f (cs.take (f cs).length) = f cs

theorem Slices.literal {f : List Char → Lexeme} {n : Nat} (hpos : 0 < n) (hle : n ≤ cs.length)
    (h : f cs = literalLexeme cs n kind?) (h' : f (cs.take n) = literalLexeme (cs.take n) n kind?) :
    Slices f cs := by
  refine ⟨h ▸ hpos, h ▸ hle, ?_⟩
  rw [h]
  refine h'.trans ?_
  rw [literalLexeme, take_take, Nat.min_self]
  rfl

theorem decimalKind?_take (fractional : Bool) (digits rest : List Char) :
    (decimalKind? fractional digits rest).1.toNat ≤ rest.length ∧
      GoesOn ['L', 'l', 'f', 'F'] (rest.take (decimalKind? fractional digits rest).1.toNat) ∧
      decimalKind? fractional digits (rest.take (decimalKind? fractional digits rest).1.toNat) =
        decimalKind? fractional digits rest := by
  cases rest with
  | nil => cases fractional <;> simp [decimalKind?, startsWithEither, GoesOn]
  | cons c rest =>
    simp only [decimalKind?]
    split_ifs with h1 h2 <;> simp_all [startsWithEither, GoesOn]
    grind

theorem decimalLexeme_eq {whole fraction exponent : List Char}
    (hwhole : (whole ++ (fraction ++ (exponent ++ suffix))).takeWhile isDigitPart = whole)
    (hfraction : fractionPart (fraction ++ (exponent ++ suffix)) = fraction)
    (hexponent : exponentPart (exponent ++ suffix) = exponent) :
    decimalLexeme (whole ++ (fraction ++ (exponent ++ suffix))) =
      let numeral := whole ++ fraction ++ exponent
      let k := decimalKind? (!fraction.isEmpty || !exponent.isEmpty)
        (numeral.filter (· != '_')) suffix
      literalLexeme (whole ++ (fraction ++ (exponent ++ suffix)))
        (numeral.length + k.1.toNat) k.2 := by
  simp only [decimalLexeme, hwhole, drop_left, hfraction, ← drop_drop, length_append, hexponent]

theorem decimalLexeme_slices (hc : c.isDigit) (rest : List Char) :
    Slices decimalLexeme (c :: rest) := by
  generalize hcs : c :: rest = cs
  have hpos : 0 < (cs.takeWhile isDigitPart).length := by
    rw [← hcs, takeWhile_cons_of_pos (by simp [isDigitPart, hc])]
    exact Nat.succ_pos _
  clear hcs rest
  obtain ⟨after, hafter⟩ : cs.takeWhile isDigitPart <+: cs := takeWhile_prefix _
  obtain ⟨after', hafter'⟩ := fractionPart_prefix after
  obtain ⟨rest, hrest⟩ := exponentPart_prefix after'
  generalize hw : cs.takeWhile isDigitPart = whole at hafter hpos
  generalize hf : fractionPart after = fraction at hafter'
  generalize he : exponentPart after' = exponent at hrest
  subst hrest hafter' hafter
  obtain ⟨hlength, hmark, hsame⟩ := decimalKind?_take (!fraction.isEmpty || !exponent.isEmpty)
    ((whole ++ fraction ++ exponent).filter (· != '_')) rest
  generalize hk : decimalKind? (!fraction.isEmpty || !exponent.isEmpty)
    ((whole ++ fraction ++ exponent).filter (· != '_')) rest = k at hlength hmark hsame
  have hexponent : GoesOn ['e', 'E', 'L', 'l', 'f', 'F'] (exponent ++ rest.take k.1.toNat) :=
    ((he ▸ exponentPart_goesOn _).mono (by simp)).append (hmark.mono (by simp))
  have hfraction : GoesOn ['.', 'e', 'E', 'L', 'l', 'f', 'F']
      (fraction ++ (exponent ++ rest.take k.1.toNat)) :=
    ((hf ▸ fractionPart_goesOn _).mono (by simp)).append (hexponent.mono (by simp))
  have hcs := decimalLexeme_eq hw hf he
  simp only [hk] at hcs
  refine .literal ?_ ?_ hcs ?_
  · simp only [length_append]
    omega
  · simp only [length_append]
    omega
  · rw [← append_assoc, ← append_assoc, take_length_add_append, append_assoc,
      append_assoc, decimalLexeme_eq]
    · simp only [hsame]
    · rw [← hw]
      exact takeWhile_stops _ (hfraction.stops rfl)
    · rw [← hf]
      exact fractionPart_stops _ (hexponent.stops rfl) (hexponent.stops rfl)
    · rw [← he]
      exact exponentPart_stops _ (hmark.stops rfl) (hmark.stops rfl) (hmark.stops rfl)

theorem startsWithEither_take (a b : Char) (cs : List Char) :
    (startsWithEither a b cs).toNat ≤ cs.length ∧
      GoesOn [a, b] (cs.take (startsWithEither a b cs).toNat) ∧
      startsWithEither a b (cs.take (startsWithEither a b cs).toNat) = startsWithEither a b cs := by
  cases cs with
  | nil => simp [startsWithEither, GoesOn]
  | cons c cs => cases h : startsWithEither a b (c :: cs) <;> simp_all [startsWithEither, GoesOn]

theorem hexLexeme_eq {part : List Char} (hmark : mark = 'x' ∨ mark = 'X')
    (hpart : (part ++ suffix).takeWhile isHexPart = part) :
    numberLexeme ('0' :: mark :: (part ++ suffix)) = let long := startsWithEither 'L' 'l' suffix
      let digits := part.filter (· != '_')
      literalLexeme ('0' :: mark :: (part ++ suffix)) (2 + part.length + long.toNat)
        (if digits.isEmpty then none else integerKind? long (ofDigits 16 digits)) := by
  have hm : (mark == 'x' || mark == 'X') = true := by simpa using hmark
  simp only [numberLexeme, if_pos hm, hexLexeme, hpart, drop_left]

theorem hexLexeme_slices (hmark : mark = 'x' ∨ mark = 'X') (rest : List Char) :
    Slices numberLexeme ('0' :: mark :: rest) := by
  obtain ⟨after, hafter⟩ : rest.takeWhile isHexPart <+: rest := takeWhile_prefix _
  generalize hpart : rest.takeWhile isHexPart = part at hafter
  subst hafter
  obtain ⟨hle, hgoes, hsame⟩ := startsWithEither_take 'L' 'l' after
  refine .literal (by omega) ?_ (hexLexeme_eq hmark hpart) ?_
  · simp only [length_cons, length_append]
    omega
  · rw [show 2 + part.length + (startsWithEither 'L' 'l' after).toNat =
      part.length + (startsWithEither 'L' 'l' after).toNat + 1 + 1 by omega, take_succ_cons,
      take_succ_cons, take_length_add_append, hexLexeme_eq hmark]
    · simp only [hsame]
      rw [show 2 + part.length + (startsWithEither 'L' 'l' after).toNat =
        part.length + (startsWithEither 'L' 'l' after).toNat + 1 + 1 by omega]
    · rw [← hpart]
      exact takeWhile_stops _ (hgoes.stops rfl)

theorem numberLexeme_slices (hc : c.isDigit) (rest : List Char) :
    Slices numberLexeme (c :: rest) := by
  by_cases hhex : ∃ mark tail, c :: rest = '0' :: mark :: tail ∧ (mark = 'x' ∨ mark = 'X')
  · obtain ⟨mark, tail, heq, hmark⟩ := hhex
    rw [heq]
    exact hexLexeme_slices hmark tail
  · have hdecimal (cs : List Char) (hcs : cs <+: c :: rest) :
      numberLexeme cs = decimalLexeme cs := by
      unfold numberLexeme
      split
      · rename_i mark tail
        obtain ⟨more, hmore⟩ := hcs
        exact if_neg fun hmark => hhex ⟨mark, tail ++ more, hmore.symm, by simpa using hmark⟩
      · rfl
    obtain ⟨hpos, hle, hsame⟩ := decimalLexeme_slices hc rest
    rw [← hdecimal _ (prefix_refl _)] at hpos hle hsame
    exact ⟨hpos, hle, by rw [hdecimal _ (List.take_prefix _ _), hsame]⟩

theorem stringBody_take (cs : List Char) : (stringBody cs).2 ≤ cs.length ∧
    stringBody (cs.take (stringBody cs).2) = stringBody cs := by
  fun_induction stringBody cs with
  | case1 | case2 | case3 | case4 => simp [stringBody]
  | case5 c rest value length heq ih =>
    rw [heq] at ih
    refine ⟨Nat.add_le_add_right ih.1 2, ?_⟩
    simp [stringBody, ih.2]
  | case6 c rest hquote hline hend hescape value length heq ih =>
    rw [heq] at ih
    have hslash : c ≠ '\\' := by
      rintro rfl
      cases rest with
      | nil => exact hend rfl rfl
      | cons d rest => exact hescape d rest rfl rfl
    refine ⟨Nat.succ_le_succ ih.1, ?_⟩
    rw [take_succ_cons, stringBody.eq_6 _ _ hquote hline (fun h => absurd h hslash)
      (fun _ _ h => absurd h hslash), ih.2]

theorem stringLexeme_slices (rest : List Char) :
    Slices (fun cs => stringLexeme cs cs.tail) ('"' :: rest) := by
  obtain ⟨hle, hsame⟩ := stringBody_take rest
  refine .literal (Nat.succ_pos _) (Nat.succ_le_succ hle) rfl ?_
  simp only [take_succ_cons, tail_cons, stringLexeme, hsame]

/-! ## All tokens -/

theorem wordLexeme_slices (hc : isWordStart c) (rest : List Char) :
    Slices wordLexeme (c :: rest) := by
  have hpart : isWordPart c := by
    simp only [isWordStart, isWordPart, Bool.or_eq_true] at hc ⊢
    exact hc.imp_left .inl
  refine ⟨?_, (List.takeWhile_prefix _).length_le, ?_⟩
  · simp [wordLexeme, takeWhile_cons_of_pos hpart]
  · rw [show (c :: rest).take (wordLexeme (c :: rest)).length = (c :: rest).takeWhile
      isWordPart from (prefix_iff_eq_take.mp (List.takeWhile_prefix _)).symm]
    simp only [wordLexeme, takeWhile_idem]

theorem symbolLexeme_slices (c : Char) (rest : List Char) :
    ∃ k, (symbolLexeme c rest).length = k + 1 ∧ k ≤ rest.length ∧
      symbolLexeme c (rest.take k) = symbolLexeme c rest := by
  have hpair (second : Char) (pair : Punct) (other : TokenKind) :
      ∃ k, (pairLexeme second pair other rest).length = k + 1 ∧ k ≤ rest.length ∧
        pairLexeme second pair other (rest.take k) = pairLexeme second pair other rest := by
    cases rest with
    | nil => exact ⟨0, rfl, Nat.le_refl _, rfl⟩
    | cons d rest =>
      by_cases hd : d == second
      · exact ⟨1, by simp [pairLexeme, hd], by simp, by simp [pairLexeme]⟩
      · exact ⟨0, by simp [pairLexeme, hd], by simp, by simp [pairLexeme, hd]⟩
  unfold symbolLexeme
  split <;> first
    | exact hpair _ _ _
    | exact ⟨0, rfl, Nat.zero_le _, rfl⟩

/-- **A token is told from its own characters.** -/
theorem lexeme_slices (c : Char) (rest : List Char) : ∃ k, (lexeme c rest).length = k + 1 ∧
    k ≤ rest.length ∧ lexeme c (rest.take k) = lexeme c rest := by
  have hslices {f : List Char → Lexeme} (h : Slices f (c :: rest)) :
      ∃ k, (f (c :: rest)).length = k + 1 ∧ k ≤ rest.length ∧
        f (c :: rest.take k) = f (c :: rest) := by
    obtain ⟨k, hk⟩ := Nat.exists_eq_add_one_of_ne_zero h.pos.ne'
    refine ⟨k, hk, Nat.le_of_succ_le_succ (hk.symm.trans_le h.le), ?_⟩
    rw [← take_succ_cons, ← hk, h.same]
  unfold lexeme
  split_ifs with hword hdigit hquote
  · exact hslices (wordLexeme_slices hword rest)
  · exact hslices (numberLexeme_slices hdigit rest)
  · cases eq_of_beq hquote
    exact hslices (stringLexeme_slices rest)
  · exact symbolLexeme_slices c rest

end StackCompiler

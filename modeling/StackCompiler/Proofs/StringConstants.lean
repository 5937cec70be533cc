import Mathlib.Tactic.IntervalCases
import Mathlib.Tactic.SplitIfs
import StackCompiler.Instruction.Text
import StackCompiler.Token.Lexer

/-!
# String constants in assembly text

An assembler reads a string constant up to its closing quote, as code units of sixteen bits. Every
constant is written in printable ASCII and ends at its own quote; it is read back as it was if and
only if all its characters fit into one code unit.

* **`sconst_reads_back`**: the constant that is read.
-/

namespace StackCompiler

open Number Text List

variable {c : Char} {n : Nat}

def codeUnits (c : Char) : List Nat :=
  if c.toNat < 0x10000 then [c.toNat]
  else [0xd800 + (c.toNat - 0x10000) / 0x400, 0xdc00 + (c.toNat - 0x10000) % 0x400]

/-- A character that stays on its line and needs no encoding. -/
def isPrintable (c : Char) : Bool := 0x20 ≤ c.toNat && c.toNat < 0x7f

def shortEscape? : Char → Option Char
  | '"' => some '"'
  | '\\' => some '\\'
  | 'n' => some '\n'
  | 't' => some '\t'
  | 'r' => some '\r'
  | _ => none

/-- The code units of a quoted operand behind its opening quote, and what follows its closing one.
An escape by number has four digits. -/
def readOperand : List Char → Option (List Nat × List Char)
  | '"' :: rest => some ([], rest)
  | '\\' :: 'u' :: a :: b :: c :: d :: rest =>
    if [a, b, c, d].all isHexDigit then
      (readOperand rest).map (.map (ofDigits 16 [a, b, c, d] :: ·) id)
    else none
  | '\\' :: c :: rest =>
    (shortEscape? c).bind fun c => (readOperand rest).map (.map (c.toNat :: ·) id)
  | c :: rest => if isPrintable c then (readOperand rest).map (.map (c.toNat :: ·) id) else none
  | [] => none

/-- The constant that an instruction pushes, and what comes behind the instruction. -/
def readConstant : List Char → Option (List Nat × List Char)
  | 'l' :: 'd' :: 'c' :: ' ' :: '"' :: rest => readOperand rest
  | _ => none

/-! ## Single characters -/

theorem isPrintable_iff : isPrintable c ↔ 0x20 ≤ c.toNat ∧ c.toNat < 0x7f := by
  simp [isPrintable]

/-- What is read for a hexadecimal digit, as a digit and as a character. -/
theorem digitChar_hex (h : n < 16) :
    digitValue n.digitChar = n ∧ isHexDigit n.digitChar ∧ isPrintable n.digitChar ∧
      n.digitChar ≠ '"' ∧ n.digitChar ≠ '\\' := by
  interval_cases n <;> decide

theorem hex_eq (h : 16 ≤ n) : hex n = hex (n / 16) ++ [(n % 16).digitChar] :=
  Nat.toDigits_of_base_le (by decide) h

theorem hex_of_lt (h : n < 16) : hex n = [n.digitChar] := Nat.toDigits_of_lt_base h

theorem paddedHex_eq (h : n < 0x10000) : paddedHex n =
    [n / 4096, n / 256 % 16, n / 16 % 16, n % 16].map Nat.digitChar := by
  unfold paddedHex
  rcases Nat.lt_or_ge n 16 with h1 | h1
  · simp [hex_of_lt h1, Nat.mod_eq_of_lt h1, replicate_succ, show n / 4096 = 0 by omega,
      show n / 256 = 0 by omega, show n / 16 = 0 by omega]
  rw [hex_eq h1]
  rcases Nat.lt_or_ge (n / 16) 16 with h2 | h2
  · simp [hex_of_lt h2, Nat.mod_eq_of_lt h2, replicate_succ, show n / 4096 = 0 by omega,
      show n / 256 = 0 by omega]
  rw [hex_eq h2, Nat.div_div_eq_div_mul]
  rcases Nat.lt_or_ge (n / 256) 16 with h3 | h3
  · simp [hex_of_lt h3, Nat.mod_eq_of_lt h3, show n / 4096 = 0 by omega]
  · rw [hex_eq h3, Nat.div_div_eq_div_mul, hex_of_lt (by omega)]
    rfl

theorem hex_digits {d : Char} (h : d ∈ hex n) : ∃ k < 16, d = k.digitChar := by
  induction n using Nat.strongRecOn with
  | ind n ih =>
    rcases Nat.lt_or_ge n 16 with hn | hn
    · rw [hex_of_lt hn, mem_singleton] at h
      exact ⟨n, hn, h⟩
    · rw [hex_eq hn, mem_append, mem_singleton] at h
      exact h.elim (ih _ (by omega)) fun h => ⟨_, Nat.mod_lt _ (by decide), h⟩

/-- The characters are read as these code units, whatever follows. -/
def ReadsAs (cs : List Char) (units : List Nat) : Prop :=
  ∀ rest, readOperand (cs ++ rest) = (readOperand rest).map (.map (units ++ ·) id)

theorem ReadsAs.nil : ReadsAs [] [] := fun rest => by
  rw [nil_append]
  cases readOperand rest <;> rfl

theorem ReadsAs.append {cs cs' : List Char} {us us' : List Nat} (h : ReadsAs cs us)
    (h' : ReadsAs cs' us') : ReadsAs (cs ++ cs') (us ++ us') := fun rest => by
  rw [append_assoc, h, h', Option.map_map]
  exact congrArg (Option.map · _) (funext fun _ => by simp [Prod.map])

theorem ReadsAs.plain (hc : isPrintable c) (hquote : c ≠ '"') (hslash : c ≠ '\\') :
    ReadsAs [c] [c.toNat] := fun rest => by
  rw [singleton_append, readOperand.eq_4 _ _ hquote (fun _ _ _ _ _ h => absurd h hslash)
    (fun _ _ h => absurd h hslash), if_pos hc]
  rfl

theorem ReadsAs.digits {ds : List Char} (h : ∀ d ∈ ds, ∃ k < 16, d = k.digitChar) :
    ReadsAs ds (ds.map Char.toNat) := by
  induction ds with
  | nil => exact .nil
  | cons d ds ih =>
    obtain ⟨k, hk, rfl⟩ := h d mem_cons_self
    obtain ⟨-, -, hprint, hquote, hslash⟩ := digitChar_hex hk
    exact (ReadsAs.plain hprint hquote hslash).append (ih fun d hd => h d (mem_cons_of_mem _ hd))

theorem ReadsAs.number {a b c d : Nat} (ha : a < 16) (hb : b < 16) (hc : c < 16) (hd : d < 16) :
    ReadsAs (['\\', 'u'] ++ [a, b, c, d].map Nat.digitChar)
      [((a * 16 + b) * 16 + c) * 16 + d] := fun rest => by
  simp [readOperand, ofDigits, digitChar_hex, ha, hb, hc, hd]

theorem ReadsAs.short {d : Char} (h : shortEscape? d = some c) (hd : d ≠ 'u') :
    ReadsAs ['\\', d] [c.toNat] := fun rest => by
  simp [readOperand.eq_3 d rest (by simp [hd]), h]

/-- Code units of which the second one is a digit: no character is encoded so. -/
def ReadsWrong (units : List Nat) : Prop := ∃ a b more, units = a :: b :: more ∧ b < 0x80

/-- A character has a short escape, is written by number, or stands for itself. -/
theorem escapeConstantChar_cases (c : Char) :
    (∃ d, shortEscape? d = some c ∧ d ≠ 'u' ∧ isPrintable d ∧ c.toNat < 0x80 ∧
      escapeConstantChar c = ['\\', d]) ∨
    escapeConstantChar c = ['\\', 'u'] ++ paddedHex c.toNat ∨
    isPrintable c ∧ c ≠ '"' ∧ c ≠ '\\' ∧ escapeConstantChar c = [c] := by
  simp only [escapeConstantChar, beq_iff_eq]
  split_ifs with h1 h2 h3 h4 h5 h6
  · exact .inl ⟨'"', by subst h1; decide⟩
  · exact .inl ⟨'\\', by subst h2; decide⟩
  · exact .inl ⟨'n', by subst h3; decide⟩
  · exact .inl ⟨'t', by subst h4; decide⟩
  · exact .inl ⟨'r', by subst h5; decide⟩
  · exact .inr (.inl rfl)
  · refine .inr (.inr ⟨?_, h1, h2, rfl⟩)
    simp only [isControl, Bool.or_eq_true, Bool.and_eq_true, decide_eq_true_eq] at h6
    exact isPrintable_iff.mpr (by omega)

/-- A number beyond sixteen bits has more than four digits. -/
theorem paddedHex_long (h : 0x10000 ≤ n) : ∃ a b c d e more,
    paddedHex n = a :: b :: c :: d :: e :: more := by
  have hlength : ¬ (hex n).length ≤ 4 := by
    rw [hex, Nat.length_toDigits_le_iff (by decide) (by decide)]
    omega
  rw [paddedHex, Nat.sub_eq_zero_of_le (by omega)]
  obtain ⟨a, b, c, d, e, more, heq⟩ : ∃ a b c d e more, hex n = a :: b :: c :: d :: e :: more := by
    rcases heq : hex n with _ | ⟨a, _ | ⟨b, _ | ⟨c, _ | ⟨d, _ | ⟨e, more⟩⟩⟩⟩⟩ <;>
      simp [heq] at hlength ⊢
  exact ⟨a, b, c, d, e, more, heq⟩

/-- **One character** is written in printable ASCII, and read on its own. -/
theorem escapeConstantChar_reads (c : Char) : (∀ d ∈ escapeConstantChar c, isPrintable d) ∧
    ∃ units, ReadsAs (escapeConstantChar c) units ∧
      if c.toNat < 0x10000 then units = codeUnits c else ReadsWrong units := by
  have hunits (hc : c.toNat < 0x80) :
      if c.toNat < 0x10000 then [c.toNat] = codeUnits c else ReadsWrong [c.toNat] := by
    rw [if_pos (by omega), codeUnits, if_pos (by omega)]
  rcases escapeConstantChar_cases c with ⟨d, hd, hu, hprint, hc, heq⟩ | heq |
    ⟨hprint, hquote, hslash, heq⟩
  · rw [heq]
    exact ⟨by simpa using ⟨by decide, hprint⟩, _, .short hd hu, hunits hc⟩
  · have hdigits : ∀ d ∈ paddedHex c.toNat, ∃ k < 16, d = k.digitChar := by
      intro d hd
      rcases mem_append.mp hd with hd | hd
      · exact ⟨0, by decide, eq_of_mem_replicate hd⟩
      · exact hex_digits hd
    refine ⟨fun d hd => ?_, ?_⟩
    · rcases mem_append.mp (heq ▸ hd) with hd | hd
      · revert hd
        simp only [mem_cons, not_mem_nil, or_false]
        rintro (rfl | rfl) <;> decide
      · obtain ⟨k, hk, rfl⟩ := hdigits d hd
        exact (digitChar_hex hk).2.2.1
    · rw [heq, codeUnits]
      split_ifs with hc
      · rw [paddedHex_eq hc]
        refine ⟨_, .number (by omega) (by omega) (by omega) (by omega), ?_⟩
        simp only [List.cons.injEq, and_true]
        omega
      · obtain ⟨d1, d2, d3, d4, d5, more, hmore⟩ := paddedHex_long (Nat.not_lt.mp hc)
        simp only [hmore, forall_mem_cons] at hdigits
        obtain ⟨⟨k1, h1, rfl⟩, ⟨k2, h2, rfl⟩, ⟨k3, h3, rfl⟩, ⟨k4, h4, rfl⟩, h5, hrest⟩ := hdigits
        have hlow : d5.toNat < 0x80 := by
          obtain ⟨k, hk, rfl⟩ := h5
          exact Nat.lt_trans (isPrintable_iff.mp (digitChar_hex hk).2.2.1).2 (by decide)
        rw [hmore]
        have htail := ReadsAs.digits (forall_mem_cons.mpr ⟨h5, hrest⟩)
        exact ⟨_, (ReadsAs.number h1 h2 h3 h4).append htail, _, _, _, rfl, hlow⟩
  · rw [heq]
    exact ⟨by simpa using hprint, _, .plain hprint hquote hslash,
      hunits (Nat.lt_trans (isPrintable_iff.mp hprint).2 (by decide))⟩

/-! ## Whole constants -/

/-- Every character fits into one code unit. -/
abbrev FitsUnits (s : String) : Prop := ∀ c ∈ s.toList, c.toNat < 0x10000

theorem flatMap_reads (cs : List Char) : ∃ units, ReadsAs (cs.flatMap escapeConstantChar) units ∧
    (units = cs.flatMap codeUnits ↔ ∀ c ∈ cs, c.toNat < 0x10000) := by
  induction cs with
  | nil => exact ⟨[], .nil, by simp⟩
  | cons c cs ih =>
    obtain ⟨units, hreads, hiff⟩ := ih
    obtain ⟨-, first, hfirst, hc⟩ := escapeConstantChar_reads c
    refine ⟨first ++ units, hfirst.append hreads, ?_⟩
    rw [flatMap_cons, forall_mem_cons]
    split_ifs at hc with hlt
    · rw [hc, append_cancel_left_eq, hiff]
      exact (and_iff_right hlt).symm
    · obtain ⟨a, b, more, rfl, hb⟩ := hc
      refine iff_of_false (fun heq => ?_) fun h => hlt h.1
      simp only [codeUnits, if_neg hlt, cons_append, List.cons.injEq] at heq
      omega

/-- Constants of characters that fit into one code unit each are not written alike. -/
theorem escapeConstant_inj {s t : String} (hs : FitsUnits s) (ht : FitsUnits t)
    (h : escapeConstant s = escapeConstant t) : s = t := by
  obtain ⟨us, hus, hiff⟩ := flatMap_reads s.toList
  obtain ⟨us', hus', hiff'⟩ := flatMap_reads t.toList
  have hsame : us = us' := by
    have hread := hus ['"']
    rw [String.ofList_injective h, hus' ['"']] at hread
    simpa [readOperand] using hread.symm
  have hcodes (u : String) (hu : FitsUnits u) :
      u.toList.flatMap codeUnits = u.toList.map Char.toNat := by
    rw [map_eq_flatMap, flatMap_def, flatMap_def]
    exact congrArg _ (map_congr_left fun c hc => if_pos (hu c hc))
  rw [hiff.mpr hs, hiff'.mpr ht, hcodes s hs, hcodes t ht] at hsame
  exact String.toList_injective ((List.map_inj_right fun _ _ => Char.toNat_inj.mp).mp hsame)

/-- **String constants in assembly text.** A constant is written in printable ASCII, on one line
and up to its own closing quote. It is read back as its code units if and only if every character
of it fits into one, and no two such constants are written alike. -/
theorem sconst_reads_back (s : String) :
    (∀ c ∈ (Instruction.sconst s).text.toList, isPrintable c) ∧
    (∃ units,
      (∀ rest, readConstant ((Instruction.sconst s).text.toList ++ rest) = some (units, rest)) ∧
      (units = s.toList.flatMap codeUnits ↔ FitsUnits s)) ∧
    ∀ t, FitsUnits s → FitsUnits t → escapeConstant s = escapeConstant t → s = t := by
  have htext : (Instruction.sconst s).text.toList =
      "ldc \"".toList ++ (s.toList.flatMap escapeConstantChar ++ ['"']) := by
    simp [Instruction.text, escapeConstant]
  refine ⟨fun c hc => ?_, ?_, fun t hs ht => escapeConstant_inj hs ht⟩
  · rw [htext, List.mem_append, List.mem_append, List.mem_flatMap] at hc
    rcases hc with hc | ⟨d, -, hc⟩ | hc
    · exact List.all_eq_true.mp (rfl : "ldc \"".toList.all isPrintable = true) c hc
    · exact (escapeConstantChar_reads d).1 c hc
    · rw [List.mem_singleton.mp hc]
      decide
  · obtain ⟨units, hreads, hiff⟩ := flatMap_reads s.toList
    refine ⟨units, fun rest => ?_, hiff⟩
    rw [htext]
    show readOperand (s.toList.flatMap escapeConstantChar ++ ['"'] ++ rest) = _
    rw [List.append_assoc, hreads]
    simp [readOperand]

/-- A character that fits into one code unit, one that has a short escape and one that has not. -/
theorem zhe_reads_back : FitsUnits "\"ж" ∧ FitsUnits "\t" ∧
    (escapeConstant "\"ж" = escapeConstant "\t" → "\"ж" = "\t") := by
  have hfits {s : String} (h : s.toList.all (·.toNat < 0x10000) = true) : FitsUnits s :=
    fun c hc => of_decide_eq_true (List.all_eq_true.mp h c hc)
  have hzhe : FitsUnits "\"ж" := hfits rfl
  have htab : FitsUnits "\t" := hfits rfl
  exact ⟨hzhe, htab, (sconst_reads_back "\"ж").2.2 "\t" hzhe htab⟩

/-- A character beyond the first plane is written with five digits, of which an assembler reads
four: two constants are written alike. -/
theorem grinningFace_ambiguous : "😀" ≠ "ὠ0" ∧ escapeConstant "😀" = escapeConstant "ὠ0" := by
  decide

end StackCompiler

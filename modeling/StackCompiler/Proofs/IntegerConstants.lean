import Mathlib.Data.Nat.Digits.Defs
import Mathlib.Tactic.IntervalCases
import StackCompiler.Proofs.ImportClosure
import StackCompiler.Proofs.Lexing
import StackCompiler.Proofs.TypeSafety
import StackCompiler.Proofs.TypedParts

/-!
# Integer constants

An integer that is written down is read with its value, kept within the range of its type by the
analysis, and written as one constant of that value. A minus right before it belongs to it, so that
the least number can be written.

* **`integers_exact`**: integers keep their values from the text to the code.
-/

namespace StackCompiler

open Number Text List StackCompiler.Expr

/-! ## Integers in a text -/

/-- A numeral of a base and its digits, which underscores may set apart. -/
inductive Numeral : List Char → Nat → List Char → Prop
  | decimal {c : Char} {part : List Char} (hc : c.isDigit) (hpart : ∀ d ∈ part, isDigitPart d) :
      Numeral (c :: part) 10 ((c :: part).filter (· != '_'))
  | hexadecimal {mark : Char} {part : List Char} (hmark : mark = 'x' ∨ mark = 'X')
      (hpart : ∀ d ∈ part, isHexPart d) (hdigits : part.filter (· != '_') ≠ []) :
      Numeral ('0' :: mark :: part) 16 (part.filter (· != '_'))

theorem ofDigits_eq (base : Nat) (digits : List Char) :
    ofDigits base digits = Nat.ofDigits base (digits.map digitValue).reverse := by
  induction digits using List.reverseRecOn with
  | nil => rfl
  | append_singleton digits c ih =>
    rw [ofDigits, foldl_append, map_append, reverse_append]
    simp only [foldl_cons, foldl_nil, map_cons, map_nil, reverse_singleton,
      singleton_append, Nat.ofDigits_cons, ← ih]
    rw [Nat.add_comm, Nat.mul_comm]
    rfl

theorem takeWhile_all {p : Char → Bool} {part suffix : List Char} (hpart : ∀ d ∈ part, p d)
    (h : Stops p suffix) : (part ++ suffix).takeWhile p = part := by
  have := takeWhile_stops part h
  rwa [takeWhile_eq_self_iff.mpr hpart] at this

theorem Numeral.lexeme_eq {text digits suffix : List Char} {base : Nat}
    (h : Numeral text base digits) (hsuffix : suffix ∈ [[], ['L'], ['l']]) :
    numberLexeme (text ++ suffix) = literalLexeme (text ++ suffix) (text ++ suffix).length
      (integerKind? (!suffix.isEmpty) (ofDigits base digits)) := by
  have hgoes : GoesOn ['L', 'l'] suffix := by
    simp only [mem_cons, not_mem_nil, or_false] at hsuffix
    rcases hsuffix with rfl | rfl | rfl <;> simp [GoesOn]
  have hlong : startsWithEither 'L' 'l' suffix = !suffix.isEmpty ∧
      (!suffix.isEmpty).toNat = suffix.length ∧ startsWithEither 'f' 'F' suffix = false ∧
      fractionPart suffix = [] ∧ exponentPart suffix = [] := by
    simp only [mem_cons, not_mem_nil, or_false] at hsuffix
    rcases hsuffix with rfl | rfl | rfl <;> decide
  obtain ⟨hlong, hlength, hfloat, hfraction, hexponent⟩ := hlong
  cases h with
  | @decimal c part hc hpart =>
    have hall : ∀ d ∈ c :: part, isDigitPart d :=
      forall_mem_cons.mpr ⟨by simp [isDigitPart, hc], hpart⟩
    have hstops : Stops (fun c => c == 'x' || c == 'X') (part ++ suffix) := by
      cases part with
      | nil => exact hgoes.stops rfl
      | cons d part =>
        rintro _ ⟨⟩
        have hd := hpart d mem_cons_self
        by_contra hx
        simp only [Bool.not_eq_false, Bool.or_eq_true, beq_iff_eq] at hx
        rcases hx with rfl | rfl <;> cases hd
    have hdecimal : numberLexeme (c :: (part ++ suffix)) =
      decimalLexeme (c :: (part ++ suffix)) := by
      unfold numberLexeme
      split
      · rename_i mark tail heq
        exact if_neg (Bool.eq_false_iff.mp (hstops mark (by rw [(List.cons.inj heq).2]; rfl)))
      · rfl
    have heq := @decimalLexeme_eq suffix (c :: part) [] []
      (takeWhile_all hall (hgoes.stops rfl)) hfraction hexponent
    simp only [nil_append, append_nil] at heq
    rw [cons_append, hdecimal, ← cons_append, heq]
    cases hs : suffix.isEmpty <;> simp [decimalKind?, hlong, hfloat, hs, ← hlength]
  | hexadecimal hmark hpart hdigits =>
    rw [cons_append, cons_append, hexLexeme_eq hmark (takeWhile_all hpart (hgoes.stops rfl)), hlong]
    simp only [isEmpty_eq_false_iff.mpr hdigits, hlength, length_cons, length_append]
    rw [if_neg Bool.false_ne_true]
    congr 1
    omega

theorem isDigit_plain {c : Char} (hc : c.isDigit) :
    isWordStart c = false ∧ isBlank c = false ∧ c ≠ '/' := by
  have hrange : 48 ≤ c.toNat ∧ c.toNat ≤ 57 := by
    simpa [Char.isDigit, UInt32.le_iff_toNat_le] using hc
  rw [← Char.ofNat_toNat c]
  generalize c.toNat = n at hrange
  obtain ⟨hle, hle'⟩ := hrange
  interval_cases n <;> decide

/-- An integer is read with its value, unless it is too great. -/
theorem Numeral.readAlone {text digits suffix : List Char} {base : Nat}
    (h : Numeral text base digits) (hsuffix : suffix ∈ [[], ['L'], ['l']]) :
    ReadAlone (text ++ suffix) ((integerKind? (!suffix.isEmpty) (ofDigits base digits)).getD
      (.badLiteral (String.ofList (text ++ suffix)))) := by
  obtain ⟨c, rest, hc, heq⟩ : ∃ c rest, c.isDigit ∧ text ++ suffix = c :: rest := by
    cases h with
    | decimal hc => exact ⟨_, _, hc, rfl⟩
    | hexadecimal => exact ⟨_, _, by decide, rfl⟩
  have hlexeme := h.lexeme_eq hsuffix
  obtain ⟨hword, hblank, hslash⟩ := isDigit_plain hc
  rw [heq] at hlexeme ⊢
  refine readAlone_of_lexeme ?_ ?_
  · rw [skipped_char, if_neg (by simp [hblank])] <;>
    · rintro ⟨tail, htail⟩
      exact hslash (List.cons.inj htail).1.symm
  · rw [lexeme, if_neg (by simp [hword]), if_pos hc, hlexeme]
    simp [literalLexeme]

/-! ## Integers in a unit -/

mutual

/-- The literals in an expression, each with the minus right before it. -/
def Expr.numerals : Expr → List Expr
  | .literal note value => [.literal note value]
  | .unary note .neg (.literal inner value) => [.unary note .neg (.literal inner value)]
  | .unary _ _ operand | .field _ operand _ _ | .newArray _ _ operand | .cast _ operand _ =>
    operand.numerals
  | .name .. => []
  | .binary _ _ left right | .index _ left right => left.numerals ++ right.numerals
  | .call _ callee args _ => callee.numerals ++ numeralsAll args
  | .array _ elems => numeralsAll elems

def Expr.numeralsAll : List Expr → List Expr
  | [] => []
  | e :: rest => e.numerals ++ numeralsAll rest

end

def SourceUnit.numerals (unit : SourceUnit) : List Expr :=
  (Stmt.rootsAll (Place.top.scope (Stmt.ownAll (Item.stmts unit.items)))
    (Item.stmts unit.items)).flatMap (·.2.numerals)

/-- The code of the expression is one instruction, and what its note says about widening. -/
def Expr.Pushes (e : Expr) (i : Instruction) : Prop :=
  ∀ f : Frame, e.code f = .ofValue e.note (Emit.instruction i)

/-- An integer is in the range of its type, and its code is one constant of its value. -/
def Expr.Exact : Expr → Prop
  | .literal note (.int value) => 0 ≤ value ∧ value ≤ maxInt ∧
      ∃ c : Int32, c.toInt = value ∧ (Expr.literal note (.int value)).Pushes (.iconst c)
  | .literal note (.long value) => 0 ≤ value ∧ value < integerLimit ∧
      ∃ c : Int64, c.toInt = value ∧ (Expr.literal note (.long value)).Pushes (.lconst c)
  | .unary note .neg (.literal inner (.int value)) => 0 ≤ value ∧ value ≤ maxInt + 1 ∧
      ∃ c : Int32, c.toInt = -value ∧
        (Expr.unary note .neg (.literal inner (.int value))).Pushes (.iconst c)
  | .unary note .neg (.literal inner (.long value)) => 0 ≤ value ∧ value < integerLimit ∧
      ∃ c : Int64, c.toInt = -value ∧
        (Expr.unary note .neg (.literal inner (.long value))).Pushes (.lconst c)
  | _ => True

def Expr.IsNumeral (e : Expr) : Prop :=
  (∃ note value, e = .literal note value) ∨
    ∃ note inner value, e = .unary note .neg (.literal inner value)

theorem Expr.mem_numeralsAll {es : List Expr} {x : Expr} :
    x ∈ numeralsAll es ↔ ∃ e ∈ es, x ∈ e.numerals := by
  induction es with
  | nil => simp [numeralsAll]
  | cons e es ih => simp [numeralsAll, ih]

variable {e : Expr} {ty : Ty} {v : View}

theorem Expr.mem_numerals {x : Expr} (h : x ∈ e.numerals) : x = e ∧ e.IsNumeral ∨
    ¬e.IsNumeral ∧ ((∃ y ∈ e.parts, x ∈ y.numerals) ∨
      ∃ note callee args target, e = .call note callee args target ∧ x ∈ callee.numerals) := by
  have hpart {y : Expr} (hnot : ¬e.IsNumeral) (hy : y ∈ e.parts) (h : x ∈ y.numerals) :
      ¬e.IsNumeral ∧ ((∃ y ∈ e.parts, x ∈ y.numerals) ∨
        ∃ note callee args target, e = .call note callee args target ∧ x ∈ callee.numerals) :=
    ⟨hnot, .inl ⟨y, hy, h⟩⟩
  cases e with
  | literal note value => exact .inl ⟨mem_singleton.mp h, .inl ⟨note, value, rfl⟩⟩
  | name => cases h
  | unary note op operand =>
    by_cases hnum : (Expr.unary note op operand).IsNumeral
    · obtain ⟨_, _, ⟨⟩⟩ | ⟨_, inner, value, ⟨⟩⟩ := id hnum
      exact .inl ⟨mem_singleton.mp h, hnum⟩
    · rw [numerals] at h
      · exact .inr (hpart hnum (mem_singleton_self _) h)
      · rintro inner value rfl rfl
        exact hnum (.inr ⟨note, inner, value, rfl⟩)
  | call note callee args target =>
    refine .inr ⟨by simp [IsNumeral], ?_⟩
    rcases mem_append.mp h with h | h
    · exact .inr ⟨note, callee, args, target, rfl, h⟩
    · exact .inl (mem_numeralsAll.mp h)
  | array note elems => exact .inr ⟨by simp [IsNumeral], .inl (mem_numeralsAll.mp h)⟩
  | binary | index =>
    refine .inr ⟨by simp [IsNumeral], .inl ?_⟩
    simpa [numerals, parts] using h
  | field | newArray | cast =>
    exact .inr (hpart (by simp [IsNumeral]) (mem_singleton_self _) h)

theorem Expr.IsNumeral.exact (h : e.IsNumeral) (hty : e.HasTy v ty)
    (hregular : ∀ x ∈ e.subs, x.Regular) : e.Exact := by
  have hlimit : (integerLimit : Int) = 9223372036854775808 := rfl
  obtain ⟨note, value, rfl⟩ | ⟨note, inner, value, rfl⟩ := h
  · have hnatural : value.Natural := hregular _ mem_cons_self
    cases value with
    | int value =>
      obtain ⟨-, hle, hmax⟩ := hty
      refine ⟨hle, hmax, .ofInt value, ?_, fun f => ?_⟩
      · simp only [maxInt] at hmax
        rw [Int32.toInt_ofInt_of_le] <;> omega
      · simp only [code, literalInstruction, intConstant_eq_ok hle hmax]
        rfl
    | long value =>
      obtain ⟨hle, hlt⟩ := hnatural
      refine ⟨hle, hlt, .ofInt value, ?_, fun f => rfl⟩
      rw [hlimit] at hlt
      rw [Int64.toInt_ofInt_of_le] <;> omega
    | _ => trivial
  · have hnone : inner.coercion = none := hregular _ mem_cons_self
    have hnatural : value.Natural := hregular _ (mem_cons_of_mem _ mem_cons_self)
    cases value with
    | int value =>
      have hmax : value ≤ maxInt + 1 := by
        obtain ⟨-, ⟨source, -, -, -, hmax⟩ | ⟨-, _, heq, -⟩⟩ := hty
        · omega
        · cases heq
          exact Int.le_refl _
      obtain ⟨hle, -⟩ := hnatural
      refine ⟨hle, hmax, .ofInt (-value), ?_, fun f => ?_⟩
      all_goals simp only [maxInt] at hmax
      · rw [Int32.toInt_ofInt_of_le] <;> omega
      · simp only [code, foldedNegation?, hnone, Option.isNone_none, if_true,
          negatedInstruction?, intConstant]
        rw [if_pos (by omega)]
        rfl
    | long value =>
      obtain ⟨hle, hlt⟩ := hnatural
      refine ⟨hle, hlt, .ofInt (-value), ?_, fun f => ?_⟩
      · rw [hlimit] at hlt
        rw [Int64.toInt_ofInt_of_le] <;> omega
      · simp only [code, foldedNegation?, hnone, Option.isNone_none, if_true, negatedInstruction?]
        rfl
    | _ => trivial

/-- The integers in a typed expression are exact. -/
theorem Expr.HasTy.exact (h : e.HasTy v ty) (hregular : ∀ x ∈ e.subs, x.Regular) :
    ∀ x ∈ e.numerals, x.Exact := by
  intro x hx
  induction e using induction_parts generalizing ty with
  | step e ih =>
    obtain ⟨rfl, hnum⟩ | ⟨hnot, ⟨y, hy, hxy⟩ | ⟨note, callee, args, target, rfl, hcallee⟩⟩ :=
      mem_numerals hx
    · exact hnum.exact h hregular
    · obtain ⟨ty, hty⟩ | ⟨note, rfl, inner, rfl, -⟩ := h.parts y hy
      · exact ih y hy hty (fun z hz => hregular z (mem_subs_of_parts hy hz)) hxy
      · exact absurd (.inr ⟨note, inner, _, rfl⟩) hnot
    · obtain ⟨note, ref, rfl⟩ : ∃ note ref, callee = .name note ref := hregular _ mem_cons_self
      cases hcallee

theorem Analysis.Sound.exact {unit : SourceUnit} {a : Analysis} (h : a.Sound unit.items) :
    ∀ e ∈ unit.numerals, e.Exact := by
  intro e he
  obtain ⟨x, hx, he⟩ := List.mem_flatMap.mp he
  have hregular : ∀ y ∈ x.2.subs, y.Regular := by
    intro y hy
    refine (h.annotated.1 y ?_).regular
    rw [Stmt.exprsAll_eq_roots fun stmt _ => stmt.exprs_eq_roots]
    exact List.mem_flatMap.mpr ⟨x, hx, hy⟩
  obtain ⟨ty, hty⟩ | ⟨note, ref, hname⟩ := h.checked.roots x hx
  · exact hty.exact hregular e he
  · rw [hname] at he
    cases he

/-! ## Units that import -/

def Ty.isStorable : Ty → Bool
  | .array elem => elem.isStorable
  | .void | .function .. | .error => false
  | _ => true

/-- Parameters and fields can be stored, and a result can if there is one. -/
def Signature.isStorable : Signature → Bool
  | .function _ params result => params.all Ty.isStorable && (result == .void || result.isStorable)
  | .record fields => fields.all (·.2.isStorable)

theorem Ty.Known.value (h : ty.Known fun d => (v.record d).isSome) (hty : ty.isStorable = true) :
    v.Value ty := by
  fun_induction Ty.isStorable ty with
  | case1 elem ih => exact ih h hty
  | case2 | case3 | case4 => cases hty
  | case5 ty => cases ty <;> simp_all [Ty.Known, View.Value]

theorem Export.fits_of_known {e : Export} (hstorable : e.signature.isStorable = true)
    (hknown : ∀ ty ∈ e.signature.types, ty.Known fun d => (v.record d).isSome) : e.Fits v := by
  unfold Export.Fits
  cases hsignature : e.signature with
  | function method params result =>
    simp only [hsignature, Signature.isStorable, Signature.types] at hstorable hknown
    simp only [Bool.and_eq_true, all_eq_true, Bool.or_eq_true, beq_iff_eq] at hstorable
    exact ⟨fun ty hty => (hknown ty (mem_append_left _ hty)).value (hstorable.1 ty hty),
      hstorable.2.imp_right (hknown result (mem_append_right _ mem_cons_self)).value⟩
  | record fields =>
    simp only [hsignature, Signature.isStorable, Signature.types, all_eq_true] at hstorable hknown
    exact fun field hfield =>
      (hknown _ (mem_map_of_mem hfield)).value (hstorable field hfield)

/-- **Integers keep their values from the text to the code.** A numeral is read as a literal of its
value if that is below `2 ^ 63`, and as a bad literal otherwise. In a unit with nothing wrong in it
integers are in the range of their types, where the least one is written with a minus right before
it, and the code of each, or of its negation, is one constant of exactly that value. This is so of
every unit that imports nothing, and of every unit among others if each record that an export
mentions is exported and what exports store are values. -/
theorem integers_exact (text digits suffix : List Char) (base : Nat) (name source : String)
    (unit : SourceUnit) (a : Analysis) :
    (Numeral text base digits → suffix ∈ [[], ['L'], ['l']] →
      let value := Nat.ofDigits base (digits.map digitValue).reverse
      ReadAlone (text ++ suffix) (if value < 2 ^ 63 then
        if suffix = [] then .intLit value else .longLit value
        else .badLiteral (String.ofList (text ++ suffix)))) ∧
    (Accepted name source unit a → ∀ e ∈ unit.numerals, e.Exact) ∧
    ∀ (units : List SourceUnit) (number : Nat) (read : SourceUnit),
      SourceUnit.parse name source = .ok read → units[number]? = some read →
      (ExportTable.publish units).Closed →
      (∀ e ∈ (ExportTable.publish units).exports, e.signature.isStorable = true) →
      read.analyze number (.publish units) = (unit, a) → a.isOk = true →
      ∀ e ∈ unit.numerals, e.Exact := by
  refine ⟨fun h hsuffix => ?_, fun h => h.sound.exact, ?_⟩
  · have hread := h.readAlone hsuffix
    rw [ofDigits_eq] at hread
    convert hread using 1
    simp only [integerKind?, show integerLimit = 2 ^ 63 from rfl]
    split_ifs <;> simp_all
  · intro units number read hread hunit hclosed hstorable hanalyze hok
    obtain ⟨hplain, hnatural⟩ := SourceUnit.parse_plain hread
    have hfits (e : Export) (he : e ∈ (ExportTable.publish units).exports) : e.Fits (a.view .top) :=
      Export.fits_of_known (hstorable e he) fun _ hty =>
        known_of_export hunit hanalyze hclosed he hty
    exact (SourceUnit.analyze_sound hanalyze hok hplain hnatural hfits).exact

/-- A unit with the least number and a number in base sixteen. -/
def rangeSource : String := "print(-2147483648); print(0x7F_FFL);"

/-- A unit with the least number in the call of an imported function. -/
def importSource : String := "print(make(-2147483648).x);"

theorem range_exact : ReadAlone "0x7F_FFL".toList (.longLit 32767) ∧
    (∃ unit a, Accepted "range" rangeSource unit a ∧ unit.numerals.length = 2 ∧
      ∀ e ∈ unit.numerals, e.Exact) ∧
    ∃ read, SourceUnit.parse "c" importSource = .ok read ∧
      let exports := ExportTable.publish (makerUnits ++ [read])
      let analyzed := read.analyze 2 exports
      exports.Closed ∧ analyzed.2.isOk = true ∧ analyzed.1.numerals.length = 1 ∧
        ∀ e ∈ analyzed.1.numerals, e.Exact := by
  obtain ⟨unit, a, h, hlength⟩ := exists_accepted (show isAccepted "range" rangeSource
    (fun unit _ => unit.numerals.length == 2) = true by decide +kernel)
  obtain ⟨hread, hexact, -⟩ :=
    integers_exact "0x7F_FF".toList "7FFF".toList ['L'] 16 "range" rangeSource unit a
  have hnumeral : Numeral "0x7F_FF".toList 16 "7FFF".toList :=
    .hexadecimal (.inl rfl) (List.all_eq_true.mp rfl) (by decide)
  refine ⟨hread hnumeral (by decide), ⟨unit, a, h, eq_of_beq hlength, hexact h⟩, ?_⟩
  have himports : (SourceUnit.parse "c" importSource).toOption.any (fun read =>
      let exports := ExportTable.publish (makerUnits ++ [read])
      decide (exports.exports = makerExports) && (read.analyze 2 exports).2.isOk &&
        (read.analyze 2 exports).1.numerals.length == 1) = true := by
    decide +kernel
  cases hparse : SourceUnit.parse "c" importSource with
  | error e =>
    rw [hparse] at himports
    cases himports
  | ok read =>
    rw [hparse] at himports
    simp only [Except.toOption, Option.any_some, Bool.and_eq_true, decide_eq_true_eq,
      beq_iff_eq] at himports
    obtain ⟨⟨hexports, hok⟩, hlength⟩ := himports
    have hclosed := makerExports_closed hexports
    refine ⟨read, rfl, hclosed, hok, hlength, ?_⟩
    exact (integers_exact [] [] [] 10 "c" importSource _ _).2.2 _ 2 read hparse rfl hclosed
      (hexports ▸ by decide) Prod.mk.eta.symm hok

/-- A unit that calls a field of a record that it does not know, with a number out of range. -/
def silentUnit : SourceUnit :=
  let note := Note.fresh .nowhere
  let make := Expr.call note (.name note ⟨"make", none⟩) [.literal note (.int 1)] none
  ⟨"c", [.stmt (.expr (.call note (.field note make ⟨"y", .nowhere⟩ none)
    [.literal note (.int (maxInt + 1))] none))], .nowhere⟩

/-- The record that the function makes is not exported, so that nothing is found wrong with the
call, and the number is not looked at. -/
theorem silentUnit_out_of_range :
    let analyzed := silentUnit.analyze 2 (.publish (twiceDeclared.take 2 ++ [silentUnit]))
    analyzed.2.isOk = true ∧ ∃ e ∈ analyzed.1.numerals, ¬e.Exact := by
  intro analyzed
  have hsilent : analyzed.2.isOk = true ∧ ∃ e ∈ analyzed.1.numerals, isLeastInt .neg e = true := by
    decide +kernel
  obtain ⟨hok, e, he, hleast⟩ := hsilent
  refine ⟨hok, e, he, fun hexact => ?_⟩
  obtain ⟨-, note, rfl⟩ := isLeastInt_eq hleast
  exact absurd hexact.2.1 (by decide)

end StackCompiler

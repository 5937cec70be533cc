import StackCompiler.Proofs.Limits
import StackCompiler.Proofs.TypeSafety

/-!
# Units with nothing wrong in them are compiled

Once the analysis of a unit has found nothing wrong, making code of it can fail only because
something is too large: an array that is written down with too many elements, or a method that
really has too deep a stack, too large a frame or too much code.

* **`generate_complete`**: nothing but size is in the way of making code.
-/

namespace StackCompiler

/-- On some path the operand stack is too large, or the frame or the code is. -/
def MethodBody.Oversized (m : MethodBody) : Prop :=
  (∃ pos stack, Reaches m.code pos stack ∧ maxWords < totalWords stack) ∨
    maxWords < m.limits.maxLocals ∨ maxWords < m.code.size

/-- A method that is safe on every path is within the limits, or too large. -/
theorem MethodBody.StackSafe.fits_or_oversized {m : MethodBody} {ret : Option Kind}
    (h : m.StackSafe ret) : m.Fits maxWords ∨ m.Oversized := by
  by_cases hstack : m.limits.maxStack ≤ maxWords
  · by_cases hlocals : m.limits.maxLocals ≤ maxWords
    · by_cases hcode : m.code.size ≤ maxWords
      · exact .inl ⟨hstack, hlocals, hcode⟩
      · exact .inr (.inr (.inr (Nat.lt_of_not_le hcode)))
    · exact .inr (.inr (.inl (Nat.lt_of_not_le hlocals)))
  · obtain ⟨pos, stack, hreaches, hwords⟩ := h.attained
    exact .inr (.inl ⟨pos, stack, hreaches, hwords ▸ Nat.lt_of_not_le hstack⟩)

/-- **Code is made of every unit with nothing wrong in it**, unless it has an array that is written
down with more elements than can be counted, or one of its methods, made without limits, is too
large. Whatever error there is says so. -/
theorem generate_complete {name source : String} {unit : SourceUnit} {a : Analysis}
    (h : Accepted name source unit a) :
    ((generate unit a).error = none ∨
      (∃ note elems, .array note elems ∈ unit.exprs ∧ maxInt < (elems.length : Int)) ∨
      (generateUpTo none unit a).error = none ∧
        ∃ m ∈ (generateUpTo none unit a).methods, m.body.Oversized) ∧
    ∀ e, (generate unit a).error = some e → unit.TooLarge (some maxWords) e := by
  refine ⟨?_, fun e he => generateUpTo_error h.sound h.ok rfl he⟩
  cases herror : (generateUpTo none unit a).error with
  | none =>
    obtain ⟨hmethods, -⟩ := @generateUpTo_sent unit a none h.sound h.ok rfl
    by_cases hfits : ∀ m ∈ (generateUpTo none unit a).methods, m.body.Fits maxWords
    · exact .inl (generateUpTo_capped herror hfits)
    · obtain ⟨m, hm, hnot⟩ : ∃ m ∈ (generateUpTo none unit a).methods, ¬ m.body.Fits maxWords := by
        simpa using hfits
      obtain ⟨_, _, -, -, -, ret, hsafe⟩ := hmethods m hm
      exact .inr (.inr ⟨rfl, m, hm, hsafe.fits_or_oversized.resolve_left hnot⟩)
  | some e =>
    rcases generateUpTo_error h.sound h.ok rfl herror with hlarge | ⟨note, elems, hmem, hlong, -⟩
    · cases hlarge.1
    · exact .inr (.inl ⟨note, elems, hmem, hlong⟩)

/-- A unit with a recursive function and a loop that is left early. -/
def powerSource : String :=
  "function f(n: int) -> int \x7b
while (true) \x7bif (n < 2) break; return n * f(n - 1);\x7d
return 1;
\x7d
print(f(5));"

/-- Code is made of that unit, or something in it is too large. -/
theorem power_complete : ∃ unit a, Accepted "power" powerSource unit a ∧
    ((generate unit a).error = none ∨
      (∃ note elems, .array note elems ∈ unit.exprs ∧ maxInt < (elems.length : Int)) ∨
      (generateUpTo none unit a).error = none ∧
        ∃ m ∈ (generateUpTo none unit a).methods, m.body.Oversized) ∧
    ∀ e, (generate unit a).error = some e → unit.TooLarge (some maxWords) e := by
  obtain ⟨unit, a, h, -⟩ := exists_accepted (show isAccepted "power" powerSource
    (fun unit a => (generate unit a).methods.length == 2) = true by decide +kernel)
  exact ⟨unit, a, h, generate_complete h⟩

end StackCompiler

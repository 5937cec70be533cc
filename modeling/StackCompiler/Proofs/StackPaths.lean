import Mathlib.Logic.Relation
import StackCompiler.StackCheck

/-!
# Paths through code

Control-flow paths of finished code carry the kinds on the operand stack.

* `Settled`, **`Settled.consistent`**: stacks for the instructions that agree with each other are
  those of all paths.
-/

namespace StackCompiler

/-! ## Steps -/

/-- Control can go from an instruction at a position to another position. -/
def Instruction.GoesTo (i : Instruction) (pos next : Nat) : Prop :=
  i.target? = some (.index next) ∨ (i.isTerminal = false ∧ next = pos + 1)

/-- One step along a path: the operands come off the stack, the results go on it. -/
inductive StackStep (code : Array Instruction) : Nat × KindStack → Nat × KindStack → Prop
  | step {pos next : Nat} {i : Instruction} {rest : KindStack} (at_pos : code[pos]? = some i)
      (goes : i.GoesTo pos next) :
      StackStep code (pos, i.effect.pops.reverse ++ rest) (next, i.effect.pushes.reverse ++ rest)

/-- A path from the first instruction with an empty stack gets to a position with a stack. -/
def Reaches (code : Array Instruction) (pos : Nat) (stack : KindStack) : Prop :=
  Relation.ReflTransGen (StackStep code) (0, []) (pos, stack)

theorem Reaches.start (code : Array Instruction) : Reaches code 0 [] := .refl

theorem Reaches.step {code : Array Instruction} {pos next : Nat} {i : Instruction}
    {rest : KindStack} (h : Reaches code pos (i.effect.pops.reverse ++ rest))
    (hi : code[pos]? = some i) (hn : i.GoesTo pos next) :
    Reaches code next (i.effect.pushes.reverse ++ rest) :=
  Relation.ReflTransGen.tail h (.step hi hn)

/-- The stack right after the instruction at a position, on some path. -/
def StackLeft (code : Array Instruction) (pos : Nat) (stack : KindStack) : Prop :=
  ∃ i rest, code[pos]? = some i ∧ Reaches code pos (i.effect.pops.reverse ++ rest) ∧
    stack = i.effect.pushes.reverse ++ rest

/-- An instruction finds its operands on the stack, and control stays inside the code. -/
structure Fits (code : Array Instruction) (pos : Nat) (i : Instruction) (stack : KindStack) :
    Prop where
  operands : ∃ rest, stack = i.effect.pops.reverse ++ rest
  jumps : ∀ target, i.target? = some target → ∃ next, target = .index next ∧ next < code.size
  goesOn : i.isTerminal = false → pos + 1 < code.size

/-! ## All paths -/

/-- Every instruction finds its operands, control stays inside, and all paths to an instruction
bring one stack. -/
structure Consistent (code : Array Instruction) : Prop where
  fits : ∀ pos stack, Reaches code pos stack → ∃ i, code[pos]? = some i ∧ Fits code pos i stack
  unique : ∀ pos stack stack', Reaches code pos stack → Reaches code pos stack' → stack = stack'

/-- One stack for each instruction that control gets to, as the instructions leave it. -/
structure Settled (code : Array Instruction) (known : Nat → Option KindStack) : Prop where
  start : known 0 = some []
  fits : ∀ pos stack, known pos = some stack → ∃ i, code[pos]? = some i ∧ Fits code pos i stack
  step : ∀ pos i rest next, code[pos]? = some i →
    known pos = some (i.effect.pops.reverse ++ rest) → i.GoesTo pos next →
      known next = some (i.effect.pushes.reverse ++ rest)

namespace Settled

variable {code : Array Instruction} {known : Nat → Option KindStack} {pos : Nat}
  {stack : KindStack}

/-- **Every path gets to an instruction with its one stack.** -/
theorem eq_of_reaches (hk : Settled code known) (h : Reaches code pos stack) :
    known pos = some stack := by
  suffices ∀ p : Nat × KindStack, Relation.ReflTransGen (StackStep code) (0, []) p →
      known p.1 = some p.2 from this (pos, stack) h
  intro p hp
  induction hp with
  | refl => exact hk.start
  | tail _ hstep ih =>
    cases hstep with
    | step hi hn => exact hk.step _ _ _ _ hi ih hn

theorem consistent (hk : Settled code known) : Consistent code where
  fits pos stack h := hk.fits pos stack (hk.eq_of_reaches h)
  unique _ _ _ h h' := Option.some.inj ((hk.eq_of_reaches h).symm.trans (hk.eq_of_reaches h'))

end Settled

/-! ## Limits -/

/-- The local slots that an instruction touches are below a bound. -/
def Instruction.slotsBelow (bound : Nat) : Instruction → Prop
  | .load kind slot | .store kind slot => slot + kind.words ≤ bound
  | .iinc slot _ => slot < bound
  | _ => True

end StackCompiler

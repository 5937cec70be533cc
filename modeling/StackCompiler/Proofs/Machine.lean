import Mathlib.Logic.Relation
import StackCompiler.Proofs.TypedBuffer

/-!
# Machines that run code

A machine compares and jumps as instructions say, and all else that instructions do is left open.
Code that is written to a buffer is run once the method is complete, whatever has been written
after it.

* `Value`, `Machine`, `Machine.State`: operand stacks, and machines with their states;
* `Machine.after`, `Machine.Reaches`: what one instruction does, and a run of finished code.
-/

namespace StackCompiler

open Number

variable {b b' : CodeBuffer} {i : Instruction} {label : LabelId}

/-- A value on the operand stack; truth values are numbers. -/
inductive Value where
  | int (value : Int32)
  | long (value : Int64)
  | float (value : Single)
  | double (value : Double)
  | reference (address : Nat)
deriving DecidableEq

def Value.ofBool (t : Bool) : Value := .int (if t then 1 else 0)

/-- The condition holds of values that compare so. Unordered values differ, and nothing else holds
of them. -/
def Cond.holds (cond : Cond) (order : Option Ordering) : Bool :=
  match cond with
  | eq => order == some .eq
  | ne => order != some .eq
  | lt => order == some .lt
  | le => order == some .lt || order == some .eq
  | gt => order == some .gt
  | ge => order == some .gt || order == some .eq

/-- The number that a comparison leaves. -/
def CompareOp.result (op : CompareOp) : Option Ordering → Int32
  | some .lt => -1
  | some .eq => 0
  | some .gt => 1
  | none => if op = fcmpg ∨ op = dcmpg then 1 else -1

/-- What is left open about a machine. -/
structure Machine where
  /-- All that code can read and change apart from the operand stack. -/
  World : Type
  /-- How two numbers of single precision compare, if they are ordered. -/
  orderSingle : Single → Single → Option Ordering
  /-- How two numbers of double precision compare, if they are ordered. -/
  orderDouble : Double → Double → Option Ordering
  /-- Two strings, either of which may be null, have the same text. -/
  sameText : World → Value → Value → Bool
  /-- What an instruction that neither compares nor jumps does, unless it fails. -/
  perform : Instruction → World → List Value → Option (World × List Value)

namespace Machine

variable (m : Machine)

structure State where
  position : Nat
  world : m.World
  stack : List Value

/-- How two values compare, if they are of the kind that is compared. -/
def order (op : CompareOp) (left right : Value) : Option (Option Ordering) :=
  match op.operand, left, right with
  | .long, .long x, .long y => some (some (compare x.toInt y.toInt))
  | .float, .float x, .float y => some (m.orderSingle x y)
  | .double, .double x, .double y => some (m.orderDouble x y)
  | _, _, _ => none

variable {m}

def State.next (s : m.State) (stack : List Value) : m.State := ⟨s.position + 1, s.world, stack⟩

/-- Goes to the target of a jump, or on behind it. -/
def State.jump (s : m.State) (taken : Bool) (stack : List Value) : Target → Option m.State
  | .index p => some (if taken then ⟨p, s.world, stack⟩ else s.next stack)
  | .label _ => none

variable (m)

/-- What an instruction does, unless it fails or ends the method. -/
def after (s : m.State) (i : Instruction) : Option m.State :=
  match i, s.stack with
  | .iconst value, rest => some (s.next (.int value :: rest))
  | .compare op, right :: left :: rest =>
    (m.order op left right).map fun o => s.next (.int (op.result o) :: rest)
  | .goto target, rest => s.jump true rest target
  | .branchZero cond target, .int x :: rest =>
    s.jump (cond.holds (some (compare x.toInt 0))) rest target
  | .branchInt cond target, .int y :: .int x :: rest =>
    s.jump (cond.holds (some (compare x.toInt y.toInt))) rest target
  | .branchRef .eq target, .reference y :: .reference x :: rest => s.jump (x == y) rest target
  | .branchRef .ne target, .reference y :: .reference x :: rest => s.jump (x != y) rest target
  | .compare _, _ | .branchZero .., _ | .branchInt .., _ | .branchRef .., _ | .ret _, _ => none
  | i, stack =>
    if i = .invokeStatic equalsMethod then
      match stack with
      | right :: left :: rest => some (s.next (.ofBool (m.sameText s.world left right) :: rest))
      | _ => none
    else (m.perform i s.world stack).map fun (world, stack) => ⟨s.position + 1, world, stack⟩

def Step (code : Array Instruction) (s s' : m.State) : Prop :=
  ∃ i, code[s.position]? = some i ∧ m.after s i = some s'

abbrev Reaches (code : Array Instruction) : m.State → m.State → Prop :=
  Relation.ReflTransGen (m.Step code)

end Machine

/-! ## Pieces of code -/

namespace CodeBuffer

/-- Control can leave what has been written at its end, or by a jump to a label. -/
def Leaves (b : CodeBuffer) : Option LabelId → Prop
  | none => b.reachable = true
  | some label => b.Noted label

/-- Where control gets to from the end of code, or by a jump to a label that the complete buffer has
placed. -/
def exitAt (b complete : CodeBuffer) : Option LabelId → Option Nat
  | none => some b.code.size
  | some label => complete.labelAt label

theorem Step.noted (h : Step b b') (hl : b.Noted label) : b'.Noted label := by
  obtain ⟨state, hstate, hdepth⟩ := hl
  have hset {other : LabelId} {new old : LabelState} (hold : b.labels[other]? = some old)
      (hnew : old.depth.isSome → new.depth.isSome) :
      ∃ state, (b.labels.setIfInBounds other new)[label]? = some state ∧ state.depth.isSome := by
    by_cases he : other = label
    · subst he
      cases hold.symm.trans hstate
      exact ⟨new, by rw [Array.getElem?_setIfInBounds, if_pos rfl,
        if_pos (Array.getElem?_eq_some_iff.mp hstate).1], hnew hdepth⟩
    · exact ⟨state, by rw [Array.getElem?_setIfInBounds, if_neg he, hstate], hdepth⟩
  cases h with
  | newLabel => exact ⟨state, getElem?_push_of_some _ hstate, hdepth⟩
  | bind other h =>
    cases bind_eq_ok.mp h with
    | onPath hold => exact hset hold fun _ => rfl
    | byJumps hold => exact hset hold fun _ => rfl
    | outOfReach hold _ _ hnone =>
      exact hset hold fun hsome => by rw [hnone] at hsome; cases hsome
  | emit x i h =>
    cases emit_eq_ok.mp h with
    | dropped => exact ⟨state, hstate, hdepth⟩
    | appended _ _ hn =>
      obtain ⟨new, hnew, -, hd⟩ := hn.of_some (b := b.taken i) hstate
      exact ⟨new, hnew, hd hdepth⟩

theorem Leads.noted (h : b.Leads b') (hl : b.Noted label) : b'.Noted label := by
  induction h with
  | refl => exact hl
  | tail _ hstep ih => exact hstep.noted ih

theorem Emits.at_size {x : Option Subject} (h : Emits x i b b') (hr : b.reachable = true) :
    b'.code = b.code.push i ∧ b'.reachable = !i.isTerminal ∧
      ∀ label, i.target? = some (.label label) → b'.Noted label := by
  cases h with
  | dropped hr' => rw [hr] at hr'; cases hr'
  | appended _ _ hn =>
    refine ⟨rfl, rfl, fun label ht => ?_⟩
    cases hn with
    | other hno => exact absurd ht (hno label)
    | @jump target state ht' hstate =>
      cases ht.symm.trans ht'
      have hlt := (Array.getElem?_eq_some_iff.mp hstate).1
      exact ⟨_, by rw [Array.getElem?_setIfInBounds, if_pos rfl, if_pos hlt], rfl⟩

/-- Placing a label keeps the code; control gets to the label if it did before or jumps there. -/
theorem Binds.at_size (h : Binds label b b') :
    b'.code = b.code ∧ b'.labelAt label = some b.code.size ∧
      (b.reachable = true ∨ b.Noted label → b'.reachable = true) := by
  have hat {state : LabelState} (hstate : b.labels[label]? = some state) (depth : Option Nat) :
      ((b.labels.setIfInBounds label ⟨some b.code.size, depth⟩)[label]?).bind LabelState.position =
        some b.code.size := by
    rw [Array.getElem?_setIfInBounds, if_pos rfl, if_pos (Array.getElem?_eq_some_iff.mp hstate).1]
    rfl
  cases h with
  | onPath hold _ hr => exact ⟨rfl, hat hold _, fun _ => hr⟩
  | byJumps hold => exact ⟨rfl, hat hold _, fun _ => rfl⟩
  | outOfReach hold _ hr hnone =>
    refine ⟨rfl, hat hold _, ?_⟩
    rintro (hr' | ⟨state, hstate, hdepth⟩)
    · rw [hr] at hr'
      cases hr'
    · cases hold.symm.trans hstate
      rw [hnone] at hdepth
      cases hdepth

end CodeBuffer

namespace Machine

variable {m : Machine} {a : Analysis} {w w1 w2 : m.World} {σ σ1 σ2 : List Value}
  {exit : Option LabelId} {label : LabelId} {write k k' : Emit Unit} {J : List LabelId}

/-- Where control gets to it, the code leads from a world and a stack to others, and control leaves
it as given, whatever is written after it. -/
def Runs (m : Machine) (write : Emit Unit) (exit : Option LabelId) (w : m.World) (σ : List Value)
    (w' : m.World) (σ' : List Value) : Prop :=
  ∀ ⦃b b' : CodeBuffer⦄, b.reachable = true → write b = .ok ((), b') → b'.Leaves exit ∧
    ∀ ⦃complete : CodeBuffer⦄ ⦃code : Array Instruction⦄, b'.Keeps complete →
      complete.Finishes code → ∃ p, b'.exitAt complete exit = some p ∧
        m.Reaches code ⟨b.code.size, w, σ⟩ ⟨p, w', σ'⟩

namespace Runs

theorem done : m.Runs (pure ()) none w σ w σ := by
  intro b b' hr hrun
  cases Emit.pure_eq_ok.mp hrun
  exact ⟨hr, fun _ _ _ _ => ⟨_, rfl, .refl⟩⟩

theorem andThen (h : m.Runs write none w σ w1 σ1) (hk : Emit.Built a (fun _ => True) J k k')
    (h' : m.Runs k exit w1 σ1 w2 σ2) : m.Runs (do write; k) exit w σ w2 σ2 := by
  intro b b2 hr hrun
  obtain ⟨_, b1, h1, h2⟩ := Emit.bind_eq_ok.mp hrun
  obtain ⟨hr1, hwrite⟩ := h hr h1
  obtain ⟨hleaves, hnext⟩ := h' hr1 h2
  refine ⟨hleaves, fun complete code hkeeps hfinishes => ?_⟩
  obtain ⟨_, hp, hreach⟩ := hwrite ((hk.leads h2).keeps.trans hkeeps) hfinishes
  cases hp
  obtain ⟨p, hp, hreach'⟩ := hnext hkeeps hfinishes
  exact ⟨p, hp, hreach.trans hreach'⟩

/-- Control that leaves by a jump does not get to the next piece of code. -/
theorem skip (h : m.Runs write (some label) w σ w1 σ1) (hk : Emit.Built a (fun _ => True) J k k') :
    m.Runs (do write; k) (some label) w σ w1 σ1 := by
  intro b b2 hr hrun
  obtain ⟨_, b1, h1, h2⟩ := Emit.bind_eq_ok.mp hrun
  obtain ⟨hnoted, hwrite⟩ := h hr h1
  have hleads := hk.leads h2
  exact ⟨hleads.noted hnoted, fun complete code hkeeps hfinishes =>
    hwrite (hleads.keeps.trans hkeeps) hfinishes⟩

theorem land (h : m.Runs write (some label) w σ w1 σ1) :
    m.Runs (do write; Emit.bind label) none w σ w1 σ1 := by
  intro b b2 hr hrun
  obtain ⟨_, b1, h1, h2⟩ := Emit.bind_eq_ok.mp hrun
  have hbinds := CodeBuffer.bind_eq_ok.mp (Emit.ofWrite_eq_ok.mp h2)
  obtain ⟨hcode, hat, hreachable⟩ := hbinds.at_size
  obtain ⟨hnoted, hwrite⟩ := h hr h1
  refine ⟨hreachable (.inr hnoted), fun complete code hkeeps hfinishes => ?_⟩
  obtain ⟨p, hp, hreach⟩ := hwrite (hbinds.keeps.trans hkeeps) hfinishes
  cases (hkeeps.labels _ _ hat).symm.trans hp
  exact ⟨_, by rw [CodeBuffer.exitAt, hcode], hreach⟩

theorem place (label : LabelId) : m.Runs (Emit.bind label) none w σ w σ := by
  intro b b' hr hrun
  obtain ⟨hcode, -, hreachable⟩ := (CodeBuffer.bind_eq_ok.mp (Emit.ofWrite_eq_ok.mp hrun)).at_size
  exact ⟨hreachable (.inl hr), fun _ _ _ _ => ⟨_, by rw [CodeBuffer.exitAt, hcode], .refl⟩⟩

theorem newLabel {k : LabelId → Emit Unit} (h : ∀ label, m.Runs (k label) exit w σ w1 σ1) :
    m.Runs (Emit.newLabel >>= k) exit w σ w1 σ1 := by
  intro b b' hr hrun
  obtain ⟨label, b1, h1, h2⟩ := Emit.bind_eq_ok.mp hrun
  cases Emit.ofWrite_eq_ok.mp h1
  have hrest := h _ (by exact hr) h2
  exact hrest

theorem instruction (htarget : i.target? = none) (hgoes : i.isTerminal = false)
    (hafter : ∀ p, m.after ⟨p, w, σ⟩ i = some ⟨p + 1, w1, σ1⟩) :
    m.Runs (Emit.instruction i) none w σ w1 σ1 := by
  intro b b' hr hrun
  obtain ⟨hcode, hreachable, -⟩ :=
    (CodeBuffer.emit_eq_ok.mp (Emit.ofWrite_eq_ok.mp hrun)).at_size hr
  refine ⟨hreachable.trans (by rw [hgoes]; rfl), fun complete code hkeeps hfinishes => ?_⟩
  obtain ⟨j, hplaces, hj⟩ := hfinishes.places b.code.size i
    (hkeeps.code _ _ (by rw [hcode, Array.getElem?_push_size]))
  cases hplaces with
  | jump ht => rw [htarget] at ht; cases ht
  | other => exact ⟨_, by rw [CodeBuffer.exitAt, hcode, Array.size_push], .single ⟨i, hj, hafter _⟩⟩

theorem branch {taken : Bool} (htarget : i.target? = some (.label label))
    (hgoes : taken = false → i.isTerminal = false)
    (hafter : ∀ p q, m.after ⟨p, w, σ⟩ (i.retarget (.index q)) =
      State.jump ⟨p, w, σ⟩ taken σ1 (.index q)) :
    m.Runs (Emit.instruction i) (if taken then some label else none) w σ w σ1 := by
  intro b b' hr hrun
  obtain ⟨hcode, hreachable, hnoted⟩ :=
    (CodeBuffer.emit_eq_ok.mp (Emit.ofWrite_eq_ok.mp hrun)).at_size hr
  refine ⟨?_, fun complete code hkeeps hfinishes => ?_⟩
  · cases taken with
    | true => exact hnoted label htarget
    | false => exact hreachable.trans (by rw [hgoes rfl]; rfl)
  obtain ⟨j, hplaces, hj⟩ := hfinishes.places b.code.size i
    (hkeeps.code _ _ (by rw [hcode, Array.getElem?_push_size]))
  cases hplaces with
  | other hno => exact absurd htarget (hno label)
  | @jump target q ht hplaced =>
    cases htarget.symm.trans ht
    have hstep := hafter b.code.size q
    cases taken with
    | true => exact ⟨q, hplaced, .single ⟨_, hj, hstep⟩⟩
    | false =>
      exact ⟨_, by rw [if_neg Bool.false_ne_true, CodeBuffer.exitAt, hcode, Array.size_push],
        .single ⟨_, hj, hstep⟩⟩

theorem jump (label : LabelId) : m.Runs (Emit.jump label) (some label) w σ w σ :=
  @branch (.goto (.label label)) m w σ σ label true rfl (fun h => by cases h) fun _ _ => rfl

end Runs

end Machine

end StackCompiler

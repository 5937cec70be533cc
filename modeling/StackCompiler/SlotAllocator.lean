import StackCompiler.JvmType

/-!
# Local slots

Slots of a frame are handed out in order and taken back at the end of the scope that took them,
so that scopes beside each other share slots.
-/

namespace StackCompiler

inductive SlotError where
  | noScope
  | exhausted
deriving DecidableEq

def SlotError.message : SlotError → String
  | noScope => "slot scope closed twice"
  | exhausted => s!"method needs more than {maxWords} local slots"

structure SlotAllocator where
  next : Nat
  max : Nat
  /-- The first free slot at the start of each open scope, the innermost first. -/
  marks : List Nat
  limit : Option Nat
deriving DecidableEq

namespace SlotAllocator

/-- A frame of limited size in which the first slots are taken. -/
def start (limit : Option Nat) (reserved : Nat) : SlotAllocator := ⟨reserved, reserved, [], limit⟩

def withReserved (reserved : Nat) : SlotAllocator := start (some maxWords) reserved

def openScope (a : SlotAllocator) : SlotAllocator := { a with marks := a.next :: a.marks }

/-- Closes the innermost scope and takes its slots back. -/
def closeScope (a : SlotAllocator) : Except SlotError SlotAllocator :=
  match a.marks with
  | [] => .error .noScope
  | mark :: rest => .ok { a with next := mark, marks := rest }

/-- Hands out the next slot, or the next two for a wide value. -/
def allocate (a : SlotAllocator) (kind : Kind) : Except SlotError (Nat × SlotAllocator) :=
  let next := a.next + kind.words
  if exceeds a.limit next then .error .exhausted
  else .ok (a.next, { a with next := next, max := Nat.max a.max next })

end SlotAllocator

end StackCompiler

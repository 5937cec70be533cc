import StackCompiler.Proofs.Machine

/-!
# Machines with a frame

A machine that keeps local variables in words: loads, stores and increments do what they say, and
all else is left to another machine.

* `Locals`, `Machine.framed`: the words of a frame, and the machine with it;
* **`Machine.Within.kept`**: a region that does not write a variable keeps its value.
-/

namespace StackCompiler

namespace Value

def kind : Value → Kind
  | int _ => .int
  | long _ => .long
  | float _ => .float
  | double _ => .double
  | reference _ => .reference

def number? : Value → Option Int
  | int x => some x.toInt
  | long x => some x.toInt
  | _ => none

end Value

/-! ## Frames -/

variable {kind : Kind} {slot : Nat} {v : Value} {m : Method} {i : Instruction} {y : Subject}

/-- The words of a frame: each holds a value and the slot at which that value begins. -/
abbrev Locals := Nat → Option (Nat × Value)

namespace Locals

variable {l l' : Locals}

def write (l : Locals) (slot : Nat) (v : Value) : Locals := fun n =>
  if slot ≤ n ∧ n < slot + v.kind.words then some (slot, v) else l n

/-- Reads a value that none of its words has lost. -/
def read (l : Locals) (kind : Kind) (slot : Nat) : Option Value :=
  match l slot with
  | some (_, v) =>
    if v.kind = kind ∧ ∀ n < kind.words, l (slot + n) = some (slot, v) then some v else none
  | none => none

theorem read_eq_some : l.read kind slot = some v ↔
    v.kind = kind ∧ ∀ n < kind.words, l (slot + n) = some (slot, v) := by
  have hpos : 0 < kind.words := by cases kind <;> decide
  unfold read
  constructor
  · intro h
    split at h
    · split_ifs at h with hv
      cases h
      exact hv
    · cases h
  · rintro ⟨hkind, hwords⟩
    rw [show l slot = some (slot, v) from hwords 0 hpos]
    exact if_pos ⟨hkind, hwords⟩

/-- Only the words of a value matter to it. -/
theorem read_congr (h : ∀ n, slot ≤ n → n < slot + kind.words → l' n = l n) :
    l'.read kind slot = l.read kind slot := by
  ext v
  have hwords (n : Nat) (hn : n < kind.words) : l' (slot + n) = l (slot + n) :=
    h _ (Nat.le_add_right _ _) (Nat.add_lt_add_left hn _)
  rw [read_eq_some, read_eq_some]
  exact and_congr_right fun _ => forall₂_congr fun n hn => by rw [hwords n hn]

end Locals

namespace Machine

def framed (base : Machine) : Machine where
  World := Locals × base.World
  orderSingle := base.orderSingle
  orderDouble := base.orderDouble
  sameText w := base.sameText w.2
  perform i w stack :=
    match i with
    | .load kind slot => (w.1.read kind slot).map fun v => (w, v :: stack)
    | .store kind slot =>
      match stack with
      | v :: rest => if v.kind = kind then some ((w.1.write slot v, w.2), rest) else none
      | [] => none
    | .iinc slot delta =>
      match w.1.read .int slot with
      | some (.int x) => some ((w.1.write slot (.int (x + .ofInt delta)), w.2), stack)
      | _ => none
    | .lconst value => some (w, .long value :: stack)
    | .arith .long .add =>
      match stack with
      | .long y :: .long x :: rest => some (w, .long (x + y) :: rest)
      | _ => none
    | i => (base.perform i w.2 stack).map fun (w', stack) => ((w.1, w'), stack)

variable {base : Machine}

/-- What an instruction leaves of the frame as it was. -/
theorem framed_perform {w w' : Locals × base.World} {stack stack' : List Value}
    (h : base.framed.perform i w stack = some (w', stack')) (x : Option Subject) {n : Nat}
    (hn : ∀ e, i.writes x = some e → ¬ e.Covers n) : w'.1 n = w.1 n := by
  have hbase (h : (base.perform i w.2 stack).map (fun r => ((w.1, r.1), r.2)) = some (w', stack')) :
      w'.1 n = w.1 n := by
    obtain ⟨_, -, he⟩ := Option.map_eq_some_iff.mp h
    cases he
    rfl
  cases i with
  | load kind slot =>
    obtain ⟨_, -, he⟩ := Option.map_eq_some_iff.mp h
    cases he
    rfl
  | store kind slot =>
    cases stack with
    | nil => cases h
    | cons v rest =>
      obtain ⟨rfl, he⟩ := Option.ite_none_right_eq_some.mp h
      cases he
      exact if_neg (hn _ rfl)
  | iinc slot delta =>
    dsimp only [framed] at h
    split at h <;> cases h
    exact if_neg (hn _ rfl)
  | lconst value =>
    cases h
    rfl
  | arith kind op =>
    cases kind <;> cases op <;> try exact hbase h
    dsimp only [framed] at h
    split at h <;> cases h
    rfl
  | _ => exact hbase h

theorem State.jump_eq_some {M : Machine} {s s' : M.State} {taken : Bool} {stack : List Value}
    {target : Target} (h : s.jump taken stack target = some s') : s'.world = s.world ∧
      (target = .index s'.position ∨ taken = false ∧ s'.position = s.position + 1) := by
  cases target with
  | label => cases h
  | index p =>
    cases h
    cases taken with
    | true => exact ⟨rfl, .inl rfl⟩
    | false => exact ⟨rfl, .inr ⟨rfl, rfl⟩⟩

/-- An instruction goes where it can go, and all else that it does is left open. -/
theorem after_eq_some {M : Machine} {s s' : M.State} (h : M.after s i = some s') :
    i.GoesTo s.position s'.position ∧
      (s'.world = s.world ∨ ∃ stack, M.perform i s.world s.stack = some (s'.world, stack)) := by
  unfold after at h
  split at h
  · cases h
    exact ⟨.inr ⟨rfl, rfl⟩, .inl rfl⟩
  · obtain ⟨_, -, rfl⟩ := Option.map_eq_some_iff.mp h
    exact ⟨.inr ⟨rfl, rfl⟩, .inl rfl⟩
  · obtain ⟨hworld, rfl | ⟨⟨⟩, -⟩⟩ := State.jump_eq_some h
    exact ⟨.inl rfl, .inl hworld⟩
  iterate 4
    · obtain ⟨hworld, rfl | ⟨-, hnext⟩⟩ := State.jump_eq_some h
      · exact ⟨.inl rfl, .inl hworld⟩
      · exact ⟨.inr ⟨rfl, hnext⟩, .inl hworld⟩
  iterate 5 cases h
  · rename_i i _ _ _ hgoto _ _ _ _ hret _ _ _ _ _
    have hgoes : i.isTerminal = false := by
      cases i with
      | goto target => exact (hgoto target rfl).elim
      | ret kind => exact (hret kind rfl).elim
      | _ => rfl
    split_ifs at h with hequals
    · split at h <;> cases h
      exact ⟨.inr ⟨hgoes, rfl⟩, .inl rfl⟩
    · obtain ⟨⟨world, stack⟩, hperform, rfl⟩ := Option.map_eq_some_iff.mp h
      exact ⟨.inr ⟨hgoes, rfl⟩, .inr ⟨stack, hperform⟩⟩

/-! ## Regions -/

/-- A run that stays in a region of the code until its last step. -/
abbrev Within (M : Machine) (code : Array Instruction) (lo hi : Nat) : M.State → M.State → Prop :=
  Relation.ReflTransGen fun s s' => M.Step code s s' ∧ lo ≤ s.position ∧ s.position < hi

end Machine

/-- A region of the method does not write a variable. -/
def Method.Spares (m : Method) (lo hi : Nat) (y : Subject) : Prop :=
  ∀ (pos : Nat) i e, lo ≤ pos → pos < hi → m.body.code[pos]? = some i →
    i.writes (m.subjectAt pos) = some e → e.subject ≠ some y

theorem Method.Spares.append {lo mid hi : Nat} (h : m.Spares lo mid y) (h' : m.Spares mid hi y) :
    m.Spares lo hi y := fun pos i e hlo hhi =>
  (Nat.lt_or_ge pos mid).elim (fun hlt => h pos i e hlo hlt) fun hle => h' pos i e hle hhi

namespace Machine.Within

variable {M base : Machine} {code : Array Instruction} {lo hi lo' hi' : Nat}

theorem mono {s s' : M.State} (h : M.Within code lo hi s s') (hlo : lo' ≤ lo) (hhi : hi ≤ hi') :
    M.Within code lo' hi' s s' :=
  Relation.ReflTransGen.mono (fun _ _ hs =>
    ⟨hs.1, Nat.le_trans hlo hs.2.1, Nat.lt_of_lt_of_le hs.2.2 hhi⟩) _ _ h

/-- **A region that does not write a variable keeps its value**, if the frame holds it in the end.
-/
theorem kept {s s' : base.framed.State} {entry words : Words}
    (h : base.framed.Within m.body.code lo hi s s') (hw : m.WordReaches entry s.position words) :
    ∃ words', m.WordReaches entry s'.position words' ∧ ∀ y, m.Spares lo hi y →
      ∀ e, e.subject = some y → words'.Holds e →
        words.Holds e ∧ s'.world.1.read e.kind e.slot = s.world.1.read e.kind e.slot := by
  induction h with
  | refl => exact ⟨words, hw, fun _ _ _ _ he => ⟨he, rfl⟩⟩
  | @tail t t' _ hstep ih =>
    obtain ⟨words1, hw1, hkept⟩ := ih
    obtain ⟨⟨i, hi, hafter⟩, hlo, hhi⟩ := hstep
    obtain ⟨hgoes, hworld⟩ := after_eq_some hafter
    refine ⟨_, hw1.tail (.step hi hgoes), fun y hspares e hy he => ?_⟩
    have hother (e' : Entry) (he' : i.writes (m.subjectAt t.position) = some e') (n : Nat)
        (hn : e.Covers n) : ¬ e'.Covers n := by
      intro hn'
      have hheld : (words1.write e') n = some e := by
        rw [← he n hn, Words.after, he']
      rw [Words.write, if_pos hn'] at hheld
      cases hheld
      exact hspares _ i e hlo hhi hi he' hy
    have hheld : words1.Holds e := by
      intro n hn
      rw [← he n hn, Words.after]
      cases he' : i.writes (m.subjectAt t.position) with
      | none => rfl
      | some e' => exact (if_neg (hother e' he' n hn)).symm
    obtain ⟨hheld, hsame⟩ := hkept y hspares e hy hheld
    refine ⟨hheld, Eq.trans ?_ hsame⟩
    rcases hworld with hworld | ⟨stack, hperform⟩
    · rw [hworld]
    · exact Locals.read_congr fun n hlo hhi =>
        framed_perform hperform _ fun e' he' => hother e' he' n ⟨hlo, hhi⟩

end Machine.Within

end StackCompiler

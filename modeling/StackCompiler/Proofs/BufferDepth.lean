import Mathlib.Logic.Relation
import StackCompiler.CodeBuffer
import StackCompiler.Proofs.StackPaths
import StackCompiler.Proofs.Steps

/-!
# The depth that a buffer keeps

A code buffer follows the depth of the operand stack while code is written, with labels in place
of positions. Every instruction that it takes is on a path, and the depth that it keeps is the
number of words on that path.

* **`CodeBuffer.Leads.tracked`**: it holds of everything that is written;
* **`CodeBuffer.DepthAt.reaches`**: a depth at a position is that of a path of the finished code;
* **`CodeBuffer.Tracked.maxDepth`**: the deepest stack is that of some path, and no path has more.
-/

namespace StackCompiler

variable {b b' : CodeBuffer} {i j : Instruction} {label : LabelId} {d : Nat} {x : Option Subject}

namespace CodeBuffer

/-! ## Steps of writing -/

/-- A successful step of writing. -/
inductive Step : CodeBuffer → CodeBuffer → Prop
  | newLabel (b : CodeBuffer) : Step b { b with labels := b.labels.push ⟨none, none⟩ }
  | bind {b b' : CodeBuffer} (label : LabelId) (h : bind label b = .ok () b') : Step b b'
  | emit {b b' : CodeBuffer} (x : Option Subject) (i : Instruction)
      (h : emitAbout x i b = .ok () b') : Step b b'

abbrev Leads : CodeBuffer → CodeBuffer → Prop := Relation.ReflTransGen Step

def labelAt (b : CodeBuffer) (label : LabelId) : Option Nat :=
  (b.labels[label]?).bind LabelState.position

def popped (b : CodeBuffer) (i : Instruction) : Nat := wordsUpTo b.limit i.effect.pops

def pushed (b : CodeBuffer) (i : Instruction) : Nat := wordsUpTo b.limit i.effect.pushes

/-- The buffer that placing a label leaves. -/
inductive Binds (label : LabelId) (b : CodeBuffer) : CodeBuffer → Prop
  /-- Control gets there in any case; jumps so far have to agree. -/
  | onPath {state : LabelState} (known : b.labels[label]? = some state)
      (free : state.position = none) (reachable : b.reachable = true)
      (agrees : state.depth = none ∨ state.depth = some b.depth) :
      Binds label b { b with
        labels := b.labels.setIfInBounds label ⟨some b.code.size, some b.depth⟩ }
  /-- Control gets there by jumps only. -/
  | byJumps {state : LabelState} {depth : Nat} (known : b.labels[label]? = some state)
      (free : state.position = none) (reachable : b.reachable = false)
      (jumps : state.depth = some depth) :
      Binds label b { b with
        labels := b.labels.setIfInBounds label ⟨some b.code.size, some depth⟩
        depth := depth
        reachable := true }
  /-- Control does not get there. -/
  | outOfReach {state : LabelState} (known : b.labels[label]? = some state)
      (free : state.position = none) (reachable : b.reachable = false)
      (jumps : state.depth = none) :
      Binds label b { b with labels := b.labels.setIfInBounds label ⟨some b.code.size, none⟩ }

theorem bind_eq_ok : bind label b = .ok () b' ↔ Binds label b b' := by
  constructor
  · intro h
    unfold CodeBuffer.bind at h
    cases hl : b.labels[label]? with
    | none => simp only [hl] at h; cases h
    | some state =>
      simp only [hl] at h
      split_ifs at h with hp
      have hfree : state.position = none := by simpa using hp
      cases hr : b.reachable <;> cases hd : state.depth <;> simp only [hr, hd] at h
      · cases h; rw [← hr]; exact .outOfReach hl hfree hr hd
      · cases h; exact .byJumps hl hfree hr hd
      · cases h; rw [← hr]; exact .onPath hl hfree hr (.inl hd)
      · split_ifs at h with he
        cases h
        rw [← hr]
        exact .onPath hl hfree hr (.inr (he ▸ hd))
  · rintro (⟨hl, hf, hr, hd | hd⟩ | ⟨hl, hf, hr, hd⟩ | ⟨hl, hf, hr, hd⟩) <;>
      simp [CodeBuffer.bind, hl, hf, hr, hd]

/-- The labels after the jump of an instruction has been noted. -/
inductive Notes (i : Instruction) (b : CodeBuffer) : Array LabelState → Prop
  | jump {label : LabelId} {state : LabelState} (target : i.target? = some (.label label))
      (known : b.labels[label]? = some state)
      (agrees : state.depth = none ∨ state.depth = some b.depth) :
      Notes i b (b.labels.setIfInBounds label { state with depth := some b.depth })
  | other (target : ∀ label, i.target? ≠ some (.label label)) : Notes i b b.labels

theorem noteTarget_eq_ok :
    noteTarget i b = .ok () b' ↔ ∃ labels, Notes i b labels ∧ b' = { b with labels := labels } := by
  constructor
  · intro h
    cases ht : i.target? with
    | none =>
      simp only [noteTarget, ht, pure, EStateM.pure] at h
      cases h
      exact ⟨b.labels, .other (by simp [ht]), rfl⟩
    | some target =>
      cases target with
      | index p =>
        simp only [noteTarget, ht, pure, EStateM.pure] at h
        cases h
        exact ⟨b.labels, .other (by simp [ht]), rfl⟩
      | label label =>
        simp only [noteTarget, ht, noteJump] at h
        cases hl : b.labels[label]? with
        | none => simp only [hl] at h; cases h
        | some state =>
          simp only [hl] at h
          cases hs : state.depth with
          | none =>
            simp only [hs] at h
            cases h
            exact ⟨_, .jump ht hl (.inl hs), rfl⟩
          | some expected =>
            simp only [hs] at h
            split_ifs at h with hx
            cases h
            exact ⟨_, .jump ht hl (.inr (hx ▸ hs)), rfl⟩
  · rintro ⟨_, hn, rfl⟩
    cases hn with
    | jump ht hl hd => rcases hd with hd | hd <;> simp [noteTarget, ht, noteJump, hl, hd]
    | other hn =>
      cases ht : i.target? with
      | none => simp [noteTarget, ht, pure, EStateM.pure]
      | some target =>
        cases target with
        | index p => simp [noteTarget, ht, pure, EStateM.pure]
        | label label => exact absurd ht (hn label)

/-- The buffer after the operands of an instruction are taken. -/
def taken (i : Instruction) (b : CodeBuffer) : CodeBuffer :=
    { b with depth := b.depth - b.popped i }

/-- The buffer that appending an instruction leaves. -/
inductive Emits (x : Option Subject) (i : Instruction) (b : CodeBuffer) : CodeBuffer → Prop
  | dropped (reachable : b.reachable = false) : Emits x i b b
  | appended {labels : Array LabelState} (reachable : b.reachable = true)
      (enough : b.popped i ≤ b.depth) (notes : Notes i (b.taken i) labels)
      (fits : exceeds b.limit (b.depth - b.popped i + b.pushed i) = false) :
      Emits x i b { b with
        code := b.code.push i
        subjects := b.subjects.push x
        labels := labels
        depth := b.depth - b.popped i + b.pushed i
        maxDepth := max b.maxDepth (b.depth - b.popped i + b.pushed i)
        reachable := !i.isTerminal }

theorem emit_eq (b : CodeBuffer) (x : Option Subject) (i : Instruction) : emitAbout x i b =
      (if b.reachable then (do take i; noteTarget i; put x i) else pure () : Write Unit) b :=
  rfl

theorem emit_of_reachable (h : b.reachable = true) (x : Option Subject) (i : Instruction) :
    emitAbout x i b = (do take i; noteTarget i; put x i : Write Unit) b := by
  rw [emit_eq, if_pos h]

theorem emit_of_not_reachable (h : b.reachable = false) (x : Option Subject) (i : Instruction) :
    emitAbout x i b = .ok () b := by
  rw [emit_eq, if_neg (by simp [h])]
  rfl

theorem emit_eq_ok : emitAbout x i b = .ok () b' ↔ Emits x i b b' := by
  constructor
  · intro h
    cases hr : b.reachable with
    | false =>
      rw [emit_of_not_reachable hr] at h
      cases h
      exact .dropped hr
    | true =>
      rw [emit_of_reachable hr] at h
      simp only [Bind.bind, EStateM.bind] at h
      by_cases hd : b.popped i ≤ b.depth
      · have ht : take i b = .ok () (b.taken i) := if_neg (Nat.not_lt.mpr hd)
        rw [ht] at h
        simp only at h
        cases hn : noteTarget i (b.taken i) with
        | error e b2 => rw [hn] at h; cases h
        | ok u b2 =>
          rw [hn] at h
          obtain ⟨labels, hl, rfl⟩ := noteTarget_eq_ok.mp hn
          simp only [put] at h
          split_ifs at h with he
          cases h
          exact .appended hr hd hl (by simpa [popped, pushed, taken] using he)
      · have ht : take i b = .error (.underflow i (b.popped i) b.depth) b :=
          if_pos (Nat.lt_of_not_le hd)
        rw [ht] at h
        cases h
  · intro h
    cases h with
    | dropped hr => exact emit_of_not_reachable hr x i
    | appended hr hd hn he =>
      have ht : take i b = .ok () (b.taken i) := if_neg (Nat.not_lt.mpr hd)
      have hn' := noteTarget_eq_ok.mpr ⟨_, hn, rfl⟩
      rw [emit_of_reachable hr]
      simp only [Bind.bind, EStateM.bind, ht, hn', put]
      rw [if_neg (by simpa [popped, pushed, taken] using he)]
      rfl

/-! ## What later steps keep -/

/-- The code and the positions of labels are still there, and the limit is the same. -/
structure Keeps (b b' : CodeBuffer) : Prop where
  code : ∀ (p : Nat) (i : Instruction), b.code[p]? = some i → b'.code[p]? = some i
  labels : ∀ label p, b.labelAt label = some p → b'.labelAt label = some p
  limit : b'.limit = b.limit

theorem Keeps.refl (b : CodeBuffer) : Keeps b b := ⟨fun _ _ h => h, fun _ _ h => h, rfl⟩

theorem Keeps.trans {b1 b2 b3 : CodeBuffer} (h : Keeps b1 b2) (h' : Keeps b2 b3) : Keeps b1 b3 :=
  ⟨fun p i hi => h'.code p i (h.code p i hi), fun l p hp => h'.labels l p (h.labels l p hp),
    h'.limit.trans h.limit⟩

theorem labelAt_eq {state : LabelState} (h : b.labels[label]? = some state) :
    b.labelAt label = state.position := by
  rw [labelAt, h]
  rfl

theorem Binds.keeps (h : Binds label b b') : Keeps b b' := by
  have hkeep {state new : LabelState} (hl : b.labels[label]? = some state)
      (hf : state.position = none) (other : LabelId) (p : Nat) (hp : b.labelAt other = some p) :
      ((b.labels.setIfInBounds label new)[other]?).bind LabelState.position = some p := by
    rw [Array.getElem?_setIfInBounds, if_neg]
    · exact hp
    · rintro rfl
      rw [labelAt_eq hl, hf] at hp
      cases hp
  cases h with
  | onPath hl hf _ _ => exact ⟨fun _ _ hi => hi, hkeep hl hf, rfl⟩
  | byJumps hl hf _ _ => exact ⟨fun _ _ hi => hi, hkeep hl hf, rfl⟩
  | outOfReach hl hf _ _ => exact ⟨fun _ _ hi => hi, hkeep hl hf, rfl⟩

theorem Notes.labelAt {labels : Array LabelState} (h : Notes i b labels) (label : LabelId) :
    (labels[label]?).bind LabelState.position = b.labelAt label := by
  cases h with
  | other _ => rfl
  | @jump target state _ hl _ =>
    rw [Array.getElem?_setIfInBounds]
    split_ifs with he hlt
    · subst he
      rw [labelAt_eq hl]
      rfl
    · subst he
      rw [labelAt_eq hl, Array.getElem?_eq_none (Nat.le_of_not_lt hlt)] at *
      cases hl
    · rfl

theorem Emits.keeps (h : Emits x i b b') : Keeps b b' := by
  cases h with
  | dropped _ => exact .refl b
  | appended _ _ hn _ =>
    exact ⟨fun p j hj => getElem?_push_of_some i hj,
      fun label p hp => (hn.labelAt label).trans hp, rfl⟩

theorem Step.keeps (h : Step b b') : Keeps b b' := by
  cases h with
  | newLabel =>
    refine ⟨fun _ _ hi => hi, fun label p hp => ?_, rfl⟩
    obtain ⟨state, hs, hp⟩ := Option.bind_eq_some_iff.mp hp
    exact Option.bind_eq_some_iff.mpr ⟨state, getElem?_push_of_some _ hs, hp⟩
  | bind label h => exact (bind_eq_ok.mp h).keeps
  | emit x i h => exact (emit_eq_ok.mp h).keeps

theorem Leads.keeps (h : Leads b b') : Keeps b b' := by
  induction h with
  | refl => exact .refl b
  | tail _ hstep ih => exact ih.trans hstep.keeps

/-! ## Depths along paths -/

/-- A path over labels gets to a position with a number of words. -/
inductive DepthAt (b : CodeBuffer) : Nat → Nat → Prop
  | start : DepthAt b 0 0
  | next {p d : Nat} {i : Instruction} (h : DepthAt b p d) (at_p : b.code[p]? = some i)
      (goesOn : i.isTerminal = false) (enough : b.popped i ≤ d)
      (fits : exceeds b.limit (d - b.popped i + b.pushed i) = false) :
      DepthAt b (p + 1) (d - b.popped i + b.pushed i)
  | jump {p q d : Nat} {i : Instruction} {label : LabelId} (h : DepthAt b p d)
      (at_p : b.code[p]? = some i) (jumps : i.target? = some (.label label))
      (placed : b.labelAt label = some q) (enough : b.popped i ≤ d) :
      DepthAt b q (d - b.popped i)

theorem DepthAt.keeps {p : Nat} (hb : Keeps b b') (h : DepthAt b p d) : DepthAt b' p d := by
  have hpop (i : Instruction) : b'.popped i = b.popped i := by rw [popped, popped, hb.limit]
  have hpush (i : Instruction) : b'.pushed i = b.pushed i := by rw [pushed, pushed, hb.limit]
  induction h with
  | start => exact .start
  | @next p d i _ hi ht he hf ih =>
    have h := ih.next (hb.code _ _ hi) ht (by rwa [hpop]) (by rwa [hpop, hpush, hb.limit])
    rwa [hpop, hpush] at h
  | @jump p q d i label _ hi hj hl he ih =>
    have h := ih.jump (hb.code _ _ hi) hj (hb.labels _ _ hl) (by rwa [hpop])
    rwa [hpop] at h

/-- A jump to a label that brings a depth. -/
def JumpBrings (b : CodeBuffer) (label : LabelId) (depth : Nat) : Prop :=
  ∃ (p d : Nat) (i : Instruction), DepthAt b p d ∧ b.code[p]? = some i ∧
    i.target? = some (.label label) ∧ b.popped i ≤ d ∧ d ≤ b.maxDepth ∧ depth = d - b.popped i

/-- The depths that a buffer keeps are those of paths. -/
structure Tracked (b : CodeBuffer) : Prop where
  end_ : b.reachable = true → DepthAt b b.code.size b.depth ∧ b.depth ≤ b.maxDepth
  pending : ∀ (label : LabelId) (state : LabelState) (depth : Nat), b.labels[label]? = some state →
    state.position = none → state.depth = some depth → JumpBrings b label depth
  covered : ∀ p < b.code.size, ∃ d ≤ b.maxDepth, DepthAt b p d
  attained : ∃ p, DepthAt b p b.maxDepth

theorem start_tracked (limit : Option Nat) : Tracked (start limit) :=
  ⟨fun _ => ⟨.start, Nat.le_refl _⟩, fun label state _ h => by simp [start] at h,
    fun p h => by simp [start] at h, 0, .start⟩

theorem JumpBrings.keeps {depth : Nat} (hb : Keeps b b') (hm : b.maxDepth ≤ b'.maxDepth)
    (h : JumpBrings b label depth) : JumpBrings b' label depth := by
  have hpop (i : Instruction) : b'.popped i = b.popped i := by rw [popped, popped, hb.limit]
  obtain ⟨p, d, i, hd, hi, ht, he, hle, rfl⟩ := h
  exact ⟨p, d, i, hd.keeps hb, hb.code _ _ hi, ht, by rwa [hpop], Nat.le_trans hle hm, by rw [hpop]⟩

theorem newLabel_tracked (hb : Tracked b) :
    Tracked { b with labels := b.labels.push ⟨none, none⟩ } := by
  have hx := (Step.newLabel b).keeps
  refine ⟨fun hr => ⟨(hb.end_ hr).1.keeps hx, (hb.end_ hr).2⟩, fun label state depth hl hp hd => ?_,
    fun p hp => ?_, ?_⟩
  · rw [Array.getElem?_push] at hl
    split_ifs at hl with he
    · cases hl
      cases hd
    · exact (hb.pending label state depth hl hp hd).keeps hx (Nat.le_refl _)
  · obtain ⟨d, hle, hd⟩ := hb.covered p hp
    exact ⟨d, hle, hd.keeps hx⟩
  · obtain ⟨p, hp⟩ := hb.attained
    exact ⟨p, hp.keeps hx⟩

/-- Placing a label keeps the depths of paths; the depth at the end may become that of a jump. -/
theorem Binds.tracked (h : Binds label b b') (hb : Tracked b) : Tracked b' := by
  have hx := h.keeps
  have hsame : b'.code = b.code ∧ b'.maxDepth = b.maxDepth := by cases h <;> exact ⟨rfl, rfl⟩
  refine ⟨fun hr => ?_, fun other state depth hl hp hd => ?_, fun p hp => ?_, ?_⟩
  · rw [hsame.1, hsame.2]
    cases h with
    | onPath _ _ hr' _ => exact ⟨(hb.end_ hr').1.keeps hx, (hb.end_ hr').2⟩
    | outOfReach _ _ hr' _ => rw [hr'] at hr; cases hr
    | @byJumps state depth hl hf _ hd =>
      obtain ⟨p, d, i, hpd, hi, ht, he, hle, rfl⟩ := hb.pending label state depth hl hf hd
      have hlt : label < b.labels.size := (Array.getElem?_eq_some_iff.mp hl).1
      refine ⟨(hpd.keeps hx).jump (hx.code _ _ hi) ht ?_ he, Nat.le_trans (Nat.sub_le _ _) hle⟩
      simp [labelAt, hlt]
  · have hold : b.labels[other]? = some state := by
      cases h <;>
      · rw [Array.getElem?_setIfInBounds] at hl
        split_ifs at hl
        · cases hl
          cases hp
        · exact hl
    exact (hb.pending other state depth hold hp hd).keeps hx (Nat.le_of_eq hsame.2.symm)
  · rw [hsame.1] at hp
    obtain ⟨d, hle, hd⟩ := hb.covered p hp
    exact ⟨d, hsame.2 ▸ hle, hd.keeps hx⟩
  · obtain ⟨p, hp⟩ := hb.attained
    exact ⟨p, hsame.2 ▸ hp.keeps hx⟩

theorem pushes_of_isTerminal (h : i.isTerminal = true) : i.effect.pushes = [] := by
  cases i <;> first | rfl | cases h

theorem pushed_of_isTerminal (b : CodeBuffer) (h : i.isTerminal = true) : b.pushed i = 0 := by
  rw [pushed, pushes_of_isTerminal h]
  cases b.limit with
  | none => rfl
  | some most => exact Nat.zero_mod _

/-- Appending an instruction keeps the depths of paths; the end is one instruction further. -/
theorem Emits.tracked (h : Emits x i b b') (hb : Tracked b) : Tracked b' := by
  have hx := h.keeps
  cases h with
  | dropped _ => exact hb
  | @appended labels hr he hn hf =>
  obtain ⟨hend, hle⟩ := hb.end_ hr
  have hat : (b.code.push i)[b.code.size]? = some i := by simp
  have hend' := hend.keeps hx
  have hnext (ht : i.isTerminal = false) : DepthAt _ (b.code.size + 1)
      (b.depth - b.popped i + b.pushed i) := hend'.next hat ht he hf
  refine ⟨fun hr' => ?_, fun label state depth hl hp hd => ?_, fun p hp => ?_, ?_⟩
  · have ht : i.isTerminal = false := by simpa using hr'
    exact ⟨by simpa using hnext ht, Nat.le_max_right _ _⟩
  · have hold (h : b.labels[label]? = some state) :=
      (hb.pending label state depth h hp hd).keeps hx (Nat.le_max_left _ _)
    cases hn with
    | other _ => exact hold hl
    | @jump target state' htarget hl' _ =>
      rw [Array.getElem?_setIfInBounds] at hl
      split_ifs at hl with heq
      · cases hl
        cases hd
        subst heq
        exact ⟨b.code.size, b.depth, i, hend', hat, htarget, he,
          Nat.le_trans hle (Nat.le_max_left _ _), rfl⟩
      · exact hold hl
  · rcases Nat.lt_or_eq_of_le (Nat.le_of_lt_succ (by simpa using hp)) with hp | rfl
    · obtain ⟨d, hd, hpd⟩ := hb.covered p hp
      exact ⟨d, Nat.le_trans hd (Nat.le_max_left _ _), hpd.keeps hx⟩
    · exact ⟨b.depth, Nat.le_trans hle (Nat.le_max_left _ _), hend'⟩
  · -- a new deepest stack is that after an instruction which control goes on from
    obtain ⟨p, hp⟩ := hb.attained
    by_cases hmax : b.depth - b.popped i + b.pushed i ≤ b.maxDepth
    · exact ⟨p, by simpa [Nat.max_eq_left hmax] using hp.keeps hx⟩
    · have ht : i.isTerminal = false := by
        by_contra hterm
        rw [pushed_of_isTerminal b (by simpa using hterm)] at hmax
        omega
      exact ⟨b.code.size + 1, by simpa [Nat.max_eq_right (Nat.le_of_not_le hmax)] using hnext ht⟩

theorem Step.tracked (h : Step b b') (hb : Tracked b) : Tracked b' := by
  cases h with
  | newLabel => exact newLabel_tracked hb
  | bind label h => exact (bind_eq_ok.mp h).tracked hb
  | emit x i h => exact (emit_eq_ok.mp h).tracked hb

/-- **The depths that a buffer keeps are those of paths, whatever is written.** -/
theorem Leads.tracked (h : Leads b b') (hb : Tracked b) : Tracked b' := by
  induction h with
  | refl => exact hb
  | tail _ hstep ih => exact hstep.tracked ih

end CodeBuffer

/-! ## Finished code -/

namespace Instruction

@[simp] theorem effect_retarget (i : Instruction) (t : Target) :
    (i.retarget t).effect = i.effect := by cases i <;> rfl

@[simp] theorem isTerminal_retarget (i : Instruction) (t : Target) :
    (i.retarget t).isTerminal = i.isTerminal := by cases i <;> rfl

theorem target?_retarget (h : i.target?.isSome) (t : Target) : (i.retarget t).target? = some t := by
  cases i <;> first | rfl | cases h

end Instruction

namespace CodeBuffer

/-- The instruction as it stands in the finished code. -/
inductive Places (b : CodeBuffer) (i : Instruction) : Instruction → Prop
  | jump {label : LabelId} {q : Nat} (target : i.target? = some (.label label))
      (placed : b.labelAt label = some q) (inside : q < b.code.size) :
      Places b i (i.retarget (.index q))
  | other (target : ∀ label, i.target? ≠ some (.label label)) : Places b i i

theorem place_eq_ok : b.place i = .ok j ↔ Places b i j := by
  constructor
  · intro h
    cases ht : i.target? with
    | none =>
      simp only [place, ht] at h
      cases h
      exact .other (by simp [ht])
    | some target =>
      cases target with
      | index q =>
        simp only [place, ht] at h
        cases h
        exact .other (by simp [ht])
      | label label =>
        simp only [place, ht, position] at h
        cases hl : (b.labels[label]?).bind LabelState.position with
        | none => rw [hl] at h; cases h
        | some q =>
          rw [hl] at h
          by_cases hq : q < b.code.size
          · simp only [hq, if_true] at h
            cases h
            exact .jump ht hl hq
          · simp only [hq, if_false] at h
            cases h
  · intro h
    cases h with
    | @jump label q ht hl hq =>
      have hp : b.position label = .ok q := by
        unfold position
        rw [show (b.labels[label]?).bind LabelState.position = some q from hl]
        exact if_pos hq
      simp only [place, ht, hp]
      rfl
    | other ht =>
      unfold place
      split
      · exact absurd ‹_› (ht _)
      · rfl

theorem Places.effect (h : Places b i j) : j.effect = i.effect := by
  cases h with
  | jump => exact Instruction.effect_retarget i _
  | other => rfl

theorem Places.isTerminal (h : Places b i j) : j.isTerminal = i.isTerminal := by
  cases h with
  | jump => exact Instruction.isTerminal_retarget i _
  | other => rfl

theorem Places.target {q : Nat} (h : Places b i j) (ht : i.target? = some (.label label))
    (hq : b.labelAt label = some q) : j.target? = some (.index q) := by
  cases h with
  | other hn => exact absurd ht (hn label)
  | jump ht' hq' _ =>
    cases ht'.symm.trans ht
    cases hq'.symm.trans hq
    exact Instruction.target?_retarget (by rw [ht]; rfl) _

/-- The code that a buffer ends with has every instruction in its place. -/
structure Finishes (b : CodeBuffer) (code : Array Instruction) : Prop where
  size : code.size = b.code.size
  places : ∀ (p : Nat) (i : Instruction), b.code[p]? = some i →
    ∃ j, Places b i j ∧ code[p]? = some j

theorem finish_eq_ok {code : Array Instruction} {depth : Nat} :
    b.finish = .ok (code, depth) ↔ depth = b.maxDepth ∧ Finishes b code := by
  have hlist : b.finish = .ok (code, depth) ↔
      depth = b.maxDepth ∧ b.code.toList.mapM b.place = .ok code.toList := by
    unfold finish
    rw [← Array.toList_mapM]
    cases b.code.mapM b.place with
    | error e => exact ⟨nofun, nofun⟩
    | ok xs =>
      show Except.ok (xs, b.maxDepth) = .ok (code, depth) ↔
        _ ∧ Except.ok xs.toList = .ok code.toList
      simp only [Except.ok.injEq, Prod.mk.injEq, Array.toList_inj]
      exact ⟨fun h => ⟨h.2.symm, h.1⟩, fun h => ⟨h.2, h.1.symm⟩⟩
  rw [hlist, mapM_eq_ok, List.forall₂_iff_get]
  simp only [Array.length_toList]
  refine and_congr_right fun _ => ⟨fun h => ⟨h.1.symm, fun p i hi => ?_⟩,
    fun h => ⟨h.size.symm, ?_⟩⟩
  · obtain ⟨hp, rfl⟩ := Array.getElem?_eq_some_iff.mp hi
    have hp' : p < code.size := h.1 ▸ hp
    exact ⟨code[p], place_eq_ok.mp (h.2 p hp hp'), Array.getElem?_eq_getElem hp'⟩
  · intro p hp hp'
    obtain ⟨j, hj, hcode⟩ := h.places p b.code[p] (Array.getElem?_eq_getElem hp)
    obtain ⟨_, rfl⟩ := Array.getElem?_eq_some_iff.mp hcode
    exact place_eq_ok.mpr hj

end CodeBuffer

/-! ## Words on paths -/

theorem totalWords_append (xs ys : List Kind) :
    totalWords (xs ++ ys) = totalWords xs + totalWords ys := by
  induction xs with
  | nil => simp [totalWords]
  | cons k xs ih => simp only [List.cons_append, totalWords, ih]; omega

theorem totalWords_reverse (xs : List Kind) : totalWords xs.reverse = totalWords xs := by
  induction xs with
  | nil => rfl
  | cons k xs ih =>
    rw [List.reverse_cons, totalWords_append, ih]
    simp only [totalWords]
    omega

theorem wordsUpTo_eq {limit : Option Nat} {kinds : List Kind}
    (h : exceeds limit (totalWords kinds) = false) : wordsUpTo limit kinds = totalWords kinds := by
  cases limit with
  | none => rfl
  | some most =>
    have hle : totalWords kinds ≤ most := by simpa [exceeds] using h
    exact Nat.mod_eq_of_lt (by omega)

theorem exceeds_mono {limit : Option Nat} {m n : Nat} (hle : m ≤ n)
    (h : exceeds limit n = false) : exceeds limit m = false := by
  cases limit with
  | none => rfl
  | some most =>
    have hn : n ≤ most := by simpa [exceeds] using h
    simp only [exceeds, Option.any_some, decide_eq_false_iff_not]
    omega

theorem totalWords_pushes_le (i : Instruction) : totalWords i.effect.pushes ≤ 2 := by
  have hkind (k : Kind) : k.words ≤ 2 := by cases k <;> decide
  have hone (t : JvmType) : totalWords t.kind?.toList ≤ 2 := by
    cases t.kind? with
    | none => exact Nat.zero_le _
    | some k => exact hkind k
  cases i <;> simp only [Instruction.effect, totalWords, Nat.add_zero] <;>
    first | omega | exact hkind _ | exact hone _ | decide

theorem pushes_of_target {t : Target} (h : i.target? = some t) : i.effect.pushes = [] := by
  cases i <;> first | rfl | cases h

namespace CodeBuffer

variable {b : CodeBuffer} {code : Array Instruction}

theorem popped_eq {rest : List Kind} (hd : exceeds b.limit d = false)
    (h : totalWords (i.effect.pops.reverse ++ rest) = d) :
    b.popped i = totalWords i.effect.pops ∧ totalWords rest = d - b.popped i := by
  rw [totalWords_append, totalWords_reverse] at h
  have hp : b.popped i = totalWords i.effect.pops := wordsUpTo_eq (exceeds_mono (by omega) hd)
  exact ⟨hp, by omega⟩

theorem pushed_eq (i : Instruction) (h : exceeds b.limit 2 = false) :
    b.pushed i = totalWords i.effect.pushes :=
  wordsUpTo_eq (exceeds_mono (totalWords_pushes_le i) h)

/-- **A depth at a position is that of a path of the finished code.** -/
theorem DepthAt.reaches (hf : Finishes b code) (hk : Consistent code)
    (hlimit : exceeds b.limit 2 = false) {p : Nat} (h : DepthAt b p d) :
    exceeds b.limit d = false ∧ ∃ stack, Reaches code p stack ∧ totalWords stack = d := by
  induction h with
  | start => exact ⟨exceeds_mono (Nat.zero_le 2) hlimit, [], .start code, rfl⟩
  | @next p d i _ hi ht _ hfits ih =>
    obtain ⟨hd, stack, hr, hw⟩ := ih
    obtain ⟨j, hj, hcode⟩ := hf.places p i hi
    obtain ⟨j', hj', hfit⟩ := hk.fits _ _ hr
    obtain rfl : j = j' := Option.some.inj (hcode.symm.trans hj')
    obtain ⟨rest, rfl⟩ := hfit.operands
    rw [hj.effect] at hw
    refine ⟨hfits, _, hr.step hcode (.inr ⟨hj.isTerminal.trans ht, rfl⟩), ?_⟩
    rw [totalWords_append, totalWords_reverse, hj.effect, (popped_eq hd hw).2, pushed_eq i hlimit]
    omega
  | @jump p q d i label _ hi ht hl _ ih =>
    obtain ⟨hd, stack, hr, hw⟩ := ih
    obtain ⟨j, hj, hcode⟩ := hf.places p i hi
    obtain ⟨j', hj', hfit⟩ := hk.fits _ _ hr
    obtain rfl : j = j' := Option.some.inj (hcode.symm.trans hj')
    obtain ⟨rest, rfl⟩ := hfit.operands
    rw [hj.effect] at hw
    refine ⟨exceeds_mono (Nat.sub_le _ _) hd, _, hr.step hcode (.inl (hj.target ht hl)), ?_⟩
    rw [totalWords_append, totalWords_reverse, hj.effect, (popped_eq hd hw).2, pushes_of_target ht]
    exact Nat.zero_add _

/-- **The deepest stack of a buffer is the deepest stack of the paths of the finished code.** -/
theorem Tracked.maxDepth (hb : Tracked b) (hf : Finishes b code) (hk : Consistent code)
    (hlimit : exceeds b.limit 2 = false) :
    exceeds b.limit b.maxDepth = false ∧
      (∀ pos stack, Reaches code pos stack → totalWords stack ≤ b.maxDepth) ∧
      ∃ pos stack, Reaches code pos stack ∧ totalWords stack = b.maxDepth := by
  obtain ⟨p, hp⟩ := hb.attained
  obtain ⟨hle, stack, hr, hw⟩ := hp.reaches hf hk hlimit
  refine ⟨hle, fun pos stack hr => ?_, p, stack, hr, hw⟩
  obtain ⟨i, hi, _⟩ := hk.fits _ _ hr
  have hpos : pos < b.code.size := hf.size ▸ (Array.getElem?_eq_some_iff.mp hi).1
  obtain ⟨d, hd, hpd⟩ := hb.covered pos hpos
  obtain ⟨_, stack', hr', rfl⟩ := hpd.reaches hf hk hlimit
  rw [hk.unique _ _ _ hr hr']
  exact hd

end CodeBuffer

end StackCompiler

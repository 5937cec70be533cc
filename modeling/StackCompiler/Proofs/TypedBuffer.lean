import Mathlib.Logic.Function.Basic
import StackCompiler.Proofs.StackAccepts
import StackCompiler.Proofs.StackTypes
import StackCompiler.Proofs.Writing

/-!
# Types of the code in a buffer

While code is written, every point of it and every label has a shape: the types on the operand
stack and what the frame is known to hold. Writing keeps the shapes in agreement, and it goes wrong
only if there is no room.

* **`Shaped.emit`**, **`Shaped.newLabel`**, **`Shaped.bind`**: the three ways to write.
-/

namespace StackCompiler

variable {labels : Array LabelState} {i : Instruction} {l : LabelId} {state : LabelState}
  {other pos : Nat} {x : Option Subject} {s s' : Shape} {T : Shaping}

/-! ## Shapes -/

/-- The types on the operand stack and the words of the frame at a point of the code. -/
structure Shape where
  stack : TypeStack
  words : Words

namespace Shape

def depth (s : Shape) : Nat := totalWords (TypeStack.kinds s.stack)

/-- The same types are on the stack, and the frame is known to hold no more. -/
structure Le (s t : Shape) : Prop where
  stack : s.stack = t.stack
  words : s.words.Within t.words

theorem Le.refl (s : Shape) : s.Le s := ⟨rfl, .refl _⟩

theorem Le.trans {t u : Shape} (h : s.Le t) (h' : t.Le u) : s.Le u :=
  ⟨h.stack.trans h'.stack, h.words.trans h'.words⟩

theorem Le.depth {t : Shape} (h : s.Le t) : s.depth = t.depth := by
  rw [Shape.depth, Shape.depth, h.stack]

/-- An instruction gets its operands and reads only values of the variable that it is about, in a
frame of the given size. What callers hand over stays where they put it. -/
structure Accepts (known : MethodTypes) (frame : Nat) (x : Option Subject) (i : Instruction)
    (s s' : Shape) : Prop where
  types : i.retype known x s.stack = some s'.stack
  words : s'.words = s.words.after x i
  reads : ∀ e, i.reads x = some e → e.subject.isSome ∧ s.words.Holds e ∧ e.AtHome known
  writes : ∀ e, i.writes x = some e → e.AtHome known
  slots : i.slotsBelow frame

theorem Accepts.plain {known : MethodTypes} {frame : Nat} {stack after : TypeStack} {w : Words}
    (ht : i.retype known x stack = some after) (hreads : i.reads x = none)
    (hwrites : i.writes x = none) (hslots : i.slotsBelow frame) :
    Accepts known frame x i ⟨stack, w⟩ ⟨after, w⟩ := by
  refine ⟨ht, by simp only [Words.after, hwrites], fun e he => ?_, fun e he => ?_, hslots⟩
  · cases hreads.symm.trans he
  · cases hwrites.symm.trans he

section

variable {known : MethodTypes} {frame slot : Nat} {y : Subject} {t : JvmType} {kind : Kind}
  {stack : TypeStack} {w : Words} (hy : known.variable_ y = some t) (hkind : t.kind? = some kind)
  (hhome : Entry.AtHome ⟨some y, kind, slot⟩ known) (hframe : slot + kind.words ≤ frame)
include hy hkind hhome hframe

theorem Accepts.load (hword : w.Holds ⟨some y, kind, slot⟩) :
    Accepts known frame (some y) (.load kind slot) ⟨stack, w⟩ ⟨t.onStack :: stack, w⟩ := by
  refine ⟨?_, rfl, fun e he => ?_, nofun, hframe⟩
  · simp only [Instruction.retype, Option.bind_some, hy, if_pos hkind]
  · cases he
    exact ⟨rfl, hword, hhome⟩

theorem Accepts.store (stack : TypeStack) (w : Words) : Accepts known frame (some y)
    (.store kind slot) ⟨t.onStack :: stack, w⟩ ⟨stack, w.write ⟨some y, kind, slot⟩⟩ := by
  refine ⟨?_, rfl, nofun, fun e he => ?_, hframe⟩
  · simp only [Instruction.retype, Option.bind_some, hy, if_pos hkind, takeTypes,
      if_pos t.onStack_standsFor]
  · cases he
    exact hhome

end

theorem Accepts.mono {types : MethodTypes} {frame frame' : Nat} (hle : frame ≤ frame')
    (h : Accepts types frame x i s s') : Accepts types frame' x i s s' := by
  refine ⟨h.types, h.words, h.reads, h.writes, ?_⟩
  have hslots := h.slots
  cases i with
  | load | store => exact Nat.le_trans hslots hle
  | iinc => exact Nat.lt_of_lt_of_le hslots hle
  | _ => trivial

end Shape

/-- The shapes of the points of a code and of its labels. -/
structure Shaping where
  at_ : Nat → Option Shape
  label : LabelId → Shape

namespace Shaping

def Leads (T : Shaping) (pos : Nat) (s : Shape) : Prop := ∃ c, T.at_ pos = some c ∧ c.Le s

theorem Leads.mono (h : T.Leads pos s) (hle : s.Le s') : T.Leads pos s' := by
  obtain ⟨c, hc, hcs⟩ := h
  exact ⟨c, hc, hcs.trans hle⟩

def set (T : Shaping) (pos : Nat) (s : Option Shape) : Shaping :=
  { T with at_ := Function.update T.at_ pos s }

theorem set_at (T : Shaping) (pos : Nat) (s : Option Shape) : (T.set pos s).at_ pos = s :=
  Function.update_self ..

theorem set_at_of_ne (T : Shaping) (s : Option Shape) (h : other ≠ pos) :
    (T.set pos s).at_ other = T.at_ other :=
  Function.update_of_ne h ..

theorem Leads.set (h : T.Leads other s) (hne : other ≠ pos) (c : Option Shape) :
    (T.set pos c).Leads other s := by
  obtain ⟨d, hd, hle⟩ := h
  exact ⟨d, by rw [set_at_of_ne T c hne, hd], hle⟩

theorem Leads.weaken {c c' : Shape} (h : T.Leads other s) (hc : T.at_ pos = some c)
    (hle : c'.Le c) : (T.set pos (some c')).Leads other s := by
  by_cases hne : other = pos
  · subst hne
    obtain ⟨d, hd, hds⟩ := h
    cases hc.symm.trans hd
    exact ⟨c', set_at .., hle.trans hds⟩
  · exact h.set hne _

end Shaping

/-! ## Buffers -/

/-- Where shaped code begins, and what holds of all of it. -/
structure Setting where
  types : MethodTypes
  limit : Option Nat
  first : Nat
  label : LabelId
  entry : Shape

namespace CodeBuffer

def subjectAt (b : CodeBuffer) (pos : Nat) : Option Subject := (b.subjects[pos]?).join

/-- There is a jump to the label, or control gets to it otherwise. -/
def Noted (b : CodeBuffer) (label : LabelId) : Prop :=
  ∃ state, b.labels[label]? = some state ∧ state.depth.isSome

theorem Noted.lt {b : CodeBuffer} (h : b.Noted l) : l < b.labels.size := by
  obtain ⟨state, hs, -⟩ := h
  exact (Array.getElem?_eq_some_iff.mp hs).1

/-- A jump to the label with the shape is in order. -/
def Open (S : Setting) (b : CodeBuffer) (T : Shaping) (label : LabelId) (s : Shape) : Prop :=
  S.label ≤ label ∧ (∃ state, b.labels[label]? = some state ∧
    (state.position = none ∨ state.depth.isSome)) ∧ (T.label label).Le s

/-- The shapes of all points agree with the instructions and labels of a buffer. -/
structure Shaped (S : Setting) (frame : Nat) (b : CodeBuffer) (T : Shaping) : Prop where
  limit : b.limit = S.limit
  room : exceeds S.limit 2 = false
  first : S.first ≤ b.code.size
  label : S.label ≤ b.labels.size
  subjects : b.subjects.size = b.code.size
  start : T.Leads S.first S.entry
  reach : b.reachable = (T.at_ b.code.size).isSome
  depth : ∀ s, T.at_ b.code.size = some s → b.depth = s.depth ∧ exceeds S.limit b.depth = false
  deepest : ∀ pos s, T.at_ pos = some s → s.depth ≤ b.maxDepth
  noted : ∀ (l : LabelId) (state : LabelState) (d : Nat), S.label ≤ l → b.labels[l]? = some state →
    state.depth = some d → d = (T.label l).depth ∧ exceeds S.limit d = false ∧ d ≤ b.maxDepth
  placed : ∀ (l : LabelId) (state : LabelState) (pos : Nat), S.label ≤ l →
    b.labels[l]? = some state → state.position = some pos → state.depth.isSome →
      pos ≤ b.code.size ∧ T.Leads pos (T.label l)
  code : ∀ (pos : Nat) (i : Instruction), S.first ≤ pos → b.code[pos]? = some i →
    ∃ s s', T.at_ pos = some s ∧ Shape.Accepts S.types frame (b.subjectAt pos) i s s' ∧
      (i.isTerminal = false → T.Leads (pos + 1) s') ∧
      ∀ target, i.target? = some target → ∃ l, target = .label l ∧ S.label ≤ l ∧ b.Noted l ∧
        (T.label l).Le s'

/-- What writing keeps. Of the labels below a number, only those of a set may get further jumps. -/
structure Grows (n : Nat) (J : LabelId → Prop) (b : CodeBuffer) (T : Shaping)
    (b' : CodeBuffer) (T' : Shaping) : Prop where
  keeps : b.Keeps b'
  size : b.labels.size ≤ b'.labels.size
  shapes : ∀ l < b.labels.size, T'.label l = T.label l
  kept : ∀ l < n, ∀ state, b.labels[l]? = some state → ∃ state', b'.labels[l]? = some state' ∧
    state'.position = state.position ∧ (state.depth.isSome → state'.depth.isSome)
  same : ∀ l < n, ¬ J l → b'.labels[l]? = b.labels[l]?

/-- What a piece of code leaves as it is: all labels that it makes are placed. -/
structure Extends (n : Nat) (J : LabelId → Prop) (b : CodeBuffer) (T : Shaping)
    (b' : CodeBuffer) (T' : Shaping) : Prop extends Grows n J b T b' T' where
  placed : ∀ l, b.labels.size ≤ l → l < b'.labels.size → (b'.labelAt l).isSome

section

variable {S : Setting} {frame frame' : Nat} {b b' b1 b2 : CodeBuffer} {T T' T1 T2 : Shaping}
  {n n' : Nat} {J J' : LabelId → Prop}

theorem Grows.refl (b : CodeBuffer) (T : Shaping) (n : Nat) (J : LabelId → Prop) :
    Grows n J b T b T :=
  ⟨.refl b, Nat.le_refl _, fun _ _ => rfl, fun _ _ state h => ⟨state, h, rfl, fun h => h⟩,
    fun _ _ _ => rfl⟩

theorem Grows.trans (h : Grows n J b T b1 T1) (h' : Grows n J b1 T1 b2 T2) :
    Grows n J b T b2 T2 := by
  refine ⟨h.keeps.trans h'.keeps, Nat.le_trans h.size h'.size, fun l hl => ?_,
    fun l hl state hs => ?_, fun l hl hj => (h'.same l hl hj).trans (h.same l hl hj)⟩
  · rw [h'.shapes l (Nat.lt_of_lt_of_le hl h.size), h.shapes l hl]
  · obtain ⟨state1, hs1, hp1, hd1⟩ := h.kept l hl state hs
    obtain ⟨state2, hs2, hp2, hd2⟩ := h'.kept l hl state1 hs1
    exact ⟨state2, hs2, hp2.trans hp1, fun hd => hd2 (hd1 hd)⟩

theorem Grows.mono (h : Grows n J b T b' T') (hn : n' ≤ n) (hJ : ∀ l < n', J l → J' l) :
    Grows n' J' b T b' T' :=
  ⟨h.keeps, h.size, h.shapes, fun l hl => h.kept l (Nat.lt_of_lt_of_le hl hn),
    fun l hl hj => h.same l (Nat.lt_of_lt_of_le hl hn) fun hj' => hj (hJ l hl hj')⟩

theorem Grows.labelAt (h : Grows n J b T b' T') (hl : (b.labelAt l).isSome) :
    (b'.labelAt l).isSome := by
  obtain ⟨pos, hpos⟩ := Option.isSome_iff_exists.mp hl
  rw [h.keeps.labels l pos hpos]
  rfl

theorem Extends.refl (b : CodeBuffer) (T : Shaping) (n : Nat) (J : LabelId → Prop) :
    Extends n J b T b T :=
  ⟨.refl b T n J, fun _ hle hlt => absurd hlt (Nat.not_lt.mpr hle)⟩

theorem Extends.trans (h : Extends n J b T b1 T1) (h' : Extends n J b1 T1 b2 T2) :
    Extends n J b T b2 T2 := by
  refine ⟨h.toGrows.trans h'.toGrows, fun l hle hlt => ?_⟩
  rcases Nat.lt_or_ge l b1.labels.size with hlt1 | hge
  · exact h'.labelAt (h.placed l hle hlt1)
  · exact h'.placed l hge hlt

theorem Extends.mono (h : Extends n J b T b' T') (hn : n' ≤ n) (hJ : ∀ l < n', J l → J' l) :
    Extends n' J' b T b' T' :=
  ⟨h.toGrows.mono hn hJ, h.placed⟩

/-- A label that is made and then placed counts among those that are placed. -/
theorem Extends.fresh (h : Extends n J b1 T1 b' T') (hn : n ≤ b.labels.size)
    (hlabels : b1.labels = b.labels.push ⟨none, none⟩) (hkeeps : b.Keeps b1)
    (hshapes : ∀ l < b.labels.size, T1.label l = T.label l)
    (hplaced : (b'.labelAt b.labels.size).isSome) : Extends n J b T b' T' := by
  have hsize : b1.labels.size = b.labels.size + 1 := by rw [hlabels, Array.size_push]
  have hold (l : LabelId) (hl : l < n) : b1.labels[l]? = b.labels[l]? := by
    rw [hlabels, Array.getElem?_push, if_neg (Nat.ne_of_lt (Nat.lt_of_lt_of_le hl hn))]
  refine ⟨⟨hkeeps.trans h.keeps, by have := h.size; omega, fun l hl => ?_, fun l hl state hs => ?_,
    fun l hl hj => (h.same l hl hj).trans (hold l hl)⟩, fun l hle hlt => ?_⟩
  · rw [h.shapes l (by omega), hshapes l hl]
  · exact h.kept l hl state (hold l hl ▸ hs)
  · rcases Nat.eq_or_lt_of_le hle with rfl | hle
    · exact hplaced
    · exact h.placed l (by omega) hlt

theorem Grows.noted (h : Grows n J b T b' T') (hl : l < n) (hb : b.Noted l) : b'.Noted l := by
  obtain ⟨state, hs, hd⟩ := hb
  obtain ⟨state', hs', -, hd'⟩ := h.kept l hl state hs
  exact ⟨state', hs', hd' hd⟩

theorem Open.lt (h : b.Open S T l s) : l < b.labels.size := by
  obtain ⟨-, ⟨state, hs, -⟩, -⟩ := h
  exact (Array.getElem?_eq_some_iff.mp hs).1

theorem Open.grows (h : b.Open S T l s) (he : Grows b.labels.size J b T b' T') :
    b'.Open S T' l s := by
  have hlt := h.lt
  obtain ⟨hown, ⟨state, hs, hfree⟩, hle⟩ := h
  obtain ⟨state', hs', hp, hd⟩ := he.kept l hlt state hs
  exact ⟨hown, ⟨state', hs', hfree.imp (hp.trans ·) hd⟩, he.shapes l hlt ▸ hle⟩

theorem Open.extends (h : b.Open S T l s) (he : Extends b.labels.size J b T b' T') :
    b'.Open S T' l s := h.grows he.toGrows

theorem Shaped.mono (h : b.Shaped S frame T) (hle : frame ≤ frame') : b.Shaped S frame' T := by
  refine ⟨h.limit, h.room, h.first, h.label, h.subjects, h.start, h.reach, h.depth, h.deepest,
    h.noted, h.placed, fun pos i hpos hi => ?_⟩
  obtain ⟨s, s', hs, ha, hrest⟩ := h.code pos i hpos hi
  exact ⟨s, s', hs, ha.mono hle, hrest⟩

theorem Shaped.weaken (h : b.Shaped S frame T) (hs : T.at_ b.code.size = some s) (hle : s'.Le s) :
    b.Shaped S frame (T.set b.code.size (some s')) := by
  refine ⟨h.limit, h.room, h.first, h.label, h.subjects, h.start.weaken hs hle, ?_, fun c hc => ?_,
    fun pos c hc => ?_, h.noted, fun l state pos hl hstate hp hd => ?_, fun pos i hpos hi => ?_⟩
  · rw [h.reach, hs, Shaping.set_at]
    rfl
  · rw [Shaping.set_at] at hc
    cases hc
    rw [hle.depth]
    exact h.depth s hs
  · by_cases hp : pos = b.code.size
    · rw [hp, Shaping.set_at] at hc
      cases hc
      rw [hle.depth]
      exact h.deepest _ s hs
    · rw [Shaping.set_at_of_ne T _ hp] at hc
      exact h.deepest pos c hc
  · obtain ⟨hle', hleads⟩ := h.placed l state pos hl hstate hp hd
    exact ⟨hle', hleads.weaken hs hle⟩
  · obtain ⟨c, c', hc, ha, hnext, htarget⟩ := h.code pos i hpos hi
    have hlt : pos < b.code.size := (Array.getElem?_eq_some_iff.mp hi).1
    exact ⟨c, c', by rw [Shaping.set_at_of_ne T _ (Nat.ne_of_lt hlt), hc], ha,
      fun ht => (hnext ht).weaken hs hle, htarget⟩

/-! ## Making labels -/

theorem Shaped.newLabel (h : b.Shaped S frame T) (s : Shape) :
    Shaped S frame { b with labels := b.labels.push ⟨none, none⟩ }
      { T with label := Function.update T.label b.labels.size s } := by
  have hold {l : LabelId} {state : LabelState}
      (hs : (b.labels.push ⟨none, none⟩)[l]? = some state) :
      b.labels[l]? = some state ∧ l ≠ b.labels.size ∨ state = ⟨none, none⟩ := by
    rw [Array.getElem?_push] at hs
    split_ifs at hs with hl
    · exact .inr (Option.some.inj hs).symm
    · exact .inl ⟨hs, hl⟩
  refine ⟨h.limit, h.room, h.first, ?_, h.subjects, h.start, h.reach, h.depth, h.deepest,
    fun l state d hl hs hd => ?_, fun l state pos hl hs hp hd => ?_, fun pos i hpos hi => ?_⟩
  · exact Nat.le_trans h.label (by simp)
  · rcases hold hs with ⟨hs, hne⟩ | rfl
    · simp only [Function.update_of_ne hne]
      exact h.noted l state d hl hs hd
    · cases hd
  · rcases hold hs with ⟨hs, hne⟩ | rfl
    · simp only [Function.update_of_ne hne]
      exact h.placed l state pos hl hs hp hd
    · cases hp
  · obtain ⟨c, c', hc, ha, hnext, htarget⟩ := h.code pos i hpos hi
    refine ⟨c, c', hc, ha, hnext, fun t ht => ?_⟩
    obtain ⟨l, rfl, hl, ⟨state, hs, hd⟩, hle⟩ := htarget t ht
    have hne : l ≠ b.labels.size := Nat.ne_of_lt (Array.getElem?_eq_some_iff.mp hs).1
    refine ⟨l, rfl, hl, ⟨state, getElem?_push_of_some _ hs, hd⟩, ?_⟩
    simp only [Function.update_of_ne hne]
    exact hle

/-! ## Placing labels -/

/-- The buffer with a label placed at the end of its code, where the stack has the given depth. -/
structure Placing (l : LabelId) (depth : Option Nat) (b b' : CodeBuffer) : Prop where
  code : b'.code = b.code
  subjects : b'.subjects = b.subjects
  limit : b'.limit = b.limit
  maxDepth : b'.maxDepth = b.maxDepth
  labels : b'.labels = b.labels.setIfInBounds l ⟨some b.code.size, depth⟩

namespace Placing

variable {l : LabelId} {depth : Option Nat}

section

variable (h : Placing l depth b b')
include h

theorem at_self (hl : l < b.labels.size) : b'.labels[l]? = some ⟨some b.code.size, depth⟩ := by
  rw [h.labels, Array.getElem?_setIfInBounds, if_pos rfl, if_pos hl]

theorem at_other {other : LabelId} (hne : other ≠ l) : b'.labels[other]? = b.labels[other]? := by
  rw [h.labels, Array.getElem?_setIfInBounds, if_neg (Ne.symm hne)]

theorem size : b'.labels.size = b.labels.size := by
  rw [h.labels, Array.size_setIfInBounds]

theorem labelAt (hl : l < b.labels.size) : b'.labelAt l = some b.code.size := by
  rw [CodeBuffer.labelAt, h.at_self hl]
  rfl

end

/-- Placing a label keeps the shapes in agreement, if the shape at the end is that of the label if
control gets there. -/
theorem shaped (hb : Placing l depth b b') (h : b.Shaped S frame T) (hl : b.labels[l]? = some state)
    {c : Option Shape}
    (hdepth : ∀ d, depth = some d → d = (T.label l).depth ∧ exceeds S.limit d = false ∧
      d ≤ b.maxDepth) (hsome : state.depth.isSome → depth.isSome)
    (hend : depth.isSome → c = some (T.label l)) (hreach : b'.reachable = c.isSome)
    (hc : ∀ s, c = some s → b'.depth = s.depth ∧ exceeds S.limit b'.depth = false ∧
      s.depth ≤ b.maxDepth) (hweak : ∀ pos s, T.Leads pos s → (T.set b.code.size c).Leads pos s) :
    b'.Shaped S frame (T.set b.code.size c) := by
  have hlt : l < b.labels.size := (Array.getElem?_eq_some_iff.mp hl).1
  refine ⟨hb.limit.trans h.limit, h.room, by rw [hb.code]; exact h.first,
    by rw [hb.size]; exact h.label, by rw [hb.subjects, hb.code, h.subjects],
    hweak _ _ h.start, by rw [hb.code, Shaping.set_at, hreach], fun s hs => ?_, fun pos s hs => ?_,
    fun other st d hown hst hd => ?_, fun other st pos hown hst hp hd => ?_,
    fun pos i hpos hi => ?_⟩
  · rw [hb.code, Shaping.set_at] at hs
    obtain ⟨h1, h2, -⟩ := hc s hs
    exact ⟨h1, h2⟩
  · rw [hb.maxDepth]
    by_cases hp : pos = b.code.size
    · rw [hp, Shaping.set_at] at hs
      exact (hc s hs).2.2
    · rw [Shaping.set_at_of_ne T _ hp] at hs
      exact h.deepest pos s hs
  · rw [hb.maxDepth]
    by_cases hne : other = l
    · subst hne
      rw [hb.at_self hlt] at hst
      cases hst
      exact hdepth d hd
    · rw [hb.at_other hne] at hst
      exact h.noted other st d hown hst hd
  · rw [hb.code]
    by_cases hne : other = l
    · subst hne
      rw [hb.at_self hlt] at hst
      cases hst
      cases hp
      refine ⟨Nat.le_refl _, T.label other, ?_, .refl _⟩
      rw [Shaping.set_at, hend hd]
    · rw [hb.at_other hne] at hst
      obtain ⟨hle, hleads⟩ := h.placed other st pos hown hst hp hd
      exact ⟨hle, hweak _ _ hleads⟩
  · rw [hb.code] at hi
    obtain ⟨s, s', hs, ha, hnext, htarget⟩ := h.code pos i hpos hi
    have hpos' : pos < b.code.size := (Array.getElem?_eq_some_iff.mp hi).1
    have hsubject : b'.subjectAt pos = b.subjectAt pos := by
      rw [subjectAt, subjectAt, hb.subjects]
    refine ⟨s, s', by rw [Shaping.set_at_of_ne T _ (Nat.ne_of_lt hpos'), hs], hsubject ▸ ha,
      fun ht => hweak _ _ (hnext ht), fun t ht => ?_⟩
    obtain ⟨other, rfl, hown, ⟨st, hst, hd⟩, hle⟩ := htarget t ht
    refine ⟨other, rfl, hown, ?_, hle⟩
    by_cases hne : other = l
    · subst hne
      cases hl.symm.trans hst
      exact ⟨_, hb.at_self hlt, hsome hd⟩
    · exact ⟨st, by rw [hb.at_other hne, hst], hd⟩

end Placing

/-- The shape at the end after a label is placed there: that of the label, if control gets there. -/
def endShape (b : CodeBuffer) (T : Shaping) (l : LabelId) (state : LabelState) : Option Shape :=
  if b.reachable || state.depth.isSome then some (T.label l) else none

/-- **A label can be placed where no less is known than its shape says.** -/
theorem Shaped.bind (h : b.Shaped S frame T) (hl : b.labels[l]? = some state)
    (hfree : state.position = none) (hown : S.label ≤ l)
    (hs : ∀ s, T.at_ b.code.size = some s → (T.label l).Le s) :
    ∃ b' depth, CodeBuffer.bind l b = .ok () b' ∧ Placing l depth b b' ∧
      depth.isSome = (b.endShape T l state).isSome ∧
      b'.Shaped S frame (T.set b.code.size (b.endShape T l state)) := by
  cases hr : b.reachable with
  | true =>
    obtain ⟨s, hcur⟩ := Option.isSome_iff_exists.mp (h.reach.symm.trans hr)
    have hle := hs s hcur
    obtain ⟨hd, hfits⟩ := h.depth s hcur
    have hmax := h.deepest _ s hcur
    have hagrees : state.depth = none ∨ state.depth = some b.depth := by
      cases hsd : state.depth with
      | none => exact .inl rfl
      | some d =>
        rw [(h.noted l state d hown hl hsd).1, hle.depth, ← hd]
        exact .inr rfl
    have hend : b.endShape T l state = some (T.label l) := by simp [endShape, hr]
    obtain ⟨b', hb', hplacing, hr', hd'⟩ : ∃ b', Binds l b b' ∧ Placing l (some b.depth) b b' ∧
        b'.reachable = true ∧ b'.depth = b.depth :=
      ⟨_, .onPath hl hfree hr hagrees, ⟨rfl, rfl, rfl, rfl, rfl⟩, hr, rfl⟩
    rw [hend]
    refine ⟨b', _, bind_eq_ok.mpr hb', hplacing, rfl, hplacing.shaped h hl (fun d hd1 => ?_)
      (fun _ => rfl) (fun _ => rfl) hr' (fun c hc => ?_) fun pos c hleads => hleads.weaken hcur hle⟩
    · cases hd1
      rw [hle.depth, ← hd]
      exact ⟨rfl, hfits, hd ▸ hmax⟩
    · cases hc
      rw [hle.depth, hd']
      exact ⟨hd, hfits, hmax⟩
  | false =>
    have hcur : T.at_ b.code.size = none := by simpa [hr] using h.reach
    have hweak (c : Option Shape) (pos : Nat) (s : Shape) (hleads : T.Leads pos s) :
        (T.set b.code.size c).Leads pos s := by
      refine hleads.set ?_ c
      rintro rfl
      obtain ⟨d, hd, -⟩ := hleads
      rw [hcur] at hd
      cases hd
    cases hsd : state.depth with
    | some d =>
      obtain ⟨hd, hfits, hmax⟩ := h.noted l state d hown hl hsd
      have hend : b.endShape T l state = some (T.label l) := by simp [endShape, hsd]
      obtain ⟨b', hb', hplacing, hr', hd'⟩ : ∃ b', Binds l b b' ∧ Placing l (some d) b b' ∧
          b'.reachable = true ∧ b'.depth = d :=
        ⟨_, .byJumps hl hfree hr hsd, ⟨rfl, rfl, rfl, rfl, rfl⟩, rfl, rfl⟩
      rw [hend]
      refine ⟨b', _, bind_eq_ok.mpr hb', hplacing, rfl, hplacing.shaped h hl (fun d1 hd1 => ?_)
        (fun _ => rfl) (fun _ => rfl) hr' (fun c hc => ?_) (hweak _)⟩
      · cases hd1
        exact ⟨hd, hfits, hmax⟩
      · cases hc
        rw [hd']
        exact ⟨hd, hfits, hd ▸ hmax⟩
    | none =>
      have hend : b.endShape T l state = none := by simp [endShape, hr, hsd]
      obtain ⟨b', hb', hplacing, hr'⟩ : ∃ b', Binds l b b' ∧ Placing l none b b' ∧
          b'.reachable = false :=
        ⟨_, .outOfReach hl hfree hr hsd, ⟨rfl, rfl, rfl, rfl, rfl⟩, hr⟩
      rw [hend]
      exact ⟨b', _, bind_eq_ok.mpr hb', hplacing, rfl,
        hplacing.shaped h hl nofun (by simp [hsd]) nofun hr' nofun (hweak _)⟩

/-! ## Appending instructions -/

theorem Notes.at_some (h : Notes i b labels) (hl : labels[l]? = some state) :
    ∃ old, b.labels[l]? = some old ∧ state.position = old.position ∧
      (state = old ∨ i.target? = some (.label l) ∧ state.depth = some b.depth) := by
  cases h with
  | other _ => exact ⟨state, hl, rfl, .inl rfl⟩
  | @jump target old ht hold _ =>
    rw [Array.getElem?_setIfInBounds] at hl
    split_ifs at hl with he
    · subst he
      cases hl
      exact ⟨old, hold, rfl, .inr ⟨ht, rfl⟩⟩
    · exact ⟨state, hl, rfl, .inl rfl⟩

theorem Notes.of_some (h : Notes i b labels) {old : LabelState} (hl : b.labels[l]? = some old) :
    ∃ state, labels[l]? = some state ∧ state.position = old.position ∧
      (old.depth.isSome → state.depth.isSome) := by
  cases h with
  | other _ => exact ⟨old, hl, rfl, fun h => h⟩
  | @jump target old' ht hold _ =>
    by_cases he : target = l
    · subst he
      cases hold.symm.trans hl
      have hlt := (Array.getElem?_eq_some_iff.mp hl).1
      exact ⟨{ old with depth := some b.depth }, by
        rw [Array.getElem?_setIfInBounds, if_pos rfl, if_pos hlt], rfl, fun _ => rfl⟩
    · exact ⟨old, by rw [Array.getElem?_setIfInBounds, if_neg he, hl], rfl, fun h => h⟩

theorem Notes.size (h : Notes i b labels) : labels.size = b.labels.size := by
  cases h with
  | other _ => rfl
  | jump => exact Array.size_setIfInBounds ..

theorem emit_overflow (hr : b.reachable = true) (he : b.popped i ≤ b.depth)
    (hn : Notes i (b.taken i) labels)
    (hfull : exceeds b.limit (b.depth - b.popped i + b.pushed i) = true) :
    ∃ b', emitAbout x i b = .error .overflow b' := by
  have ht : take i b = .ok () (b.taken i) := if_neg (Nat.not_lt.mpr he)
  have hn' := noteTarget_eq_ok.mpr ⟨_, hn, rfl⟩
  rw [emit_of_reachable hr]
  simp only [Bind.bind, EStateM.bind, ht, hn', put]
  rw [if_pos (by simpa [popped, pushed, taken] using hfull)]
  exact ⟨_, rfl⟩

/-- The shape at the end of the code after an instruction. -/
def nextShape (i : Instruction) (s : Shape) : Option Shape :=
  if i.isTerminal then none else some s

section

variable (h : b.Shaped S frame T) (hs : T.at_ b.code.size = some s)
  (ha : Shape.Accepts S.types frame x i s s')
include h hs ha

/-- The words that an instruction takes and leaves are those of its types. -/
theorem Shaped.words : b.popped i ≤ b.depth ∧ b.depth - b.popped i + b.pushed i = s'.depth := by
  obtain ⟨rest, hpops, hpushes⟩ := retype_kinds ha.types
  obtain ⟨hd, hfits⟩ := h.depth s hs
  rw [← h.limit] at hfits
  have hroom : exceeds b.limit 2 = false := h.limit ▸ h.room
  have htotal : totalWords (i.effect.pops.reverse ++ rest) = b.depth := by
    rw [hd, Shape.depth, hpops]
  obtain ⟨hpop, hrest⟩ := popped_eq hfits htotal
  rw [totalWords_append, totalWords_reverse] at htotal
  refine ⟨by omega, ?_⟩
  rw [pushed_eq i hroom, ← hrest, Shape.depth, hpushes, totalWords_append, totalWords_reverse]
  omega

/-- **An instruction that gets what it wants can be appended**, unless there is no room on the
stack. -/
theorem Shaped.emit (ht : ∀ t, i.target? = some t → ∃ l, t = .label l ∧ b.Open S T l s') :
    (∃ b', emitAbout x i b = .error .overflow b' ∧ S.limit.isSome) ∨
      ∃ b' labels, emitAbout x i b = .ok () b' ∧ Notes i (b.taken i) labels ∧ b'.labels = labels ∧
        b'.code = b.code.push i ∧ b'.subjects = b.subjects.push x ∧
        b'.Shaped S frame (T.set (b.code.size + 1) (nextShape i s')) := by
  have hr : b.reachable = true := by rw [h.reach, hs]; rfl
  obtain ⟨henough, hdepth⟩ := h.words hs ha
  have hmax := h.deepest _ s hs
  have hdepthEq := (h.depth s hs).1
  -- a jump leaves nothing on the stack
  have hjump {l : LabelId} (hl : i.target? = some (.label l)) :
    b.depth - b.popped i = s'.depth := by
    have hzero : b.pushed i = 0 := by
      rw [pushed_eq i (h.limit ▸ h.room), pushes_of_target hl]
      rfl
    omega
  obtain ⟨labels, hnotes⟩ : ∃ labels, Notes i (b.taken i) labels := by
    cases hi : i.target? with
    | none => exact ⟨_, .other (by simp [hi])⟩
    | some t =>
      obtain ⟨l, rfl, hown, ⟨state, hstate, -⟩, hle⟩ := ht t hi
      refine ⟨_, .jump hi hstate ?_⟩
      cases hsd : state.depth with
      | none => exact .inl rfl
      | some d =>
        rw [(h.noted l state d hown hstate hsd).1, hle.depth, ← hjump hi]
        exact .inr rfl
  cases hfull : exceeds b.limit (b.depth - b.popped i + b.pushed i) with
  | true =>
    obtain ⟨b', hb'⟩ := emit_overflow (x := x) hr henough hnotes hfull
    refine .inl ⟨b', hb', ?_⟩
    rw [← h.limit]
    cases hlim : b.limit with
    | none => rw [hlim] at hfull; cases hfull
    | some _ => rfl
  | false =>
  refine .inr ⟨_, labels, emit_eq_ok.mpr (.appended hr henough hnotes hfull), hnotes,
    rfl, rfl, rfl, ?_⟩
  have hsize : (b.code.push i).size = b.code.size + 1 := Array.size_push ..
  have hfirst := h.first
  have hkeep {pos : Nat} {c : Shape} (hleads : T.Leads pos c) (hpos : pos ≤ b.code.size) :
      (T.set (b.code.size + 1) (nextShape i s')).Leads pos c := hleads.set (by omega) _
  have hcur : (T.set (b.code.size + 1) (nextShape i s')).at_ (b.code.size + 1) =
      nextShape i s' := Shaping.set_at ..
  have hnoted {l : LabelId} (hl : b.Noted l) : ∃ state, labels[l]? = some state ∧
      state.depth.isSome := by
    obtain ⟨state, hstate, hd⟩ := hl
    obtain ⟨state', hstate', -, hd'⟩ := hnotes.of_some hstate
    exact ⟨state', hstate', hd' hd⟩
  refine ⟨h.limit, h.room, by rw [hsize]; omega, by rw [hnotes.size]; exact h.label,
    by simp [h.subjects], hkeep h.start hfirst, ?_, fun c hc => ?_, fun pos c hc => ?_,
    fun l state d hown hstate hd => ?_, fun l state pos hown hstate hp hd => ?_,
    fun pos j hpos hj => ?_⟩
  · show (!i.isTerminal) = _
    rw [hsize, hcur, nextShape]
    cases i.isTerminal <;> rfl
  · rw [hsize, hcur, nextShape] at hc
    split_ifs at hc
    cases hc
    exact ⟨hdepth, by rw [← h.limit]; exact hfull⟩
  · by_cases hp : pos = b.code.size + 1
    · rw [hp, hcur, nextShape] at hc
      split_ifs at hc
      cases hc
      exact hdepth ▸ Nat.le_max_right _ _
    · rw [Shaping.set_at_of_ne T _ hp] at hc
      exact Nat.le_trans (h.deepest pos c hc) (Nat.le_max_left _ _)
  · obtain ⟨old, hold, -, rfl | ⟨hl, hnew⟩⟩ := hnotes.at_some hstate
    · obtain ⟨h1, h2, h3⟩ := h.noted l state d hown hold hd
      exact ⟨h1, h2, Nat.le_trans h3 (Nat.le_max_left _ _)⟩
    · cases hnew.symm.trans hd
      obtain ⟨l', hl', -, -, hle⟩ := ht _ hl
      cases hl'
      have hfits := (h.depth s hs).2
      refine ⟨?_, exceeds_mono (Nat.sub_le _ _) hfits, ?_⟩
      · show b.depth - b.popped i = (T.label l).depth
        rw [hle.depth, hjump hl]
      · show b.depth - b.popped i ≤ max b.maxDepth _
        omega
  · obtain ⟨old, hold, hpos, rfl | ⟨hl, hnew⟩⟩ := hnotes.at_some hstate
    · obtain ⟨hle, hleads⟩ := h.placed l state pos hown hold hp hd
      exact ⟨by rw [hsize]; omega, hkeep hleads hle⟩
    · obtain ⟨l', hl', -, ⟨state', hstate', hfree⟩, -⟩ := ht _ hl
      cases hl'
      cases hstate'.symm.trans hold
      have hdep := hfree.resolve_left (by rw [← hpos, hp]; nofun)
      obtain ⟨hle, hleads⟩ := h.placed l _ pos hown hold (by rw [← hpos, hp]) hdep
      exact ⟨by rw [hsize]; omega, hkeep hleads hle⟩
  · rcases Nat.lt_or_ge pos b.code.size with hlt | hge
    · have hold : b.code[pos]? = some j := by
        rw [← hj, Array.getElem?_push, if_neg (Nat.ne_of_lt hlt)]
      obtain ⟨c, c', hc, hac, hnext, htarget⟩ := h.code pos j hpos hold
      have hsubject : ({ b with
          code := b.code.push i, subjects := b.subjects.push x, labels := labels
          depth := b.depth - b.popped i + b.pushed i
          maxDepth := max b.maxDepth (b.depth - b.popped i + b.pushed i)
          reachable := !i.isTerminal } : CodeBuffer).subjectAt pos = b.subjectAt pos := by
        simp only [subjectAt]
        rw [Array.getElem?_push, if_neg (by rw [h.subjects]; exact Nat.ne_of_lt hlt)]
      refine ⟨c, c', by rw [Shaping.set_at_of_ne T _ (by omega), hc], hsubject ▸ hac,
        fun hterm => hkeep (hnext hterm) hlt, fun t htt => ?_⟩
      obtain ⟨l, rfl, hown, hl, hle⟩ := htarget t htt
      exact ⟨l, rfl, hown, hnoted hl, hle⟩
    · have hlt : pos < b.code.size + 1 := hsize ▸ (Array.getElem?_eq_some_iff.mp hj).1
      obtain rfl : pos = b.code.size := by omega
      rw [Array.getElem?_push, if_pos rfl] at hj
      cases hj
      refine ⟨s, s', by rw [Shaping.set_at_of_ne T _ (by omega), hs], ?_, fun hterm => ?_,
        fun t htt => ?_⟩
      · simp only [subjectAt]
        rw [Array.getElem?_push, if_pos h.subjects.symm]
        exact ha
      · exact ⟨s', by rw [hcur, nextShape, hterm]; rfl, .refl _⟩
      · obtain ⟨l, rfl, hown, ⟨state, hstate, -⟩, hle⟩ := ht t htt
        refine ⟨l, rfl, hown, ?_, hle⟩
        cases hnotes with
        | other hno => exact absurd htt (hno l)
        | @jump l' old hl' hold _ =>
          cases hl'.symm.trans htt
          have hlt' := (Array.getElem?_eq_some_iff.mp hold).1
          exact ⟨_, by rw [Array.getElem?_setIfInBounds, if_pos rfl, if_pos hlt'], rfl⟩

end

end

end CodeBuffer

end StackCompiler

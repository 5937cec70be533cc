import Mathlib.Logic.Function.Basic
import StackCompiler.Proofs.BufferDepth

/-!
# The paths of finished code

Calls of a code buffer keep what control gets to and drop what it does not, and every jump goes to
where its label was placed. The depths that the buffer compares are those at labels. Labels may
stand at one position, and a label that is placed out of reach has no depth until a jump brings
one: the words on the paths to a position agree exactly when its labels do.

* `CodeBuffer.Call`, `CodeBuffer.runAll`: calls of a buffer, one after another;
* **`CodeBuffer.runAll_kept`**: what is kept is what control gets to;
* **`CodeBuffer.runAll_depths_iff`**: the words on paths agree if and only if the labels do.
-/

namespace StackCompiler

open Function

variable {b b' : CodeBuffer} {code : Array Instruction} {i : Instruction} {label : LabelId}
  {p q d : Nat} {x : Option Subject}

namespace CodeBuffer

/-! ## Calls -/

inductive Call where
  | newLabel
  | bind (label : LabelId)
  | emit (x : Option Subject) (i : Instruction)

def Call.run : Call → Write Unit
  | .newLabel => do let _ ← CodeBuffer.newLabel
  | .bind label => CodeBuffer.bind label
  | .emit x i => emitAbout x i

def runAll (calls : List Call) : Write Unit := calls.forM Call.run

variable {call : Call} {calls before after : List Call}

theorem Call.step (h : call.run b = .ok () b') : Step b b' := by
  cases call with
  | newLabel =>
    cases h
    exact .newLabel b
  | bind label => exact .bind label h
  | emit x i => exact .emit x i h

theorem runAll_cons : runAll (call :: calls) b = .ok () b' ↔
    ∃ b1, call.run b = .ok () b1 ∧ runAll calls b1 = .ok () b' := by
  show EStateM.bind call.run (fun _ => runAll calls) b = _ ↔ _
  unfold EStateM.bind
  cases hcall : call.run b <;> simp

theorem runAll_append : runAll (before ++ after) b = .ok () b' ↔
    ∃ b1, runAll before b = .ok () b1 ∧ runAll after b1 = .ok () b' := by
  induction before generalizing b with
  | nil =>
    constructor
    · exact fun h => ⟨b, rfl, h⟩
    · rintro ⟨b1, hb, h⟩
      cases hb
      exact h
  | cons call before ih =>
    rw [List.cons_append, runAll_cons]
    simp only [runAll_cons, ih]
    constructor
    · rintro ⟨b1, hcall, b2, hbefore, hafter⟩
      exact ⟨b2, ⟨b1, hcall, hbefore⟩, hafter⟩
    · rintro ⟨b2, ⟨b1, hcall, hbefore⟩, hafter⟩
      exact ⟨b1, hcall, b2, hbefore, hafter⟩

theorem runAll_leads (h : runAll calls b = .ok () b') : Leads b b' := by
  induction calls generalizing b with
  | nil =>
    cases h
    exact .refl
  | cons call calls ih =>
    obtain ⟨b1, hcall, hcalls⟩ := runAll_cons.mp h
    exact .head (Call.step hcall) (ih hcalls)

/-- Placing a label changes nothing but its state, and no depth that is known. -/
theorem Binds.places (h : Binds label b b') : ∃ state depth, b.labels[label]? = some state ∧
    state.position = none ∧ (∀ d, state.depth = some d → depth = some d) ∧ b'.code = b.code ∧
    b'.labels = b.labels.setIfInBounds label ⟨some b.code.size, depth⟩ := by
  cases h with
  | onPath hl hf _ hd =>
    refine ⟨_, some b.depth, hl, hf, fun d hd' => ?_, rfl, rfl⟩
    rcases hd with hd | hd
    · cases hd.symm.trans hd'
    · exact hd.symm.trans hd'
  | byJumps hl hf _ hd => exact ⟨_, _, hl, hf, fun d hd' => hd.symm.trans hd', rfl, rfl⟩
  | outOfReach hl hf _ hd => exact ⟨_, none, hl, hf, fun d hd' => hd.symm.trans hd', rfl, rfl⟩

theorem Binds.labelAt (h : Binds label b b') (other : LabelId) :
    b'.labelAt other = if label = other then some b.code.size else b.labelAt other := by
  obtain ⟨state, depth, hl, -, -, -, hlabels⟩ := h.places
  rw [CodeBuffer.labelAt, hlabels, Array.getElem?_setIfInBounds]
  split_ifs with heq hlt
  · rfl
  · exact absurd (Array.getElem?_eq_some_iff.mp hl).1 (heq ▸ hlt)
  · rfl

/-- A label is placed by a call, at the end of the code as it is then. -/
theorem Call.labelAt (h : call.run b = .ok () b') (hat : b'.labelAt label = some p) :
    b.labelAt label = some p ∨ call = .bind label ∧ p = b.code.size := by
  cases call with
  | newLabel =>
    cases h
    obtain ⟨state, hstate, hp⟩ := Option.bind_eq_some_iff.mp hat
    rw [Array.getElem?_push] at hstate
    split_ifs at hstate
    · cases hstate
      cases hp
    · exact .inl (Option.bind_eq_some_iff.mpr ⟨state, hstate, hp⟩)
  | emit x i =>
    cases emit_eq_ok.mp h with
    | dropped _ => exact .inl hat
    | appended _ _ hn _ => exact .inl ((hn.labelAt label).symm.trans hat)
  | bind other =>
    rw [(bind_eq_ok.mp h).labelAt] at hat
    split_ifs at hat with heq
    · exact .inr ⟨by rw [heq], (Option.some.inj hat).symm⟩
    · exact .inl hat

theorem runAll_labelAt (h : runAll calls b = .ok () b') (hat : b'.labelAt label = some p) :
    b.labelAt label = some p ∨ ∃ before after b1, calls = before ++ .bind label :: after ∧
      runAll before b = .ok () b1 ∧ p = b1.code.size := by
  induction calls generalizing b with
  | nil =>
    cases h
    exact .inl hat
  | cons call calls ih =>
    obtain ⟨b1, hcall, hcalls⟩ := runAll_cons.mp h
    rcases ih hcalls with hlabel | ⟨before, after, b2, rfl, hbefore, rfl⟩
    · rcases Call.labelAt hcall hlabel with hlabel | ⟨rfl, rfl⟩
      · exact .inl hlabel
      · exact .inr ⟨[], calls, b, rfl, rfl, rfl⟩
    · exact .inr ⟨call :: before, after, b2, rfl, runAll_cons.mpr ⟨b1, hcall, hbefore⟩, rfl⟩

theorem runAll_code (h : runAll calls b = .ok () b') (hi : i ∈ b'.code) :
    i ∈ b.code ∨ ∃ x, .emit x i ∈ calls := by
  induction calls generalizing b with
  | nil =>
    cases h
    exact .inl hi
  | cons call calls ih =>
    obtain ⟨b1, hcall, hcalls⟩ := runAll_cons.mp h
    rcases ih hcalls with hi | ⟨x, hx⟩
    · cases call with
      | newLabel =>
        cases hcall
        exact .inl hi
      | bind label =>
        obtain ⟨_, _, -, -, -, hcode, -⟩ := (bind_eq_ok.mp hcall).places
        exact .inl (hcode ▸ hi)
      | emit x j =>
        cases emit_eq_ok.mp hcall with
        | dropped _ => exact .inl hi
        | appended _ _ _ _ =>
          refine (Array.mem_push.mp hi).imp_right ?_
          rintro rfl
          exact ⟨x, List.mem_cons_self⟩
    · exact .inr ⟨x, List.mem_cons_of_mem _ hx⟩

/-- The calls succeed, and the code can be finished as given. -/
def finishesAs (calls : List Call) (code : Array Instruction) (most : Nat)
    (holds : CodeBuffer → Bool) : Bool :=
  match runAll calls empty with
  | .ok _ b => decide (b.finish = .ok (code, most)) && holds b
  | .error _ _ => false

theorem exists_finished {most : Nat} {holds : CodeBuffer → Bool}
    (h : finishesAs calls code most holds = true) :
    ∃ b, runAll calls empty = .ok () b ∧ b.finish = .ok (code, most) ∧ holds b = true := by
  unfold finishesAs at h
  split at h
  · obtain ⟨hfinish, hholds⟩ := Bool.and_eq_true_iff.mp h
    exact ⟨_, ‹_›, of_decide_eq_true hfinish, hholds⟩
  · cases h

/-! ## What control gets to -/

/-- Control goes on from the last instruction, or starts here. -/
def FallsThrough (b : CodeBuffer) : Prop := ∀ i, b.code.back? = some i → i.isTerminal = false

def JumpsTo (b : CodeBuffer) (label : LabelId) : Prop :=
  ∃ (p : Nat) (i : Instruction), b.code[p]? = some i ∧ i.target? = some (.label label)

/-- Control gets to the end of the code: from the last instruction, or by a jump. -/
def Entered (b : CodeBuffer) : Prop :=
  b.FallsThrough ∨ ∃ label, b.JumpsTo label ∧ b.labelAt label = some b.code.size

/-- The buffer knows whether control gets to the end of the code. -/
structure Signposted (b : CodeBuffer) : Prop where
  placed : ∀ label p, b.labelAt label = some p → p ≤ b.code.size
  noted : ∀ label, b.JumpsTo label → ∃ state depth, b.labels[label]? = some state ∧
    state.depth = some depth
  flag : b.reachable = true ↔ b.Entered

theorem start_signposted (limit : Option Nat) : Signposted (start limit) := by
  refine ⟨fun label p h => ?_, fun label h => ?_, fun _ => .inl fun i h => ?_, fun _ => rfl⟩
  · simp [labelAt, start] at h
  · obtain ⟨p, i, hi, -⟩ := h
    simp [start] at hi
  · simp [start] at h

theorem labelAt_newLabel (b : CodeBuffer) (label : LabelId) :
    labelAt { b with labels := b.labels.push ⟨none, none⟩ } label = b.labelAt label := by
  unfold labelAt
  rw [Array.getElem?_push]
  split_ifs with heq
  · rw [heq, Array.getElem?_eq_none (Nat.le_refl _)]
    rfl
  · rfl

theorem newLabel_signposted (h : Signposted b) :
    Signposted { b with labels := b.labels.push ⟨none, none⟩ } := by
  have hat := labelAt_newLabel b
  refine ⟨fun label p hp => h.placed label p ((hat label).symm.trans hp), fun label hj => ?_, ?_⟩
  · obtain ⟨state, depth, hstate, hdepth⟩ := h.noted label hj
    exact ⟨state, depth, getElem?_push_of_some _ hstate, hdepth⟩
  · simp only [Entered, hat]
    exact h.flag

theorem Binds.known (h : Binds label b b') {other : LabelId} {state : LabelState}
    (hl : b.labels[other]? = some state) (hd : state.depth = some d) :
    ∃ state', b'.labels[other]? = some state' ∧ state'.depth = some d ∧
      ∀ q, state.position = some q → state'.position = some q := by
  obtain ⟨old, depth, hold, hfree, hknown, -, hlabels⟩ := h.places
  rw [hlabels, Array.getElem?_setIfInBounds]
  split_ifs with heq hlt
  · subst heq
    cases hold.symm.trans hl
    exact ⟨_, rfl, hknown d hd, fun q hq => by cases hfree.symm.trans hq⟩
  · exact absurd (Array.getElem?_eq_some_iff.mp hold).1 (heq ▸ hlt)
  · exact ⟨state, hl, hd, fun _ hq => hq⟩

theorem Binds.signposted (h : Binds label b b') (hb : Signposted b) (ht : Tracked b) :
    Signposted b' := by
  have hat := h.labelAt
  have hx := h.keeps
  obtain ⟨-, -, -, -, -, hcode, -⟩ := h.places
  have hsame (other : LabelId) : b'.JumpsTo other ↔ b.JumpsTo other := by
    rw [JumpsTo, JumpsTo, hcode]
  have hmono (he : b.Entered) : b'.Entered := by
    refine he.imp (fun hf => by rwa [FallsThrough, hcode]) ?_
    rintro ⟨other, hj, hp⟩
    exact ⟨other, (hsame other).mpr hj, hcode ▸ hx.labels other _ hp⟩
  refine ⟨fun other p hp => ?_, fun other hj => ?_, ?_⟩
  · rw [hat] at hp
    rw [hcode]
    split_ifs at hp
    · exact Nat.le_of_eq (Option.some.inj hp).symm
    · exact hb.placed other p hp
  · obtain ⟨state, d, hstate, hd⟩ := hb.noted other ((hsame other).mp hj)
    obtain ⟨state', hstate', hd', -⟩ := h.known hstate hd
    exact ⟨state', d, hstate', hd'⟩
  · cases h with
    | onPath _ _ hr _ => exact ⟨fun _ => hmono (hb.flag.mp hr), fun _ => hr⟩
    | byJumps hl hf hr hd =>
      obtain ⟨p, _, i, -, hi, htarget, -⟩ := ht.pending label _ _ hl hf hd
      exact ⟨fun _ => .inr ⟨label, ⟨p, i, hi, htarget⟩, by rw [hat, if_pos rfl]⟩, fun _ => rfl⟩
    | outOfReach hl hf hr hd =>
      -- a jump to the label itself would have brought a depth
      refine ⟨fun hr => hmono (hb.flag.mp hr), fun he => hb.flag.mpr (he.imp id ?_)⟩
      rintro ⟨other, hj, hp⟩
      rw [hat] at hp
      split_ifs at hp with heq
      · obtain ⟨state', d, hstate', hd'⟩ := hb.noted other hj
        cases (heq ▸ hl).symm.trans hstate'
        cases hd.symm.trans hd'
      · exact ⟨other, hj, hp⟩

theorem Notes.known {labels : Array LabelState} {state : LabelState} (h : Notes i b labels)
    (hl : b.labels[label]? = some state) (hd : state.depth = some d) :
    labels[label]? = some state := by
  cases h with
  | other _ => exact hl
  | @jump target state' _ hl' hagrees =>
    rw [Array.getElem?_setIfInBounds]
    split_ifs with heq hlt
    · subst heq
      cases hl'.symm.trans hl
      rw [hd] at hagrees
      rw [← hagrees.resolve_left (by simp), ← hd]
    · exact absurd (Array.getElem?_eq_some_iff.mp hl').1 hlt
    · exact hl

theorem Notes.target {labels : Array LabelState} (h : Notes i b labels)
    (ht : i.target? = some (.label label)) : ∃ state, labels[label]? = some state ∧
      state.position = b.labelAt label ∧ state.depth = some b.depth := by
  cases h with
  | other hn => exact absurd ht (hn label)
  | @jump target state ht' hl _ =>
    cases ht'.symm.trans ht
    exact ⟨{ state with depth := some b.depth }, by simp [(Array.getElem?_eq_some_iff.mp hl).1],
      (labelAt_eq hl).symm, rfl⟩

theorem Emits.signposted (h : Emits x i b b') (hb : Signposted b) : Signposted b' := by
  cases h with
  | dropped _ => exact hb
  | @appended labels hr _ hn _ =>
  have hat (label : LabelId) : (labels[label]?).bind LabelState.position = b.labelAt label :=
    hn.labelAt label
  refine ⟨fun label p hp => ?_, ?_, ?_⟩
  · rw [Array.size_push]
    exact Nat.le_succ_of_le (hb.placed label p ((hat label).symm.trans hp))
  · rintro label ⟨p, j, hj, htarget⟩
    rw [Array.getElem?_push] at hj
    split_ifs at hj
    · cases hj
      obtain ⟨state, hstate, -, hd⟩ := hn.target htarget
      exact ⟨state, _, hstate, hd⟩
    · obtain ⟨state, d, hstate, hd⟩ := hb.noted label ⟨p, j, hj, htarget⟩
      exact ⟨state, d, hn.known hstate hd, hd⟩
  · -- no label is placed after the new instruction
    refine ⟨fun hr' => .inl fun j hj => ?_, ?_⟩
    · rw [Array.back?_push] at hj
      cases hj
      simpa using hr'
    · rintro (hf | ⟨label, -, hp⟩)
      · simpa using hf i Array.back?_push
      · have hle := hb.placed label _ ((hat label).symm.trans hp)
        rw [Array.size_push] at hle
        exact absurd hle (Nat.not_succ_le_self _)

theorem Leads.signposted (h : Leads b b') (hb : Signposted b) (ht : Tracked b) : Signposted b' := by
  induction h with
  | refl => exact hb
  | tail hbefore hstep ih =>
    cases hstep with
    | newLabel => exact newLabel_signposted ih
    | bind label h => exact (bind_eq_ok.mp h).signposted ih (Leads.tracked hbefore ht)
    | emit x i h => exact (emit_eq_ok.mp h).signposted ih

/-- An instruction is appended if control gets to the end of the code, and dropped otherwise. -/
def Call.Writes : Call → CodeBuffer → CodeBuffer → Prop
  | .emit _ i, b, b' => b.Entered ∧ b'.code = b.code.push i ∨ ¬ b.Entered ∧ b' = b
  | .newLabel, b, b' | .bind _, b, b' => b'.code = b.code

theorem Call.writes (h : call.run b = .ok () b') (hb : Signposted b) : call.Writes b b' := by
  cases call with
  | newLabel =>
    cases h
    rfl
  | bind label =>
    obtain ⟨_, _, -, -, -, hcode, -⟩ := (bind_eq_ok.mp h).places
    exact hcode
  | emit x i =>
    cases emit_eq_ok.mp h with
    | dropped hr =>
      refine .inr ⟨fun he => ?_, rfl⟩
      rw [hb.flag.mpr he] at hr
      cases hr
    | appended hr _ _ _ => exact .inl ⟨hb.flag.mp hr, rfl⟩

end CodeBuffer

def Reachable (code : Array Instruction) : Nat → Prop :=
  Relation.ReflTransGen (fun p q => ∃ i, code[p]? = some i ∧ i.GoesTo p q) 0

namespace CodeBuffer

variable {call : Call} {calls : List Call} {most : Nat}

theorem DepthAt.reachable (h : DepthAt b p d) (hf : Finishes b code) : Reachable code p := by
  induction h with
  | start => exact .refl
  | next _ hi hn _ _ ih =>
    obtain ⟨j, hj, hcode⟩ := hf.places _ _ hi
    exact ih.tail ⟨j, hcode, .inr ⟨hj.isTerminal.trans hn, rfl⟩⟩
  | jump _ hi ht hq _ ih =>
    obtain ⟨j, hj, hcode⟩ := hf.places _ _ hi
    exact ih.tail ⟨j, hcode, .inl (hj.target ht hq)⟩

/-- **What is kept is what control gets to.** Control gets to every instruction of finished code. An
instruction stands there as it was appended, with the position at which its label was placed, inside
of the code, in place of the label. Each call appends an instruction if control goes on from the
last instruction or a jump that has been kept leads to the end of the code, and drops it
otherwise. -/
theorem runAll_kept (hrun : runAll calls empty = .ok () b) (hfinish : b.finish = .ok (code, most)) :
    (∀ p < code.size, Reachable code p) ∧ code.size = b.code.size ∧
    (∀ (p : Nat) (i : Instruction), b.code[p]? = some i →
      (∀ label, i.target? ≠ some (.label label)) ∧ code[p]? = some i ∨
      ∃ label before after b₁, i.target? = some (.label label) ∧
        calls = before ++ .bind label :: after ∧ runAll before empty = .ok () b₁ ∧
        b₁.code.size < code.size ∧ code[p]? = some (i.retarget (.index b₁.code.size))) ∧
    ∀ before call after, calls = before ++ call :: after → ∃ b₁ b₂,
      runAll before empty = .ok () b₁ ∧ call.run b₁ = .ok () b₂ ∧ runAll after b₂ = .ok () b ∧
        call.Writes b₁ b₂ := by
  obtain ⟨-, hf⟩ := finish_eq_ok.mp hfinish
  have htracked := (runAll_leads hrun).tracked (start_tracked _)
  refine ⟨fun p hp => ?_, hf.size, fun p i hi => ?_, ?_⟩
  · obtain ⟨d, -, hd⟩ := htracked.covered p (hf.size ▸ hp)
    exact hd.reachable hf
  · obtain ⟨j, hj, hcode⟩ := hf.places p i hi
    cases hj with
    | other hn => exact .inl ⟨hn, hcode⟩
    | @jump label q ht hq hlt =>
      rcases runAll_labelAt hrun hq with hempty | ⟨before, after, b₁, hcalls, hbefore, rfl⟩
      · simp [CodeBuffer.labelAt, empty, start] at hempty
      · exact .inr ⟨label, before, after, b₁, ht, hcalls, hbefore, hf.size ▸ hlt, hcode⟩
  · rintro before call after rfl
    obtain ⟨b₁, hbefore, hrest⟩ := runAll_append.mp hrun
    obtain ⟨b₂, hcall, hafter⟩ := runAll_cons.mp hrest
    exact ⟨b₁, b₂, hbefore, hcall, hafter,
      Call.writes hcall ((runAll_leads hbefore).signposted (start_signposted _) (start_tracked _))⟩

/-- A label in front of a jump, and an instruction that control does not get to. -/
def skipCalls : List Call :=
  [.newLabel, .newLabel, .bind 1, .emit none (.goto (.label 0)), .emit none (.iconst 1), .bind 0,
    .emit none (.goto (.label 1))]

theorem skipCalls_kept : ∃ b, runAll skipCalls empty = .ok () b ∧
    b.finish = .ok (#[.goto (.index 1), .goto (.index 0)], 0) ∧
    (∀ p < 2, Reachable #[.goto (.index 1), .goto (.index 0)] p) ∧
    ∃ b₁ b₂, runAll (skipCalls.take 4) empty = .ok () b₁ ∧
      (Call.emit none (.iconst 1)).run b₁ = .ok () b₂ ∧ runAll (skipCalls.drop 5) b₂ = .ok () b ∧
      (Call.emit none (.iconst 1)).Writes b₁ b₂ := by
  obtain ⟨b, hrun, hfinish, -⟩ := exists_finished (show finishesAs skipCalls
    #[.goto (.index 1), .goto (.index 0)] 0 (fun _ => true) = true by decide +kernel)
  obtain ⟨hreachable, -, -, hcalls⟩ := runAll_kept hrun hfinish
  exact ⟨b, hrun, hfinish, hreachable, hcalls _ _ _ rfl⟩

end CodeBuffer

/-! ## Words on paths -/

/-- A path of the code gets to a position with a number of words on the stack. -/
inductive WordsAt (code : Array Instruction) : Nat → Nat → Prop
  | start : WordsAt code 0 0
  | step {p q d : Nat} {i : Instruction} (h : WordsAt code p d) (at_p : code[p]? = some i)
      (enough : totalWords i.effect.pops ≤ d) (goes : i.GoesTo p q) :
      WordsAt code q (d - totalWords i.effect.pops + totalWords i.effect.pushes)

namespace CodeBuffer

variable {calls : List Call} {most : Nat} {depths : Nat → Nat}

/-- The labels in front of one instruction have one depth, as far as theirs are known. -/
def LabelsAgree (b : CodeBuffer) : Prop :=
  ∀ (l l' : LabelId) (state state' : LabelState) (q d d' : Nat), b.labels[l]? = some state →
    b.labels[l']? = some state' → state.position = some q → state'.position = some q →
    q < b.code.size → state.depth = some d → state'.depth = some d' → d = d'

/-- The depths with which instructions were appended. A label may be placed there with another
depth, as long as some label there has this one. -/
structure Follows (b : CodeBuffer) (depths : Nat → Nat) : Prop where
  start : depths 0 = 0
  end_ : b.reachable = true → depths b.code.size = b.depth
  each : ∀ (p : Nat) (i : Instruction), b.code[p]? = some i → b.popped i ≤ depths p ∧
    depths p - b.popped i + b.pushed i ≤ b.maxDepth
  next : ∀ (p : Nat) (i : Instruction), b.code[p]? = some i → i.isTerminal = false →
    depths (p + 1) = depths p - b.popped i + b.pushed i
  jumps : ∀ (p : Nat) (i : Instruction) (label : LabelId), b.code[p]? = some i →
    i.target? = some (.label label) →
      ∃ state, b.labels[label]? = some state ∧ state.depth = some (depths p - b.popped i)
  anchored : ∀ label q, b.labelAt label = some q → q < b.code.size ∨ b.reachable = true →
    ∃ (other : LabelId) (state : LabelState), b.labels[other]? = some state ∧
      state.position = some q ∧ state.depth = some (depths q)

theorem start_follows (limit : Option Nat) : Follows (start limit) fun _ => 0 :=
  ⟨rfl, fun _ => rfl, by simp [start], by simp [start], by simp [start], by simp [start, labelAt]⟩

theorem newLabel_follows (h : Follows b depths) :
    Follows { b with labels := b.labels.push ⟨none, none⟩ } depths := by
  refine ⟨h.start, h.end_, h.each, h.next, fun p i label hi ht => ?_, fun label q hq hin => ?_⟩
  · obtain ⟨state, hstate, hd⟩ := h.jumps p i label hi ht
    exact ⟨state, getElem?_push_of_some _ hstate, hd⟩
  · obtain ⟨other, state, hstate, hat⟩ :=
      h.anchored label q ((labelAt_newLabel b label).symm.trans hq) hin
    exact ⟨other, state, getElem?_push_of_some _ hstate, hat⟩

/-- Where control gets by jumps only, the depth is that of the label. -/
theorem Binds.follows (h : Binds label b b') (hb : Signposted b) (hf : Follows b depths) :
    ∃ depths', Follows b' depths' := by
  have hat := h.labelAt
  have hjumps (p : Nat) (i : Instruction) (l : LabelId) (hi : b.code[p]? = some i)
      (ht : i.target? = some (.label l)) : ∃ state, b'.labels[l]? = some state ∧
        state.depth = some (depths p - b.popped i) := by
    obtain ⟨state, hstate, hd⟩ := hf.jumps p i l hi ht
    obtain ⟨state', hstate', hd', -⟩ := h.known hstate hd
    exact ⟨state', hstate', hd'⟩
  have hanchored (l : LabelId) (q : Nat) (hq : b.labelAt l = some q)
      (hin : q < b.code.size ∨ b.reachable = true) : ∃ (other : LabelId) (state : LabelState),
        b'.labels[other]? = some state ∧ state.position = some q ∧
        state.depth = some (depths q) := by
    obtain ⟨other, state, hstate, hposition, hd⟩ := hf.anchored l q hq hin
    obtain ⟨state', hstate', hd', hposition'⟩ := h.known hstate hd
    exact ⟨other, state', hstate', hposition' q hposition, hd'⟩
  cases h with
  | onPath hl _ hr _ =>
    refine ⟨depths, hf.start, hf.end_, hf.each, hf.next, hjumps, fun l q hq hin => ?_⟩
    rw [hat] at hq
    split_ifs at hq
    · cases hq
      exact ⟨label, ⟨some b.code.size, some b.depth⟩,
        by simp [(Array.getElem?_eq_some_iff.mp hl).1], rfl, congrArg some (hf.end_ hr).symm⟩
    · exact hanchored l q hq hin
  | outOfReach _ _ hr _ =>
    refine ⟨depths, hf.start, hf.end_, hf.each, hf.next, hjumps, fun l q hq hin => ?_⟩
    rw [hat] at hq
    split_ifs at hq
    · cases hq
      rcases hin with hlt | hr'
      · exact absurd hlt (Nat.lt_irrefl _)
      · cases hr.symm.trans hr'
    · exact hanchored l q hq hin
  | @byJumps state depth hl _ hr _ =>
    -- the end of the code is not the start, and control does not fall through to it
    have hends : ¬ b.FallsThrough := fun hfalls => by
      cases hr.symm.trans (hb.flag.mpr (.inl hfalls))
    have hsame {p : Nat} {i : Instruction} (hi : b.code[p]? = some i) :
        update depths b.code.size depth p = depths p :=
      update_of_ne (Nat.ne_of_lt (Array.getElem?_eq_some_iff.mp hi).1) _ _
    refine ⟨update depths b.code.size depth, ?_, fun _ => update_self _ _ _,
      fun p i hi => ?_, fun p i hi hn => ?_, fun p i l hi ht => ?_, fun l q hq hin => ?_⟩
    · rw [update_of_ne, hf.start]
      intro hzero
      exact hends fun i hi => by simp [Array.back?, ← hzero] at hi
    · rw [hsame hi]
      exact hf.each p i hi
    · rw [hsame hi, update_of_ne]
      · exact hf.next p i hi hn
      · intro hlast
        refine hends fun j hj => ?_
        rw [Array.back?, ← hlast, Nat.add_sub_cancel, hi] at hj
        cases hj
        exact hn
    · rw [hsame hi]
      exact hjumps p i l hi ht
    · by_cases heq : q = b.code.size
      · rw [heq, update_self]
        exact ⟨label, ⟨some b.code.size, some depth⟩,
          by simp [(Array.getElem?_eq_some_iff.mp hl).1], rfl, rfl⟩
      · rw [update_of_ne heq]
        rw [hat] at hq
        split_ifs at hq
        · cases hq
          exact absurd rfl heq
        · exact hanchored l q hq (.inl (Nat.lt_of_le_of_ne (hb.placed l q hq) heq))

theorem Emits.follows (h : Emits x i b b') (hb : Signposted b)
    (hf : Follows b depths) : ∃ depths', Follows b' depths' := by
  cases h with
  | dropped _ => exact ⟨depths, hf⟩
  | @appended labels hr henough hn _ =>
  have hend := hf.end_ hr
  have hold {q : Nat} (hq : q ≤ b.code.size) :
      update depths (b.code.size + 1) (b.depth - b.popped i + b.pushed i) q = depths q :=
    update_of_ne (Nat.ne_of_lt (Nat.lt_succ_of_le hq)) _ _
  -- the instructions from before, and the new one
  have hcases {p : Nat} {j : Instruction} (hj : (b.code.push i)[p]? = some j) :
      b.code[p]? = some j ∧ p < b.code.size ∨ p = b.code.size ∧ i = j := by
    rw [Array.getElem?_push] at hj
    split_ifs at hj with heq
    · exact .inr ⟨heq, Option.some.inj hj⟩
    · exact .inl ⟨hj, (Array.getElem?_eq_some_iff.mp hj).1⟩
  refine ⟨update depths (b.code.size + 1) (b.depth - b.popped i + b.pushed i),
    (hold (Nat.zero_le _)).trans hf.start, fun _ => ?_, fun p j hj => ?_, fun p j hj hterm => ?_,
    fun p j l hj htarget => ?_, fun l q hq _ => ?_⟩
  · show update _ _ _ (b.code.push i).size = _
    rw [Array.size_push, update_self]
  · rcases hcases hj with ⟨hj, hlt⟩ | ⟨rfl, rfl⟩
    · rw [hold (Nat.le_of_lt hlt)]
      exact ⟨(hf.each p j hj).1, Nat.le_trans (hf.each p j hj).2 (Nat.le_max_left _ _)⟩
    · rw [hold (Nat.le_refl _), hend]
      exact ⟨henough, Nat.le_max_right _ _⟩
  · rcases hcases hj with ⟨hj, hlt⟩ | ⟨rfl, rfl⟩
    · rw [hold (Nat.le_of_lt hlt), hold hlt]
      exact hf.next p j hj hterm
    · rw [update_self, hold (Nat.le_refl _), hend]
      rfl
  · rcases hcases hj with ⟨hj, hlt⟩ | ⟨rfl, rfl⟩
    · rw [hold (Nat.le_of_lt hlt)]
      obtain ⟨state, hstate, hd⟩ := hf.jumps p j l hj htarget
      exact ⟨state, hn.known hstate hd, hd⟩
    · rw [hold (Nat.le_refl _), hend]
      obtain ⟨state, hstate, -, hd⟩ := hn.target htarget
      exact ⟨state, hstate, hd⟩
  · have hq : b.labelAt l = some q := (hn.labelAt l).symm.trans hq
    rw [hold (hb.placed l q hq)]
    obtain ⟨other, state, hstate, hposition, hd⟩ := hf.anchored l q hq (.inr hr)
    exact ⟨other, state, hn.known hstate hd, hposition, hd⟩

theorem Leads.follows (h : Leads b b') (hb : Signposted b) (ht : Tracked b)
    (hf : Follows b depths) : ∃ depths', Follows b' depths' := by
  induction h with
  | refl => exact ⟨depths, hf⟩
  | tail hbefore hstep ih =>
    obtain ⟨depths', hf'⟩ := ih
    cases hstep with
    | newLabel => exact ⟨depths', newLabel_follows hf'⟩
    | bind label h => exact (bind_eq_ok.mp h).follows (Leads.signposted hbefore hb ht) hf'
    | emit x i h => exact (emit_eq_ok.mp h).follows (Leads.signposted hbefore hb ht) hf'

/-- A label that is placed has the depth of a path, if it has any. -/
def LabelsKnown (b : CodeBuffer) : Prop :=
  ∀ (label : LabelId) (state : LabelState) (q d : Nat), b.labels[label]? = some state →
    state.position = some q → state.depth = some d → DepthAt b q d

theorem Step.labelsKnown (h : Step b b') (ht : Tracked b) (hb : b.LabelsKnown) :
    b'.LabelsKnown := by
  have hx := h.keeps
  have hold {l : LabelId} {state : LabelState} {q d : Nat} (hl : b.labels[l]? = some state)
      (hq : state.position = some q) (hd : state.depth = some d) : DepthAt b' q d :=
    (hb l state q d hl hq hd).keeps hx
  intro l state q d hl hq hd
  cases h with
  | newLabel =>
    rw [Array.getElem?_push] at hl
    split_ifs at hl
    · cases hl
      cases hd
    · exact hold hl hq hd
  | bind label h =>
    have hbinds := bind_eq_ok.mp h
    have hend := (hbinds.tracked ht).end_
    cases hbinds with
    | onPath hl' _ hr _ =>
      rw [Array.getElem?_setIfInBounds] at hl
      split_ifs at hl
      · cases hl
        cases hq
        cases hd
        exact (hend hr).1
      · exact hold hl hq hd
    | byJumps hl' _ hr _ =>
      rw [Array.getElem?_setIfInBounds] at hl
      split_ifs at hl
      · cases hl
        cases hq
        cases hd
        exact (hend rfl).1
      · exact hold hl hq hd
    | outOfReach hl' _ hr _ =>
      rw [Array.getElem?_setIfInBounds] at hl
      split_ifs at hl
      · cases hl
        cases hd
      · exact hold hl hq hd
  | emit x i h =>
    cases emit_eq_ok.mp h with
    | dropped _ => exact hb l state q d hl hq hd
    | @appended labels hr henough hn _ =>
      cases hn with
      | other _ => exact hold hl hq hd
      | @jump target state' htarget hl' _ =>
        rw [Array.getElem?_setIfInBounds] at hl
        split_ifs at hl with heq hlt
        · cases hl
          cases hd
          have hplaced : b.labelAt target = some q := (labelAt_eq hl').trans hq
          exact ((ht.end_ hr).1.keeps hx).jump (by simp) htarget
            (hx.labels target q hplaced) henough
        · exact hold hl hq hd

theorem Leads.labelsKnown (h : Leads b b') (ht : Tracked b) (hb : b.LabelsKnown) :
    b'.LabelsKnown := by
  induction h with
  | refl => exact hb
  | tail hbefore hstep ih => exact hstep.labelsKnown (Leads.tracked hbefore ht) ih

/-- The words of all instructions are counted exactly. -/
def CountsExactly (b : CodeBuffer) : Prop :=
  ∀ (p : Nat) (i : Instruction), b.code[p]? = some i →
    b.popped i = totalWords i.effect.pops ∧ b.pushed i = totalWords i.effect.pushes

theorem DepthAt.wordsAt (h : DepthAt b p d) (hf : Finishes b code) (hexact : b.CountsExactly) :
    WordsAt code p d := by
  induction h with
  | start => exact .start
  | next _ hi hn henough _ ih =>
    obtain ⟨j, hj, hcode⟩ := hf.places _ _ hi
    obtain ⟨hpops, hpushes⟩ := hexact _ _ hi
    rw [hpops, ← hj.effect] at henough ⊢
    rw [hpushes, ← hj.effect]
    exact ih.step hcode henough (.inr ⟨hj.isTerminal.trans hn, rfl⟩)
  | jump _ hi ht hq henough ih =>
    obtain ⟨j, hj, hcode⟩ := hf.places _ _ hi
    obtain ⟨hpops, -⟩ := hexact _ _ hi
    rw [hpops, ← hj.effect] at henough ⊢
    have hstep := ih.step hcode henough (.inl (hj.target ht hq))
    rw [hj.effect, pushes_of_target ht] at hstep
    rw [hj.effect]
    exact hstep

/-- If labels agree, every path has the depths with which the instructions were appended. -/
theorem Follows.wordsAt (h : Follows b depths) (hf : Finishes b code) (hexact : b.CountsExactly)
    (hlabels : ∀ i ∈ b.code, ∀ q, i.target? ≠ some (.index q)) (hagree : b.LabelsAgree)
    (hw : WordsAt code p d) : d = depths p ∧ d ≤ b.maxDepth := by
  induction hw with
  | start => exact ⟨h.start.symm, Nat.zero_le _⟩
  | @step p q d j _ hj henough hgoes ih =>
    obtain ⟨rfl, -⟩ := ih
    have hlt : p < b.code.size := hf.size ▸ (Array.getElem?_eq_some_iff.mp hj).1
    have hi : b.code[p]? = some b.code[p] := Array.getElem?_eq_getElem hlt
    obtain ⟨j', hplaces, hj'⟩ := hf.places p _ hi
    cases hj.symm.trans hj'
    obtain ⟨hpops, hpushes⟩ := hexact _ _ hi
    rw [hplaces.effect, ← hpops, ← hpushes]
    refine ⟨?_, (h.each p _ hi).2⟩
    rcases hgoes with htarget | ⟨hterm, rfl⟩
    · cases hplaces with
      | other _ => exact absurd htarget (hlabels _ (Array.getElem_mem hlt) q)
      | @jump label q' ht hq' hin =>
        rw [Instruction.target?_retarget (by rw [ht]; rfl)] at htarget
        cases htarget
        obtain ⟨state, hstate, hd⟩ := h.jumps p _ label hi ht
        obtain ⟨other, state', hstate', hq, hd'⟩ := h.anchored label q hq' (.inl hin)
        have heq := hagree label other state state' q _ _ hstate hstate'
          ((labelAt_eq hstate).symm.trans hq') hq hin hd hd'
        rw [hpushes, pushes_of_target ht]
        exact heq
    · exact (h.next p _ hi (hplaces.isTerminal.symm.trans hterm)).symm

/-- **The words on paths agree if and only if the labels do.** If jumps go to labels and no
instruction takes more words than can be counted, then all paths to an instruction of finished code
have one number of words exactly when the labels in front of each instruction have one depth. No
path then takes more words than there are, or has more than the deepest stack of the buffer. -/
theorem runAll_depths_iff (hrun : runAll calls empty = .ok () b)
    (hfinish : b.finish = .ok (code, most))
    (hlabels : ∀ x i, .emit x i ∈ calls → ∀ q, i.target? ≠ some (.index q))
    (hwords : ∀ x i, .emit x i ∈ calls → totalWords i.effect.pops ≤ maxWords) :
    ((∀ p < code.size, ∀ d d', WordsAt code p d → WordsAt code p d' → d = d') ↔ b.LabelsAgree) ∧
    (b.LabelsAgree → ∀ p d, WordsAt code p d → d ≤ most ∧
      ∀ i, code[p]? = some i → totalWords i.effect.pops ≤ d) := by
  obtain ⟨rfl, hf⟩ := finish_eq_ok.mp hfinish
  have hleads := runAll_leads hrun
  have hlimit : b.limit = some maxWords := hleads.keeps.limit
  have hcalls {i : Instruction} (hi : i ∈ b.code) : ∃ x, .emit x i ∈ calls :=
    (runAll_code hrun hi).resolve_left (by simp [empty, start])
  have hexact : b.CountsExactly := fun p i hi => by
    obtain ⟨x, hx⟩ := hcalls (Array.mem_of_getElem? hi)
    refine ⟨wordsUpTo_eq ?_, pushed_eq _ (by rw [hlimit]; decide)⟩
    rw [hlimit]
    simpa [exceeds] using hwords x i hx
  obtain ⟨depths, hfollows⟩ :=
    hleads.follows (start_signposted _) (start_tracked _) (start_follows _)
  have hpaths (hagree : b.LabelsAgree) {p d : Nat} (hw : WordsAt code p d) :=
    hfollows.wordsAt hf hexact (fun i hi => (hcalls hi).elim fun x hx => hlabels x i hx) hagree hw
  refine ⟨⟨fun hunique l l' state state' q d d' hl hl' hq hq' hlt hd hd' => ?_,
    fun hagree p _ d d' hw hw' => (hpaths hagree hw).1.trans (hpaths hagree hw').1.symm⟩,
    fun hagree p d hw => ⟨(hpaths hagree hw).2, fun j hj => ?_⟩⟩
  · have hknown := hleads.labelsKnown (start_tracked _)
      fun _ _ _ _ hl => by simp [empty, start] at hl
    exact hunique q (hf.size ▸ hlt) d d' ((hknown l state q d hl hq hd).wordsAt hf hexact)
      ((hknown l' state' q d' hl' hq' hd').wordsAt hf hexact)
  · have hlt : p < b.code.size := hf.size ▸ (Array.getElem?_eq_some_iff.mp hj).1
    have hi : b.code[p]? = some b.code[p] := Array.getElem?_eq_getElem hlt
    obtain ⟨j', hplaces, hj'⟩ := hf.places p _ hi
    cases hj.symm.trans hj'
    rw [hplaces.effect, ← (hexact _ _ hi).1, (hpaths hagree hw).1]
    exact (hfollows.each p _ hi).1

def loopCalls : List Call :=
  [.newLabel, .bind 0, .emit none (.iconst 1), .emit none (.branchZero .eq (.label 0)),
    .emit none (.goto (.label 0))]

theorem loopCalls_depths : ∃ b, runAll loopCalls empty = .ok () b ∧
    b.finish = .ok (#[.iconst 1, .branchZero .eq (.index 0), .goto (.index 0)], 1) ∧
    ∀ p d, WordsAt #[.iconst 1, .branchZero .eq (.index 0), .goto (.index 0)] p d → d ≤ 1 := by
  obtain ⟨b, hrun, hfinish, hlabels⟩ := exists_finished (show finishesAs loopCalls
    #[.iconst 1, .branchZero .eq (.index 0), .goto (.index 0)] 1
    (fun b => b.labels = #[⟨some 0, some 0⟩]) = true by decide +kernel)
  have hlabels := of_decide_eq_true hlabels
  have hagree : b.LabelsAgree := by
    intro l l' state state' q d d' hl hl' _ _ _ hd hd'
    rw [hlabels, Array.getElem?_eq_some_iff] at hl hl'
    obtain ⟨hlt, rfl⟩ := hl
    obtain ⟨hlt', rfl⟩ := hl'
    simp_all
  have hcases (x : Option Subject) (i : Instruction) (h : .emit x i ∈ loopCalls) :
      i = .iconst 1 ∨ i = .branchZero .eq (.label 0) ∨ i = .goto (.label 0) := by
    simp only [loopCalls, List.mem_cons, Call.emit.injEq, List.not_mem_nil, or_false] at h
    grind
  have hdepths := (runAll_depths_iff hrun hfinish
    (fun x i h => by rcases hcases x i h with rfl | rfl | rfl <;> simp [Instruction.target?])
    (fun x i h => by rcases hcases x i h with rfl | rfl | rfl <;> decide)).2 hagree
  exact ⟨b, hrun, hfinish, fun p d hw => (hdepths p d hw).1⟩

/-- A label is placed out of reach, and another one makes its position part of the code. -/
def revivedCalls : List Call :=
  [.newLabel, .newLabel, .emit none (.goto (.label 0)), .bind 1, .bind 0, .emit none (.iconst 1),
    .emit none (.goto (.label 1))]

/-- The jump back comes with one more word each time. -/
theorem revivedCalls_unbounded : ∃ b, runAll revivedCalls empty = .ok () b ∧
    b.finish = .ok (#[.goto (.index 1), .iconst 1, .goto (.index 1)], 1) ∧
    ∀ n, WordsAt #[.goto (.index 1), .iconst 1, .goto (.index 1)] 1 n := by
  obtain ⟨b, hrun, hfinish, -⟩ := exists_finished (show finishesAs revivedCalls
    #[.goto (.index 1), .iconst 1, .goto (.index 1)] 1 (fun _ => true) = true by decide +kernel)
  refine ⟨b, hrun, hfinish, fun n => ?_⟩
  induction n with
  | zero => exact WordsAt.start.step (i := .goto (.index 1)) rfl (Nat.le_refl _) (.inl rfl)
  | succ n ih =>
    have hpushed := ih.step (i := .iconst 1) (q := 2) rfl (Nat.zero_le n) (.inr ⟨rfl, rfl⟩)
    exact hpushed.step (i := .goto (.index 1)) rfl (Nat.zero_le _) (.inl rfl)

end CodeBuffer

end StackCompiler

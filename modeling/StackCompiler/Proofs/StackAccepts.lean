import Mathlib.Data.List.Nodup
import Mathlib.Data.List.Perm.Subperm
import StackCompiler.Proofs.BufferDepth

/-!
# What the check accepts

The check of a method looks at each instruction once. What it finds holds on every path, and nothing
else stops it: it accepts exactly the code in which every instruction finds its operands, control
stays inside, and all paths to an instruction bring one stack.

* `Walk.Sound`, `Walk.step_sound`, `Walk.exists_step`: the invariant of the search, and its steps;
* **`simulate_iff_consistent`**: the search accepts consistent code, and looks once at what control
  can get to;
* **`simulate_maxStack`**: the words that it counts, and **`wideCode_miscounted`**: what it does
  not.
-/

namespace StackCompiler

open List

variable {stack : KindStack} {limits : Limits} {rest : List Nat} {index pos : Nat}
  {ret : Option Kind}

/-! ## One instruction -/

section Instructions

variable {i : Instruction} {pos size : Nat}

theorem takeKinds_eq_ok {kinds : List Kind} {rest : KindStack} :
    takeKinds i pos kinds stack = .ok rest ↔ stack = kinds ++ rest := by
  induction kinds generalizing stack with
  | nil => simp [takeKinds]
  | cons kind kinds ih =>
    cases stack with
    | nil => simp [takeKinds]
    | cons found stack =>
      rw [takeKinds]
      split_ifs with hk
      · simp [hk, ih]
      · simp [hk]

theorem stackAfter_eq_ok {after : KindStack} : stackAfter i pos stack = .ok after ↔
      ∃ rest, stack = i.effect.pops.reverse ++ rest ∧ after = i.effect.pushes.reverse ++ rest := by
  simp only [stackAfter, Except.bind_eq_ok, Except.pure_eq_ok, takeKinds_eq_ok]

/-- Jumps have to go to positions inside the code; nothing else is asked. -/
theorem exists_successors : (∃ out, successors size i pos = .ok out) ↔
    ∀ target, i.target? = some target → ∃ next, target = .index next ∧ next < size := by
  unfold successors
  cases ht : i.target? with
  | none =>
    simp only [pure_bind]
    split_ifs <;> simp [Except.pure_eq_ok]
  | some target =>
    cases target with
    | label l => simp [throw, throwThe, MonadExceptOf.throw, bind, Except.bind]
    | index target =>
      by_cases hlt : target < size
      · simp only [if_pos hlt, pure_bind]
        split_ifs <;> simp [hlt, Except.pure_eq_ok]
      · simp [hlt, throw, throwThe, MonadExceptOf.throw, bind, Except.bind]

/-- What the successors of an instruction say about its jumps and about going on. -/
theorem successors_eq_ok {out : Successors} (h : successors size i pos = .ok out) :
    (out.leaves = true ↔ i.isTerminal = false ∧ size ≤ pos + 1) ∧
      ∀ next, next ∈ out.next ↔ i.GoesTo pos next ∧ next < size := by
  unfold successors at h
  cases ht : i.target? with
  | none =>
    simp only [ht, pure_bind] at h
    split_ifs at h <;> cases h <;> grind [Instruction.GoesTo]
  | some target =>
    cases target with
    | label l => simp [ht, throw, throwThe, MonadExceptOf.throw, bind, Except.bind] at h
    | index target =>
      simp only [ht, pure_bind] at h
      split_ifs at h <;> cases h <;> grind [Instruction.GoesTo]

end Instructions

/-! ## The search -/

namespace Walk

variable {limit : Option Nat} {code : Array Instruction} {mode : CodeMode} {looked : List Nat}
  {w w' : Walk}

/-- The stack with which control gets to a position, as far as known. -/
def stackAt (w : Walk) (pos : Nat) : Option KindStack := (w.known[pos]?).join

/-- The instruction finds its operands, control stays inside unless it may leave, and what the
instruction leads to has the stack that it leaves, whose words have been counted. -/
structure Looked (limit : Option Nat) (code : Array Instruction) (mode : CodeMode) (w : Walk)
    (pos : Nat) (i : Instruction) (rest : KindStack) : Prop where
  at_pos : code[pos]? = some i
  operands : w.stackAt pos = some (i.effect.pops.reverse ++ rest)
  jumps : ∀ target, i.target? = some target → ∃ next, target = .index next ∧ next < code.size
  goesOn : mode = .method → i.isTerminal = false → pos + 1 < code.size
  leads : ∀ next, i.GoesTo pos next → next < code.size →
    w.stackAt next = some (i.effect.pushes.reverse ++ rest)
  words : wordsUpTo limit (i.effect.pushes.reverse ++ rest) ≤ w.maxStack

/-- The instructions that were looked at or are pending are those with a known stack, which is that
of some path; some path leaves as many words as were counted. -/
structure Sound (limit : Option Nat) (code : Array Instruction) (mode : CodeMode)
    (looked : List Nat) (w : Walk) : Prop where
  size : w.known.size = code.size
  start : w.stackAt 0 = some []
  nodup : (looked ++ w.pending).Nodup
  known : ∀ pos, pos ∈ looked ++ w.pending ↔ (w.stackAt pos).isSome
  reached : ∀ pos stack, w.stackAt pos = some stack → Reaches code pos stack
  settled : ∀ pos ∈ looked, ∃ i rest, Looked limit code mode w pos i rest
  counted : w.maxStack = 0 ∨ ∃ pos stack, StackLeft code pos stack ∧
    wordsUpTo limit stack = w.maxStack

theorem stackAt_lt (h : (w.stackAt pos).isSome) : pos < w.known.size := by
  by_contra hge
  rw [stackAt, Array.getElem?_eq_none (by omega)] at h
  cases h

/-- The search after control has got to some further instructions with a stack. -/
structure Grows (w w' : Walk) (stack : KindStack) (fresh : List Nat) : Prop where
  size : w'.known.size = w.known.size
  pending : w'.pending = w.pending ++ fresh
  maxStack : w'.maxStack = w.maxStack
  nodup : fresh.Nodup
  unknown : ∀ pos ∈ fresh, w.stackAt pos = none
  known : ∀ pos, w'.stackAt pos = if pos ∈ fresh then some stack else w.stackAt pos

theorem Grows.kept {fresh : List Nat} (h : Grows w w' stack fresh) {st : KindStack}
    (hst : w.stackAt pos = some st) : w'.stackAt pos = some st := by
  grind [h.known pos, h.unknown pos]

theorem Grows.trans {w1 w2 w3 : Walk} {a b : List Nat} (h : Grows w1 w2 stack a)
    (h' : Grows w2 w3 stack b) : Grows w1 w3 stack (a ++ b) := by
  have hdisjoint : ∀ pos ∈ b, pos ∉ a := fun pos hb ha => by
    grind [h'.unknown pos hb, h.known pos]
  refine ⟨h'.size.trans h.size, by rw [h'.pending, h.pending, append_assoc],
    h'.maxStack.trans h.maxStack, ?_, fun pos hp => ?_, fun pos => ?_⟩
  · exact nodup_append.mpr ⟨h.nodup, h'.nodup, by grind⟩
  · grind [h.unknown pos, h'.unknown pos, h.known pos]
  · grind [h.known pos, h'.known pos]

theorem reach_grows (hlt : index < w.known.size) (h : w.reach stack index = .ok w') :
    ∃ fresh, Grows w w' stack fresh ∧ fresh ⊆ [index] ∧ w'.stackAt index = some stack := by
  unfold reach at h
  cases hk : w.known[index]?.join with
  | some existing =>
    simp only [hk] at h
    split_ifs at h with he
    cases h
    exact ⟨[], ⟨rfl, by simp, rfl, .nil, by simp, by simp⟩, nil_subset _, by rw [stackAt, hk, he]⟩
  | none =>
    simp only [hk] at h
    cases h
    have hset (pos : Nat) : stackAt { w with
        known := w.known.setIfInBounds index (some stack), pending := w.pending ++ [index] } pos =
        if pos = index then some stack else w.stackAt pos := by
      unfold stackAt
      rw [Array.getElem?_setIfInBounds]
      grind
    refine ⟨[index], ⟨by simp, rfl, rfl, nodup_singleton _, ?_, ?_⟩, List.Subset.refl _,
      by rw [hset, if_pos rfl]⟩
    · intro pos hp
      rw [mem_singleton.mp hp]
      exact hk
    · simpa using hset

theorem foldlM_reach_grows {next : List Nat} (hlt : ∀ index ∈ next, index < w.known.size)
    (h : next.foldlM (fun w index => w.reach stack index) w = .ok w') :
    ∃ fresh, Grows w w' stack fresh ∧ fresh ⊆ next ∧
      ∀ index ∈ next, w'.stackAt index = some stack := by
  induction next generalizing w with
  | nil =>
    cases h
    exact ⟨[], ⟨rfl, by simp, rfl, .nil, by simp, by simp⟩, List.Subset.refl _, by simp⟩
  | cons index next ih =>
    rw [foldlM_cons] at h
    obtain ⟨w1, hr, h⟩ := Except.bind_eq_ok.mp h
    obtain ⟨hindex, hlt⟩ := forall_mem_cons.mp hlt
    obtain ⟨a, ha, hsub, hi⟩ := reach_grows hindex hr
    obtain ⟨b, hb, hsub', hn⟩ := ih (fun j hj => ha.size ▸ hlt j hj) h
    exact ⟨a ++ b, ha.trans hb, by grind, forall_mem_cons.mpr ⟨hb.kept hi, hn⟩⟩

/-- A step looks at an instruction, counts the words that it leaves, and follows it. -/
theorem step_eq_ok (hstack : w.stackAt index = some stack) (hlt : index < code.size)
    (h : step limit code mode w index = .ok w') :
    ∃ i rest, code[index]? = some i ∧ stack = i.effect.pops.reverse ++ rest ∧
      (∀ target, i.target? = some target → ∃ next, target = .index next ∧ next < code.size) ∧
      (mode = .method → i.isTerminal = false → index + 1 < code.size) ∧
      ∃ out exit, successors code.size i index = .ok out ∧
        out.next.foldlM (fun w index => w.reach (i.effect.pushes.reverse ++ rest) index) { w with
            maxStack := max w.maxStack (wordsUpTo limit (i.effect.pushes.reverse ++ rest))
            exitStack := exit } = .ok w' := by
  unfold step at h
  rw [Array.getElem?_eq_getElem hlt] at h ⊢
  have hjoin : (w.known[index]?).join.getD [] = stack := by
    rw [show (w.known[index]?).join = some stack from hstack]
    rfl
  simp only [hjoin, Except.bind_eq_ok] at h
  obtain ⟨_, hafter, out, hout, h⟩ := h
  obtain ⟨rest, hpop, rfl⟩ := stackAfter_eq_ok.mp hafter
  have hleaves := (successors_eq_ok hout).1
  refine ⟨_, rest, rfl, hpop, exists_successors.mp ⟨out, hout⟩, ?_, out, ?_⟩
  · rintro rfl hterm
    by_contra hge
    rw [if_pos (hleaves.mpr ⟨hterm, by omega⟩)] at h
    cases h
  · split_ifs at h
    · obtain ⟨w1, hleave, h⟩ := Except.bind_eq_ok.mp h
      refine ⟨w1.exitStack, hout, ?_⟩
      unfold leave at hleave
      split at hleave
      · cases hleave
      · cases hleave
        exact h
      · split_ifs at hleave
        cases hleave
        exact h
    · exact ⟨w.exitStack, hout, h⟩

theorem Looked.mono {i : Instruction} {rest : KindStack} (h : Looked limit code mode w pos i rest)
    (hkept : ∀ pos stack, w.stackAt pos = some stack → w'.stackAt pos = some stack)
    (hmax : w.maxStack ≤ w'.maxStack) : Looked limit code mode w' pos i rest :=
  ⟨h.at_pos, hkept _ _ h.operands, h.jumps, h.goesOn,
    fun next hgoes hlt => hkept _ _ (h.leads next hgoes hlt), Nat.le_trans h.words hmax⟩

theorem Sound.exists_stack (hw : w.Sound limit code mode looked) (hp : w.pending = index :: rest) :
    ∃ stack, w.stackAt index = some stack ∧ index < code.size := by
  obtain ⟨stack, hstack⟩ := Option.isSome_iff_exists.mp ((hw.known index).mp (by simp [hp]))
  exact ⟨stack, hstack, hw.size ▸ stackAt_lt (by rw [hstack]; rfl)⟩

theorem step_sound (hw : w.Sound limit code mode looked) (hp : w.pending = index :: rest)
    (h : step limit code mode { w with pending := rest } index = .ok w') :
    w'.Sound limit code mode (looked ++ [index]) := by
  obtain ⟨stack, hstack, hlt⟩ := hw.exists_stack hp
  obtain ⟨i, others, hi, rfl, hjumps, hgoesOn, out, exit, hout, hfold⟩ :=
    step_eq_ok (w := { w with pending := rest }) hstack hlt h
  have hnext := (successors_eq_ok hout).2
  obtain ⟨fresh, hg, hsub, hfresh⟩ := foldlM_reach_grows (fun j hj =>
    hw.size ▸ ((hnext j).mp hj).2) hfold
  have hkept : ∀ pos st, w.stackAt pos = some st → w'.stackAt pos = some st := fun _ _ => hg.kept
  have hmax := hg.maxStack
  have hreaches := hw.reached index _ hstack
  have hlooked : looked ++ [index] ++ w'.pending = looked ++ w.pending ++ fresh := by
    rw [hg.pending, hp]
    simp
  have hunknown : ∀ pos ∈ fresh, w.stackAt pos = none := hg.unknown
  refine ⟨hg.size.trans hw.size, hkept _ _ hw.start, ?_, fun pos => ?_, fun pos st hst => ?_,
    fun pos hpos => ?_, ?_⟩
  · rw [hlooked]
    refine nodup_append.mpr ⟨hw.nodup, hg.nodup, fun x hx y hy hxy => ?_⟩
    have := (hw.known x).mp hx
    rw [hunknown x (hxy ▸ hy)] at this
    cases this
  · rw [hlooked, mem_append, hw.known, hg.known]
    split_ifs with hpos
    · simp [hpos]
    · simp [hpos, stackAt]
  · rw [hg.known] at hst
    split_ifs at hst with hpos
    · cases hst
      exact hreaches.step hi ((hnext pos).mp (hsub hpos)).1
    · exact hw.reached pos st hst
  · rcases mem_append.mp hpos with hpos | hpos
    · obtain ⟨j, r, hj⟩ := hw.settled pos hpos
      exact ⟨j, r, hj.mono hkept (hmax ▸ Nat.le_max_left _ _)⟩
    · obtain rfl := mem_singleton.mp hpos
      exact ⟨i, others, hi, hkept _ _ hstack, hjumps, hgoesOn,
        fun next hgoes hlt => hfresh next ((hnext next).mpr ⟨hgoes, hlt⟩),
        hmax ▸ Nat.le_max_right _ _⟩
  · rw [hmax]
    rcases Nat.le_total (wordsUpTo limit (i.effect.pushes.reverse ++ others))
      w.maxStack with hle | hle
    · rw [Nat.max_eq_left hle]
      exact hw.counted
    · rw [Nat.max_eq_right hle]
      exact .inr ⟨index, _, ⟨i, others, hi, hreaches, rfl⟩, rfl⟩

/-- Getting to instructions with the stack that all paths bring there never fails. -/
theorem exists_foldlM_reach (hk : Consistent code) {next : List Nat}
    (hw : ∀ pos st, w.stackAt pos = some st → Reaches code pos st)
    (hnext : ∀ index ∈ next, Reaches code index stack ∧ index < w.known.size) :
    ∃ w', next.foldlM (fun w index => w.reach stack index) w = .ok w' := by
  induction next generalizing w with
  | nil => exact ⟨w, rfl⟩
  | cons index next ih =>
    obtain ⟨⟨hindex, hlt⟩, hnext⟩ := forall_mem_cons.mp hnext
    obtain ⟨w1, hr⟩ : ∃ w1, w.reach stack index = .ok w1 := by
      unfold reach
      cases hk' : w.known[index]?.join with
      | none => exact ⟨_, rfl⟩
      | some existing => exact ⟨w, if_pos (hk.unique _ _ _ (hw index existing hk') hindex)⟩
    obtain ⟨fresh, hg, hsub, -⟩ := reach_grows hlt hr
    obtain ⟨w', hw'⟩ := ih (fun pos st hst => by grind [hg.known pos, hw pos st])
      (fun j hj => hg.size ▸ hnext j hj)
    exact ⟨w', by rw [foldlM_cons, hr]; exact hw'⟩

/-- The search of consistent code goes on as long as something is pending. -/
theorem exists_step (hk : Consistent code) (hw : w.Sound limit code .method looked)
    (hp : w.pending = index :: rest) :
    ∃ w', step limit code .method { w with pending := rest } index = .ok w' := by
  obtain ⟨stack, hstack, hlt⟩ := hw.exists_stack hp
  have hreaches := hw.reached index stack hstack
  obtain ⟨i, hi, ⟨others, rfl⟩, hjumps, hgoesOn⟩ := hk.fits index stack hreaches
  obtain ⟨out, hout⟩ : ∃ out, successors code.size i index = .ok out := exists_successors.mpr hjumps
  obtain ⟨hleaves, hnext⟩ := successors_eq_ok hout
  have hstays : out.leaves = false := by
    cases hl : out.leaves with
    | false => rfl
    | true =>
      obtain ⟨hterm, hge⟩ := hleaves.mp hl
      have := hgoesOn hterm
      omega
  obtain ⟨w', hw'⟩ : ∃ w', out.next.foldlM
      (fun w index => w.reach (i.effect.pushes.reverse ++ others) index)
      { w with
        pending := rest
        maxStack := max w.maxStack (wordsUpTo limit (i.effect.pushes.reverse ++ others)) } =
      .ok w' := by
    refine exists_foldlM_reach hk ?_ fun j hj =>
      ⟨hreaches.step hi ((hnext j).mp hj).1, hw.size ▸ ((hnext j).mp hj).2⟩
    exact hw.reached
  have hjoin : (w.known[index]?).join.getD [] = i.effect.pops.reverse ++ others := by
    rw [show (w.known[index]?).join = _ from hstack]
    rfl
  refine ⟨w', ?_⟩
  unfold step
  simp only [hi, hjoin, Except.bind_eq_ok]
  exact ⟨_, stackAfter_eq_ok.mpr ⟨others, rfl, rfl⟩, out, hout, by rw [hstays]; exact hw'⟩

/-- The instructions that a search looks at, in order. -/
def visits (limit : Option Nat) (code : Array Instruction) (mode : CodeMode) : Nat → Walk → List Nat
  | 0, _ => []
  | fuel + 1, w =>
    match w.pending with
    | [] => []
    | index :: rest =>
      index :: match step limit code mode { w with pending := rest } index with
        | .ok w => visits limit code mode fuel w
        | .error _ => []

theorem start_sound (h : 0 < code.size) : (start code.size).Sound limit code mode [] := by
  have hat (pos : Nat) : (start code.size).stackAt pos = if pos = 0 then some [] else none := by
    unfold stackAt start
    rw [Array.getElem?_setIfInBounds, Array.getElem?_replicate]
    grind
  refine ⟨by simp [start], by rw [hat, if_pos rfl], by simp [start], fun pos => ?_,
    fun pos stack hs => ?_, by simp, .inl rfl⟩
  · rw [hat]
    by_cases hp : pos = 0 <;> simp [start, hp]
  · rw [hat] at hs
    split_ifs at hs with hp
    cases hs
    exact hp ▸ .start code

/-- Once as many instructions have been looked at as there are, none is left. -/
theorem Sound.pending_eq_nil (hw : w.Sound limit code mode looked)
    (hlength : looked.length = code.size) : w.pending = [] := by
  have hsub : looked ++ w.pending ⊆ List.range code.size := fun pos hpos => by
    rw [mem_range, ← hw.size]
    exact stackAt_lt ((hw.known pos).mp hpos)
  have hle := (subperm_of_subset hw.nodup hsub).length_le
  rw [length_append, length_range] at hle
  exact length_eq_zero_iff.mp (by omega)

theorem run_of_pending_nil (limit : Option Nat) (code : Array Instruction) (mode : CodeMode)
    (hp : w.pending = []) (fuel : Nat) :
    run limit code mode fuel w = .ok w ∧ visits limit code mode fuel w = [] := by
  cases fuel with
  | zero => exact ⟨rfl, rfl⟩
  | succ fuel => simp [run, visits, hp]

/-- **As many steps as there are instructions look once at every one that control gets to**, or end
early with an error; more steps change nothing. -/
theorem run_sound {fuel : Nat} (hw : w.Sound limit code mode looked)
    (hfuel : looked.length + fuel = code.size) :
    (looked ++ visits limit code mode fuel w).Nodup ∧
      (∀ pos ∈ visits limit code mode fuel w, ∃ stack, Reaches code pos stack) ∧
      (∀ more, run limit code mode (fuel + more) w = run limit code mode fuel w) ∧
      ∀ w', run limit code mode fuel w = .ok w' →
        w'.Sound limit code mode (looked ++ visits limit code mode fuel w) ∧ w'.pending = [] := by
  induction fuel generalizing looked w with
  | zero =>
    have hp := hw.pending_eq_nil hfuel
    refine ⟨by simpa [visits, hp] using hw.nodup, by simp [visits], fun more => ?_, ?_⟩
    · exact (run_of_pending_nil _ _ _ hp _).1
    · rintro _ ⟨⟩
      exact ⟨by simpa [visits] using hw, hp⟩
  | succ fuel ih =>
    cases hp : w.pending with
    | nil =>
      obtain ⟨hrun, hvisits⟩ := run_of_pending_nil limit code mode hp (fuel + 1)
      rw [hrun, hvisits]
      refine ⟨by simpa [hp] using
        hw.nodup, by simp, fun more => (run_of_pending_nil _ _ _ hp _).1, ?_⟩
      rintro _ ⟨⟩
      exact ⟨by simpa using hw, hp⟩
    | cons index rest =>
      have hnodup : (looked ++ [index]).Nodup := by
        have := hw.nodup
        rw [hp, append_cons] at this
        exact (nodup_append.mp this).1
      obtain ⟨stack, hstack, -⟩ := hw.exists_stack hp
      have hreaches := hw.reached index stack hstack
      simp only [run, visits, hp, Nat.add_right_comm fuel 1]
      cases hs : step limit code mode { w with pending := rest } index with
      | error e =>
        refine ⟨hnodup, by simpa using ⟨stack, hreaches⟩, fun _ => rfl, ?_⟩
        rintro _ ⟨⟩
      | ok w1 =>
        obtain ⟨h1, h2, h3, h4⟩ := ih (step_sound hw hp hs) (by simp; omega)
        rw [append_assoc, singleton_append] at h1 h4
        exact ⟨h1, forall_mem_cons.mpr ⟨⟨stack, hreaches⟩, h2⟩, h3, h4⟩

theorem exists_run (hk : Consistent code) (hw : w.Sound limit code .method looked) (fuel : Nat) :
    ∃ w', run limit code .method fuel w = .ok w' := by
  induction fuel generalizing looked w with
  | zero => exact ⟨w, rfl⟩
  | succ fuel ih =>
    cases hp : w.pending with
    | nil => exact ⟨w, (run_of_pending_nil _ _ _ hp _).1⟩
    | cons index rest =>
      obtain ⟨w1, hs⟩ := exists_step hk hw hp
      obtain ⟨w', hw'⟩ := ih (step_sound hw hp hs)
      exact ⟨w', by simp only [run, hp, hs]; exact hw'⟩

/-- All paths bring the stacks that a search has found, and those of whole methods stay inside. -/
theorem Sound.all_paths (hw : w.Sound limit code mode looked) (hp : w.pending = [])
    (hpos : 0 < code.size) (h : Reaches code pos stack) :
    (mode = .method → pos < code.size) ∧ (pos < code.size → w.stackAt pos = some stack) := by
  suffices ∀ p : Nat × KindStack, Relation.ReflTransGen (StackStep code) (0, []) p →
      (mode = .method → p.1 < code.size) ∧ (p.1 < code.size → w.stackAt p.1 = some p.2) from
    this (pos, stack) h
  intro p hp'
  induction hp' with
  | refl => exact ⟨fun _ => hpos, fun _ => hw.start⟩
  | tail _ hstep ih =>
    cases hstep with
    | @step pos next i rest hi hgoes =>
      have hknown := ih.2 (Array.getElem?_eq_some_iff.mp hi).1
      obtain ⟨j, r, hl⟩ := hw.settled pos (by
        simpa [hp] using (hw.known pos).mpr (by rw [hknown]; rfl))
      cases hi.symm.trans hl.at_pos
      obtain rfl := append_cancel_left (Option.some.inj (hknown.symm.trans hl.operands))
      refine ⟨fun hmode => ?_, hl.leads next hgoes⟩
      rcases hgoes with hj | ⟨ht, rfl⟩
      · obtain ⟨_, hn, hlt⟩ := hl.jumps _ hj
        cases hn
        exact hlt
      · exact hl.goesOn hmode ht

end Walk

/-! ## Whole methods -/

section Methods

variable {limit : Option Nat} {code : Array Instruction} {mode : CodeMode} {sim : Simulation}

theorem simulateUpTo_eq_ok (hpos : 0 < code.size) : simulateUpTo limit code mode = .ok sim ↔
    exceeds limit code.size = false ∧ ∃ w,
      Walk.run limit code mode code.size (.start code.size) = .ok w ∧
      sim = ⟨w.maxStack, w.exitStack⟩ := by
  have hempty : code.isEmpty = false := by simpa using Nat.ne_of_gt hpos
  unfold simulateUpTo
  cases exceeds limit code.size with
  | true => simp
  | false =>
    simp only [hempty, Bool.false_eq_true, if_false, Except.bind_eq_ok, Except.pure_eq_ok, true_and]

/-- What a search to the end has found out about the paths of the code. -/
theorem simulateUpTo_counts (h : simulateUpTo limit code mode = .ok sim) :
    (∀ pos stack, StackLeft code pos stack → wordsUpTo limit stack ≤ sim.maxStack) ∧
      (code = #[] ∧ sim.maxStack = 0 ∨
        ∃ pos stack, StackLeft code pos stack ∧ wordsUpTo limit stack = sim.maxStack) ∧
      (mode = .method → Consistent code) := by
  rcases Nat.eq_zero_or_pos code.size with hsize | hpos
  · obtain rfl := Array.eq_empty_of_size_eq_zero hsize
    refine ⟨?_, ?_⟩
    · rintro pos stack ⟨i, rest, hi, -⟩
      simp at hi
    · unfold simulateUpTo at h
      split_ifs at h with _ hempty
      · cases mode with
        | method => cases h
        | fragment =>
          cases h
          exact ⟨.inl ⟨rfl, rfl⟩, by rintro ⟨⟩⟩
      · exact absurd rfl hempty
  · obtain ⟨-, w, hrun, rfl⟩ := (simulateUpTo_eq_ok hpos).mp h
    obtain ⟨-, -, -, hend⟩ := Walk.run_sound (Walk.start_sound hpos) (Nat.zero_add _)
    obtain ⟨hw, hp⟩ := hend w hrun
    -- the instruction at every point of a path has been looked at
    have hlooked {pos : Nat} {stack : KindStack} (hr : Reaches code pos stack)
        (hlt : pos < code.size) : ∃ i rest, w.Looked limit code mode pos i rest ∧
          stack = i.effect.pops.reverse ++ rest := by
      have hknown := (hw.all_paths hp hpos hr).2 hlt
      obtain ⟨i, rest, hl⟩ := hw.settled pos (by
        simpa [hp] using (hw.known pos).mpr (by rw [hknown]; rfl))
      exact ⟨i, rest, hl, Option.some.inj (hknown.symm.trans hl.operands)⟩
    have hcounts : ∀ pos stack, StackLeft code pos stack → wordsUpTo limit stack ≤ w.maxStack := by
      rintro pos _ ⟨i, rest, hi, hr, rfl⟩
      obtain ⟨j, r, hl, heq⟩ := hlooked hr (Array.getElem?_eq_some_iff.mp hi).1
      cases hi.symm.trans hl.at_pos
      obtain rfl := append_cancel_left heq
      exact hl.words
    refine ⟨hcounts, .inr ?_, ?_⟩
    · rcases hw.counted with hzero | hcounted
      · obtain ⟨i, rest, hl, heq⟩ := hlooked (.start code) hpos
        have hleft : StackLeft code 0 _ := ⟨i, rest, hl.at_pos, heq ▸ .start code, rfl⟩
        exact ⟨0, _, hleft, Nat.le_antisymm (hcounts 0 _ hleft) (hzero ▸ Nat.zero_le _)⟩
      · exact hcounted
    · rintro rfl
      refine ⟨fun pos stack hr => ?_, fun pos stack stack' hr hr' => ?_⟩
      · obtain ⟨i, rest, hl, rfl⟩ := hlooked hr ((hw.all_paths hp hpos hr).1 rfl)
        exact ⟨i, hl.at_pos, ⟨rest, rfl⟩, hl.jumps, hl.goesOn rfl⟩
      · have hlt := (hw.all_paths hp hpos hr).1 rfl
        have := (hw.all_paths hp hpos hr).2 hlt
        rw [(hw.all_paths hp hpos hr').2 hlt] at this
        exact (Option.some.inj this).symm

theorem simulateUpTo_of_consistent (hk : Consistent code)
    (hsize : exceeds limit code.size = false) :
    ∃ sim, simulateUpTo limit code .method = .ok sim := by
  obtain ⟨i, hi, -⟩ := hk.fits 0 [] (.start code)
  have hpos : 0 < code.size := (Array.getElem?_eq_some_iff.mp hi).1
  obtain ⟨w, hw⟩ := Walk.exists_run hk (Walk.start_sound hpos) code.size
  exact ⟨_, (simulateUpTo_eq_ok hpos).mpr ⟨hsize, w, hw, rfl⟩⟩

/-- **The search accepts exactly the consistent code that is not too long.** It looks only at
instructions that control can get to, at none twice, and at all of them if it accepts the code. It
comes to its end by itself: more steps than there are instructions make no difference. -/
theorem simulate_iff_consistent (code : Array Instruction) (hpos : 0 < code.size) :
    ((∃ sim, simulate code .method = .ok sim) ↔ code.size ≤ maxWords ∧ Consistent code) ∧
      (Walk.visits (some maxWords) code .method code.size (.start code.size)).Nodup ∧
      (∀ pos ∈ Walk.visits (some maxWords) code .method code.size (.start code.size),
        ∃ stack, Reaches code pos stack) ∧
      ((∃ sim, simulate code .method = .ok sim) → ∀ pos stack, Reaches code pos stack →
        pos ∈ Walk.visits (some maxWords) code .method code.size (.start code.size)) ∧
      ∀ fuel, code.size ≤ fuel → Walk.run (some maxWords) code .method fuel (.start code.size) =
        Walk.run (some maxWords) code .method code.size (.start code.size) := by
  have hstart : (Walk.start code.size).Sound (some maxWords) code .method [] :=
    Walk.start_sound hpos
  obtain ⟨hnodup, hreached, hmore, hend⟩ := Walk.run_sound hstart (Nat.zero_add _)
  refine ⟨⟨?_, ?_⟩, hnodup, hreached, ?_, fun fuel hfuel => ?_⟩
  · rintro ⟨sim, hsim⟩
    have hsize := ((simulateUpTo_eq_ok hpos).mp hsim).1
    exact ⟨by simpa [exceeds] using hsize, (simulateUpTo_counts hsim).2.2 rfl⟩
  · rintro ⟨hsize, hk⟩
    exact simulateUpTo_of_consistent hk (by simpa [exceeds] using hsize)
  · rintro ⟨sim, hsim⟩ pos stack hr
    obtain ⟨-, w, hrun, -⟩ := (simulateUpTo_eq_ok hpos).mp hsim
    obtain ⟨hw, hp⟩ := hend w hrun
    obtain ⟨hlt, hknown⟩ := hw.all_paths hp hpos hr
    simpa [hp] using (hw.known pos).mpr (by rw [hknown (hlt rfl)]; rfl)
  · obtain ⟨more, rfl⟩ := Nat.exists_eq_add_of_le hfuel
    exact hmore more

theorem simulate_iff_consistent_loop :
    0 < #[Instruction.iconst 0, .branchZero .eq (.index 0), .ret none].size ∧
      Consistent #[.iconst 0, .branchZero .eq (.index 0), .ret none] :=
  ⟨by decide, ((simulate_iff_consistent _ (by decide)).1.mp ⟨_, rfl⟩).2⟩

theorem checkInstruction_eq_ok {i : Instruction} : checkInstruction limits ret i pos = .ok () ↔
      i.slotsBelow limits.maxLocals ∧ ∀ kind, i = .ret kind → kind = ret := by
  cases i <;> grind [checkInstruction, Instruction.slotsBelow]

theorem checkFrom_eq_ok {instructions : List Instruction} {start : Nat} :
    checkFrom limits ret start instructions = .ok () ↔
      ∀ i ∈ instructions, i.slotsBelow limits.maxLocals ∧ ∀ kind, i = .ret kind → kind = ret := by
  induction instructions generalizing start with
  | nil => simp [checkFrom]
  | cons i rest ih =>
    simp only [checkFrom, Except.bind_eq_ok, forall_mem_cons, ih]
    constructor
    · rintro ⟨_, hi, hrest⟩
      exact ⟨checkInstruction_eq_ok.mp hi, hrest⟩
    · rintro ⟨hi, hrest⟩
      exact ⟨(), checkInstruction_eq_ok.mpr hi, hrest⟩

theorem verifyUpTo_eq_ok : verifyUpTo limit code limits ret = .ok () ↔
      (∃ sim, simulateUpTo limit code .method = .ok sim ∧ sim.maxStack ≤ limits.maxStack) ∧
        ∀ (pos : Nat) (i : Instruction), code[pos]? = some i →
          i.slotsBelow limits.maxLocals ∧ ∀ kind, i = .ret kind → kind = ret := by
  have hall : (∀ i ∈ code.toList, i.slotsBelow limits.maxLocals ∧ ∀ kind,
      i = .ret kind → kind = ret) ↔ ∀ (pos : Nat) (i : Instruction), code[pos]? = some i →
        i.slotsBelow limits.maxLocals ∧ ∀ kind, i = .ret kind → kind = ret := by
    simp only [Array.mem_toList_iff, Array.mem_iff_getElem?]
    exact ⟨fun h pos i hi => h i ⟨pos, hi⟩, fun h i ⟨pos, hi⟩ => h pos i hi⟩
  rw [← hall, ← @checkFrom_eq_ok limits ret code.toList 0, verifyUpTo, Except.bind_eq_ok]
  constructor
  · rintro ⟨sim, hsim, h⟩
    split_ifs at h with hle
    · cases h
    · exact ⟨⟨sim, hsim, Nat.le_of_not_lt hle⟩, h⟩
  · rintro ⟨⟨sim, hsim, hle⟩, h⟩
    exact ⟨sim, hsim, by rw [if_neg (Nat.not_lt.mpr hle)]; exact h⟩

theorem wordsUpTo_le (limit : Option Nat) (kinds : List Kind) :
    wordsUpTo limit kinds ≤ totalWords kinds := by
  cases limit with
  | none => exact Nat.le_refl _
  | some most => exact Nat.mod_le _ _

/-- **The check of consistent code finds nothing wrong**, unless the code is too long. -/
theorem verifyUpTo_of_consistent (hk : Consistent code)
    (hwords : ∀ pos stack, StackLeft code pos stack → totalWords stack ≤ limits.maxStack)
    (hcheck : ∀ (pos : Nat) i, code[pos]? = some i →
      i.slotsBelow limits.maxLocals ∧ ∀ kind, i = .ret kind → kind = ret)
    (hsize : exceeds limit code.size = false) : verifyUpTo limit code limits ret = .ok () := by
  obtain ⟨sim, hsim⟩ := simulateUpTo_of_consistent hk hsize
  refine verifyUpTo_eq_ok.mpr ⟨⟨sim, hsim, ?_⟩, hcheck⟩
  rcases (simulateUpTo_counts hsim).2.1 with ⟨-, hzero⟩ | ⟨pos, stack, hleft, hcount⟩
  · exact hzero ▸ Nat.zero_le _
  · exact hcount ▸ Nat.le_trans (wordsUpTo_le limit stack) (hwords pos stack hleft)

/-- **The words that a search counts.** It finds the greatest count, in sixteen bits, of a stack
that an instruction leaves on some path. If all these stacks can be counted so, then it is the size
of the largest of them, and a method that is accepted never has more words on its stack than it
says. -/
theorem simulate_maxStack {code : Array Instruction} {mode : CodeMode} {sim : Simulation}
    (h : simulate code mode = .ok sim) :
    (∀ pos stack, StackLeft code pos stack → shortWords stack ≤ sim.maxStack) ∧
      (code = #[] ∧ sim.maxStack = 0 ∨
        ∃ pos stack, StackLeft code pos stack ∧ shortWords stack = sim.maxStack) ∧
      ((∀ pos stack, StackLeft code pos stack → totalWords stack ≤ maxWords) →
        (∀ pos stack, StackLeft code pos stack → totalWords stack ≤ sim.maxStack) ∧
          (code = #[] ∧ sim.maxStack = 0 ∨
            ∃ pos stack, StackLeft code pos stack ∧ totalWords stack = sim.maxStack) ∧
          ∀ limits ret, verify code limits ret = .ok () →
            ∀ pos stack, StackLeft code pos stack → totalWords stack ≤ limits.maxStack) := by
  obtain ⟨hle, hattained, -⟩ := simulateUpTo_counts h
  refine ⟨hle, hattained, fun hall => ?_⟩
  have hexact {pos : Nat} {stack : KindStack} (hleft : StackLeft code pos stack) :
      shortWords stack = totalWords stack :=
    wordsUpTo_eq (by simpa [exceeds] using hall pos stack hleft)
  refine ⟨fun pos stack hleft => hexact hleft ▸ hle pos stack hleft, hattained.imp_right ?_, ?_⟩
  · rintro ⟨pos, stack, hleft, hcount⟩
    exact ⟨pos, stack, hleft, hexact hleft ▸ hcount⟩
  · intro limits ret hverify pos stack hleft
    obtain ⟨⟨sim', hsim, hmax⟩, -⟩ := verifyUpTo_eq_ok.mp hverify
    rw [← hexact hleft]
    exact Nat.le_trans ((simulateUpTo_counts hsim).1 pos stack hleft) hmax

theorem simulate_maxStack_lconst :
    simulate #[.lconst 0, .ret none] .method = .ok ⟨2, none⟩ ∧
      ∃ pos stack, StackLeft #[.lconst 0, .ret none] pos stack ∧ shortWords stack = 2 := by
  have h : simulate #[.lconst 0, .ret none] .method = .ok ⟨2, none⟩ := rfl
  exact ⟨h, (simulate_maxStack h).2.1.resolve_left (by simp)⟩

/-- Code that leaves more words than can be counted in sixteen bits. -/
def wideCode : Array Instruction := (Array.replicate 32768 (.lconst 0)).push (.ret none)

theorem totalWords_replicate_long (n : Nat) : totalWords (List.replicate n .long) = 2 * n := by
  induction n with
  | zero => rfl
  | succ n ih =>
    rw [replicate_succ, totalWords, ih]
    show 2 + 2 * n = 2 * (n + 1)
    omega

theorem wideCode_getElem? (pos : Nat) : wideCode[pos]? = if pos < 32768 then some (.lconst 0) else
    if pos = 32768 then some (.ret none) else none := by
  rw [wideCode, Array.getElem?_push, Array.getElem?_replicate, Array.size_replicate]
  grind

theorem wideCode_settled : Settled wideCode fun pos =>
    if pos ≤ 32768 then some (List.replicate pos .long) else none := by
  have hsize : wideCode.size = 32769 := by simp [wideCode]
  refine ⟨rfl, fun pos stack hknown => ?_, fun pos i rest next hi hknown hgoes => ?_⟩
  · rw [wideCode_getElem?]
    split_ifs at hknown with hle
    by_cases hlt : pos < 32768
    · exact ⟨.lconst 0, if_pos hlt, ⟨stack, rfl⟩, nofun, fun _ => by omega⟩
    · exact ⟨.ret none, by grind, ⟨stack, rfl⟩, nofun, nofun⟩
  · rw [wideCode_getElem?] at hi
    split_ifs at hi with hlt hlast
    · cases hi
      obtain hjump | ⟨-, rfl⟩ := hgoes
      · cases hjump
      · rw [if_pos (by omega)] at hknown ⊢
        obtain rfl : List.replicate pos Kind.long = rest := Option.some.inj hknown
        rfl
    · cases hi
      obtain hjump | ⟨hterm, -⟩ := hgoes
      · cases hjump
      · cases hterm

theorem wideCode_reaches {n : Nat} (h : n ≤ 32768) :
    Reaches wideCode n (List.replicate n .long) := by
  induction n with
  | zero => exact .start _
  | succ n ih =>
    have hi : wideCode[n]? = some (.lconst 0) := by
      rw [wideCode_getElem?, if_pos (by omega)]
    exact (ih (by omega)).step hi (.inr ⟨rfl, rfl⟩)

/-- **Words are lost**: with that code, an operand stack of 65536 words goes unnoticed. -/
theorem wideCode_miscounted : ∃ sim, simulate wideCode .method = .ok sim ∧ sim.maxStack < 65536 ∧
    verify wideCode ⟨65535, 0⟩ none = .ok () ∧
    ∃ pos stack, StackLeft wideCode pos stack ∧ totalWords stack = 65536 := by
  have hsize : exceeds (some maxWords) wideCode.size = false := by
    simp [wideCode, exceeds, maxWords]
  obtain ⟨sim, hsim⟩ := simulateUpTo_of_consistent wideCode_settled.consistent hsize
  have hmax : sim.maxStack < 65536 := by
    rcases (simulateUpTo_counts hsim).2.1 with ⟨-, hzero⟩ | ⟨-, stack, -, hcount⟩
    · omega
    · exact hcount ▸ Nat.mod_lt _ (by decide)
  refine ⟨sim, hsim, hmax,
    verifyUpTo_eq_ok.mpr ⟨⟨sim, hsim, Nat.le_of_lt_succ hmax⟩, fun pos i hi => ?_⟩, 32767,
    List.replicate 32768 .long, ?_, totalWords_replicate_long _⟩
  · rw [wideCode_getElem?] at hi
    split_ifs at hi <;> cases hi
    · exact ⟨trivial, fun _ hkind => by cases hkind⟩
    · exact ⟨trivial, fun _ hkind => (Instruction.ret.inj hkind).symm⟩
  · exact ⟨.lconst 0,
      _, by rw [wideCode_getElem?, if_pos (by decide)], wideCode_reaches (by decide),
      List.replicate_succ⟩

end Methods

end StackCompiler

import StackCompiler.Proofs.TypedStmt

/-!
# Typed methods

Code whose points have shapes can be finished, and the check of it finds nothing wrong: only its
length may be too large. On every path through the finished code, instructions get the operands that
they name and read what was written for the variable that they are about.

* **`finishMethod_typed`**: it becomes a typed method.
-/

namespace StackCompiler

open CodeBuffer Emit

variable {i : Instruction} {m : Method} {pos : Nat}

/-! ## Finished code -/

/-- Control neither jumps nor goes on to a place outside the code. -/
def Instruction.StaysInside (i : Instruction) (code : Array Instruction) (pos : Nat) : Prop :=
  (∀ target, i.target? = some target → ∃ next, target = .index next ∧ next < code.size) ∧
    (i.isTerminal = false → pos + 1 < code.size)

/-- On every path, instructions get the operands that they name, and read only what was last written
for their variable. What callers hand over stays where they put it. -/
structure Method.Typed (m : Method) (types : MethodTypes) (entry : Words) : Prop where
  operands : ∀ pos stack, m.TypeReaches types pos stack → ∃ i after, m.body.code[pos]? = some i ∧
    i.retype types (m.subjectAt pos) stack = some after
  legal : ∀ (pos : Nat) i, m.body.code[pos]? = some i → i.Legal
  reads : ∀ pos words i e, m.WordReaches entry pos words → m.body.code[pos]? = some i →
    i.reads (m.subjectAt pos) = some e → e.subject.isSome ∧ words.Holds e
  homes : ∀ (pos : Nat) i e, m.body.code[pos]? = some i →
    i.reads (m.subjectAt pos) = some e ∨ i.writes (m.subjectAt pos) = some e → e.AtHome types
  inside : ∀ (pos : Nat) i, m.body.code[pos]? = some i → i.StaysInside m.body.code pos

/-- The shapes of the points of finished code are in agreement with its instructions. -/
structure Shaping.Fits (T : Shaping) (S : Setting) (frame : Nat) (code : Array Instruction)
    (subject : Nat → Option Subject) : Prop where
  start : T.Leads 0 S.entry
  inside : ∀ pos s, T.Leads pos s → pos ≤ code.size → pos < code.size
  step : ∀ (pos : Nat) i, code[pos]? = some i → ∃ s s', T.at_ pos = some s ∧
    Shape.Accepts S.types frame (subject pos) i s s' ∧
    ∀ next, i.GoesTo pos next → next ≤ code.size ∧ T.Leads next s'
  targets : ∀ (pos : Nat) i target, code[pos]? = some i → i.target? = some target →
    ∃ next, target = .index next

section Finishing

variable {S : Setting} {frame : Nat} {b : CodeBuffer} {T : Shaping}

theorem CodeBuffer.Shaped.lt_of_leads (hcur : T.at_ b.code.size = none) {s : Shape}
    (h : T.Leads pos s) (hle : pos ≤ b.code.size) : pos < b.code.size := by
  refine Nat.lt_of_le_of_ne hle ?_
  rintro rfl
  obtain ⟨c, hc, -⟩ := h
  rw [hcur] at hc
  cases hc

theorem CodeBuffer.exists_finishes
    (h : ∀ (p : Nat) i, b.code[p]? = some i → ∃ j, Places b i j) : ∃ code, Finishes b code := by
  have hlist (is : List Instruction) (his : ∀ i ∈ is, ∃ j, Places b i j) :
      ∃ js, List.Forall₂ (Places b) is js := by
    induction is with
    | nil => exact ⟨[], .nil⟩
    | cons i is ih =>
      obtain ⟨⟨j, hj⟩, his⟩ := List.forall_mem_cons.mp his
      obtain ⟨js, hjs⟩ := ih his
      exact ⟨j :: js, .cons hj hjs⟩
  obtain ⟨js, hjs⟩ := hlist b.code.toList fun i hi => by
    obtain ⟨p, hp⟩ := List.mem_iff_getElem?.mp hi
    exact h p i (by rwa [Array.getElem?_toList] at hp)
  refine ⟨js.toArray, by simpa using hjs.length_eq.symm, fun p i hi => ?_⟩
  rw [← Array.getElem?_toList] at hi
  obtain ⟨hlt, rfl⟩ := List.getElem?_eq_some_iff.mp hi
  have hlt' : p < js.length := hjs.length_eq ▸ hlt
  exact ⟨js[p], hjs.get hlt hlt', by simp [hlt']⟩

theorem Shape.Accepts.retarget {types : MethodTypes} {x : Option Subject} {s s' : Shape}
    (h : Shape.Accepts types frame x i s s') (t : Target) :
    Shape.Accepts types frame x (i.retarget t) s s' := by
  refine ⟨(retype_retarget t).trans h.types, ?_, ?_, ?_, ?_⟩
  · rw [h.words]
    cases i <;> rfl
  · have hreads := h.reads
    cases i <;> exact hreads
  · have hwrites := h.writes
    cases i <;> exact hwrites
  · have hslots := h.slots
    cases i <;> exact hslots

/-- **Code with shapes can be finished** once its labels are placed and control does not get to its
end. -/
theorem CodeBuffer.Shaped.finishes (h : b.Shaped S frame T) (hfirst : S.first = 0)
    (hlabel : S.label = 0) (hcur : T.at_ b.code.size = none)
    (hplaced : ∀ l < b.labels.size, (b.labelAt l).isSome) :
    ∃ code, b.finish = .ok (code, b.maxDepth) ∧ code.size = b.code.size ∧
      T.Fits S frame code b.subjectAt := by
  -- one instruction, with a position in place of a label
  have hplace (pos : Nat) (i : Instruction) (hi : b.code[pos]? = some i) : ∃ j s s', Places b i j ∧
      T.at_ pos = some s ∧ Shape.Accepts S.types frame (b.subjectAt pos) j s s' ∧
      ∀ next, j.GoesTo pos next → next ≤ b.code.size ∧ T.Leads next s' := by
    obtain ⟨s, s', hs, ha, hnext, htarget⟩ := h.code pos i (hfirst ▸ Nat.zero_le _) hi
    have hlt : pos < b.code.size := (Array.getElem?_eq_some_iff.mp hi).1
    cases ht : i.target? with
    | none =>
      refine ⟨i, s, s', .other (by simp [ht]), hs, ha, fun next hgoes => ?_⟩
      rcases hgoes with hgoes | ⟨hterm, rfl⟩
      · rw [ht] at hgoes
        cases hgoes
      · exact ⟨hlt, hnext hterm⟩
    | some t =>
      obtain ⟨l, rfl, -, ⟨state, hstate, hd⟩, hle⟩ := htarget t ht
      have hl : l < b.labels.size := (Array.getElem?_eq_some_iff.mp hstate).1
      obtain ⟨q, hq⟩ := Option.isSome_iff_exists.mp (hplaced l hl)
      have hposition : state.position = some q := (labelAt_eq hstate).symm.trans hq
      obtain ⟨hqle, hleads⟩ := h.placed l state q (hlabel ▸ Nat.zero_le _) hstate hposition hd
      refine ⟨i.retarget (.index q), s, s', .jump ht hq (lt_of_leads hcur hleads hqle), hs,
        ha.retarget _, fun next hgoes => ?_⟩
      rcases hgoes with hgoes | ⟨hterm, rfl⟩
      · rw [Instruction.target?_retarget (by rw [ht]; rfl)] at hgoes
        cases hgoes
        exact ⟨hqle, hleads.mono hle⟩
      · rw [Instruction.isTerminal_retarget] at hterm
        exact ⟨hlt, hnext hterm⟩
  obtain ⟨code, hfin⟩ := exists_finishes (b := b) fun pos i hi => by
    obtain ⟨j, _, _, hj, -⟩ := hplace pos i hi
    exact ⟨j, hj⟩
  have hbefore (pos : Nat) (j : Instruction) (hj : code[pos]? = some j) :
      ∃ i, b.code[pos]? = some i ∧ Places b i j := by
    have hlt : pos < b.code.size := hfin.size ▸ (Array.getElem?_eq_some_iff.mp hj).1
    obtain ⟨i, hi⟩ : ∃ i, b.code[pos]? = some i := ⟨_, Array.getElem?_eq_getElem hlt⟩
    obtain ⟨j1, hj1, hat⟩ := hfin.places pos i hi
    cases hat.symm.trans hj
    exact ⟨i, hi, hj1⟩
  refine ⟨code, finish_eq_ok.mpr ⟨rfl, hfin⟩, hfin.size, hfirst ▸ h.start,
    fun pos s hleads hle => ?_, fun pos j hj => ?_, fun pos j target hj ht => ?_⟩
  · rw [hfin.size] at hle ⊢
    exact lt_of_leads hcur hleads hle
  · obtain ⟨i, hi, hj2⟩ := hbefore pos j hj
    obtain ⟨j1, s, s', hj1, hs, ha, hgoes⟩ := hplace pos i hi
    have heq : j1 = j := Except.ok.inj ((place_eq_ok.mpr hj1).symm.trans (place_eq_ok.mpr hj2))
    subst heq
    rw [hfin.size]
    exact ⟨s, s', hs, ha, hgoes⟩
  · obtain ⟨i, hi, hp⟩ := hbefore pos j hj
    cases hp with
    | jump hi _ _ =>
      rw [Instruction.target?_retarget (by rw [hi]; rfl)] at ht
      exact ⟨_, (Option.some.inj ht).symm⟩
    | other hno =>
      obtain ⟨_, _, _, _, _, htarget⟩ := h.code pos j (hfirst ▸ Nat.zero_le _) hi
      obtain ⟨l, rfl, -⟩ := htarget target ht
      exact absurd ht (hno l)

/-! ## Paths through finished code -/

namespace Shaping.Fits

variable {code : Array Instruction} {subject : Nat → Option Subject}

section

variable (h : T.Fits S frame code subject)
include h

theorem step_leads {next : Nat} {c : Shape} (hi : code[pos]? = some i) (hc : T.at_ pos = some c)
    (hgoes : i.GoesTo pos next) :
    ∃ s', Shape.Accepts S.types frame (subject pos) i c s' ∧ next < code.size ∧
      T.Leads next s' := by
  obtain ⟨s, s', hs, ha, hnext⟩ := h.step pos i hi
  cases hc.symm.trans hs
  obtain ⟨hle, hleads⟩ := hnext next hgoes
  exact ⟨s', ha, h.inside next s' hleads hle, hleads⟩

theorem typeReaches (hentry : S.entry.stack = []) (hcode : m.body.code = code)
    (hsubject : ∀ pos, m.subjectAt pos = subject pos) {stack : TypeStack}
    (hr : m.TypeReaches S.types pos stack) :
    pos < code.size ∧ ∃ c, T.at_ pos = some c ∧ c.stack = stack := by
  generalize hp : (pos, stack) = p at hr
  unfold Method.TypeReaches at hr
  rw [hp] at hr
  induction hr generalizing pos stack with
  | refl =>
    cases hp
    obtain ⟨c, hc, hle⟩ := h.start
    exact ⟨h.inside 0 _ h.start (Nat.zero_le _), c, hc, hle.stack.trans hentry⟩
  | tail _ hstep ih =>
    cases hp
    cases hstep with
    | step hi htyped hgoes =>
      obtain ⟨-, c, hc, rfl⟩ := ih rfl
      rw [hcode] at hi
      obtain ⟨s', ha, hlt, d, hd, hle⟩ := h.step_leads hi hc hgoes
      rw [hsubject, ha.types] at htyped
      exact ⟨hlt, d, hd, hle.stack.trans (Option.some.inj htyped)⟩

theorem wordReaches (hcode : m.body.code = code) (hsubject : ∀ pos, m.subjectAt pos = subject pos)
    {words : Words} (hr : m.WordReaches S.entry.words pos words) :
    pos < code.size ∧ ∃ c, T.at_ pos = some c ∧ c.words.Within words := by
  generalize hp : (pos, words) = p at hr
  unfold Method.WordReaches at hr
  rw [hp] at hr
  induction hr generalizing pos words with
  | refl =>
    cases hp
    obtain ⟨c, hc, hle⟩ := h.start
    exact ⟨h.inside 0 _ h.start (Nat.zero_le _), c, hc, hle.words⟩
  | tail _ hstep ih =>
    cases hp
    cases hstep with
    | step hi hgoes =>
      obtain ⟨-, c, hc, hwithin⟩ := ih rfl
      rw [hcode] at hi
      obtain ⟨s', ha, hlt, d, hd, hle⟩ := h.step_leads hi hc hgoes
      refine ⟨hlt, d, hd, hle.words.trans ?_⟩
      rw [ha.words, hsubject]
      exact hwithin.after _ _

theorem staysInside (hi : code[pos]? = some i) : i.StaysInside code pos := by
  obtain ⟨_, _, _, _, hnext⟩ := h.step pos i hi
  refine ⟨fun target ht => ?_, fun hterm => ?_⟩
  · obtain ⟨next, rfl⟩ := h.targets pos _ _ hi ht
    obtain ⟨hle, hl⟩ := hnext next (.inl ht)
    exact ⟨next, rfl, h.inside _ _ hl hle⟩
  · obtain ⟨hle, hl⟩ := hnext (pos + 1) (.inr ⟨hterm, rfl⟩)
    exact h.inside _ _ hl hle

/-- **A method whose points have shapes is typed.** -/
theorem method_typed (hentry : S.entry.stack = []) (hcode : m.body.code = code)
    (hsubject : ∀ pos, m.subjectAt pos = subject pos) : m.Typed S.types S.entry.words := by
  refine ⟨fun pos stack hr => ?_, fun pos i hi => ?_, fun pos words i e hr hi he => ?_,
    fun pos i e hi he => ?_, fun pos i hi => hcode ▸ h.staysInside (hcode ▸ hi)⟩
  · obtain ⟨hlt, c, hc, rfl⟩ := h.typeReaches hentry hcode hsubject hr
    have hi : code[pos]? = some code[pos] := Array.getElem?_eq_getElem hlt
    obtain ⟨s, s', hs, ha, -⟩ := h.step pos _ hi
    cases hc.symm.trans hs
    exact ⟨code[pos], s'.stack, by rw [hcode, hi], by rw [hsubject, ha.types]⟩
  · obtain ⟨s, s', -, ha, -⟩ := h.step pos i (hcode ▸ hi)
    exact legal_of_retype ha.types
  · obtain ⟨hlt, c, hc, hwithin⟩ := h.wordReaches hcode hsubject hr
    obtain ⟨s, s', hs, ha, -⟩ := h.step pos i (hcode ▸ hi)
    cases hc.symm.trans hs
    rw [hsubject] at he
    obtain ⟨hsome, hholds, -⟩ := ha.reads e he
    exact ⟨hsome, hholds.mono hwithin⟩
  · obtain ⟨s, s', -, ha, -⟩ := h.step pos i (hcode ▸ hi)
    rw [hsubject] at he
    exact he.elim (fun he => (ha.reads e he).2.2) (ha.writes e)

theorem settled (hentry : S.entry.stack = []) :
    Settled code fun pos => if pos < code.size then (T.at_ pos).map fun c => TypeStack.kinds c.stack
      else none := by
  have hleads {pos : Nat} {s : Shape} (hl : T.Leads pos s) (hlt : pos < code.size) :
      (if pos < code.size then (T.at_ pos).map fun c => TypeStack.kinds c.stack else none) =
        some (TypeStack.kinds s.stack) := by
    obtain ⟨c, hc, hle⟩ := hl
    rw [if_pos hlt, hc, Option.map_some, hle.stack]
  refine ⟨?_, fun pos stack hknown => ?_, fun pos i rest next hi hknown hgoes => ?_⟩
  · rw [hleads h.start (h.inside 0 _ h.start (Nat.zero_le _)), hentry]
    rfl
  · split_ifs at hknown with hlt
    obtain ⟨c, hc, rfl⟩ := Option.map_eq_some_iff.mp hknown
    have hi : code[pos]? = some code[pos] := Array.getElem?_eq_getElem hlt
    obtain ⟨s, s', hs, ha, -⟩ := h.step pos _ hi
    cases hc.symm.trans hs
    obtain ⟨rest, hpops, -⟩ := retype_kinds ha.types
    exact ⟨_, hi, ⟨rest, hpops⟩, (h.staysInside hi).1, (h.staysInside hi).2⟩
  · split_ifs at hknown with hlt
    obtain ⟨c, hc, hkinds⟩ := Option.map_eq_some_iff.mp hknown
    obtain ⟨s', ha, hnext, hl⟩ := h.step_leads hi hc hgoes
    obtain ⟨rest', hpops, hpushes⟩ := retype_kinds ha.types
    rw [hleads hl hnext, hpushes]
    rw [hkinds] at hpops
    rw [List.append_cancel_left hpops]

end

end Shaping.Fits

theorem Shaping.Fits.totalWords_le {code : Array Instruction} {subject : Nat → Option Subject}
    (h : T.Fits S frame code subject) (hentry : S.entry.stack = []) {most : Nat}
    (hmost : ∀ pos s, T.at_ pos = some s → s.depth ≤ most) {rest : KindStack}
    (hi : code[pos]? = some i) {c : Shape} (hc : T.at_ pos = some c)
    (hrest : TypeStack.kinds c.stack = i.effect.pops.reverse ++ rest) :
    totalWords (i.effect.pushes.reverse ++ rest) ≤ most := by
  have hlt : pos < code.size := (Array.getElem?_eq_some_iff.mp hi).1
  obtain ⟨j, hj, hfit⟩ := (h.settled hentry).fits pos (TypeStack.kinds c.stack) (by
    rw [if_pos hlt, hc, Option.map_some])
  cases hj.symm.trans hi
  rcases exists_goesTo_or_ret hfit with ⟨next, hgoes⟩ | ⟨kind, rfl⟩
  · obtain ⟨s', ha, -, d, hd, hle⟩ := h.step_leads hi hc hgoes
    obtain ⟨rest', hpops, hpushes⟩ := retype_kinds ha.types
    rw [hrest] at hpops
    rw [List.append_cancel_left hpops, ← hpushes]
    exact Nat.le_trans (Nat.le_of_eq hle.depth.symm) (hmost next d hd)
  · refine Nat.le_trans ?_ (hmost pos c hc)
    rw [Shape.depth, hrest, totalWords_append _ rest, totalWords_append _ rest]
    exact Nat.add_le_add_right (Nat.zero_le _) _

theorem kind_of_ret {types : MethodTypes} {x : Option Subject} {stack after : TypeStack}
    {kind : Option Kind} (h : (Instruction.ret kind).retype types x stack = some after) :
    kind = types.result.kind? := by
  cases kind with
  | none =>
    simp only [Instruction.retype] at h
    split_ifs at h with hresult
    rw [hresult]
    rfl
  | some kind =>
    simp only [Instruction.retype] at h
    split_ifs at h with hresult
    exact hresult.symm

/-- **Code with shapes becomes a typed method**, unless it is too long. -/
theorem finishMethod_typed (h : b.Shaped S frame T) (hfirst : S.first = 0) (hlabel : S.label = 0)
    (hentry : S.entry.stack = []) (hcur : T.at_ b.code.size = none)
    (hplaced : ∀ l < b.labels.size, (b.labelAt l).isSome) (origin : MethodOrigin)
    (header : MethodHeader) {slots : SlotAllocator} (hframe : slots.max = frame) :
    (∃ m, finishMethod origin header S.types.result.kind? b slots = .ok m ∧ m.origin = origin ∧
      m.body.header = header ∧ m.Typed S.types S.entry.words) ∨
    exceeds S.limit b.code.size = true ∧ finishMethod origin header S.types.result.kind? b slots =
        .error (.stack (.tooLong b.code.size)) := by
  obtain ⟨code, hfinish, hsize, hfits⟩ := h.finishes hfirst hlabel hcur hplaced
  unfold finishMethod
  simp only [hfinish, h.limit]
  cases hexceeds : exceeds S.limit code.size with
  | true =>
    refine .inr ⟨hsize ▸ hexceeds, ?_⟩
    have hverify : verifyUpTo S.limit code ⟨b.maxDepth, slots.max⟩ S.types.result.kind? =
        .error (.tooLong b.code.size) := by
      unfold verifyUpTo simulateUpTo
      rw [if_pos hexceeds, hsize]
      rfl
    rw [hverify]
    rfl
  | false =>
    have hverify : verifyUpTo S.limit code ⟨b.maxDepth,
      slots.max⟩ S.types.result.kind? = .ok () := by
      have hsettled := hfits.settled hentry
      refine verifyUpTo_of_consistent hsettled.consistent ?_ (fun pos i hi => ?_) hexceeds
      · rintro pos _ ⟨i, rest, hi, hr, rfl⟩
        have hknown := hsettled.eq_of_reaches hr
        rw [if_pos (Array.getElem?_eq_some_iff.mp hi).1] at hknown
        obtain ⟨c, hc, hkinds⟩ := Option.map_eq_some_iff.mp hknown
        exact hfits.totalWords_le hentry h.deepest hi hc hkinds
      · obtain ⟨s, s', -, ha, -⟩ := hfits.step pos i hi
        refine ⟨hframe ▸ ha.slots, ?_⟩
        rintro kind rfl
        exact kind_of_ret ha.types
    rw [hverify]
    exact .inl ⟨_, rfl, rfl, rfl, hfits.method_typed hentry rfl fun pos => by
      simp [Method.subjectAt, CodeBuffer.subjectAt]⟩

end Finishing

end StackCompiler

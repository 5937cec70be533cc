import StackCompiler.Proofs.StackSafety

/-!
# Limits to sizes

The buffers, frames and checks of methods have limits. A limit shows only where something grows past
it: what is made without limits is made in the same way with a limit that none of the finished
methods exceeds.

* **`generateUpTo_capped`**: what is made of a unit.
-/

namespace StackCompiler

open Generate

variable {a : Analysis} {b b' : CodeBuffer} {s s' : GenState} {i : Instruction} {m : Method}
  {most : Nat} {slots : SlotAllocator} {slots' : SlotAllocator} {fields : List (String × JvmType)}
  {J : List LabelId} {W : Subject → Prop} {ret : Option Kind}

theorem exceeds_of_le {n : Nat} (h : n ≤ most) : exceeds (some most) n = false := by
  simpa [exceeds] using h

/-! ## Buffers -/

namespace CodeBuffer

def capped (b : CodeBuffer) (most : Nat) : CodeBuffer := { b with limit := some most }

/-- A buffer without a limit, in which no stack is deeper than the deepest that was counted. -/
structure Free (b : CodeBuffer) : Prop where
  limit : b.limit = none
  depth : b.depth ≤ b.maxDepth
  labels : ∀ (label : LabelId) state depth, b.labels[label]? = some state →
    state.depth = some depth → depth ≤ b.maxDepth

theorem start_free : (start none).Free :=
  ⟨rfl, Nat.le_refl _, fun label _ _ h => by simp [start] at h⟩

theorem popped_capped (i : Instruction) (hb : b.limit = none) (h : b.popped i ≤ most) :
    (b.capped most).popped i = b.popped i := by
  unfold popped at h ⊢
  rw [hb] at h ⊢
  exact wordsUpTo_eq (exceeds_of_le h)

theorem pushed_capped (i : Instruction) (hb : b.limit = none) (h : b.pushed i ≤ most) :
    (b.capped most).pushed i = b.pushed i := by
  unfold pushed at h ⊢
  rw [hb] at h ⊢
  exact wordsUpTo_eq (exceeds_of_le h)

variable {labels : Array LabelState} {label : LabelId}

theorem Notes.congr (h : Notes i b labels) (hlabels : b'.labels = b.labels)
    (hdepth : b'.depth = b.depth) : Notes i b' labels := by
  cases h with
  | jump target known agrees =>
    rw [← hlabels] at known ⊢
    rw [← hdepth] at agrees ⊢
    exact .jump target known agrees
  | other target =>
    rw [← hlabels]
    exact .other target

theorem Notes.depths (h : Notes i b labels) {state : LabelState} {depth : Nat}
    (hstate : labels[label]? = some state) (hdepth : state.depth = some depth) :
    depth = b.depth ∨ ∃ state', b.labels[label]? = some state' ∧ state'.depth = some depth := by
  cases h with
  | jump target known agrees =>
    rw [Array.getElem?_setIfInBounds] at hstate
    split_ifs at hstate
    · cases hstate
      cases hdepth
      exact .inl rfl
    · exact .inr ⟨state, hstate, hdepth⟩
  | other target => exact .inr ⟨state, hstate, hdepth⟩

theorem Emits.scales {x : Option Subject} (h : Emits x i b b') (hb : b.Free) :
    b'.Free ∧ b.maxDepth ≤ b'.maxDepth ∧
      ∀ most, b'.maxDepth ≤ most → Emits x i (b.capped most) (b'.capped most) := by
  cases h with
  | dropped reachable => exact ⟨hb, Nat.le_refl _, fun most _ => .dropped reachable⟩
  | @appended labels reachable enough notes fits =>
    refine ⟨⟨hb.limit, Nat.le_max_right _ _, fun label state depth hstate hdepth => ?_⟩,
      Nat.le_max_left _ _, fun most hmost => ?_⟩
    · refine Nat.le_trans ?_ (Nat.le_max_left _ _)
      rcases notes.depths hstate hdepth with rfl | ⟨state', hstate', hdepth'⟩
      · exact Nat.le_trans (Nat.sub_le _ _) hb.depth
      · exact hb.labels label state' depth hstate' hdepth'
    · obtain ⟨hmax, hafter⟩ := Nat.max_le.mp hmost
      have hdepth := hb.depth
      have hpopped := popped_capped i hb.limit (show b.popped i ≤ most by omega)
      have hpushed := pushed_capped i hb.limit (show b.pushed i ≤ most by omega)
      have happended := Emits.appended (x := x) (i := i) (b := b.capped most) reachable
        (by rw [hpopped]; exact enough) (notes.congr rfl
          (by show b.depth - _ = b.depth - _; rw [hpopped]))
        (by rw [hpopped, hpushed]; exact exceeds_of_le hafter)
      rw [hpopped, hpushed] at happended
      exact happended

theorem Binds.scales (h : Binds label b b') (hb : b.Free) :
    b'.Free ∧ b.maxDepth ≤ b'.maxDepth ∧
      ∀ most, b'.maxDepth ≤ most → Binds label (b.capped most) (b'.capped most) := by
  have hset {depth? : Option Nat} (hdepth? : ∀ d, depth? = some d → d ≤ b.maxDepth) (l : LabelId)
      (state : LabelState) (d : Nat)
      (hstate : (b.labels.setIfInBounds label ⟨some b.code.size, depth?⟩)[l]? = some state)
      (hd : state.depth = some d) : d ≤ b.maxDepth := by
    rw [Array.getElem?_setIfInBounds] at hstate
    split_ifs at hstate
    · cases hstate
      exact hdepth? d hd
    · exact hb.labels l state d hstate hd
  cases h with
  | onPath known free reachable agrees =>
    refine ⟨⟨hb.limit, hb.depth, hset fun d hd => ?_⟩, Nat.le_refl _, fun most _ =>
      .onPath (b := b.capped most) known free reachable agrees⟩
    cases hd
    exact hb.depth
  | byJumps known free reachable jumps =>
    have hle := hb.labels label _ _ known jumps
    refine ⟨⟨hb.limit, hle, hset fun d hd => ?_⟩, Nat.le_refl _, fun most _ =>
      .byJumps (b := b.capped most) known free reachable jumps⟩
    cases hd
    exact hle
  | outOfReach known free reachable jumps =>
    exact ⟨⟨hb.limit, hb.depth, hset nofun⟩, Nat.le_refl _, fun most _ =>
      .outOfReach (b := b.capped most) known free reachable jumps⟩

end CodeBuffer

/-! ## Writing -/

/-- A run of the step without a limit is one with a limit that the buffer does not exceed. -/
def Emit.Scales {α : Type} (m : Emit α) : Prop :=
  ∀ ⦃b c b'⦄, m b = .ok (c, b') → b.Free → b'.Free ∧ b.maxDepth ≤ b'.maxDepth ∧
    ∀ most, b'.maxDepth ≤ most → m (b.capped most) = .ok (c, b'.capped most)

namespace Emit.Scales

variable {α β : Type}

theorem pure (c : α) : Scales (pure c : Emit α) := by
  intro b _ b' h hb
  cases Emit.pure_eq_ok.mp h
  exact ⟨hb, Nat.le_refl _, fun _ _ => rfl⟩

theorem throw (e : GenerateError) : Scales (throw e : Emit α) :=
  fun _ _ _ h => absurd h Emit.throw_ne_ok

theorem bind {m : Emit α} {f : α → Emit β} (hm : Scales m) (hf : ∀ c, Scales (f c)) :
    Scales (m >>= f) := by
  intro b _ b' h hb
  obtain ⟨c, b1, h1, h2⟩ := Emit.bind_eq_ok.mp h
  obtain ⟨hb1, hle1, hrun1⟩ := hm h1 hb
  obtain ⟨hb2, hle2, hrun2⟩ := hf c h2 hb1
  refine ⟨hb2, Nat.le_trans hle1 hle2, fun most hmost => ?_⟩
  exact Emit.bind_eq_ok.mpr ⟨c, _, hrun1 most (Nat.le_trans hle2 hmost), hrun2 most hmost⟩

theorem emit (x : Option Subject) (i : Instruction) :
    Scales (ofWrite (CodeBuffer.emitAbout x i)) := by
  intro b _ b' h hb
  obtain ⟨hb', hle, hrun⟩ := (CodeBuffer.emit_eq_ok.mp (Emit.ofWrite_eq_ok.mp h)).scales hb
  exact ⟨hb', hle, fun most hmost =>
    Emit.ofWrite_eq_ok.mpr (CodeBuffer.emit_eq_ok.mpr (hrun most hmost))⟩

theorem newLabel : Scales Emit.newLabel := by
  intro b _ b' h hb
  cases Emit.ofWrite_eq_ok.mp h
  refine ⟨⟨hb.limit, hb.depth, fun label state depth hstate hdepth => ?_⟩, Nat.le_refl _,
    fun _ _ => rfl⟩
  rw [Array.getElem?_push] at hstate
  split_ifs at hstate
  · cases hstate
    cases hdepth
  · exact hb.labels label state depth hstate hdepth

theorem place (label : LabelId) : Scales (Emit.bind label) := by
  intro b _ b' h hb
  obtain ⟨hb', hle, hrun⟩ := (CodeBuffer.bind_eq_ok.mp (Emit.ofWrite_eq_ok.mp h)).scales hb
  exact ⟨hb', hle, fun most hmost =>
    Emit.ofWrite_eq_ok.mpr (CodeBuffer.bind_eq_ok.mpr (hrun most hmost))⟩

end Emit.Scales

/-- **Limits make no difference to code until they are reached.** -/
theorem Emit.Built.scales {α : Type} {m m' : Emit α} (h : Built a W J m m') : m.Scales := by
  induction h with
  | pure c => exact .pure c
  | throw | early => exact .throw _
  | instruction | branch | about => exact .emit _ _
  | withLabel _ ih => exact .bind .newLabel ih
  | place => exact .place _
  | call _ _ _ _ ih => exact ih.bind fun _ => .emit _ _
  | bind _ _ ihm ihf => exact ihm.bind ihf

/-! ## The check -/

/-- **A method that passes the check without limits passes it if it is not too long.** -/
theorem verify_capped {code : Array Instruction} {limits : Limits}
    (h : verifyUpTo none code limits ret = .ok ()) (hsize : code.size ≤ most) :
    verifyUpTo (some most) code limits ret = .ok () := by
  obtain ⟨⟨sim, hsim, hmax⟩, hcheck⟩ := verifyUpTo_eq_ok.mp h
  obtain ⟨hwords, -, hk⟩ := simulateUpTo_counts hsim
  exact verifyUpTo_of_consistent (hk rfl)
    (fun pos stack hleft => Nat.le_trans (hwords pos stack hleft) hmax) hcheck (exceeds_of_le hsize)

/-! ## Making methods -/

def SlotAllocator.capped (slots : SlotAllocator) (most : Nat) : SlotAllocator :=
  { slots with limit := some most }

theorem SlotAllocator.allocate_scales {kind : Kind} {slot : Nat}
    (h : slots.allocate kind = .ok (slot, slots')) (hs : slots.limit = none) :
    slots'.limit = none ∧ slots.max ≤ slots'.max ∧ ∀ most, slots'.max ≤ most →
      (slots.capped most).allocate kind = .ok (slot, slots'.capped most) := by
  unfold SlotAllocator.allocate at h ⊢
  rw [hs] at h
  dsimp only at h
  rw [if_neg (by simp [exceeds])] at h
  cases h
  refine ⟨rfl, Nat.le_max_left _ _, fun most hmost => ?_⟩
  have hnext : slots.next + kind.words ≤ most := Nat.le_trans (Nat.le_max_right _ _) hmost
  exact if_neg (by rw [show (slots.capped most).limit = some most from rfl]; simp [capped,
    exceeds_of_le hnext])

def GenState.capped (s : GenState) (most : Nat) : GenState :=
  { s with code := s.code.capped most, slots := s.slots.capped most }

structure GenState.Free (s : GenState) : Prop where
  code : s.code.Free
  slots : s.slots.limit = none

/-- The method being written has not grown past a size. -/
def GenState.Within (s : GenState) (most : Nat) : Prop :=
  s.code.maxDepth ≤ most ∧ s.slots.max ≤ most

/-- The sizes of the method being written have not shrunk. -/
def GenState.Enlarges (s s' : GenState) : Prop :=
  s.code.maxDepth ≤ s'.code.maxDepth ∧ s.slots.max ≤ s'.slots.max

theorem GenState.Enlarges.refl (s : GenState) : s.Enlarges s := ⟨Nat.le_refl _, Nat.le_refl _⟩

theorem GenState.Enlarges.trans {s'' : GenState} (h : s.Enlarges s') (h' : s'.Enlarges s'') :
    s.Enlarges s'' := ⟨Nat.le_trans h.1 h'.1, Nat.le_trans h.2 h'.2⟩

theorem GenState.Enlarges.within (h : s.Enlarges s') (h' : s'.Within most) :
    s.Within most := ⟨Nat.le_trans h.1 h'.1, Nat.le_trans h.2 h'.2⟩

/-- **Limits make no difference to methods until they are reached.** -/
theorem Generate.Built.scales {α : Type} {m m' : Generate α} (h : Built a W J m m') {c : α}
    (hs : a.SameButSlots s.analysis) (hm : m s = .ok c s') (hfree : s.Free) :
    s'.Free ∧ s.Enlarges s' ∧ ∀ most, s'.Within most → m (s.capped most) =
      .ok c (s'.capped most) := by
  induction h generalizing s s' with
  | pure c =>
    obtain ⟨rfl, rfl⟩ := pure_eq_ok.mp hm
    exact ⟨hfree, .refl _, fun _ _ => rfl⟩
  | throw e => exact absurd hm throw_ne_ok
  | compute x =>
    obtain ⟨hx, rfl⟩ := compute_eq_ok.mp hm
    exact ⟨hfree, .refl _, fun _ _ => compute_eq_ok.mpr ⟨hx, rfl⟩⟩
  | ofEmit h =>
    obtain ⟨code, hcode, rfl⟩ := ofEmit_eq_ok.mp hm
    obtain ⟨hcode', hle, hrun⟩ := h.scales hcode hfree.code
    exact ⟨⟨hcode', hfree.slots⟩, ⟨hle, Nat.le_refl _⟩, fun most hmost =>
      ofEmit_eq_ok.mpr ⟨_, hrun most hmost.1, rfl⟩⟩
  | withLabel _ ih =>
    obtain ⟨l, s1, h1, h2⟩ := bind_eq_ok.mp hm
    obtain ⟨code, hcode, rfl⟩ := ofEmit_eq_ok.mp h1
    obtain ⟨hcode', hle, hrun⟩ := Emit.Scales.newLabel hcode hfree.code
    obtain ⟨hfree', hlarger, hrun'⟩ := ih l (by exact hs) h2 ⟨hcode', hfree.slots⟩
    exact ⟨hfree', ⟨Nat.le_trans hle hlarger.1, hlarger.2⟩, fun most hmost => bind_eq_ok.mpr
      ⟨l, _, ofEmit_eq_ok.mpr ⟨_, hrun most (hlarger.within hmost).1, rfl⟩, hrun' most hmost⟩⟩
  | isReachable | openSlots | defer =>
    cases hm
    exact ⟨⟨hfree.code, hfree.slots⟩, ⟨Nat.le_refl _, Nat.le_refl _⟩, fun _ _ => rfl⟩
  | allocate kind =>
    unfold Generate.allocate at hm ⊢
    cases hslot : s.slots.allocate kind with
    | error e =>
      rw [hslot] at hm
      cases hm
    | ok out =>
      obtain ⟨slot, slots⟩ := out
      rw [hslot] at hm
      cases hm
      obtain ⟨hlimit, hle, hrun⟩ := SlotAllocator.allocate_scales hslot hfree.slots
      refine ⟨⟨hfree.code, hlimit⟩, ⟨Nat.le_refl _, hle⟩, fun most hmost => ?_⟩
      rw [show (s.capped most).slots = s.slots.capped most from rfl, hrun most hmost.2]
      rfl
  | closeSlots =>
    unfold Generate.closeSlots SlotAllocator.closeScope at hm
    cases hmarks : s.slots.marks with
    | nil =>
      rw [hmarks] at hm
      cases hm
    | cons mark rest =>
      rw [hmarks] at hm
      cases hm
      refine ⟨⟨hfree.code, hfree.slots⟩, ⟨Nat.le_refl _, Nat.le_refl _⟩, fun most _ => ?_⟩
      simp only [Generate.closeSlots, SlotAllocator.closeScope, GenState.capped,
        SlotAllocator.capped, hmarks]
  | assignSlot id slot =>
    unfold Generate.assignSlot at hm ⊢
    cases hassign : s.analysis.assignSlot id slot with
    | error e =>
      rw [hassign] at hm
      cases hm
    | ok a' =>
      rw [hassign] at hm
      cases hm
      refine ⟨⟨hfree.code, hfree.slots⟩, ⟨Nat.le_refl _, Nat.le_refl _⟩, fun most _ => ?_⟩
      rw [show (s.capped most).analysis.assignSlot id slot = .ok a' from hassign]
      rfl
  | withAnalysis _ ih =>
    obtain ⟨t, s1, hget, hk⟩ := bind_eq_ok.mp hm
    obtain ⟨rfl, rfl⟩ := get_eq_ok.mp hget
    exact ih _ _ hs (.refl _) hs hk hfree
  | bind hm' _ ihm ihf =>
    obtain ⟨c, s1, h1, h2⟩ := bind_eq_ok.mp hm
    obtain ⟨hfree1, hlarger1, hrun1⟩ := ihm hs h1 hfree
    obtain ⟨hfree2, hlarger2, hrun2⟩ := ihf c (hs.trans (hm'.follows hs h1).analysis) h2 hfree1
    exact ⟨hfree2, hlarger1.trans hlarger2, fun most hmost => bind_eq_ok.mpr
      ⟨c, _, hrun1 most (hlarger2.within hmost), hrun2 most hmost⟩⟩

structure MethodBody.Fits (m : MethodBody) (most : Nat) : Prop where
  stack : m.limits.maxStack ≤ most
  locals : m.limits.maxLocals ≤ most
  code : m.code.size ≤ most

theorem finishMethod_capped {origin : MethodOrigin} {header : MethodHeader} (hb : b.limit = none)
    (h : finishMethod origin header ret b slots = .ok m) :
    m.body.limits = ⟨b.maxDepth, slots.max⟩ ∧ ∀ most, m.body.Fits most →
      finishMethod origin header ret (b.capped most) (slots.capped most) = .ok m := by
  unfold finishMethod at h ⊢
  cases hf : b.finish with
  | error e => simp only [hf] at h; cases h
  | ok out =>
    obtain ⟨code, depth⟩ := out
    obtain ⟨rfl, -⟩ := CodeBuffer.finish_eq_ok.mp hf
    simp only [hf, hb] at h
    cases hv : verifyUpTo none code ⟨b.maxDepth, slots.max⟩ ret with
    | error e => simp only [hv] at h; cases h
    | ok u =>
      simp only [hv] at h
      cases h
      refine ⟨rfl, fun most hmost => ?_⟩
      have hfinish : (b.capped most).finish = .ok (code, b.maxDepth) := hf
      simp only [hfinish]
      have hverify := verify_capped hv hmost.code
      rw [show verifyUpTo (b.capped most).limit code ⟨b.maxDepth, (slots.capped most).max⟩ ret =
        .ok () from hverify]
      rfl

theorem generateMethod_capped {id : FnId} {params : List Param} {body : List Stmt}
    (ha : a.SameButSlots s.analysis) (hs : s.code.limit = none)
    (h : generateMethod id params body s = .ok m s') :
    s'.code.limit = none ∧ ∀ most, m.body.Fits most →
      generateMethod id params body (s.capped most) = .ok m (s'.capped most) := by
  obtain ⟨s2, info, captures, s4, s5, header, h2, hinfo, h4, h5, h6, hheader, hfinish⟩ :=
    generateMethod_eq_ok.mp h
  have hbegin : (s.begin id).Free := ⟨by rw [GenState.begin, hs]; exact CodeBuffer.start_free, hs⟩
  have hlist := Stmt.generateBody_built (a := a) ⟨id, captures⟩ body
  obtain ⟨hfree2, -, hrun2⟩ := (allocateParams_built params).scales (s := s.begin id) ha h2 hbegin
  have ha2 := ha.trans ((allocateParams_built params).follows (s := s.begin id) ha h2).analysis
  obtain ⟨hfree4, hlarger4, hrun4⟩ := (allocateCaptures_built info.captures []).scales ha2 h4 hfree2
  have ha4 := ha2.trans ((allocateCaptures_built info.captures []).follows ha2 h4).analysis
  obtain ⟨hfree5, hlarger5, hrun5⟩ := hlist.scales ha4 h5 hfree4
  have ha5 := ha4.trans (hlist.follows ha4 h5).analysis
  obtain ⟨hfree6, hlarger6, hrun6⟩ := (endMethod_built info).scales ha5 h6 hfree5
  obtain ⟨hlimits, hcapped⟩ := finishMethod_capped hfree6.code.limit hfinish
  refine ⟨hfree6.code.limit, fun most hmost => ?_⟩
  have hwithin : s'.Within most := ⟨by simpa [hlimits] using hmost.stack,
    by simpa [hlimits] using hmost.locals⟩
  have hstart : (s.capped most).begin id = (s.begin id).capped most := by
    simp [GenState.begin, GenState.capped, CodeBuffer.capped, CodeBuffer.start,
      SlotAllocator.start, SlotAllocator.capped]
  refine generateMethod_eq_ok.mpr ⟨s2.capped most, info, captures, s4.capped most, s5.capped most,
    header, ?_, hinfo, ?_, ?_, ?_, hheader, hcapped most hmost⟩
  · rw [hstart]
    exact hrun2 most (hlarger4.within (hlarger5.within (hlarger6.within hwithin)))
  · exact hrun4 most (hlarger5.within (hlarger6.within hwithin))
  · exact hrun5 most (hlarger6.within hwithin)
  · exact hrun6 most hwithin

theorem storeFields_scales {className : String}
    (h : storeFields className slots fields b = .ok (slots', b'))
    (hslots : slots.limit = none) (hb : b.Free) :
    b'.Free ∧ b.maxDepth ≤ b'.maxDepth ∧ slots.max ≤ slots'.max ∧
      ∀ most, b'.maxDepth ≤ most → slots'.max ≤ most →
        storeFields className (slots.capped most) fields (b.capped most) =
          .ok (slots'.capped most, b'.capped most) := by
  induction fields generalizing slots b with
  | nil =>
    cases Emit.pure_eq_ok.mp h
    exact ⟨hb, Nat.le_refl _, Nat.le_refl _, fun _ _ _ => rfl⟩
  | cons field rest ih =>
    obtain ⟨name, ty⟩ := field
    rw [storeFields] at h
    cases hkind : ty.kind? with
    | none =>
      rw [hkind] at h
      exact absurd h Emit.throw_ne_ok
    | some kind =>
      rw [hkind] at h
      dsimp only at h
      cases hslot : slots.allocate kind with
      | error e =>
        rw [hslot] at h
        exact absurd h Emit.throw_ne_ok
      | ok out =>
        obtain ⟨slot, slots1⟩ := out
        rw [hslot] at h
        obtain ⟨_, b1, h1, h⟩ := Emit.bind_eq_ok.mp h
        obtain ⟨_, b2, h2, h⟩ := Emit.bind_eq_ok.mp h
        obtain ⟨_, b3, h3, h⟩ := Emit.bind_eq_ok.mp h
        obtain ⟨hlimit, hle, hallocate⟩ := SlotAllocator.allocate_scales hslot hslots
        obtain ⟨hb1, hle1, hrun1⟩ := Emit.Scales.emit _ _ h1 hb
        obtain ⟨hb2, hle2, hrun2⟩ := Emit.Scales.emit _ _ h2 hb1
        obtain ⟨hb3, hle3, hrun3⟩ := Emit.Scales.emit _ _ h3 hb2
        obtain ⟨hb', hle', hlarger, hrun⟩ := ih h hlimit hb3
        refine ⟨hb', by omega, Nat.le_trans hle hlarger, fun most hdepth hmax => ?_⟩
        rw [storeFields, hkind]
        dsimp only
        rw [hallocate most (Nat.le_trans hlarger hmax)]
        exact Emit.bind_eq_ok.mpr ⟨_, _, hrun1 most (by omega), Emit.bind_eq_ok.mpr
          ⟨_, _, hrun2 most (by omega), Emit.bind_eq_ok.mpr ⟨_, _, hrun3 most (by omega),
            hrun most hdepth hmax⟩⟩⟩

theorem generateConstructor_capped {record : RecordInfo}
    (h : generateConstructor none record fields = .ok m) (hmost : m.body.Fits most) :
    generateConstructor (some most) record fields = .ok m := by
  obtain ⟨⟨slots, b⟩, hcode, hfinish⟩ := Except.bind_eq_ok.mp h
  obtain ⟨_, b1, h1, hcode⟩ := Emit.bind_eq_ok.mp hcode
  obtain ⟨_, b2, h2, hcode⟩ := Emit.bind_eq_ok.mp hcode
  obtain ⟨slots', b3, h3, hcode⟩ := Emit.bind_eq_ok.mp hcode
  obtain ⟨_, b4, h4, hcode⟩ := Emit.bind_eq_ok.mp hcode
  cases Emit.pure_eq_ok.mp hcode
  obtain ⟨hb1, hle1, hrun1⟩ := Emit.Scales.emit _ _ h1 CodeBuffer.start_free
  obtain ⟨hb2, hle2, hrun2⟩ := Emit.Scales.emit _ _ h2 hb1
  obtain ⟨hb3, hle3, -, hrun3⟩ := storeFields_scales h3 rfl hb2
  obtain ⟨hb4, hle4, hrun4⟩ := Emit.Scales.emit _ _ h4 hb3
  obtain ⟨hlimits, hcapped⟩ := finishMethod_capped hb4.limit hfinish
  have hdepth : b.maxDepth ≤ most := by simpa [hlimits] using hmost.stack
  have hmax : slots.max ≤ most := by simpa [hlimits] using hmost.locals
  refine Except.bind_eq_ok.mpr ⟨(slots.capped most, b.capped most), ?_, hcapped most hmost⟩
  exact Emit.bind_eq_ok.mpr ⟨_, _, hrun1 most (by omega), Emit.bind_eq_ok.mpr
    ⟨_, _, hrun2 most (by omega), Emit.bind_eq_ok.mpr ⟨_, _, hrun3 most (by omega) hmax,
      Emit.bind_eq_ok.mpr ⟨_, _, hrun4 most hdepth, rfl⟩⟩⟩⟩

/-! ## Units -/

/-- Made of steps that describe classes and make methods, whatever slots the analysis has. -/
inductive Generate.Made (a : Analysis) : {α : Type} → Generate α → Prop
  | pure {α : Type} (c : α) : Made a (pure c : Generate α)
  | throw {α : Type} (e : GenerateError) : Made a (throw e : Generate α)
  | send (r : Request) : Made a (send r)
  | constructor (record : RecordInfo) (fields : List (String × JvmType)) : Made a (do
      sendMethod (← Generate.compute (generateConstructor (← get).code.limit record fields)))
  | method (id : FnId) (params : List Param) (body : List Stmt) :
      Made a (do sendMethod (← generateMethod id params body))
  | nextPending : Made a nextPending
  | withAnalysis {α : Type} {k : Analysis → Generate α} (h : Made a (k a))
      (hk : ∀ a', a.SameButSlots a' → k a' = k a) : Made a (do k (← get).analysis)
  | bind {α β : Type} {m : Generate α} {k : α → Generate β} (hm : Made a m)
      (hk : ∀ c, Made a (k c)) : Made a (m >>= k)

namespace Generate.Made

variable {a : Analysis} {α β : Type}

theorem then_ {m : Generate Unit} {k : Generate β} (hm : Made a m) (hk : Made a k) :
    Made a (do m; k) := hm.bind fun _ => hk

theorem compute (x : Except GenerateError α) : Made a (Generate.compute x) := by
  cases x with
  | ok c => exact pure c
  | error e => exact throw e

theorem forM {f : β → Generate Unit} (hf : ∀ x, Made a (f x)) (xs : List β) :
    Made a (xs.forM f) := by
  induction xs with
  | nil => exact pure ()
  | cons x xs ih => exact (hf x).then_ ih

theorem sendFields (fields : List (String × Ty)) : Made a (sendFields fields) := by
  induction fields with
  | nil => exact pure _
  | cons field rest ih =>
    obtain ⟨name, ty⟩ := field
    exact withAnalysis (k := fun a => Generate.compute (a.jvmType ty) >>= fun ty =>
      StackCompiler.send (.addField ⟨name, ty, false⟩) >>= fun _ =>
        StackCompiler.sendFields rest >>= fun fields => Pure.pure ((name, ty) :: fields))
      ((compute _).bind fun _ => (send _).then_ (ih.bind fun _ => pure _))
      fun a' ha => by rw [ha.jvmType]

theorem generateRecord (source : String) (record : RecordInfo) :
    Made a (generateRecord source record) := by
  refine (send _).then_ ((sendFields _).bind fun fields => ?_)
  simpa only [bind_assoc] using (constructor record fields).then_ (send .endClass)

theorem generateFunction (f : FunctionDecl) : Made a (generateFunction f) := by
  unfold StackCompiler.generateFunction
  split
  · exact throw _
  · exact method _ _ _

theorem generatePending (fuel : Nat) : Made a (generatePending fuel) := by
  induction fuel with
  | zero => exact pure _
  | succ fuel ih =>
    refine nextPending.bind fun f? => ?_
    cases f? with
    | none => exact pure _
    | some f => exact (generateFunction f).then_ ih

theorem sendGlobal (id : SymbolId) : Made a (sendGlobal id) := by
  let sent (x : Except GenerateError FieldRef) : Generate Unit :=
    Generate.compute x >>= fun field =>
    StackCompiler.send (.addField ⟨field.name, field.ty, true⟩)
  have hsend (a1 : Analysis) : Made a (Generate.symbol id >>= fun x =>
    sent (a1.globalField x)) := by
    refine withAnalysis (k := fun a2 => Generate.compute (a2.symbol id) >>= fun x =>
      sent (a1.globalField x))
      ((compute _).bind fun _ => (compute _).bind fun _ => send _) fun a' ha => ?_
    unfold Analysis.symbol
    cases hx : a'.symbols[id]? with
    | none => rw [show a.symbols[id]? = none by simpa [hx] using (ha.symbols id).symm]
    | some symbol' =>
      obtain ⟨symbol, hx', hsame⟩ := ha.symbol_of hx
      rw [hx']
      show sent (a1.globalField symbol') = sent (a1.globalField symbol)
      rw [(Analysis.SameButSlots.refl a1).globalField hsame]
  refine withAnalysis (k := fun a => Generate.symbol id >>= fun x => sent (a.globalField x))
    (hsend a) fun a' ha => ?_
  unfold Analysis.globalField
  simp only [ha.className, ha.jvmType]

theorem generateUnit (unit : SourceUnit) : Made a (generateUnit unit) := by
  have hrest := (method (a := a) FnId.main [] unit.mainBody).then_ <|
    (forM generateFunction unit.functions).then_ <|
    (generatePending (Item.nestedCounts unit.items)).then_ (send .endClass)
  rw [bind_assoc] at hrest
  have hglobals := withAnalysis (k := fun a => a.globals.forM StackCompiler.sendGlobal >>= fun _ =>
    _) ((forM sendGlobal _).then_ hrest) fun a' ha => by rw [ha.globals]
  have hclass := withAnalysis (k := fun a =>
    StackCompiler.send (.beginClass ⟨a.className, objectClass, unit.name⟩) >>= fun _ => _)
    ((send _).then_ hglobals) fun a' ha => by rw [ha.className]
  exact withAnalysis (k := fun a => a.declaredRecords.forM
    (StackCompiler.generateRecord unit.name) >>=
    fun _ => _) ((forM (generateRecord _) _).then_ hclass) fun a' ha => by rw [ha.rest]; rfl

/-- **A run without limits, which only adds methods, is one with a limit that no method exceeds.**
-/
theorem scales {m : Generate α} (h : Made a m) {c : α} (hm : m s = .ok c s')
    (ha : a.SameButSlots s.analysis) (hs : s.code.limit = none) :
    (a.SameButSlots s'.analysis ∧ s'.code.limit = none ∧ ∀ m ∈ s.methods, m ∈ s'.methods) ∧
      ∀ most, (∀ m ∈ s'.methods, m.body.Fits most) → m (s.capped most) =
        .ok c (s'.capped most) := by
  induction h generalizing s s' with
  | pure c =>
    obtain ⟨rfl, rfl⟩ := pure_eq_ok.mp hm
    exact ⟨⟨ha, hs, fun _ hm => hm⟩, fun _ _ => rfl⟩
  | throw e => exact absurd hm throw_ne_ok
  | send r =>
    cases hm
    exact ⟨⟨ha, hs, fun _ hm => hm⟩, fun _ _ => rfl⟩
  | constructor record fields =>
    obtain ⟨t, s1, hget, hrest⟩ := bind_eq_ok.mp hm
    obtain ⟨rfl, rfl⟩ := get_eq_ok.mp hget
    obtain ⟨m, s2, hmade, hsent⟩ := bind_eq_ok.mp hrest
    obtain ⟨hmethod, rfl⟩ := compute_eq_ok.mp hmade
    rw [hs] at hmethod
    cases hsent
    refine ⟨⟨ha, hs, fun m' hm' => Array.mem_push_of_mem _ hm'⟩, fun most hmost => ?_⟩
    have hcapped := generateConstructor_capped hmethod (hmost m Array.mem_push_self)
    exact bind_eq_ok.mpr ⟨_, _, rfl, bind_eq_ok.mpr ⟨m, _, compute_eq_ok.mpr ⟨hcapped, rfl⟩, rfl⟩⟩
  | method id params body =>
    obtain ⟨m, s1, hmade, hsent⟩ := bind_eq_ok.mp hm
    obtain ⟨hfollows, -⟩ := generateMethod_run ha hmade
    obtain ⟨hlimit, hrun⟩ := generateMethod_capped ha hs hmade
    cases hsent
    refine ⟨⟨ha.trans hfollows.analysis, hlimit, fun m' hm' => ?_⟩, fun most hmost => ?_⟩
    · exact Array.mem_push_of_mem _ (hfollows.methods ▸ hm')
    · exact bind_eq_ok.mpr ⟨m, _, hrun most (hmost m Array.mem_push_self), rfl⟩
  | nextPending =>
    obtain ⟨analysis, pending, requests, methods, code, slots⟩ := s
    cases pending with
    | nil | cons f rest =>
      cases hm
      exact ⟨⟨ha, hs, fun _ hm => hm⟩, fun _ _ => rfl⟩
  | @withAnalysis _ k _ hk ih =>
    obtain ⟨t, s1, hget, hrun⟩ := bind_eq_ok.mp hm
    obtain ⟨rfl, rfl⟩ := get_eq_ok.mp hget
    rw [hk _ ha] at hrun
    refine (ih hrun ha hs).imp_right fun hcapped most hmost => ?_
    show k s1.analysis (s1.capped most) = _
    rw [hk _ ha]
    exact hcapped most hmost
  | bind _ _ ihm ihk =>
    obtain ⟨c, s1, h1, h2⟩ := bind_eq_ok.mp hm
    obtain ⟨⟨ha1, hs1, hmethods1⟩, hrun1⟩ := ihm h1 ha hs
    obtain ⟨⟨ha2, hs2, hmethods2⟩, hrun2⟩ := ihk c h2 ha1 hs1
    exact ⟨⟨ha2, hs2, fun m hm => hmethods2 m (hmethods1 m hm)⟩, fun most hmost =>
      bind_eq_ok.mpr ⟨c, _, hrun1 most fun m hm => hmost m (hmethods2 m hm), hrun2 most hmost⟩⟩

end Generate.Made

/-- **What is made of a unit without limits is made with them, if no method exceeds them.** -/
theorem generateUpTo_capped {unit : SourceUnit} (h : (generateUpTo none unit a).error = none)
    (hmost : ∀ m ∈ (generateUpTo none unit a).methods, m.body.Fits most) :
    (generateUpTo (some most) unit a).error = none := by
  unfold generateUpTo at h hmost ⊢
  split_ifs at h hmost ⊢
  split at h
  · rename_i s hs
    rw [hs] at hmost
    have hrun := ((Made.generateUnit unit).scales hs (.refl a) rfl).2 most fun m hm =>
      hmost m (Array.mem_toList_iff.mpr hm)
    have hstart : GenState.capped ⟨a, [], #[], #[], .start none, .start none 0⟩ most =
        ⟨a, [], #[], #[], .start (some most), .start (some most) 0⟩ := rfl
    rw [hstart] at hrun
    rw [hrun]
  · cases h

end StackCompiler

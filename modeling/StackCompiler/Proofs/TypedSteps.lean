import StackCompiler.Proofs.TypedExpr

/-!
# Steps of typed methods

The method that is being written is followed step by step: the shape at the end of its code, the
variables that have slots, and the labels that wait to be placed. A step takes slots above those in
use only, and what it leaves of the frame below is as before.
-/

namespace StackCompiler

open CodeBuffer Emit Generate

variable {b : CodeBuffer} {m : Emit Unit} {l : LabelId} {stack : TypeStack} {d : Shape}
  {id : SymbolId} {x : SymbolId}

/-! ## Outcomes of steps -/

/-- After a step, `Q` holds; if it ends in an error, `F` holds of the error and of the state. -/
def Generate.Ends {α : Type} (F : GenerateError → GenState → Prop) (m : Generate α) (s : GenState)
    (Q : α → GenState → Prop) : Prop :=
  match m s with
  | .ok a s' => Q a s'
  | .error e s' => F e s'

namespace Generate.Ends

variable {α β : Type} {F F' : GenerateError → GenState → Prop} {m : Generate α} {s s' : GenState}
  {P Q : α → GenState → Prop} {R : β → GenState → Prop} {a : α}

theorem of_ok (h : m s = .ok a s') (hQ : Q a s') : Ends F m s Q := by
  rw [Ends, h]
  exact hQ

theorem of_error {e : GenerateError} (h : m s = .error e s') (he : F e s') : Ends F m s Q := by
  rw [Ends, h]
  exact he

theorem pure (h : Q a s) : Ends F (pure a) s Q := h

theorem bind {f : α → Generate β} (h : Ends F m s P) (hf : ∀ a s', P a s' → Ends F (f a) s' R) :
    Ends F (m >>= f) s R := by
  unfold Ends at h
  split at h
  · rename_i a s' hm
    have heq : (m >>= f) s = f a s' := by
      show EStateM.bind m f s = _
      unfold EStateM.bind
      rw [hm]
    have hf := hf a s' h
    rwa [Ends, heq]
  · rename_i e s' hm
    refine of_error ?_ h
    show EStateM.bind m f s = _
    unfold EStateM.bind
    rw [hm]

theorem get {k : GenState → Generate β} (h : Ends F (k s) s R) :
    Ends F (MonadState.get >>= k) s R := h

theorem compute {x : Except GenerateError α} {k : α → Generate β} (hx : x = .ok a)
    (h : Ends F (k a) s R) : Ends F (Generate.compute x >>= k) s R := by
  subst hx
  exact h

theorem symbol {symbol : Symbol} {k : Symbol → Generate β}
    (hx : s.analysis.symbols[id]? = some symbol) (h : Ends F (k symbol) s R) :
    Ends F (Generate.symbol id >>= k) s R := by
  have hrun : Generate.symbol id s = .ok symbol s := by
    show Generate.compute (s.analysis.symbol id) s = _
    rw [Analysis.symbol, hx]
    rfl
  refine (of_ok (Q := fun x s' => x = symbol ∧ s' = s) hrun ⟨rfl, rfl⟩).bind ?_
  rintro _ _ ⟨rfl, rfl⟩
  exact h

theorem imp (h : Ends F m s P) (hF : ∀ e s', F e s' → F' e s') (hPQ : ∀ a s', P a s' → Q a s') :
    Ends F' m s Q := by
  unfold Ends at h ⊢
  split at h
  · exact hPQ _ _ h
  · exact hF _ _ h

end Generate.Ends

/-- After a step, `Q` holds; an error that ends it is one of `E`. -/
abbrev Generate.Wp {α : Type} (E : GenerateError → Prop) : Generate α → GenState →
    (α → GenState → Prop) → Prop :=
  Ends fun e _ => E e

namespace Generate.Wp

variable {α β : Type} {E : GenerateError → Prop} {m : Generate α} {s : GenState}
  {P Q : α → GenState → Prop}

theorem imp (h : Wp E m s P) (hPQ : ∀ a s', P a s' → Q a s') : Wp E m s Q :=
  Ends.imp h (fun _ _ he => he) hPQ

theorem run (h : Wp E m s Q) : Wp E m s fun a s' => m s = .ok a s' ∧ Q a s' := by
  unfold Wp Ends at h ⊢
  split at h
  · exact ⟨by assumption, h⟩
  · exact h

theorem analyzed {what : String} {name : Ident} {id? : Option SymbolId} {k : SymbolId → Generate α}
    (hid : id? = some id) (h : Wp E (k id) s Q) :
    Wp E (Generate.analyzed what name id? >>= k) s Q := by
  subst hid
  exact h

theorem ofEmit {m : Emit α} {Q : α → CodeBuffer → Prop} (h : Emit.Wp E m s.code Q) :
    Wp E (Generate.ofEmit m) s fun a s' => ∃ b, s' = { s with code := b } ∧ Q a b := by
  unfold Emit.Wp at h
  split at h
  · rename_i a b hm
    have hrun : Generate.ofEmit m s = .ok a { s with code := b } := by rw [Generate.ofEmit, hm]
    exact .of_ok hrun ⟨b, rfl, h⟩
  · rename_i e hm
    have hrun : Generate.ofEmit m s = .error e s := by rw [Generate.ofEmit, hm]
    exact .of_error hrun h

end Generate.Wp

/-! ## Methods that are being written -/

/-- What is known of a unit while the method of a function is written. -/
structure Analysis.Knows (S : Setting) (a : Analysis) (f : FnId) : Prop where
  proper : ∀ c, (a.view c).Proper
  place : ∀ (x : SymbolId) symbol, a.symbols[x]? = some symbol → symbol.kind.isStorage = true →
    symbol.isLocal = true ∨ symbol.isGlobal = true
  captured : ∀ g, ∀ x ∈ a.captures g, ∃ symbol, a.symbols[x]? = some symbol ∧
    symbol.isLocal = true
  symbol : ∀ (x : SymbolId) symbol t, a.symbols[x]? = some symbol → a.jvmType symbol.ty = .ok t →
    S.types.variable_ (.symbol x) = some t ∧ S.types.variable_ (.bound x) = some t
  bound : ∀ x, S.types.slot (.bound x) = none
  result : ∀ info, a.functions[f]? = some info → a.jvmType info.ret = .ok S.types.result

/-- The errors among `E` are those of methods that are too large. -/
structure Refuses (limit : Option Nat) (E : GenerateError → Prop) : Prop where
  overflow : limit.isSome → E (.buffer .overflow)
  exhausted : limit.isSome → E (.slots .exhausted)
  tooLong : limit.isSome → ∀ n, E (.stack (.tooLong n))

theorem isSome_of_exceeds {limit : Option Nat} {n : Nat} (h : exceeds limit n = true) :
    limit.isSome := by
  cases limit with
  | none => cases h
  | some m => rfl

/-- The code so far ends with a shape, if control gets to its end. -/
structure GenState.Held (S : Setting) (a : Analysis) (s : GenState) (T : Shaping) (c : Shape) :
    Prop where
  shaped : s.code.Shaped S s.slots.max T
  cur : ∀ d, T.at_ s.code.code.size = some d → d = c
  same : a.SameButSlots s.analysis
  limit : s.slots.limit = S.limit
  next_le : s.slots.next ≤ s.slots.max
  free : ∀ n e, c.words n = some e → n < s.slots.next
  homes : ∀ n e, c.words n = some e → e.AtHome S.types

def GenState.frame (s : GenState) (head : FrameHead) : Frame :=
  ⟨s.analysis, head.function, head.captures⟩

/-- The variables in view have slots, and the frame is known to hold their values. -/
def GenState.Covers (a : Analysis) (head : FrameHead) (c : Place) (s : GenState) (words : Words) :
    Prop :=
  ∀ (x : SymbolId) symbol, s.analysis.symbols[x]? = some symbol → symbol.isLocal = true →
    a.Holds c x → ∃ slot kind, (s.frame head).slot x symbol = .ok slot ∧
      Kind.ofTy? symbol.ty = some kind ∧ words.Holds ⟨some (.symbol x), kind, slot⟩ ∧
      slot + kind.words ≤ s.slots.next

/-- What a step keeps. Only symbols of a set get slots, only functions of a list are put aside, and
old labels get further jumps only if control gets to the step. Some of its labels wait to be placed.
-/
structure GenState.Passes (own : SymbolId → Prop) (inner : List FunctionDecl)
    (waiting : List LabelId) (s : GenState) (T : Shaping) (w : Words) (s' : GenState) (T' : Shaping)
    (w' : Words) : Prop where
  grows : Grows s.code.labels.size (fun _ => (T.at_ s.code.code.size).isSome) s.code T s'.code T'
  placed : ∀ l, s.code.labels.size ≤ l → l < s'.code.labels.size →
    l ∈ waiting ∨ (s'.code.labelAt l).isSome
  made : ∀ l ∈ waiting, s.code.labels.size ≤ l ∧ l < s'.code.labels.size
  dead : T.at_ s.code.code.size = none →
    T'.at_ s'.code.code.size = none ∧ ∀ l ∈ waiting, ¬ s'.code.Noted l
  words : ∀ n < s.slots.next, w' n = w n
  symbols : ∀ x, ¬ own x → s'.analysis.symbols[x]? = s.analysis.symbols[x]?
  marks : s'.slots.marks = s.slots.marks
  next : s.slots.next ≤ s'.slots.next
  max : s.slots.max ≤ s'.slots.max
  pending : ∃ fs, fs.Sublist inner ∧ s'.pending = s.pending ++ fs

namespace GenState

section

variable {own own' : SymbolId → Prop} {inner inner' : List FunctionDecl} {W W' : List LabelId}
  {s s1 s' : GenState} {T T1 T' : Shaping} {w w1 w' : Words} {frame : Nat}

theorem Passes.refl (own : SymbolId → Prop) (s : GenState) (T : Shaping) (w : Words) :
    Passes own [] [] s T w s T w :=
  ⟨.refl _ _ _ _, fun _ hle hlt => absurd hlt (Nat.not_lt.mpr hle), nofun, fun h => ⟨h, nofun⟩,
    fun _ _ => rfl, fun _ _ => rfl, rfl, Nat.le_refl _, Nat.le_refl _, [], .slnil,
    (List.append_nil _).symm⟩

theorem Passes.alive (h : Passes own inner W s T w s' T' w')
    (hlive : (T'.at_ s'.code.code.size).isSome) : (T.at_ s.code.code.size).isSome := by
  cases hc : T.at_ s.code.code.size with
  | some c => rfl
  | none =>
    rw [(h.dead hc).1] at hlive
    cases hlive

theorem Passes.then_ (h : Passes own inner W s T w s1 T1 w1)
    (h' : Passes own' inner' [] s1 T1 w1 s' T' w') (hown : ∀ x, own' x → own x) :
    Passes own (inner ++ inner') W s T w s' T' w' := by
  obtain ⟨fs, hfs, hpending⟩ := h.pending
  obtain ⟨fs', hfs', hpending'⟩ := h'.pending
  have hsize := h.grows.size
  have hsize' := h'.grows.size
  refine ⟨h.grows.trans (h'.grows.mono hsize fun _ _ => h.alive),
    fun l hle hlt => ?_, fun l hl => ?_, fun hd => ?_, fun m hm => ?_, fun x hx => ?_,
    h'.marks.trans h.marks, Nat.le_trans h.next h'.next, Nat.le_trans h.max h'.max, fs ++ fs',
    hfs.append hfs', ?_⟩
  · rcases Nat.lt_or_ge l s1.code.labels.size with hlt1 | hge
    · exact (h.placed l hle hlt1).imp_right h'.grows.labelAt
    · exact .inr ((h'.placed l hge hlt).resolve_left (by simp))
  · obtain ⟨hle, hlt⟩ := h.made l hl
    exact ⟨hle, Nat.lt_of_lt_of_le hlt hsize'⟩
  · obtain ⟨hcur, hno⟩ := h.dead hd
    refine ⟨(h'.dead hcur).1, fun l hl => h'.grows.not_noted (h.made l hl).2 (hno l hl) ?_⟩
    rw [hcur]
    simp
  · rw [h'.words m (Nat.lt_of_lt_of_le hm h.next), h.words m hm]
  · rw [h'.symbols x fun hx' => hx (hown x hx'), h.symbols x hx]
  · rw [hpending', hpending, List.append_assoc]

theorem Passes.mono (h : Passes own inner W s T w s' T' w') (hown : ∀ x, own x → own' x)
    (hinner : inner.Sublist inner') : Passes own' inner' W s T w s' T' w' := by
  obtain ⟨fs, hfs, hpending⟩ := h.pending
  exact ⟨h.grows, h.placed, h.made, h.dead, h.words,
    fun x hx => h.symbols x fun hx' => hx (hown x hx'), h.marks, h.next, h.max, fs,
    hfs.trans hinner, hpending⟩

theorem Passes.newLabel (h : Passes own inner W s T w s1 T1 w1) {S : Setting}
    (hf : Fresh S frame s1.code T1 d b T') :
    Passes own inner (s1.code.labels.size :: W) s T w { s1 with code := b } T' w1 := by
  have hsize := h.grows.size
  have hgrows : Grows s1.code.labels.size (fun _ => False) s1.code T1 b T' :=
    hf.grows (Nat.le_refl _)
  refine ⟨h.grows.trans (hgrows.mono hsize fun _ _ hj => hj.elim), fun l hle hlt => ?_,
    fun l hl => ?_, fun hd => ?_, h.words, h.symbols, h.marks, h.next, h.max, h.pending⟩
  · rcases Nat.lt_or_ge l s1.code.labels.size with hlt1 | hge
    · exact (h.placed l hle hlt1).imp (List.mem_cons_of_mem _) hgrows.labelAt
    · have hlt : l < b.labels.size := hlt
      rw [hf.size] at hlt
      exact .inl (List.mem_cons.mpr (.inl (Nat.le_antisymm (Nat.le_of_lt_succ hlt) hge)))
  · show _ ∧ l < b.labels.size
    rw [hf.size]
    rcases List.mem_cons.mp hl with rfl | hl
    · exact ⟨hsize, Nat.lt_succ_self _⟩
    · exact ⟨(h.made l hl).1, Nat.lt_succ_of_lt (h.made l hl).2⟩
  · obtain ⟨hcur, hno⟩ := h.dead hd
    refine ⟨hf.cur.trans hcur, fun l hl => ?_⟩
    rcases List.mem_cons.mp hl with rfl | hl
    · exact hf.unnoted
    · exact hgrows.not_noted (h.made l hl).2 (hno l hl) (by simp)

theorem Passes.bind (h : Passes own inner W s T w s1 T1 w1) {S : Setting}
    (hp : Placed S frame s1.code T1 l d b T') (hl : l ∈ W) (hW : ∀ x ∈ W, x = l ∨ x ∈ W')
    (hW' : ∀ x ∈ W', x ∈ W ∧ x ≠ l) :
    Passes own inner W' s T w { s1 with code := b } T' w1 := by
  have hgrows : Grows s.code.labels.size (fun _ => False) s1.code T1 b T' :=
    (hp.extends_ (h.made l hl).1).toGrows
  refine ⟨h.grows.trans (hgrows.mono (Nat.le_refl _) fun _ _ hj => hj.elim), fun x hle hlt => ?_,
    fun x hx => ?_, fun hd => ?_, h.words, h.symbols, h.marks, h.next, h.max, h.pending⟩
  · have hlt : x < s1.code.labels.size := hp.size ▸ hlt
    rcases h.placed x hle hlt with hx | hx
    · rcases hW x hx with rfl | hx
      · exact .inr hp.placed
      · exact .inl hx
    · exact .inr (hgrows.labelAt hx)
  · show _ ∧ x < b.labels.size
    rw [hp.size]
    exact h.made x (hW' x hx).1
  · obtain ⟨hcur, hno⟩ := h.dead hd
    refine ⟨hp.dead hcur (hno l hl), fun x hx => ?_⟩
    obtain ⟨hx, hne⟩ := hW' x hx
    exact fun hnoted => hno x hx ((hp.noted_other hne).mp hnoted)

theorem Passes.within (h : Passes own inner W s T w s' T' w')
    (hfree : ∀ n e, w n = some e → n < s.slots.next) : w.Within w' := by
  intro m e he
  rw [h.words m (hfree m e he), he]

/-- A step that only writes code and places all labels that it makes. -/
theorem Passes.of_ends {S : Setting} {J : LabelId → Prop} (h : Ends S frame J s.code T d b T')
    (hwords : ∀ n < s.slots.next, w' n = w n) :
    Passes own [] [] s T w { s with code := b } T' w' :=
  ⟨h.extends_.toGrows.mono (Nat.le_refl _) fun _ _ => And.left,
    fun l hle hlt => .inr (h.extends_.placed l hle hlt), nofun, fun hd => ⟨h.dead hd,
      nofun⟩, hwords,
    fun _ _ => rfl, rfl, Nat.le_refl _, Nat.le_refl _, [], .slnil, (List.append_nil _).symm⟩

end

variable {S : Setting} {E : GenerateError → Prop} {a : Analysis} {head : FrameHead} {c : Place}
  {s s' : GenState} {T T' : Shaping} {w w' : Words} {inner : List FunctionDecl}
  {own : SymbolId → Prop}

/-- Expressions can be written where the variables in view have slots. -/
theorem Held.ready (hk : a.Knows S head.function) (h : s.Held S a T ⟨stack, w⟩)
    (hc : s.Covers a head c w) : (s.frame head).Ready S.types s.slots.max a c w := by
  refine ⟨h.same, hk.proper c, fun x symbol t hx ht => (hk.symbol x symbol t hx ht).1, hk.place,
    hk.captured, fun x symbol hx hlocal hholds => ?_, h.homes⟩
  obtain ⟨slot, kind, hslot, hkind, hword, hnext⟩ := hc x symbol hx hlocal hholds
  exact ⟨slot, kind, hslot, hkind, hword, Nat.le_trans hnext h.next_le⟩

theorem Covers.passes {W : List LabelId} (h : s.Covers a head c w)
    (hp : Passes own inner W s T w s' T' w')
    (hfresh : ∀ x, own x → ∀ symbol, s.analysis.symbols[x]? = some symbol →
      symbol.owner = some head.function ∧ symbol.slot = none)
    (hsame : s.analysis.SameButSlots s'.analysis) : s'.Covers a head c w' := by
  intro x symbol' hx' hlocal hholds
  by_cases hown : own x
  · -- a symbol without a slot is not in view
    obtain ⟨symbol, hx, hsymbol⟩ := hsame.symbol_of hx'
    obtain ⟨howner, hslot⟩ := hfresh x hown symbol hx
    obtain ⟨slot, kind, hslot', -⟩ := h x symbol hx (hsymbol.isLocal ▸ hlocal) hholds
    rw [Frame.slot, show (s.frame head).function = head.function from rfl, if_pos howner,
      hslot] at hslot'
    cases hslot'
  · rw [hp.symbols x hown] at hx'
    obtain ⟨slot, kind, hslot, hkind, hword, hnext⟩ := h x symbol' hx' hlocal hholds
    refine ⟨slot, kind, hslot, hkind, fun m hm => ?_, Nat.le_trans hnext hp.next⟩
    rw [hp.words m (Nat.lt_of_lt_of_le hm.2 hnext), hword m hm]

/-! ## Pieces -/

/-- Only code is written, which ends with a shape. -/
structure Adds (S : Setting) (a : Analysis) (s : GenState) (T : Shaping) (w : Words) (d : Shape)
    (s' : GenState) (T' : Shaping) : Prop where
  code : ∃ b, s' = { s with code := b }
  held : s'.Held S a T' d
  passes : Passes (fun _ => False) [] [] s T w s' T' d.words

theorem Adds.then_ {d' : Shape} {s1 : GenState} {T1 : Shaping} (h : s.Adds S a T w d s1 T1)
    (h' : s1.Adds S a T1 d.words d' s' T') : s.Adds S a T w d' s' T' := by
  obtain ⟨b, rfl⟩ := h.code
  obtain ⟨b', rfl⟩ := h'.code
  exact ⟨⟨b', rfl⟩, h'.held, h.passes.then_ h'.passes fun _ hx => hx⟩

theorem Held.adds {J : LabelId → Prop} {d' : Shape} (h : s.Held S a T d)
    (hg : Ends S s.slots.max J s.code T d' b T') (hwords : d'.words = d.words) :
    s.Adds S a T d.words d' { s with code := b } T' :=
  ⟨⟨b, rfl⟩, ⟨hg.shaped, hg.cur, h.same, h.limit, h.next_le, hwords ▸ h.free, hwords ▸ h.homes⟩,
    .of_ends hg fun _ _ => by rw [hwords]⟩

theorem Held.pushes {stack' : TypeStack} (h : s.Held S a T ⟨stack, w⟩)
    (hm : Takes S s.slots.max E m ⟨stack, w⟩ ⟨stack', w⟩) :
    Wp E (Generate.ofEmit m) s fun _ s' => ∃ T', s.Adds S a T w ⟨stack', w⟩ s' T' := by
  refine (Wp.ofEmit (hm h.shaped h.cur)).imp ?_
  rintro _ _ ⟨b, rfl, T', hg⟩
  exact ⟨T', h.adds hg.toEnds rfl⟩

theorem Held.jumps (h : s.Held S a T d) (hm : Jumps S s.slots.max E m l d)
    (hopen : (T.at_ s.code.code.size).isSome → s.code.Open S T l d) :
    Wp E (Generate.ofEmit m) s fun _ s' => ∃ T', s.Adds S a T d.words d s' T' := by
  refine (Wp.ofEmit (hm h.shaped h.cur hopen)).imp ?_
  rintro _ _ ⟨b, rfl, T', hg⟩
  exact ⟨T', h.adds hg.toEnds rfl⟩

theorem Held.jump (hE : Refuses S.limit E) (h : s.Held S a T d)
    (hopen : (T.at_ s.code.code.size).isSome → s.code.Open S T l d) :
    Wp E (Generate.ofEmit (Emit.jump l)) s fun _ s' => ∃ T', s.Adds S a T d.words d s' T' :=
  h.jumps (.goto hE.overflow l d) hopen

theorem Held.returns (hE : Refuses S.limit E) (h : s.Held S a T ⟨stack, w⟩) {i : Instruction}
    (ha : Shape.Accepts S.types s.slots.max none i ⟨stack, w⟩ ⟨[], w⟩) (ht : i.target? = none)
    (hterm : i.isTerminal = true) :
    Wp E (Generate.instruction i) s fun _ s' =>
      ∃ T', s.Adds S a T w ⟨[], w⟩ s' T' ∧ T'.at_ s'.code.code.size = none := by
  refine (Wp.ofEmit (emit_wp hE.overflow h.shaped h.cur ha (by simp [ht]))).imp ?_
  rintro _ _ ⟨b, rfl, T', hg, -, hcur⟩
  refine ⟨T', h.adds hg rfl, ?_⟩
  rw [hcur, nextShape, hterm]
  exact Option.bind_fun_none _

theorem Held.newLabel (h : s.Held S a T d) (l : Shape) :
    Wp E (Generate.ofEmit Emit.newLabel) s fun label s' => label = s.code.labels.size ∧
      ∃ b T', s' = { s with code := b } ∧ s'.Held S a T' d ∧
        Fresh S s.slots.max s.code T l b T' := by
  refine (Wp.ofEmit (newLabel_wp h.shaped l)).imp ?_
  rintro _ _ ⟨b, rfl, rfl, T', hf⟩
  exact ⟨rfl, b, T', rfl, ⟨hf.shaped, fun e he => h.cur e (hf.cur ▸ he), h.same, h.limit, h.next_le,
    h.free, h.homes⟩, hf⟩

theorem Held.bind (h : s.Held S a T d) (hl : s.code.Waits S T l d) :
    Wp E (Generate.ofEmit (Emit.bind l)) s fun _ s' => ∃ b T', s' = { s with code := b } ∧
      s'.Held S a T' d ∧ Placed S s.slots.max s.code T l d b T' := by
  refine (Wp.ofEmit (bind_wp h.shaped hl fun e he => ?_)).imp ?_
  · rw [h.cur e he]
    exact .refl d
  rintro _ _ ⟨b, rfl, T', hp⟩
  exact ⟨b, T', rfl, ⟨hp.shaped, fun e he => hp.cur_eq he, h.same, h.limit, h.next_le,
    h.free, h.homes⟩, hp⟩

/-! ## Slots -/

def grown (slots : SlotAllocator) (kind : Kind) : SlotAllocator :=
  { slots with
    next := slots.next + kind.words
    max := Nat.max slots.max (slots.next + kind.words) }

/-- The analysis in which a symbol has a slot. -/
def withSlot (s : GenState) (x : SymbolId) (symbol : Symbol) (slot : Nat) : Analysis :=
  { s.analysis with
    symbols := s.analysis.symbols.setIfInBounds x { symbol with slot := some slot } }

theorem Held.allocate (hE : Refuses S.limit E) (h : s.Held S a T d) (kind : Kind) :
    Wp E (Generate.allocate kind) s fun slot s' => slot = s.slots.next ∧
      s' = { s with slots := grown s.slots kind } ∧ s'.Held S a T d := by
  by_cases hex : exceeds s.slots.limit (s.slots.next + kind.words) = true
  · have hsome : S.limit.isSome := isSome_of_exceeds (h.limit ▸ hex)
    have hrun : Generate.allocate kind s = .error (.slots .exhausted) s := by
      rw [Generate.allocate, SlotAllocator.allocate, if_pos hex]
    exact .of_error hrun (hE.exhausted hsome)
  · have hrun : Generate.allocate kind s =
        .ok s.slots.next { s with slots := grown s.slots kind } := by
      rw [Generate.allocate, SlotAllocator.allocate, if_neg hex]
      rfl
    refine .of_ok hrun ⟨rfl, rfl, h.shaped.mono (Nat.le_max_left _ _), h.cur, h.same, h.limit,
      Nat.le_max_right _ _, fun n e he => ?_, h.homes⟩
    exact Nat.lt_of_lt_of_le (h.free n e he) (Nat.le_add_right _ _)

theorem Held.newSlot (hE : Refuses S.limit E) (h : s.Held S a T d) {symbol : Symbol}
    (hx : s.analysis.symbols[x]? = some symbol) (hslot : symbol.slot = none) (kind : Kind) :
    Wp E (newSlot x kind) s fun slot s' => slot = s.slots.next ∧ s' = { s with
        slots := grown s.slots kind
        analysis := s.withSlot x symbol s.slots.next } ∧ s'.Held S a T d := by
  refine (h.allocate hE kind).bind ?_
  rintro _ _ ⟨rfl, rfl, h'⟩
  have hassign : s.analysis.assignSlot x s.slots.next = .ok (s.withSlot x symbol s.slots.next) := by
    rw [Analysis.assignSlot, hx]
    simp only [hslot]
    rfl
  have hrun : Generate.assignSlot x s.slots.next { s with slots := grown s.slots kind } =
      .ok () { s with
        slots := grown s.slots kind
        analysis := s.withSlot x symbol s.slots.next } := by
    simp only [Generate.assignSlot, hassign]
  refine (Ends.of_ok (Q := fun _ s' => s' = { s with
    slots := grown s.slots kind
    analysis := s.withSlot x symbol s.slots.next }) hrun rfl).bind ?_
  rintro _ _ rfl
  exact .pure ⟨rfl, rfl, h'.shaped, h'.cur, h.same.trans (assignSlot_sameButSlots hassign),
    h'.limit, h'.next_le, h'.free, h'.homes⟩

/-! ## Scopes -/

theorem Held.weaken (h : s.Held S a T ⟨stack, w⟩) (hw : w'.Within w) :
    ∃ T', s.code.Shaped S s.slots.max T' ∧ T'.label = T.label ∧
      (∀ d, T'.at_ s.code.code.size = some d → d = ⟨stack, w'⟩) ∧
      ((T'.at_ s.code.code.size).isSome ↔ (T.at_ s.code.code.size).isSome) := by
  cases hc : T.at_ s.code.code.size with
  | none => exact ⟨T, h.shaped, rfl, by rw [hc]; nofun, by rw [hc]⟩
  | some d =>
    obtain rfl := h.cur d hc
    have hle : (⟨stack, w'⟩ : Shape).Le ⟨stack, w⟩ := ⟨rfl, hw⟩
    refine ⟨_, h.shaped.weaken hc hle, rfl, ?_, ?_⟩
    · rw [Shaping.set_at]
      rintro d hd
      cases hd
      rfl
    · rw [Shaping.set_at]
      exact Iff.rfl

/-- The end of a statement: the stack is empty. -/
def Leaves (S : Setting) (a : Analysis) (own : SymbolId → Prop) (inner : List FunctionDecl)
    (s : GenState) (T : Shaping) (w : Words) (s' : GenState) : Prop :=
  ∃ T' w', s'.Held S a T' ⟨[], w'⟩ ∧ Passes own inner [] s T w s' T' w'

theorem Held.inScope (h : s.Held S a T ⟨[], w⟩) {m : Generate Unit}
    (hm : Wp E m { s with slots := s.slots.openScope } fun _ =>
      Leaves S a own inner { s with slots := s.slots.openScope } T w) :
    Wp E (Generate.inScope m) s fun _ s' => ∃ T', s'.Held S a T' ⟨[], w⟩ ∧
      Passes own inner [] s T w s' T' w := by
  refine Ends.bind (P := fun _ s' => s' = { s with slots := s.slots.openScope }) (.of_ok rfl rfl) ?_
  rintro _ _ rfl
  refine hm.bind ?_
  rintro _ s1 ⟨T1, w1, h1, hp⟩
  have hmarks : s1.slots.marks = s.slots.next :: s.slots.marks := hp.marks
  have hrun : Generate.closeSlots s1 = .ok () { s1 with
      slots := { s1.slots with next := s.slots.next, marks := s.slots.marks } } := by
    rw [Generate.closeSlots, SlotAllocator.closeScope, hmarks]
  obtain ⟨T', hshaped, hlabel, hcur, hlive⟩ := h1.weaken (hp.within h.free)
  refine .of_ok hrun ⟨T', ⟨hshaped, hcur, h1.same, h1.limit, ?_, h.free, h.homes⟩, ⟨?_, hp.placed,
    hp.made, fun hd => ⟨?_, fun l hl => absurd hl List.not_mem_nil⟩, fun _ _ => rfl,
      hp.symbols, rfl,
    Nat.le_refl _, hp.max, hp.pending⟩⟩
  · exact Nat.le_trans h.next_le hp.max
  · have hg := hp.grows
    exact ⟨hg.keeps, hg.size, fun l hl => by rw [hlabel]; exact hg.shapes l hl, hg.kept, hg.same⟩
  · rw [← Option.not_isSome_iff_eq_none, hlive, (hp.dead hd).1]
    exact Bool.false_ne_true

end GenState

/-! ## Before a statement -/

/-- The variables of a list that live in the frame of a function. -/
def Analysis.OwnedIn (a : Analysis) (f : FnId) (xs : List SymbolId) (x : SymbolId) : Prop :=
  x ∈ xs ∧ ∃ symbol, a.symbols[x]? = some symbol ∧ symbol.owner = some f

/-- A statement can be written: the variables in view have slots, those of a list have none, and the
loop around can be left. -/
structure GenState.Ready (S : Setting) (a : Analysis) (head : FrameHead) (c : Place)
    (xs : List SymbolId) (loop : Option LoopLabels) (s : GenState) (T : Shaping) (w : Words) :
    Prop where
  held : s.Held S a T ⟨[], w⟩
  covers : s.Covers a head c w
  fresh : ∀ x, a.OwnedIn head.function xs x → S.types.slot (.symbol x) = none ∧
    ∀ symbol, s.analysis.symbols[x]? = some symbol → symbol.slot = none
  leave : ∀ labels, loop = some labels → (T.at_ s.code.code.size).isSome →
    s.code.Open S T labels.leave ⟨[], w⟩
  next : ∀ labels, loop = some labels → (T.at_ s.code.code.size).isSome →
    s.code.Open S T labels.next ⟨[], w⟩

namespace GenState.Ready

variable {S : Setting} {E : GenerateError → Prop} {a : Analysis} {head : FrameHead} {c : Place}
  {xs ys : List SymbolId} {loop : Option LoopLabels} {s s' : GenState} {T T' : Shaping}
  {w w' : Words} {own : SymbolId → Prop} {inner : List FunctionDecl} {W : List LabelId}

theorem open_passes (h : s.Held S a T ⟨[], w⟩) (hp : s.Passes own inner W T w s' T' w')
    (hl : (T.at_ s.code.code.size).isSome → s.code.Open S T l ⟨[], w⟩)
    (hlive : (T'.at_ s'.code.code.size).isSome) : s'.code.Open S T' l ⟨[], w'⟩ := by
  obtain ⟨hown, hstate, hle⟩ := (hl (hp.alive hlive)).grows hp.grows
  exact ⟨hown, hstate, hle.trans ⟨rfl, hp.within h.free⟩⟩

section

variable (h : s.Ready S a head c xs loop T w)
include h

theorem owner_of_fresh (hx : a.OwnedIn head.function xs x) {symbol : Symbol}
    (hsymbol : s.analysis.symbols[x]? = some symbol) :
    symbol.owner = some head.function ∧ symbol.slot = none := by
  obtain ⟨-, symbol', hx', howner⟩ := id hx
  obtain ⟨_, hx'', hsame⟩ := h.held.same.symbol hx'
  cases hsymbol.symm.trans hx''
  exact ⟨hsame.owner.trans howner, (h.fresh x hx).2 symbol hsymbol⟩

theorem covers_passes (h' : s'.Held S a T' ⟨[], w'⟩) (hp : s.Passes own inner W T w s' T' w')
    (hown : ∀ x, own x → a.OwnedIn head.function xs x) : s'.Covers a head c w' := by
  refine h.covers.passes hp (fun x hx symbol hsymbol => h.owner_of_fresh (hown x hx) hsymbol) ?_
  refine ⟨?_, fun x => (h'.same.symbols x).trans (h.held.same.symbols x).symm⟩
  rw [h'.same.rest, h.held.same.rest]

theorem passes (h' : s'.Held S a T' ⟨[], w'⟩) (hp : s.Passes own inner W T w s' T' w')
    (hown : ∀ x, own x → a.OwnedIn head.function xs x) (hys : ys ⊆ xs)
    (hdisjoint : ∀ x ∈ ys, ¬ own x) : s'.Ready S a head c ys loop T' w' := by
  refine ⟨h', h.covers_passes h' hp hown, fun x hx => ?_,
    fun labels hl => open_passes h.held hp (h.leave labels hl),
    fun labels hl => open_passes h.held hp (h.next labels hl)⟩
  rw [hp.symbols x (hdisjoint x hx.1)]
  exact h.fresh x ⟨hys hx.1, hx.2⟩

end

end GenState.Ready

end StackCompiler

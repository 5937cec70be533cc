import StackCompiler.Proofs.BufferDepth
import StackCompiler.Proofs.References
import StackCompiler.Proofs.Trees

/-!
# What writing code is made of

The code of expressions is written by appending instructions and by making and placing labels, one
after the other; that of statements also takes slots and gives them to variables. What holds of
these steps and is kept by doing one after another holds of all code that is written.

* **`Expr.code_built`**, **`Stmt.generate_built`**: the code of an expression is built so, however
  it is written, and that of a statement;
* **`Emit.Built.leads`**, **`Generate.Built.follows`**: a run is a run of steps of the buffer, and
  of an analysis only the slots change;
* **`Emit.Built.linked`**: code refers only to what its unit knows, and the captured variables of a
  function are pushed right before it is called.
-/

namespace StackCompiler

open Generate List StackCompiler.Expr

variable {a : Analysis} {b b' : CodeBuffer} {f : Frame} {s s' : GenState} {m m' : Generate Unit}
  {i : Instruction} {label : LabelId} {xs : List SymbolId} {body : LoopLabels → Generate Unit}
  {loop : Option LoopLabels} {α β : Type} {x x' : Except GenerateError α}
  {R : List LabelId → CodeBuffer → CodeBuffer → Prop} {c : α} {id : SymbolId}

/-! ## Steps of writing -/

/-- The instruction is a call of a function that the unit knows. -/
def Subject.isFunction : Subject → Bool
  | .function _ => true
  | _ => false

/-- What an assignment to the expression writes to the frame. -/
def Expr.sets : Expr → List Subject
  | .name _ ref => ref.binding.toList.map (.symbol ·.symbol)
  | _ => []

mutual

/-- What a statement writes to the frame. -/
def Stmt.sets : Stmt → List Subject
  | .var decl => decl.symbol.toList.map .symbol
  | .block _ body => Stmt.setsAll body
  | .branch _ _ yes none => yes.sets
  | .branch _ _ yes (some no) => yes.sets ++ no.sets
  | .loop _ _ body => body.sets
  | .range _ v _ _ body => (v.symbol.toList.flatMap fun id => [.symbol id, .bound id]) ++ body.sets
  | .assign _ target _ => target.sets
  | .function .. | .ret .. | .leave _ | .next _ | .expr _ => []

def Stmt.setsAll : List Stmt → List Subject
  | [] => []
  | stmt :: rest => stmt.sets ++ Stmt.setsAll rest

end

/-- Built from appending instructions, making labels and placing them, for a frame and for one with
more slots. Instructions refer to what the unit knows, write only what is given and jump to given
labels and new ones, and captured variables are pushed right before a call. -/
inductive Emit.Built (a : Analysis) (W : Subject → Prop) :
    List LabelId → {α : Type} → Emit α → Emit α → Prop
  | pure {J : _} {α : Type} (c : α) : Built a W J (pure c : Emit α) (pure c)
  | throw {J : _} {α : Type} (e : GenerateError) :
      Built a W J (throw e : Emit α) (throw e)
  | early {J : _} {α : Type} {e : GenerateError} (he : e.isEarly = true) (m : Emit α) :
      Built a W J (throw e) m
  | instruction {J : _} {i : Instruction} (hi : a.Refers none i) (ht : i.target? = none) :
      Built a W J (Emit.instruction i) (Emit.instruction i)
  | branch {J : _} {i : Instruction} (hi : a.Refers none i) {label : LabelId}
      (ht : i.target? = some (.label label)) (hl : label ∈ J) :
      Built a W J (Emit.instruction i) (Emit.instruction i)
  | about {J : _} {x : Subject} (hx : x.isFunction = false) {i : Instruction}
      (hi : a.Refers (some x) i) (ht : i.target? = none) (hw : i.writes (some x) = none ∨ W x) :
      Built a W J (Emit.about x i) (Emit.about x i)
  | withLabel {J : _} {α : Type} {k k' : LabelId → Emit α}
      (h : ∀ label, Built a W (label :: J) (k label) (k' label)) :
      Built a W J (Emit.newLabel >>= k) (Emit.newLabel >>= k')
  | place {J : _} {label : LabelId} (hl : label ∈ J) :
      Built a W J (Emit.bind label) (Emit.bind label)
  | call {J : _} {f f' : Frame} (hf : a.SameButSlots f.analysis) {id : FnId} {info : FunctionInfo}
      (hinfo : a.functions[id]? = some info) {ref : MethodRef} (href : a.methodRef id = .ok ref)
      (hloads : Built a W J (info.captures.forM f.load) (info.captures.forM f'.load)) :
      Built a W J (do info.captures.forM f.load; Emit.about (.function id) (.invokeStatic ref))
        (do info.captures.forM f'.load; Emit.about (.function id) (.invokeStatic ref))
  | bind {J : _} {α β : Type} {m m' : Emit α} {k k' : α → Emit β} (hm : Built a W J m m')
      (hk : ∀ c, Built a W J (k c) (k' c)) : Built a W J (m >>= k) (m' >>= k')

variable {a : Analysis} {W : Subject → Prop} {J : List LabelId}

/-- Variables are pushed by an instruction for each of them, unless control does not get there. -/
theorem loadAll_run {u : Unit} (h : xs.forM f.load b = .ok (u, b')) : b'.reachable = b.reachable ∧
      (b.reachable = true → ∃ is, List.Forall₂ (fun x i => f.loadInstruction x = .ok i) xs is ∧
        b'.code = b.code ++ is.toArray ∧
        b'.subjects = b.subjects ++ (xs.map fun x => some (Subject.symbol x)).toArray) := by
  induction xs generalizing b with
  | nil =>
    cases Emit.pure_eq_ok.mp h
    exact ⟨rfl, fun _ => ⟨[], .nil, Array.append_empty.symm, Array.append_empty.symm⟩⟩
  | cons x xs ih =>
    obtain ⟨_, b1, hx, hxs⟩ := Emit.bind_eq_ok.mp h
    obtain ⟨i, b2, hi, hx⟩ := Emit.bind_eq_ok.mp hx
    obtain ⟨i, hload, hi⟩ := Emit.lift_eq_ok.mp hi
    cases hi
    have hemit := Emit.ofWrite_eq_ok.mp hx
    obtain ⟨hreach, hcode⟩ := ih hxs
    cases CodeBuffer.emit_eq_ok.mp hemit with
    | dropped hr => exact ⟨hreach, fun hr' => Bool.noConfusion (hr.symm.trans hr')⟩
    | appended hr =>
      have hterm : i.isTerminal = false := by
        obtain ⟨_, -, ⟨-, _, -, rfl⟩ | ⟨-, _, -, _, -, rfl⟩⟩ :=
          Frame.loadInstruction_eq_ok.mp hload <;> rfl
      have hlive : (!i.isTerminal) = true := by rw [hterm]; rfl
      refine ⟨by rw [hreach, hr]; exact hlive, fun _ => ?_⟩
      obtain ⟨is, his, hc, hs⟩ := hcode hlive
      refine ⟨i :: is, .cons hload his, ?_, ?_⟩
      · rw [hc]
        simp
      · rw [hs]
        simp

namespace Emit.Built

theorem then_ {m m' : Emit Unit} {k k' : Emit β} (hm : Built a W J m m') (hk : Built a W J k k') :
    Built a W J (do m; k) (do m'; k') := hm.bind fun _ => hk

variable {k k' : α → Emit β}

theorem liftThen (hx : x' = x) (hk : ∀ c, x = .ok c → Built a W J (k c) (k' c)) :
    Built a W J (do let c ← x; k c) (do let c ← x'; k' c) := by
  subst hx
  cases x' with
  | ok c => exact hk c rfl
  | error e => exact .throw e

/-- A computation that needs slots comes too early or is the same with more of them. -/
theorem repeatThen (hx : Except.Repeats x x') (hk : ∀ c, x = .ok c → Built a W J (k c) (k' c)) :
    Built a W J (do let c ← x; k c) (do let c ← x'; k' c) := by
  rcases hx with ⟨e, rfl, he⟩ | hx
  · exact .early he _
  · exact liftThen hx hk

theorem jump (hl : label ∈ J) : Built a W J (Emit.jump label) (Emit.jump label) :=
  .branch trivial rfl hl

theorem forM {f f' : α → Emit Unit} (hf : ∀ c, Built a W J (f c) (f' c)) (xs : List α) :
    Built a W J (xs.forM f) (xs.forM f') := by
  induction xs with
  | nil => exact .pure ()
  | cons x xs ih => exact (hf x).then_ ih

/-- What holds of the buffers before and after a step of writing, and is kept by writing on. -/
structure Tracks (W : Subject → Prop) (R : List LabelId → CodeBuffer → CodeBuffer → Prop) :
    Prop where
  refl : ∀ J b, R J b b
  trans : ∀ {J b b' b''}, R J b b' → R J b' b'' → R J b b''
  emits : ∀ {J x i b b'}, (∀ l, i.target? = some (.label l) → l ∈ J) →
    (∀ y, x = some y → i.writes x = none ∨ W y) → CodeBuffer.Emits x i b b' → R J b b'
  binds : ∀ {J l b b'}, l ∈ J → CodeBuffer.Binds l b b' → R J b b'
  withLabel : ∀ {J} {b b' : CodeBuffer},
    R (b.labels.size :: J) { b with labels := b.labels.push ⟨none, none⟩ } b' → R J b b'

/-- **What holds of steps of writing holds of a run of what is built from them.** -/
theorem runs (hR : Tracks W R) {m m' : Emit α} (h : Built a W J m m') (hm : m b = .ok (c, b')) :
    R J b b' := by
  have hemits {x : Option Subject} {i : Instruction} {b b' : CodeBuffer} {u : Unit}
      (h : Emit.ofWrite (CodeBuffer.emitAbout x i) b = .ok (u, b')) : CodeBuffer.Emits x i b b' :=
    CodeBuffer.emit_eq_ok.mp (Emit.ofWrite_eq_ok.mp h)
  induction h generalizing b b' with
  | pure c =>
    cases Emit.pure_eq_ok.mp hm
    exact hR.refl _ b
  | throw | early => exact absurd hm Emit.throw_ne_ok
  | instruction _ ht => exact hR.emits (by simp [ht]) (by simp) (hemits hm)
  | branch _ ht hl => exact hR.emits (by rw [ht]; rintro _ ⟨⟩; exact hl) (by simp) (hemits hm)
  | about _ _ ht hw => exact hR.emits (by simp [ht]) (by rintro _ ⟨⟩; exact hw) (hemits hm)
  | withLabel _ ih =>
    obtain ⟨l, b1, h1, h2⟩ := Emit.bind_eq_ok.mp hm
    cases Emit.ofWrite_eq_ok.mp h1
    exact hR.withLabel (ih _ h2)
  | place hl => exact hR.binds hl (CodeBuffer.bind_eq_ok.mp (Emit.ofWrite_eq_ok.mp hm))
  | call _ _ _ _ ih =>
    obtain ⟨_, b1, h1, h2⟩ := Emit.bind_eq_ok.mp hm
    exact hR.trans (ih h1) (hR.emits (by rintro _ ⟨⟩) (fun _ _ => .inl rfl) (hemits h2))
  | bind _ _ ihm ihf =>
    obtain ⟨c, b1, h1, h2⟩ := Emit.bind_eq_ok.mp hm
    exact hR.trans (ihm h1) (ihf c h2)

theorem Tracks.leads : Tracks W fun _ => CodeBuffer.Leads :=
  ⟨fun _ _ => .refl, .trans, fun _ _ h => .single (.emit _ _ (CodeBuffer.emit_eq_ok.mpr h)),
    fun _ h => .single (.bind _ (CodeBuffer.bind_eq_ok.mpr h)), .head (.newLabel _)⟩

/-- A run of what is built from steps is a run of steps of the buffer. -/
theorem leads {m m' : Emit α} (h : Built a W J m m') (hm : m b = .ok (c, b')) :
    b.Leads b' := h.runs .leads hm

end Emit.Built

/-! ## References and calls -/

/-- The instruction pushes the value of a variable in some method of a unit. -/
def Analysis.PushedBy (a : Analysis) (x : SymbolId) (i : Instruction) : Prop :=
  ∃ f : Frame, a.SameButSlots f.analysis ∧ f.loadInstruction x = .ok i

/-- Right before a position, the values of some variables are pushed one after the other. -/
def CodeBuffer.PushedBefore (a : Analysis) (b : CodeBuffer) (pos : Nat) (xs : List SymbolId) :
    Prop :=
  xs.length ≤ pos ∧ ∀ (j : Nat) x, xs[j]? = some x → ∃ i, b.code[pos - xs.length + j]? = some i ∧
    a.PushedBy x i ∧ b.subjects[pos - xs.length + j]? = some (some (.symbol x))

/-- Instructions refer to what the unit knows. Right before a function is called, its captured
variables are pushed, in the order in which its method takes them. -/
structure CodeBuffer.Linked (a : Analysis) (b : CodeBuffer) : Prop where
  subjects : b.subjects.size = b.code.size
  refers : ∀ (pos : Nat) i x, b.code[pos]? = some i → b.subjects[pos]? = some x → a.Refers x i
  pushed : ∀ (pos : Nat) id, b.subjects[pos]? = some (some (.function id)) →
    ∃ info, a.functions[id]? = some info ∧ b.PushedBefore a pos info.captures

namespace CodeBuffer

theorem start_linked (a : Analysis) (limit : Option Nat) : (start limit).Linked a :=
  ⟨rfl, fun pos _ _ h => by simp [start] at h, fun pos _ h => by simp [start] at h⟩

theorem PushedBefore.keeps {pos : Nat} (h : b.PushedBefore a pos xs)
    (hcode : ∀ (p : Nat) i, b.code[p]? = some i → b'.code[p]? = some i)
    (hsubjects : ∀ (p : Nat) x, b.subjects[p]? = some x → b'.subjects[p]? = some x) :
    b'.PushedBefore a pos xs := by
  refine ⟨h.1, fun j x hx => ?_⟩
  obtain ⟨i, hi, hpushed, hsubject⟩ := h.2 j x hx
  exact ⟨i, hcode _ _ hi, hpushed, hsubjects _ _ hsubject⟩

/-- An appended call has its captured variables pushed at the end of the code. -/
theorem Linked.push (h : b.Linked a) {x : Option Subject} (hcode : b'.code = b.code.push i)
    (hsubjects : b'.subjects = b.subjects.push x) (hi : a.Refers x i)
    (hx : ∀ id, x = some (.function id) → ∃ info, a.functions[id]? = some info ∧
      b.PushedBefore a b.code.size info.captures) : b'.Linked a := by
  have hc (p : Nat) (j : Instruction) (hj : b.code[p]? = some j) : b'.code[p]? = some j :=
    hcode ▸ getElem?_push_of_some i hj
  have hs (p : Nat) (y : Option Subject) (hy : b.subjects[p]? = some y) :
    b'.subjects[p]? = some y :=
    hsubjects ▸ getElem?_push_of_some x hy
  refine ⟨by rw [hcode, hsubjects, Array.size_push, Array.size_push, h.subjects],
    fun pos j y hj hy => ?_, fun pos id hid => ?_⟩
  · rw [hcode, Array.getElem?_push] at hj
    rw [hsubjects, Array.getElem?_push, h.subjects] at hy
    split_ifs at hj hy
    · cases hj
      cases hy
      exact hi
    · exact h.refers pos j y hj hy
  rw [hsubjects, Array.getElem?_push] at hid
  split_ifs at hid with hpos
  · obtain ⟨info, hinfo, hpushed⟩ := hx id (Option.some.inj hid)
    refine ⟨info, hinfo, ?_⟩
    rw [hpos, h.subjects]
    exact hpushed.keeps hc hs
  · obtain ⟨info, hinfo, hpushed⟩ := h.pushed pos id hid
    exact ⟨info, hinfo, hpushed.keeps hc hs⟩

theorem Linked.emits (h : b.Linked a) {x : Option Subject} (hb : Emits x i b b') (hi : a.Refers x i)
    (hx : ∀ id, x ≠ some (.function id)) : b'.Linked a := by
  cases hb with
  | dropped => exact h
  | appended => exact h.push rfl rfl hi fun id hid => absurd hid (hx id)

end CodeBuffer

/-- Variables that have been pushed stand right before the end of the code. -/
theorem pushedBefore_of_loadAll (hf : a.SameButSlots f.analysis) {is : List Instruction}
    (hsize : b.subjects.size = b.code.size)
    (his : List.Forall₂ (fun x i => f.loadInstruction x = .ok i) xs is)
    (hcode : b'.code = b.code ++ is.toArray)
    (hsubjects : b'.subjects = b.subjects ++ (xs.map fun x => some (Subject.symbol x)).toArray) :
    b'.PushedBefore a b'.code.size xs := by
  have hlength := his.length_eq
  have hsize' : b'.code.size = b.code.size + is.length := by simp [hcode]
  have hend : b'.code.size - xs.length = b.code.size := by omega
  refine ⟨by omega, fun j x hx => ?_⟩
  have hj : j < is.length := hlength ▸ (List.getElem?_eq_some_iff.mp hx).1
  refine ⟨is[j], ?_, ⟨f, hf, ?_⟩, ?_⟩
  · rw [hend, hcode, Array.getElem?_append_right (Nat.le_add_right _ _), Nat.add_sub_cancel_left,
      List.getElem?_toArray, List.getElem?_eq_getElem hj]
  · obtain ⟨_, rfl⟩ := List.getElem?_eq_some_iff.mp hx
    exact his.get _ hj
  · rw [hend, hsubjects, ← hsize, Array.getElem?_append_right (Nat.le_add_right _ _),
      Nat.add_sub_cancel_left, List.getElem?_toArray, List.getElem?_map, hx]
    rfl

namespace Emit.Built

/-- **Whatever is built from steps refers to what the unit knows, and calls functions with their
captured variables pushed in order.** -/
theorem linked {m m' : Emit α} (h : Built a W J m m') (hm : m b = .ok (c, b')) (hb : b.Linked a) :
    b'.Linked a := by
  induction h generalizing b b' with
  | pure c =>
    cases Emit.pure_eq_ok.mp hm
    exact hb
  | throw | early => exact absurd hm Emit.throw_ne_ok
  | instruction hi | branch hi =>
    exact hb.emits (CodeBuffer.emit_eq_ok.mp (Emit.ofWrite_eq_ok.mp hm)) hi nofun
  | about hx hi =>
    refine hb.emits (CodeBuffer.emit_eq_ok.mp (Emit.ofWrite_eq_ok.mp hm)) hi ?_
    rintro id ⟨⟩
    cases hx
  | withLabel _ ih =>
    obtain ⟨l, b1, h1, h2⟩ := Emit.bind_eq_ok.mp hm
    cases Emit.ofWrite_eq_ok.mp h1
    exact ih _ h2 ⟨hb.subjects, hb.refers, hb.pushed⟩
  | place =>
    cases CodeBuffer.bind_eq_ok.mp (Emit.ofWrite_eq_ok.mp hm) with
    | onPath | byJumps | outOfReach => exact ⟨hb.subjects, hb.refers, hb.pushed⟩
  | call hf hinfo href _ ih =>
    obtain ⟨_, b1, h1, h2⟩ := Emit.bind_eq_ok.mp hm
    obtain ⟨hreach, hpushed⟩ := loadAll_run h1
    have hb1 := ih h1 hb
    cases CodeBuffer.emit_eq_ok.mp (Emit.ofWrite_eq_ok.mp h2) with
    | dropped => exact hb1
    | appended hr =>
      obtain ⟨is, his, hcode, hsubjects⟩ := hpushed (hreach ▸ hr)
      refine hb1.push rfl rfl href fun _ hid => ?_
      cases hid
      exact ⟨_, hinfo, pushedBefore_of_loadAll hf hb.subjects his hcode hsubjects⟩
  | bind _ _ ihm ihf =>
    obtain ⟨c, b1, h1, h2⟩ := Emit.bind_eq_ok.mp hm
    exact ihf c h2 (ihm h1 hb)

end Emit.Built

/-! ## Pieces of expressions -/

namespace Emit.Built

theorem applyArith (op : ArithOp) (operand : Ty) :
    Built a W J (applyArith op operand) (applyArith op operand) := by
  unfold StackCompiler.applyArith
  split
  · exact .instruction (by simp [Analysis.Refers, concatMethod, libraryClasses]) rfl
  · exact liftThen rfl fun _ _ => .instruction trivial rfl

theorem compareAndJump (cond : Cond) (operand : Ty) (hl : label ∈ J) (jumpIf : Bool) :
    Built a W J (compareAndJump cond operand label jumpIf)
      (compareAndJump cond operand label jumpIf) := by
  cases operand with
  | int | bool | array | record => exact .branch trivial rfl hl
  | long | float | double => exact then_ (.instruction trivial rfl) (.branch trivial rfl hl)
  | string =>
    exact then_ (.instruction (by simp [Analysis.Refers, equalsMethod, libraryClasses]) rfl)
      (.branch trivial rfl hl)
  | void | function | error => exact .throw _

theorem materialize {jump jump' : LabelId → Bool → Emit Unit}
    (h : ∀ {J l}, l ∈ J → ∀ c, Built a W J (jump l c) (jump' l c)) :
    Built a W J (materialize jump) (materialize jump') :=
  withLabel fun _ => withLabel fun _ => (h (.tail _ (.head _)) _).then_ <|
    then_ (.instruction trivial rfl) <| (Built.jump (.head _)).then_ <|
    (place (.tail _ (.head _))).then_ <| then_ (.instruction trivial rfl) (place (.head _))

theorem convert (source target : Ty) : Built a W J (convert source target)
    (convert source target) := by
  unfold StackCompiler.convert
  split
  · exact .pure _
  · split
    · exact .throw _
    · refine liftThen rfl fun sourceKind _ => liftThen rfl fun targetKind _ => ?_
      split
      · exact .instruction trivial rfl
      · exact .pure _

theorem applyCoercion (note : Note) : Built a W J (applyCoercion note) (applyCoercion note) := by
  unfold StackCompiler.applyCoercion
  split
  · exact .pure _
  · split
    · exact convert _ _
    · exact .throw _

section

variable {f f' : Frame} {args args' : Emit Unit}

theorem load (hf : a.SameButSlots f.analysis) (hff : f.Fills f') (id : SymbolId) :
    Built a W J (f.load id) (f'.load id) :=
  repeatThen (hff.loadInstruction id) fun _ h =>
    have hi := f.loadInstruction_refers hf h
    .about rfl hi.1 hi.2.1 (.inl hi.2.2)

theorem store (hf : a.SameButSlots f.analysis) (hff : f.Fills f') (hW : W (.symbol id)) :
    Built a W J (f.store id) (f'.store id) :=
  repeatThen (hff.storeInstruction id) fun _ h =>
    have hi := f.storeInstruction_refers hf h
    .about rfl hi.1 hi.2 (.inr hW)

theorem callBuiltin (builtin : Builtin) (argTy : Ty) {arg arg' : Emit Unit}
    (h : Built a W J arg arg') :
    Built a W J (callBuiltin builtin argTy arg) (callBuiltin builtin argTy arg') := by
  cases builtin with
  | print =>
    exact then_ (.instruction (by simp [Analysis.Refers, outField, libraryClasses]) rfl)
      (h.then_ (.instruction (by simp [Analysis.Refers, libraryClasses]) rfl))
  | str => exact h.then_ (.instruction (by simp [Analysis.Refers, libraryClasses]) rfl)
  | len =>
    refine h.then_ ?_
    split
    · exact .instruction trivial rfl
    · exact .instruction (by simp [Analysis.Refers, libraryClasses]) rfl
    · exact .throw _

theorem callFunction (hf : a.SameButSlots f.analysis) (hff : f.Fills f') (id : FnId)
    (h : Built a W J args args') :
    Built a W J (callFunction f id args) (callFunction f' id args') := by
  refine h.then_ (liftThen ?_ fun info hinfo => ?_)
  · rw [Analysis.function, hff.analysis.same.functions]
    rfl
  have hinfo : f.analysis.functions[id]? = some info := by
    unfold Analysis.function at hinfo
    split at hinfo <;> cases hinfo
    assumption
  rw [hff.analysis.same.methodRef]
  cases href : f.analysis.methodRef id with
  | ok ref => exact .call hf (hf.functions ▸ hinfo) (hf.methodRef id ▸ href) (.forM (load hf hff) _)
  | error e => exact (Built.forM (load hf hff) _).then_ (.throw e)

theorem callConstructor (hf : a.SameButSlots f.analysis) (hff : f.Fills f') (decl : DeclId)
    (h : Built a W J args args') :
    Built a W J (callConstructor f decl args) (callConstructor f' decl args') := by
  unfold StackCompiler.callConstructor
  rw [show f'.analysis.record? decl = f.analysis.record? decl by
    rw [Analysis.record?, hff.analysis.same.records]; rfl]
  split
  · exact .throw _
  · rename_i info hinfo
    have hmem : info ∈ a.records := hf.records ▸ mem_of_find?_eq_some hinfo
    exact liftThen (hff.analysis.same.constructorRef info) fun _ href =>
      then_ (.instruction ⟨info, hmem, rfl⟩ rfl) <| then_ (.instruction trivial rfl) <|
      h.then_ (.instruction (.inr ⟨info, hmem, hf.constructorRef info ▸ href⟩) rfl)

end

end Emit.Built

/-! ## Expressions -/

/-- Both ways of writing an expression are built from steps of writing. -/
structure ExprCode.Built (a : Analysis) (c c' : ExprCode) : Prop where
  value : ∀ {W J}, Emit.Built a W J c.value c'.value
  push : ∀ {W J}, Emit.Built a W J c.push c'.push
  jump : ∀ {W J label}, label ∈ J → ∀ jumpIf,
    Emit.Built a W J (c.jump label jumpIf) (c'.jump label jumpIf)

namespace ExprCode.Built

theorem ofValue (note : Note) {value value' : Emit Unit}
    (h : ∀ {W J}, Emit.Built a W J value value') :
    (ExprCode.ofValue note value).Built a (ExprCode.ofValue note value') where
  value := h
  push := h.then_ (.applyCoercion note)
  jump hl _ := (h.then_ (.applyCoercion note)).then_ (.branch trivial rfl hl)

theorem ofJump (note : Note) {jump jump' : LabelId → Bool → Emit Unit}
    (h : ∀ {W J label}, label ∈ J → ∀ jumpIf,
      Emit.Built a W J (jump label jumpIf) (jump' label jumpIf)) :
    (ExprCode.ofJump note jump).Built a (ExprCode.ofJump note jump') :=
  ⟨.materialize h, (Emit.Built.materialize h).then_ (.applyCoercion note), h⟩

end ExprCode.Built

theorem jumpLogical_built (decisive : Bool) {left left' right right' : ExprCode}
    (hl : left.Built a left') (hr : right.Built a right') (hlabel : label ∈ J) (jumpIf : Bool) :
    Emit.Built a W J (jumpLogical decisive left right label jumpIf)
      (jumpLogical decisive left' right' label jumpIf) := by
  unfold jumpLogical
  split
  · exact (hl.jump hlabel _).then_ (hr.jump hlabel _)
  · exact .withLabel fun _ => (hl.jump (.head _) _).then_ <| (hr.jump (.tail _ hlabel) _).then_ <|
      .place (.head _)

section

variable {f f' : Frame}

theorem pushAll_built {es : List Expr} (h : ∀ e ∈ es, (e.code f).Built a (e.code f')) :
    Emit.Built a W J (pushAll f es) (pushAll f' es) := by
  induction es with
  | nil => exact .pure _
  | cons e es ih =>
    rw [pushAll, pushAll]
    exact (h e mem_cons_self).push.then_ (ih fun e' he' => h e' (mem_cons_of_mem _ he'))

theorem fillArray_built (elem : ArrayElem) {es : List Expr}
    (h : ∀ e ∈ es, (e.code f).Built a (e.code f')) (index : Nat) :
    Emit.Built a W J (fillArray f elem index es) (fillArray f' elem index es) := by
  induction es generalizing index with
  | nil => exact .pure _
  | cons e es ih =>
    rw [fillArray, fillArray]
    exact .then_ (.instruction trivial rfl) <| .liftThen rfl fun _ hi =>
      .then_ (.instruction (intConstant_refers none hi).1
        (intConstant_refers none hi (a := a)).2) <|
      (h e mem_cons_self).push.then_ <| .then_ (.instruction trivial rfl) <|
      ih (fun e' he' => h e' (mem_cons_of_mem _ he')) _

/-- **The code of an expression is built from steps of writing, however it is written.** -/
theorem Expr.code_built (hf : a.SameButSlots f.analysis) (hff : f.Fills f') (e : Expr) :
    (e.code f).Built a (e.code f') := by
  have hconst {x : Except GenerateError Instruction}
      (hx : ∀ i, x = .ok i → a.Refers none i ∧ i.target? = none) {W : Subject → Prop}
      {J : List LabelId} :
      Emit.Built a W J (do Emit.instruction (← x)) (do Emit.instruction (← x)) :=
    .liftThen rfl fun i hi => .instruction (hx i hi).1 (hx i hi).2
  induction e with
  | literal note value =>
    have hcode := ExprCode.Built.ofValue (a := a) note
      (hconst fun i (hi : literalInstruction value = .ok i) => literalInstruction_refers none hi)
    cases value with
    | bool b =>
      rw [code, code]
      refine ⟨hcode.value, hcode.push, fun hl jumpIf => ?_⟩
      show Emit.Built a _ _ (if b = jumpIf then _ else _) (if b = jumpIf then _ else _)
      split
      · exact .jump hl
      · exact .pure _
    | _ =>
      rw [code, code]
      · exact hcode
      all_goals nofun
  | name note ref =>
    rw [code, code]
    exact .ofValue note (.liftThen rfl fun _ _ => .load hf hff _)
  | binary note op left right hl hr =>
    rw [code, code]
    split
    · exact .ofValue note (hl.push.then_ (hr.push.then_ (.applyArith _ _)))
    · exact .ofJump note fun h _ => hl.push.then_ (hr.push.then_ (.compareAndJump _ _ h _))
    · exact .ofJump note (jumpLogical_built _ hl hr)
  | unary note op operand h =>
    cases op with
    | not =>
      rw [code, code]
      exact .ofJump note fun hl _ => h.jump hl _
    | neg =>
      rw [code, code]
      refine .ofValue note ?_
      split
      · rename_i folded hfolded
        exact hconst fun _ hi => foldedNegation_refers none (hi ▸ hfolded)
      · refine h.push.then_ ?_
        split
        · exact .liftThen rfl fun _ _ => .instruction trivial rfl
        · exact .throw _
  | call note callee args target _ hargs =>
    cases target with
    | none =>
      rw [code, code]
      exact .ofValue note (.throw _)
    | some target =>
      cases target with
      | function id =>
        rw [code, code]
        exact .ofValue note (.callFunction hf hff _ (pushAll_built hargs))
      | constructor decl =>
        rw [code, code]
        exact .ofValue note (.callConstructor hf hff _ (pushAll_built hargs))
      | builtin builtin =>
        cases args with
        | nil =>
          rw [code, code]
          exact .ofValue note (.throw _)
        | cons arg args =>
          rw [code, code]
          exact .ofValue note (.callBuiltin _ _ (hargs _ mem_cons_self).push)
  | field note base field index h =>
    rw [code, code]
    exact .ofValue note (.liftThen rfl fun _ _ => .liftThen (hff.analysis.same.fieldRef _ _)
      fun _ href => h.push.then_ (.instruction (fieldRef_refers hf href) rfl))
  | index note base index hb hi =>
    rw [code, code]
    exact .ofValue note (.liftThen rfl fun _ _ => .liftThen (hff.analysis.same.arrayElem _)
      fun _ _ => hb.push.then_ (hi.push.then_ (.instruction trivial rfl)))
  | array note elems h =>
    rw [code, code]
    exact .ofValue note (.liftThen rfl fun _ _ => .liftThen (hff.analysis.same.jvmType _) fun _ _ =>
      .liftThen rfl fun _ _ => .liftThen rfl fun _ hi =>
      .then_ (.instruction (intConstant_refers none hi).1
        (intConstant_refers none hi (a := a)).2) <|
      .then_ (.instruction trivial rfl) (fillArray_built _ h 0))
  | newArray note elem length h =>
    rw [code, code]
    exact .ofValue note (.liftThen rfl fun _ _ => .liftThen (hff.analysis.same.jvmType _) fun _ _ =>
      h.push.then_ (.instruction trivial rfl))
  | cast note operand target h =>
    rw [code, code]
    refine .ofValue note (h.push.then_ ?_)
    split
    · exact .convert _ _
    · exact .throw _

end

namespace Emit.Built

theorem generateAssign {f' : Frame} (hf : a.SameButSlots f.analysis) (hff : f.Fills f')
    {target : Expr} (value : Expr) (hW : ∀ y ∈ target.sets, W y) :
    Built a W J (generateAssign f target value) (generateAssign f' target value) := by
  have hpush (e : Expr) : Built a W J (e.code f).push (e.code f').push := (e.code_built hf hff).push
  cases target with
  | name _ ref =>
    refine .liftThen rfl fun id hid => (hpush value).then_ (.store hf hff (hW _ ?_))
    unfold NameRef.symbol at hid
    split at hid <;> cases hid
    simp [Expr.sets, *]
  | index _ base position =>
    exact .liftThen rfl fun _ _ => .liftThen (hff.analysis.same.arrayElem _) fun _ _ =>
      (hpush base).then_ <| (hpush position).then_ <| (hpush value).then_ (.instruction trivial rfl)
  | field _ base _ position =>
    exact .liftThen rfl fun _ _ => .liftThen (hff.analysis.same.fieldRef _ _) fun _ href =>
      (hpush base).then_ <| (hpush value).then_ (.instruction (fieldRef_refers hf href) rfl)
  | _ => exact .throw _

theorem testRange (id : SymbolId) (kind : Kind) (slot bound : Nat) {done : LabelId}
    (hl : done ∈ J) :
    Built a W J (testRange id kind slot bound done) (testRange id kind slot bound done) := by
  refine then_ (.about rfl trivial rfl (.inl rfl)) <| then_ (.about rfl trivial rfl (.inl rfl)) ?_
  cases kind with
  | int => exact .branch trivial rfl hl
  | long => exact then_ (.instruction trivial rfl) (.branch trivial rfl hl)
  | _ => exact .throw _

theorem stepRange (kind : Kind) (slot : Nat) (hW : W (.symbol id)) :
    Built a W J (stepRange id kind slot) (stepRange id kind slot) := by
  unfold StackCompiler.stepRange
  split
  · exact .about rfl trivial rfl (.inr hW)
  · exact then_ (.about rfl trivial rfl (.inl rfl)) <| then_ (.instruction trivial rfl) <|
      then_ (.instruction trivial rfl) (.about rfl trivial rfl (.inr hW))

end Emit.Built

/-! ## Steps of making methods -/

/-- Built from writing code, taking slots and putting functions aside, with the analysis and the end
of the code in view; and the same with more slots. -/
inductive Generate.Built (a : Analysis) (W : Subject → Prop) :
    List LabelId → {α : Type} → Generate α → Generate α → Prop
  | pure {J : _} {α : Type} (c : α) : Built a W J (pure c : Generate α) (pure c)
  | throw {J : _} {α : Type} (e : GenerateError) :
      Built a W J (throw e : Generate α) (throw e)
  | compute {J : _} {α : Type} (x : Except GenerateError α) :
      Built a W J (Generate.compute x) (Generate.compute x)
  | ofEmit {J : _} {α : Type} {m m' : Emit α} (h : Emit.Built a W J m m') :
      Built a W J (Generate.ofEmit m) (Generate.ofEmit m')
  | withLabel {J : _} {α : Type} {k k' : LabelId → Generate α}
      (h : ∀ label, Built a W (label :: J) (k label) (k' label)) :
      Built a W J (Generate.ofEmit Emit.newLabel >>= k) (Generate.ofEmit Emit.newLabel >>= k')
  | isReachable {J : _} : Built a W J Generate.isReachable Generate.isReachable
  | allocate {J : _} (kind : Kind) :
      Built a W J (Generate.allocate kind) (Generate.allocate kind)
  | openSlots {J : _} : Built a W J Generate.openSlots Generate.openSlots
  | closeSlots {J : _} : Built a W J Generate.closeSlots Generate.closeSlots
  | assignSlot {J : _} (id : SymbolId) (slot : Nat) :
      Built a W J (Generate.assignSlot id slot) (Generate.assignSlot id slot)
  | defer {J : _} (f : FunctionDecl) : Built a W J (Generate.defer f) (Generate.defer f)
  | withAnalysis {J : _} {α : Type} {k : Analysis → Generate α}
      (h : ∀ a1 a2, a.SameButSlots a1 → a1.Fills a2 → Built a W J (k a1) (k a2)) :
      Built a W J (do k (← get).analysis) (do k (← get).analysis)
  | bind {J : _} {α β : Type} {m m' : Generate α} {k k' : α → Generate β}
      (hm : Built a W J m m') (hk : ∀ c, Built a W J (k c) (k' c)) :
        Built a W J (m >>= k) (m' >>= k')

/-- What steps of making a method leave as it is. -/
structure GenState.Follows (s s' : GenState) : Prop where
  code : s.code.Leads s'.code
  requests : s'.requests = s.requests
  methods : s'.methods = s.methods
  analysis : s.analysis.SameButSlots s'.analysis

theorem GenState.Follows.trans {s'' : GenState} (h : s.Follows s') (h' : s'.Follows s'') :
    s.Follows s'' :=
  ⟨h.code.trans h'.code, h'.requests.trans h.requests, h'.methods.trans h.methods,
    h.analysis.trans h'.analysis⟩

namespace Generate.Built

theorem then_ {k k' : Generate β} (hm : Built a W J m m') (hk : Built a W J k k') :
    Built a W J (do m; k) (do m'; k') := hm.bind fun _ => hk

theorem computeThen {k k' : α → Generate β} (hx : x' = x)
    (hk : ∀ c, x = .ok c → Built a W J (k c) (k' c)) :
    Built a W J (do k (← Generate.compute x)) (do k' (← Generate.compute x')) := by
  subst hx
  cases x' with
  | ok c => exact hk c rfl
  | error e => exact .throw e

/-- What holds of the buffers before and after code is written, and is kept by writing on. -/
structure Tracks (a : Analysis) (W : Subject → Prop)
    (R : List LabelId → CodeBuffer → CodeBuffer → Prop) : Prop where
  refl : ∀ J b, R J b b
  trans : ∀ {J b b' b''}, R J b b' → R J b' b'' → R J b b''
  emits : ∀ {J α} {m m' : Emit α} {b c b'}, Emit.Built a W J m m' → m b = .ok (c, b') → R J b b'
  withLabel : ∀ {J} {b b' : CodeBuffer},
    R (b.labels.size :: J) { b with labels := b.labels.push ⟨none, none⟩ } b' → R J b b'

theorem Tracks.of (h : Emit.Built.Tracks W R) :
    Tracks a W R := ⟨h.refl, h.trans, fun hm => hm.runs h, h.withLabel⟩

/-- **A run of what is built from steps writes code and gives slots, and changes nothing else.** -/
theorem runs (hR : Tracks a W R) {m m' : Generate α} (h : Built a W J m m')
    (hs : a.SameButSlots s.analysis) (hm : m s = .ok c s') :
    R J s.code s'.code ∧ s'.requests = s.requests ∧ s'.methods = s.methods ∧
      s.analysis.SameButSlots s'.analysis := by
  induction h generalizing s s' with
  | pure c =>
    obtain ⟨-, rfl⟩ := pure_eq_ok.mp hm
    exact ⟨hR.refl _ _, rfl, rfl, .refl _⟩
  | throw e => exact absurd hm throw_ne_ok
  | compute x =>
    obtain ⟨-, rfl⟩ := compute_eq_ok.mp hm
    exact ⟨hR.refl _ _, rfl, rfl, .refl _⟩
  | ofEmit h =>
    obtain ⟨code, hcode, rfl⟩ := ofEmit_eq_ok.mp hm
    exact ⟨hR.emits h hcode, rfl, rfl, .refl _⟩
  | withLabel _ ih =>
    obtain ⟨l, s1, h1, h2⟩ := bind_eq_ok.mp hm
    cases h1
    exact (ih _ (by exact hs) h2).imp_left hR.withLabel
  | isReachable | openSlots | defer =>
    cases hm
    exact ⟨hR.refl _ _, rfl, rfl, .refl _⟩
  | allocate | closeSlots =>
    simp only [Generate.allocate, Generate.closeSlots] at hm
    split at hm <;> cases hm
    exact ⟨hR.refl _ _, rfl, rfl, .refl _⟩
  | assignSlot id slot =>
    unfold Generate.assignSlot at hm
    split at hm <;> cases hm
    exact ⟨hR.refl _ _, rfl, rfl, assignSlot_sameButSlots ‹_›⟩
  | withAnalysis _ ih =>
    obtain ⟨t, s1, hget, hk⟩ := bind_eq_ok.mp hm
    obtain ⟨rfl, rfl⟩ := get_eq_ok.mp hget
    exact ih _ _ hs (.refl _) hs hk
  | bind _ _ ihm ihk =>
    obtain ⟨c, s1, h1, h2⟩ := bind_eq_ok.mp hm
    obtain ⟨hcode, hrequests, hmethods, hsame⟩ := ihm hs h1
    obtain ⟨hcode', hrequests', hmethods', hsame'⟩ := ihk c (hs.trans hsame) h2
    exact ⟨hR.trans hcode hcode', hrequests'.trans hrequests, hmethods'.trans hmethods,
      hsame.trans hsame'⟩

theorem follows {m m' : Generate α} (h : Built a W J m m') (hs : a.SameButSlots s.analysis)
    (hm : m s = .ok c s') : s.Follows s' :=
  have hrun := h.runs (.of .leads) hs hm
  ⟨hrun.1, hrun.2.1, hrun.2.2.1, hrun.2.2.2⟩

/-- Whatever is built from steps calls functions with their captured variables pushed in order. -/
theorem linked {m m' : Generate α} (h : Built a W J m m') (hs : a.SameButSlots s.analysis)
    (hm : m s = .ok c s') : s.code.Linked a → s'.code.Linked a :=
  (h.runs (R := fun _ b b' => b.Linked a → b'.Linked a) ⟨fun _ _ h => h, fun h h' hb => h' (h hb),
    fun h hm => h.linked hm, fun h hb => h ⟨hb.subjects, hb.refers, hb.pushed⟩⟩ hs hm).1

/-! ## Pieces of statements -/

theorem symbol (id : SymbolId) {k : Symbol → Generate α}
    (h : ∀ symbol symbol1 symbol2, a.symbols[id]? = some symbol → symbol.SameButSlot symbol1 →
      symbol1.SameButSlot symbol2 → Built a W J (k symbol1) (k symbol2)) :
    Built a W J (do k (← Generate.symbol id)) (do k (← Generate.symbol id)) :=
  withAnalysis (k := fun a => Generate.compute (a.symbol id) >>= k) fun a1 a2 ha hfills => by
    rcases hfills.symbol id with ⟨e, he, he'⟩ | ⟨symbol1, symbol2, hs, hs', hfills⟩
    · rw [he, he']
      exact .throw e
    · rw [hs, hs']
      obtain ⟨symbol, hx, hsame⟩ := ha.symbol_of (Analysis.symbol_eq_ok.mp hs)
      exact h symbol symbol1 symbol2 hx hsame hfills.toSameButSlot

theorem frame (head : FrameHead) {k : Frame → Generate α}
    (h : ∀ f f' : Frame, a.SameButSlots f.analysis → f.Fills f' → Built a W J (k f) (k f')) :
    Built a W J (do k (← Generate.frame head)) (do k (← Generate.frame head)) :=
  withAnalysis (k := fun a => k (Frame.mk a head.function head.captures)) fun _ _ ha hfills =>
    h _ _ ha ⟨hfills, rfl, rfl⟩

theorem push (head : FrameHead) (e : Expr) :
    Built a W J (Generate.push head e) (Generate.push head e) :=
  frame head fun _ _ hf hff => .ofEmit (e.code_built hf hff).push

theorem instruction (hi : a.Refers none i) (ht : i.target? = none) :
    Built a W J (Generate.instruction i) (Generate.instruction i) := .ofEmit (.instruction hi ht)

theorem about {x : Subject} (hx : x.isFunction = false) (hi : a.Refers (some x) i)
    (ht : i.target? = none) (hW : W x) : Built a W J (Generate.about x i) (Generate.about x i) :=
  .ofEmit (.about hx hi ht (.inr hW))

theorem analyzed (what : String) (name : Ident) {id : Option SymbolId}
    {k k' : SymbolId → Generate α} (h : ∀ x, id = some x → Built a W J (k x) (k' x)) :
    Built a W J (do k (← Generate.analyzed what name id))
      (do k' (← Generate.analyzed what name id)) := by
  cases id with
  | none => exact .throw _
  | some id => exact h id rfl

theorem newSlot (id : SymbolId) (kind : Kind) : Built a W J (newSlot id kind) (newSlot id kind) :=
  (Built.allocate kind).bind fun _ => (Built.assignSlot id _).then_ (.pure _)

theorem generateVar (head : FrameHead) {decl : VarDecl}
    (hW : ∀ id, decl.symbol = some id → W (.symbol id)) :
    Built a W J (generateVar head decl) (generateVar head decl) := by
  refine analyzed _ _ fun id hid => (push head _).then_ <| symbol id fun v v1 v2 hv h1 h2 => ?_
  have hfield (a : Analysis) : a.globalField v2 = a.globalField v1 :=
    (Analysis.SameButSlots.refl a).globalField h2
  simp only [h2.isGlobal, h2.ty, hfield]
  split
  · rename_i hglobal
    exact withAnalysis (k := fun a => Generate.compute (a.globalField v1) >>= fun field =>
      Generate.instruction (.putStatic field)) fun a1 a2 ha hfills =>
      computeThen (hfield _ ▸ hfills.same.globalField h2) fun field hfield => instruction
        (.inr ⟨id, v, hv, h1.isGlobal ▸ hglobal, ha.globalField h1 ▸ hfield⟩) rfl
  · exact (Built.compute _).bind fun _ => (newSlot _ _).bind fun _ =>
      about rfl trivial rfl (hW id hid)

theorem generateReturn (head : FrameHead) (value : Option Expr) :
    Built a W J (generateReturn head value) (generateReturn head value) := by
  cases value with
  | none => exact instruction trivial rfl
  | some value =>
    exact (push head value).then_ <| withAnalysis (k := fun a =>
      Generate.compute (a.function head.function) >>= fun info =>
        Generate.compute (kindOf info.ret) >>= fun kind =>
          Generate.instruction (.ret (some kind)))
      fun _ _ _ hfills => computeThen (hfills.same.function _) fun _ _ =>
        (Built.compute _).bind fun _ => instruction trivial rfl

theorem generateDiscarded (head : FrameHead) (e : Expr) :
    Built a W J (generateDiscarded head e) (generateDiscarded head e) := by
  refine (push head e).then_ ?_
  split
  · exact instruction trivial rfl
  · exact .pure _

theorem inScope (h : Built a W J m m') : Built a W J (Generate.inScope m) (Generate.inScope m') :=
  Built.openSlots.then_ <| h.then_ Built.closeSlots

theorem whenReachable (h : Built a W J m m') :
    Built a W J (Generate.whenReachable m) (Generate.whenReachable m') :=
  Built.isReachable.bind fun reachable => by
    cases reachable
    · exact .pure _
    · exact h

theorem jumpBy (head : FrameHead) (e : Expr) (hl : label ∈ J) (jumpIf : Bool) :
    Built a W J (Generate.jumpBy head e label jumpIf) (Generate.jumpBy head e label jumpIf) :=
  frame head fun _ _ hf hff => .ofEmit ((e.code_built hf hff).jump hl _)

theorem place (hl : label ∈ J) :
    Built a W J (Generate.ofEmit (Emit.bind label)) (Generate.ofEmit (Emit.bind label)) :=
  .ofEmit (.place hl)

theorem jump (hl : label ∈ J) :
    Built a W J (Generate.ofEmit (Emit.jump label)) (Generate.ofEmit (Emit.jump label)) :=
  .ofEmit (.jump hl)

theorem generateBranch (head : FrameHead) (cond : Expr) {yes : Generate Unit}
    (h : ∀ l, Built a W (l :: J) yes yes) :
    Built a W J (generateBranch head cond yes) (generateBranch head cond yes) :=
  withLabel fun l => (jumpBy head cond (.head _) _).then_ <| (inScope (h l)).then_ (place (.head _))

theorem generateChoice (head : FrameHead) (cond : Expr) {yes no : Generate Unit}
    (hy : ∀ l, Built a W (l :: J) yes yes) (hn : ∀ l l', Built a W (l :: l' :: J) no no) :
    Built a W J (generateChoice head cond yes no) (generateChoice head cond yes no) :=
  withLabel fun l => (jumpBy head cond (.head _) _).then_ <| (inScope (hy l)).then_ <|
    withLabel fun l' => (jump (.head _)).then_ <| (place (.tail _ (.head _))).then_ <|
    (inScope (hn l' l)).then_ (place (.head _))

theorem testLoop (head : FrameHead) (cond : Expr) {done : LabelId} (hl : done ∈ J) :
    Built a W J (testLoop head cond done) (testLoop head cond done) := by
  unfold StackCompiler.testLoop
  split
  · exact .pure _
  · exact jumpBy head cond hl _

theorem generateLoop (head : FrameHead) (cond : Expr)
    (h : ∀ done top, Built a W (done :: top :: J) (body ⟨done, top⟩) (body ⟨done, top⟩)) :
    Built a W J (generateLoop head cond body) (generateLoop head cond body) :=
  withLabel fun top => withLabel fun done => (place (.tail _ (.head _))).then_ <|
    (testLoop head cond (.head _)).then_ <| (inScope (h done top)).then_ <|
    (jump (.tail _ (.head _))).then_ (place (.head _))

theorem startRange (head : FrameHead) (kind : Kind) (first last : Expr)
    (hW : W (.symbol id) ∧ W (.bound id)) :
    Built a W J (startRange head id kind first last) (startRange head id kind first last) :=
  (push head first).then_ <| (newSlot _ _).bind fun _ => then_ (about rfl trivial rfl hW.1) <|
    (push head last).then_ <| (Built.allocate _).bind fun _ =>
    then_ (about rfl trivial rfl hW.2) (.pure _)

theorem repeatRange (kind : Kind) (slot bound : Nat) (hW : W (.symbol id))
    (h : ∀ done next top, Built a W (done :: next :: top :: J) (body ⟨done, next⟩)
      (body ⟨done, next⟩))
    : Built a W J (repeatRange id kind slot bound body) (repeatRange id kind slot bound body) :=
  withLabel fun top => withLabel fun next => withLabel fun done =>
    (place (.tail _ (.tail _ (.head _)))).then_ <|
    (Built.ofEmit (.testRange _ _ _ _ (.head _))).then_ <| (inScope (h done next top)).then_ <|
    (place (.tail _ (.head _))).then_ <| (Built.ofEmit (.stepRange _ _ hW)).then_ <|
    (jump (.tail _ (.tail _ (.head _)))).then_ (place (.head _))

theorem generateRange (head : FrameHead) {loopVar : LoopVar} (first last : Expr)
    (hW : ∀ id, loopVar.symbol = some id → W (.symbol id) ∧ W (.bound id))
    (h : ∀ done next top, Built a W (done :: next :: top :: J) (body ⟨done, next⟩)
      (body ⟨done, next⟩))
    :
    Built a W J (generateRange head loopVar first last body)
      (generateRange head loopVar first last body) :=
  analyzed _ _ fun id hid => symbol _ fun _ v1 v2 _ _ h2 => by
    rw [h2.ty]
    exact (Built.compute _).bind fun _ => inScope <| (startRange _ _ _ _ (hW id hid)).bind fun _ =>
      repeatRange _ _ _ (hW id hid).1 h

end Generate.Built

/-- The labels of a loop are among those to which code may jump. -/
def LoopLabels.Among (J : List LabelId) (loop : Option LoopLabels) : Prop :=
  ∀ labels, loop = some labels → labels.leave ∈ J ∧ labels.next ∈ J

theorem LoopLabels.Among.cons (h : Among J loop) (l : LabelId) : Among (l :: J) loop :=
  fun labels hl => (h labels hl).imp (.tail _) (.tail _)

theorem Stmt.generateList_built (head : FrameHead) (hloop : LoopLabels.Among J loop)
    {stmts : List Stmt} (hW : ∀ y ∈ Stmt.setsAll stmts, W y)
    (h : ∀ stmt ∈ stmts, ∀ {J loop}, (∀ y ∈ stmt.sets, W y) → LoopLabels.Among J loop →
      Built a W J (stmt.generate head loop) (stmt.generate head loop)) :
    Built a W J (Stmt.generateList head loop stmts) (Stmt.generateList head loop stmts) := by
  induction stmts with
  | nil => exact .pure _
  | cons stmt rest ih =>
    obtain ⟨hstmt, hW⟩ := forall_mem_append.mp hW
    have hrest := ih hW fun stmt' h' => h stmt' (mem_cons_of_mem _ h')
    cases stmt with
    | function declHead body => exact (Built.defer _).then_ hrest
    | _ => exact (Built.whenReachable (h _ mem_cons_self hstmt hloop)).then_ hrest

/-- **The code of a statement is built from steps of writing.** -/
theorem Stmt.generate_built (head : FrameHead) {stmt : Stmt} (hW : ∀ y ∈ stmt.sets, W y)
    (hloop : LoopLabels.Among J loop) :
    Built a W J (stmt.generate head loop) (stmt.generate head loop) := by
  have hinner (done next : LabelId) (J : List LabelId) (hnext : next ∈ J) :
      LoopLabels.Among (done :: J) (some ⟨done, next⟩) := by
    rintro _ ⟨⟩
    exact ⟨.head _, .tail _ hnext⟩
  induction stmt generalizing J loop with
  | var decl => exact .generateVar head fun id hid => hW _ (by simp [Stmt.sets, hid])
  | function declHead body _ => exact .defer _
  | block _ body ih => exact .inScope (Stmt.generateList_built head hloop hW fun s hs => ih s hs)
  | branch _ cond yes no ihyes ihno =>
    cases no with
    | none => exact .generateBranch head cond fun l => ihyes hW (hloop.cons l)
    | some no =>
      obtain ⟨hyes, hno⟩ := forall_mem_append.mp hW
      exact .generateChoice head cond (fun l => ihyes hyes (hloop.cons l))
        fun l l' => ihno no rfl hno ((hloop.cons l').cons l)
  | loop _ cond body ih =>
    exact .generateLoop head cond fun done top => ih hW (hinner done top _ (.head _))
  | range _ loopVar first last body ih =>
    obtain ⟨hvar, hbody⟩ := forall_mem_append.mp hW
    exact .generateRange head first last (fun id hid => by simpa [hid] using hvar)
      fun done next top => ih hbody (hinner done next _ (.head _))
  | ret _ value => exact .generateReturn head value
  | leave _ | next _ =>
    cases loop with
    | none => exact .throw _
    | some labels => first | exact .jump (hloop labels rfl).1 | exact .jump (hloop labels rfl).2
  | assign _ target value =>
    exact .frame head fun _ _ hf hff => .ofEmit (.generateAssign hf hff value hW)
  | expr value => exact .generateDiscarded head value

theorem Stmt.generateBody_built (head : FrameHead) (body : List Stmt) :
    Built a (fun _ => True) [] (Stmt.generateList head none body)
      (Stmt.generateList head none body) := by
  refine Stmt.generateList_built head ?_ (fun _ _ => trivial)
    fun stmt _ _ _ hW hloop => stmt.generate_built head hW hloop
  rintro _ ⟨⟩

end StackCompiler

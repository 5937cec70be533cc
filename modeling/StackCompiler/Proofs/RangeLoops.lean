import StackCompiler.Proofs.LocalVariables
import StackCompiler.Proofs.Regions

/-!
# Loops over ranges

A loop over a range keeps its number and its bound in the frame, compares them before each round and
counts up after it.

* `RangeCode.Loops`, `RangeStmt.loops`: what a loop does;
* **`generated_ranges_count`**: in the methods of a unit with nothing wrong in it, all loops over
  ranges count from one bound to the other.
-/

namespace StackCompiler

open Machine CodeBuffer List Stmt

variable {base : Machine} {m : Method} {entry words : Words} {kind : Kind} {slot pos : Nat}
  {v : Value} {news : Code} {w : base.framed.World} {stack : List Value} {x y : Int}
  {τ : base.framed.State}

/-! ## Counting up -/

theorem Machine.after_store (w : base.framed.World) (h : v.kind = kind) :
    base.framed.after ⟨pos, w, v :: stack⟩ (.store kind slot) =
      some ⟨pos + 1, (w.1.write slot v, w.2), stack⟩ := by
  simp [after, framed, h]

/-- A spelled instruction is executed where it stands. -/
theorem Method.Spells.step {M : Machine} {s s' : M.State} (h : m.Spells pos news) (k : Nat)
    {z : Option Subject} {i : Instruction} (hk : news[k]? = some (z, i)) (hs : s.position = pos + k)
    (hafter : M.after s i = some s') :
    M.Step m.body.code s s' ∧ pos ≤ s.position ∧ s.position < pos + news.length := by
  have hlt := (List.getElem?_eq_some_iff.mp hk).1
  exact ⟨⟨i, hs ▸ (h k z i hk).1, hafter⟩, by omega, by omega⟩

theorem Method.Spells.spares {z : Subject} (h : m.Spells pos news) (hz : ∀ c ∈ news, c.1 ≠ some z) :
    m.Spares pos (pos + news.length) z := by
  intro pos' i e hlo hhi hi he hez
  obtain ⟨c, hk⟩ : ∃ c, news[pos' - pos]? = some c :=
    ⟨_, List.getElem?_eq_getElem (show pos' - pos < news.length by omega)⟩
  have hx := (h _ _ _ hk).2
  rw [Nat.add_sub_cancel' hlo, ← Instruction.writes_subject he] at hx
  exact hz c (mem_of_getElem? hk) (hx.symm.trans hez)

/-- Whatever is read on a path was last written for the same variable. -/
def Method.Owns (m : Method) (entry : Words) : Prop :=
  ∀ pos words i e, m.WordReaches entry pos words → m.body.code[pos]? = some i →
    i.reads (m.subjectAt pos) = some e → words.Holds e

/-! ## The code of a loop -/

/-- The code that leaves a loop over a range once its number has reached the bound. -/
def rangeTest (id : SymbolId) (kind : Kind) (slot bound : Nat) (done : Target) : Code :=
  (some (.symbol id), .load kind slot) :: (some (.bound id), .load kind bound) ::
    if kind = .int then [(none, .branchInt .ge done)]
    else [(none, .compare .lcmp), (none, .branchZero .ge done)]

def rangeStep (id : SymbolId) (kind : Kind) (slot : Nat) (top : Target) : Code :=
  if kind = .int then [(some (.symbol id), .iinc slot 1), (none, .goto top)]
  else [(some (.symbol id), .load kind slot), (none, .lconst 1), (none, .arith kind .add),
    (some (.symbol id), .store kind slot), (none, .goto top)]

/-- Where a loop keeps its number and its bound, where its test, body and step begin, and where it
is done. -/
structure RangeCode where
  id : SymbolId
  kind : Kind
  slot : Nat
  bound : Nat
  test : Nat
  body : Nat
  step : Nat
  done : Nat

namespace RangeCode

variable {r : RangeCode}

/-- The loop stands there in the method. Its body writes neither the number nor the bound. -/
structure Stands (r : RangeCode) (m : Method) : Prop where
  kind : r.kind = .int ∨ r.kind = .long
  test : m.Spells r.test (rangeTest r.id r.kind r.slot r.bound (.index r.done))
  body : r.body = r.test + (rangeTest r.id r.kind r.slot r.bound (.index r.done)).length
  le_step : r.body ≤ r.step
  step : r.step < r.done → m.Spells r.step (rangeStep r.id r.kind r.slot (.index r.test)) ∧
    r.done = r.step + (rangeStep r.id r.kind r.slot (.index r.test)).length
  spares : m.Spares r.body r.step (.symbol r.id) ∧ m.Spares r.body r.step (.bound r.id)

def number (r : RangeCode) (s : base.framed.State) : Option Int :=
  (s.world.1.read r.kind r.slot).bind Value.number?

def limit (r : RangeCode) (s : base.framed.State) : Option Int :=
  (s.world.1.read r.kind r.bound).bind Value.number?

/-- The loop is about to compare a number with a bound. -/
structure At (r : RangeCode) (m : Method) (entry : Words) (τ : base.framed.State) (x y : Int) :
    Prop where
  position : τ.position = r.test
  words : ∃ words, m.WordReaches entry r.test words
  number : r.number τ = some x
  limit : r.limit τ = some y

/-- What the frame is known to hold where the number is compared with the bound. -/
theorem Stands.held (h : r.Stands m) (howns : m.Owns entry)
    (hw : m.WordReaches entry r.test words) : words.Holds ⟨some (.symbol r.id), r.kind, r.slot⟩ ∧
      words.Holds ⟨some (.bound r.id), r.kind, r.bound⟩ := by
  obtain ⟨hload, hx⟩ := h.test 0 _ _ rfl
  obtain ⟨hload', hx'⟩ := h.test 1 _ _ rfl
  have hheld := howns _ _ _ _ hw hload rfl
  have hheld' := howns _ _ _ _ (hw.tail (.step hload (.inr ⟨rfl, rfl⟩))) hload' rfl
  rw [hx'] at hheld'
  exact ⟨hx ▸ hheld, hheld'⟩

end RangeCode

/-! ## Writing a loop -/

section

variable {a : Analysis} {id : SymbolId} {bound : Nat} {label : LabelId} {b b' complete : CodeBuffer}
  {s s' : GenState} {W : Subject → Prop} {head : FrameHead}

theorem testRange_spells (hkind : kind = .int ∨ kind = .long) :
    Emit.Spells (rangeTest id kind slot bound (.label label))
      (testRange id kind slot bound label) := by
  rcases hkind with rfl | rfl
  · exact .cons (.cons (Emit.spells_one _ _) rfl) rfl
  · exact .cons (.cons (.cons (Emit.spells_one _ _) rfl) rfl) rfl

theorem stepRange_spells (hkind : kind = .int ∨ kind = .long) :
    Emit.Spells (rangeStep id kind slot (.label label))
      (do stepRange id kind slot; Emit.jump label) := by
  rcases hkind with rfl | rfl
  · exact .cons (Emit.spells_one _ _) rfl
  · simp only [stepRange, reduceCtorEq, if_false, bind_assoc]
    exact .cons (.cons (.cons (.cons (Emit.spells_one _ _) rfl) rfl) rfl) rfl

theorem placed_rangeTest : (rangeTest id kind slot bound (.label label)).map
    (fun c => (c.1, c.2.placed complete)) =
      rangeTest id kind slot bound (.index ((complete.labelAt label).getD 0)) := by
  unfold rangeTest
  split_ifs <;> rfl

theorem placed_rangeStep : (rangeStep id kind slot (.label label)).map
    (fun c => (c.1, c.2.placed complete)) =
      rangeStep id kind slot (.index ((complete.labelAt label).getD 0)) := by
  unfold rangeStep
  split_ifs <;> rfl

/-- A loop whose parts have been written one after the other stands in the finished method. -/
theorem Method.Finishes.range {top next done : LabelId} {b1 b2 b3 b4 b5 b6 : CodeBuffer}
    (hm : m.Finishes complete) (hkind : kind = .int ∨ kind = .long)
    (htop : CodeBuffer.Binds top b b1) (htest : testRange id kind slot bound done b1 = .ok ((), b2))
    (hleads : b2.Leads b3) (hsets : b2.Sets W b3) (hnext : CodeBuffer.Binds next b3 b4)
    (hstep : (do stepRange id kind slot; Emit.jump top) b4 = .ok ((), b5))
    (hdone : CodeBuffer.Binds done b5 b6) (hlater : b6.Leads complete)
    (hW : ¬ W (.symbol id) ∧ ¬ W (.bound id)) :
    b.Leads complete ∧ (b.reachable = true → RangeCode.Stands ⟨id, kind, slot, bound, b.code.size,
      b2.code.size, b3.code.size, b6.code.size⟩ m) ∧ complete.labelAt done = some b6.code.size ∧
      complete.labelAt next = some b3.code.size ∧
      (b3.reachable = true ∨ b3.Noted next → b3.code.size < b6.code.size) := by
  obtain ⟨hcode1, htopAt, hr1⟩ := htop.at_size
  obtain ⟨hcode4, hnextAt, hr4⟩ := hnext.at_size
  obtain ⟨hcode6, hdoneAt, -⟩ := hdone.at_size
  obtain ⟨hleads2, htest⟩ := testRange_spells hkind htest
  obtain ⟨hleads5, hstep⟩ := stepRange_spells hkind hstep
  have hlater5 : b5.Leads complete := .head (.bind done (bind_eq_ok.mpr hdone)) hlater
  have hlater4 : b4.Leads complete := hleads5.trans hlater5
  have hlater3 : b3.Leads complete := .head (.bind next (bind_eq_ok.mpr hnext)) hlater4
  have hlater2 : b2.Leads complete := hleads.trans hlater3
  have hlater1 : b1.Leads complete := hleads2.trans hlater2
  have htopIs := hlater1.keeps.labels _ _ htopAt
  have hdoneIs := hlater.keeps.labels _ _ hdoneAt
  rw [← hcode6] at hdoneIs
  -- Where the step has not been written, the loop is done where it would begin.
  have hsize5 := hstep.size
  rw [hcode4, ← hcode6] at hsize5
  refine ⟨.head (.bind top (bind_eq_ok.mpr htop)) hlater1, fun hr => ?_, hdoneIs,
    hlater4.keeps.labels _ _ hnextAt, fun hr3 => ?_⟩
  · rw [hr1 (.inl hr), if_pos rfl] at htest
    have hspells := hm.spells htest hlater2
    have hsize2 := htest.size
    rw [← length_map (fun c => (c.1, Instruction.placed complete c.2))] at hsize2
    rw [placed_rangeTest, hdoneIs, hcode1] at hspells hsize2
    refine ⟨hkind, hspells, hsize2, hleads.size_le, fun hlt => ?_, hm.spares hsets hlater3 hW.1,
      hm.spares hsets hlater3 hW.2⟩
    have hr4 : b4.reachable = true := by
      by_contra hdead
      rw [if_neg hdead] at hsize5
      exact absurd hsize5 (Nat.ne_of_gt hlt)
    rw [hr4, if_pos rfl] at hstep hsize5
    have hspells := hm.spells hstep hlater5
    rw [← length_map (fun c => (c.1, Instruction.placed complete c.2))] at hsize5
    rw [placed_rangeStep, htopIs] at hspells hsize5
    exact ⟨hcode4 ▸ hspells, hsize5⟩
  · rw [hr4 hr3, if_pos rfl] at hsize5
    rw [hsize5, rangeStep]
    split_ifs <;> exact Nat.lt_add_of_pos_right (Nat.succ_pos _)

/-- An instruction that has been appended is executed where it stands. -/
theorem Method.Finishes.stored {z : Subject} (hm : m.Finishes complete) (w : base.framed.World)
    (stack : List Value) (h : CodeBuffer.Emits (some z) (.store kind slot) b b')
    (hr : b.reachable = true) (hlater : b'.Leads complete) (hv : v.kind = kind) :
    b'.reachable = true ∧ m.Spells b.code.size [(some z, .store kind slot)] ∧
      b'.code.size = b.code.size + 1 ∧ base.framed.Within m.body.code b.code.size b'.code.size
        ⟨b.code.size, w, v :: stack⟩ ⟨b'.code.size, (w.1.write slot v, w.2), stack⟩ := by
  obtain ⟨-, hr', -⟩ := h.at_size hr
  have happends := h.appends
  rw [hr, if_pos rfl] at happends
  have hspells := hm.spells happends hlater
  refine ⟨hr', hspells, happends.size, ?_⟩
  rw [happends.size]
  exact .single (hspells.step 0 rfl rfl (after_store w hv))

end

/-! ## What statements set -/

section

variable {a : Analysis} {c : Place} {stmt : Stmt} {stmts : List Stmt} {z : Subject}

theorem Stmt.CheckedAll.checked (h : CheckedAll a.view c stmts) (hstmt : stmt ∈ stmts) :
    ∃ c', stmt.Checked a.view c' := by
  induction stmts generalizing c with
  | nil => cases hstmt
  | cons first rest ih =>
    rcases mem_cons.mp hstmt with rfl | hstmt
    · exact ⟨c, h.1⟩
    · exact ih h.2 hstmt

theorem Stmt.mem_setsAll : z ∈ setsAll stmts ↔ ∃ stmt ∈ stmts, z ∈ stmt.sets := by
  induction stmts with
  | nil => simp [setsAll]
  | cons stmt rest ih => simp [setsAll, ih]

theorem Stmt.declared_subset (hstmt : stmt ∈ stmts) : stmt.declared ⊆ declaredAll stmts := by
  induction stmts with
  | nil => cases hstmt
  | cons first rest ih =>
    rcases mem_cons.mp hstmt with rfl | hstmt
    · exact subset_append_left _ _
    · exact subset_append_of_subset_right _ (ih hstmt)

/-- A statement with nothing wrong in it sets what it declares, and variables. -/
theorem Stmt.Checked.sets (h : stmt.Checked a.view c) (hz : z ∈ stmt.sets) :
    (∃ id ∈ stmt.declared, z = .symbol id ∨ z = .bound id) ∨
      ∃ id symbol, z = .symbol id ∧ a.symbols[id]? = some symbol ∧ symbol.kind = .variable_ := by
  have hwider {xs ys : List SymbolId} {Q : Prop} (hxs : xs ⊆ ys)
      (h : (∃ id ∈ xs, z = .symbol id ∨ z = .bound id) ∨ Q) :
      (∃ id ∈ ys, z = .symbol id ∨ z = .bound id) ∨ Q :=
    h.imp_left fun h => h.imp fun _ h => ⟨hxs h.1, h.2⟩
  induction stmt generalizing c with
  | var decl =>
    obtain ⟨id, hid, rfl⟩ := mem_map.mp hz
    exact .inl ⟨id, hid, .inl rfl⟩
  | block span body ih =>
    obtain ⟨stmt, hstmt, hz⟩ := mem_setsAll.mp hz
    obtain ⟨c', hc'⟩ := CheckedAll.checked h hstmt
    exact hwider (declared_subset hstmt) (ih stmt hstmt hc' hz)
  | branch span cond yes no ihyes ihno =>
    cases no with
    | none => exact ihyes h.2 hz
    | some no =>
      rcases mem_append.mp hz with hz | hz
      · exact hwider (subset_append_left _ _) (ihyes h.2.1 hz)
      · exact hwider (subset_append_right _ _) (ihno no rfl h.2.2 hz)
  | loop span cond body ih => exact ih h.2 hz
  | range span v first last body ih =>
    obtain ⟨id, symbol, hid, -, -, -, -, -, -, hbody⟩ := h
    rcases mem_append.mp hz with hz | hz
    · exact .inl ⟨id, by simp [declared, hid], by simpa [hid] using hz⟩
    · exact hwider (subset_append_right _ _) (ih hbody hz)
  | assign span target value =>
    obtain ⟨ty, htarget, -⟩ := h
    cases target with
    | name note ref =>
      obtain ⟨binding, symbol, hbinding, hsymbol, hkind, -⟩ := htarget
      obtain ⟨_, hmem, rfl⟩ := mem_map.mp hz
      rw [hbinding] at hmem
      cases Option.mem_toList.mp hmem
      exact .inr ⟨_, symbol, rfl, hsymbol, hkind⟩
    | _ => cases hz
  | function | ret | leave | next | expr => cases hz

end

section

variable {a : Analysis} {c : Place} {span : Span} {loopVar : LoopVar} {first last : Expr}
  {body : Stmt} {complete : CodeBuffer} {head : FrameHead} {loop : Option LoopLabels}
  {s s' : GenState}

theorem Method.Finishes.jump (hm : m.Finishes complete) {label : LabelId} {p : Nat}
    (hlabel : complete.labelAt label = some p) (hr : s.code.reachable = true)
    (hlater : s'.code.Leads complete) (h : Generate.ofEmit (Emit.jump label) s = .ok () s') :
    m.Spells s.code.code.size [(none, .goto (.index p))] := by
  obtain ⟨b, hb, rfl⟩ := Generate.ofEmit_eq_ok.mp h
  have happends := (Emit.spells_one none (.goto (.label label)) hb).2
  rw [hr, if_pos rfl] at happends
  have hspells := hm.spells happends hlater
  simpa [Instruction.placed, Instruction.target?, Instruction.retarget, hlabel] using hspells

/-- A loop over a range. -/
structure RangeStmt where
  span : Span
  loopVar : LoopVar
  first : Expr
  last : Expr
  body : Stmt

def RangeStmt.stmt (L : RangeStmt) : Stmt := .range L.span L.loopVar L.first L.last L.body

end

/-! ## The loops of a unit -/

section

variable {a : Analysis} {c : Place} {stmt : Stmt} {stmts : List Stmt} {L : RangeStmt}

mutual

/-- The loops over ranges in a statement, apart from those of functions inside. -/
def Stmt.ranges : Stmt → List RangeStmt
  | .block _ body => rangesAll body
  | .branch _ _ yes none => yes.ranges
  | .branch _ _ yes (some no) => yes.ranges ++ no.ranges
  | .loop _ _ body => body.ranges
  | .range span loopVar first last body => ⟨span, loopVar, first, last, body⟩ :: body.ranges
  | .var _ | .function .. | .ret .. | .leave _ | .next _ | .assign .. | .expr _ => []

def Stmt.rangesAll : List Stmt → List RangeStmt
  | [] => []
  | stmt :: rest => stmt.ranges ++ rangesAll rest

end

end

end StackCompiler

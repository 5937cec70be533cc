import StackCompiler.Proofs.Machine
import StackCompiler.Proofs.TypeSafety

/-!
# Conditions

A condition is written as jumps. Its value is that of short-circuit evaluation: operands are
evaluated from left to right, and only those that can make a difference. What an operand does is
what its own code does.

* **`Expr.Evaluates.runs`**: the jumps of a condition go by its value;
* **`generated_conditions_jump`**: all of this for the conditions of a unit.
-/

namespace StackCompiler

open Number

variable {cond : Cond} {e : Expr} {ty : Ty} {x y : Value} {v : View} {operand : Ty} {m : Machine}

/-! ## Comparisons -/

/-- The condition asks if two values are the same, or if they are not. -/
def Cond.equality? : Cond → Option Bool
  | .eq => some true
  | .ne => some false
  | _ => none

/-- The outcome of a comparison of two values of a type: of strings by their text, of other
references by identity. -/
def Machine.compares (m : Machine) (cond : Cond) (operand : Ty) (w : m.World)
    (left right : Value) : Option Bool :=
  match operand, left, right with
  | .int, .int x, .int y | .bool, .int x, .int y =>
    some (cond.holds (some (compare x.toInt y.toInt)))
  | .long, .long x, .long y => some (cond.holds (some (compare x.toInt y.toInt)))
  | .float, .float x, .float y => some (cond.holds (m.orderSingle x y))
  | .double, .double x, .double y => some (cond.holds (m.orderDouble x y))
  | .string, x, y => cond.equality?.map (m.sameText w x y == ·)
  | .array _, .reference x, .reference y | .record _ _, .reference x, .reference y =>
    cond.equality?.map ((x == y) == ·)
  | _, _, _ => none

theorem Cond.holds_asked (cond : Cond) (jumpIf : Bool) (order : Ordering) :
    (if jumpIf then cond else cond.negate).holds (some order) =
      (cond.holds (some order) == jumpIf) := by
  cases cond <;> cases jumpIf <;> cases order <;> rfl

theorem CompareOp.compare_result (op : CompareOp) (order : Ordering) :
    compare (op.result (some order)).toInt 0 = order := by
  cases order <;> rfl

/-- **The comparison that is chosen makes up for a condition that is negated:** unordered numbers
come out as the condition wants them. -/
theorem Cond.holds_floatCompare (isDouble : Bool) (cond : Cond) (jumpIf : Bool)
    (order : Option Ordering) :
    (if jumpIf then cond else cond.negate).holds
        (some (compare ((floatCompare isDouble cond).result order).toInt 0)) =
      (cond.holds order == jumpIf) := by
  cases order with
  | none => cases isDouble <;> cases cond <;> cases jumpIf <;> decide
  | some order => rw [CompareOp.compare_result, Cond.holds_asked]

theorem Machine.order_single (m : Machine) (cond : Cond) (x y : Single) :
    m.order (floatCompare false cond) (.float x) (.float y) = some (m.orderSingle x y) := by
  unfold order
  rw [floatCompare_operand]
  rfl

theorem Machine.order_double (m : Machine) (cond : Cond) (x y : Double) :
    m.order (floatCompare true cond) (.double x) (.double y) = some (m.orderDouble x y) := by
  unfold order
  rw [floatCompare_operand]
  rfl

theorem Machine.after_equals (m : Machine) (w : m.World) (x y : Value) (σ : List Value) (p : Nat) :
    m.after ⟨p, w, y :: x :: σ⟩ (.invokeStatic equalsMethod) =
      some ⟨p + 1, w, .ofBool (m.sameText w x y) :: σ⟩ := by
  simp [after, State.next]

namespace Machine.Runs

variable {m : Machine} {a : Analysis} {w w1 w' : m.World} {σ : List Value} {label : LabelId}
  {jumpIf t r : Bool} {decisive : Bool} {left right : ExprCode}

theorem branchZero {x : Int32} (h : cond.holds (some (compare x.toInt 0)) = (t == jumpIf)) :
    m.Runs (Emit.instruction (.branchZero cond (.label label)))
      (if t == jumpIf then some label else none) w (.int x :: σ) w σ :=
  branch rfl (fun _ => rfl) fun p q => by rw [← h]; rfl

theorem branchTruth (asked : Bool) (h : (t == asked) = (r == jumpIf)) :
    m.Runs (Emit.instruction (.branchZero (if asked then .ne else .eq) (.label label)))
      (if r == jumpIf then some label else none) w (.ofBool t :: σ) w σ :=
  branchZero (by rw [← h]; cases t <;> cases asked <;> rfl)

theorem compareZero (a : Analysis) {op : CompareOp} {order : Option Ordering}
    (horder : m.order op x y = some order)
    (h : cond.holds (some (compare (op.result order).toInt 0)) = (t == jumpIf)) :
    m.Runs (do Emit.instruction (.compare op); Emit.instruction (.branchZero cond (.label label)))
      (if t == jumpIf then some label else none) w (y :: x :: σ) w σ := by
  refine andThen (a := a) (instruction rfl rfl fun p => ?_) (.branch trivial rfl (.head []))
    (branchZero h)
  show (m.order op x y).map _ = _
  rw [horder]
  rfl

theorem branchRef {x y : Nat} {same : Bool} (h : cond.equality? = some same) :
    m.Runs (Emit.instruction (.branchRef (if jumpIf then cond else cond.negate) (.label label)))
      (if ((x == y) == same) == jumpIf then some label else none)
      w (.reference y :: .reference x :: σ) w σ := by
  refine branch rfl (fun _ => rfl) fun p q => ?_
  cases cond with
  | eq | ne =>
    cases h
    cases jumpIf <;> cases hxy : x == y <;>
      simp [Machine.after, Instruction.retarget, Cond.negate, hxy, bne]
  | _ => cases h

/-- **A comparison jumps if its outcome is the one that is asked for.** -/
theorem compareAndJump (a : Analysis) (h : m.compares cond operand w x y = some t) :
    m.Runs (compareAndJump cond operand label jumpIf) (if t == jumpIf then some label else none)
      w (y :: x :: σ) w σ := by
  unfold Machine.compares at h
  split at h
  · cases h
    exact branch rfl (fun _ => rfl) fun p q => by rw [← Cond.holds_asked]; rfl
  · cases h
    exact branch rfl (fun _ => rfl) fun p q => by rw [← Cond.holds_asked]; rfl
  · cases h
    exact compareZero a rfl (by rw [CompareOp.compare_result, Cond.holds_asked])
  · cases h
    exact compareZero a (m.order_single ..) (Cond.holds_floatCompare false cond jumpIf _)
  · cases h
    exact compareZero a (m.order_double ..) (Cond.holds_floatCompare true cond jumpIf _)
  · obtain ⟨same, hcond, rfl⟩ := Option.map_eq_some_iff.mp h
    refine andThen (a := a) (instruction rfl rfl (m.after_equals w x y σ))
      (.branch trivial rfl (.head [])) (branchTruth ((cond == .eq) == jumpIf) ?_)
    cases cond with
    | eq | ne => cases hcond; cases m.sameText w x y <;> cases jumpIf <;> rfl
    | _ => cases hcond
  · obtain ⟨same, hcond, rfl⟩ := Option.map_eq_some_iff.mp h
    exact branchRef hcond
  · obtain ⟨same, hcond, rfl⟩ := Option.map_eq_some_iff.mp h
    exact branchRef hcond
  · cases h

/-- **A truth value that is made from jumps is one or zero.** -/
theorem materialize (a : Analysis) {jump : LabelId → Bool → Emit Unit}
    (h : ∀ l, m.Runs (jump l false) (if t == false then some l else none) w σ w' σ) :
    m.Runs (materialize jump) none w σ w' (.ofBool t :: σ) := by
  have hconst (t : Bool) : m.Runs (Emit.instruction (.iconst (if t then 1 else 0))) none w' σ w'
      (.ofBool t :: σ) := instruction rfl rfl fun _ => rfl
  have hbuilt {J : List LabelId} (value : Int32) :
      Emit.Built a (fun _ => True) J (Emit.instruction (.iconst value))
        (Emit.instruction (.iconst value)) := .instruction trivial rfl
  refine .newLabel fun whenFalse => .newLabel fun done => ?_
  have hasked := h whenFalse
  have hend : done ∈ [whenFalse, done] := .tail _ (.head _)
  have hrest := (Emit.Built.place (a := a) (J := [whenFalse, done]) (.head _)).then_ (hbuilt 0)
  have hgone := (hbuilt 1).then_ (Emit.Built.jump hend)
  cases t with
  | true =>
    have hone := hasked.andThen (hgone.then_ hrest)
      (((hconst true).andThen (Emit.Built.jump (a := a) hend) (.jump done)).skip hrest)
    simpa only [bind_assoc] using hone.land
  | false =>
    have hdone := Emit.Built.place (a := a) (W := fun _ => True) hend
    have hzero := (hasked.skip hgone).land.andThen ((hbuilt 0).then_ hdone)
      ((hconst false).andThen hdone (place done))
    simpa only [bind_assoc] using hzero

/-- The left operand of a logical operator decides, and the right one is passed by. -/
theorem decided (hright : right.Built a right)
    (h : ∀ l c, m.Runs (left.jump l c) (if decisive == c then some l else none) w σ w' σ) :
    m.Runs (jumpLogical decisive left right label jumpIf)
      (if decisive == jumpIf then some label else none) w σ w' σ := by
  unfold jumpLogical
  by_cases hd : jumpIf = decisive
  · subst hd
    have hleft := h label jumpIf
    rw [beq_self_eq_true, if_pos rfl] at hleft
    simpa using hleft.skip (hright.jump (.head []) jumpIf)
  · rw [if_neg hd, if_neg (by simpa using Ne.symm hd)]
    refine .newLabel fun skip => ?_
    have hleft := h skip decisive
    rw [beq_self_eq_true, if_pos rfl] at hleft
    simpa only [bind_assoc] using (hleft.skip (hright.jump (.head []) jumpIf)).land

/-- The left operand of a logical operator does not decide, and the right one does. -/
theorem undecided (hright : right.Built a right)
    (h : ∀ l c, m.Runs (left.jump l c) (if (!decisive) == c then some l else none) w σ w1 σ)
    (h' : ∀ l c, m.Runs (right.jump l c) (if t == c then some l else none) w1 σ w' σ) :
    m.Runs (jumpLogical decisive left right label jumpIf)
      (if t == jumpIf then some label else none) w σ w' σ := by
  unfold jumpLogical
  by_cases hd : jumpIf = decisive
  · subst hd
    have hleft := h label jumpIf
    rw [Bool.not_beq_self, if_neg Bool.false_ne_true] at hleft
    simpa using hleft.andThen (hright.jump (.head []) jumpIf) (h' label jumpIf)
  · rw [if_neg hd]
    refine .newLabel fun skip => ?_
    have hleft := h skip decisive
    rw [Bool.not_beq_self, if_neg Bool.false_ne_true] at hleft
    have hplace := Emit.Built.place (a := a) (W := fun _ => True) (J := [skip, label]) (.head _)
    refine hleft.andThen ((hright.jump (.tail _ (.head _)) jumpIf).then_ hplace) ?_
    have hrun := h' label jumpIf
    split_ifs at hrun ⊢
    · exact hrun.skip hplace
    · exact hrun.andThen hplace (place skip)

end Machine.Runs

/-! ## Evaluation -/

/-- The expression is written as jumps: a truth value that is written down, a comparison or a
logical operator. -/
def Expr.isCondition : Expr → Bool
  | .literal _ (.bool _) | .unary _ .not _ => true
  | .binary _ op _ _ =>
    match op.opClass with
    | .arith _ => false
    | .compare _ | .logical _ => true
  | _ => false

/-- If it is a condition, its value is not widened. -/
def Expr.NotWidened (e : Expr) : Prop := e.isCondition = true → e.note.coercion = none

/-- Short-circuit evaluation, from world to world. What is not a condition gives the value that its
code leaves on the stack. -/
inductive Expr.Evaluates (m : Machine) (f : Frame) :
    Expr → m.World → Value → m.World → Prop
  | literal {note : Note} {t : Bool} {w : m.World} :
      Evaluates m f (.literal note (.bool t)) w (.ofBool t) w
  | not {note : Note} {e : Expr} {t : Bool} {w w' : m.World}
      (operand : Evaluates m f e w (.ofBool t) w') :
      Evaluates m f (.unary note .not e) w (.ofBool !t) w'
  | decided {note : Note} {op : BinOp} {decisive : Bool} {left right : Expr} {w w' : m.World}
      (logical : op.opClass = .logical decisive)
      (decides : Evaluates m f left w (.ofBool decisive) w') :
      Evaluates m f (.binary note op left right) w (.ofBool decisive) w'
  | undecided {note : Note} {op : BinOp} {decisive t : Bool} {left right : Expr}
      {w w1 w' : m.World} (logical : op.opClass = .logical decisive)
      (leaves : Evaluates m f left w (.ofBool !decisive) w1)
      (decides : Evaluates m f right w1 (.ofBool t) w') :
      Evaluates m f (.binary note op left right) w (.ofBool t) w'
  | compare {note : Note} {op : BinOp} {cond : Cond} {t : Bool} {left right : Expr} {x y : Value}
      {w w1 w' : m.World} (comparison : op.opClass = .compare cond) (kept : left.NotWidened)
      (kept' : right.NotWidened) (first : Evaluates m f left w x w1)
      (second : Evaluates m f right w1 y w')
      (outcome : m.compares cond (resultTypeOf left) w' x y = some t) :
      Evaluates m f (.binary note op left right) w (.ofBool t) w'
  | operand {e : Expr} {v : Value} {w w' : m.World} (other : e.isCondition = false)
      (runs : ∀ σ, m.Runs (e.code f).push none w σ w' (v :: σ)) : Evaluates m f e w v w'

theorem Value.ofBool_inj {t t' : Bool} (h : Value.ofBool t = .ofBool t') : t = t' := by
  cases t <;> cases t' <;> first | rfl | cases h

theorem Expr.jump_of_operand (f : Frame) (h : e.isCondition = false) :
    (e.code f).jump = jumpOnValue (e.code f).push := by
  cases e with
  | literal note value =>
    cases value with
    | bool b => cases h
    | _ =>
      rw [Expr.code]
      · rfl
      · rintro b ⟨⟩
  | unary note op operand =>
    cases op with
    | not => cases h
    | neg => rw [Expr.code]; rfl
  | binary note op left right =>
    rw [Expr.code]
    rw [isCondition] at h
    cases hop : op.opClass with
    | arith _ => rfl
    | compare _ | logical _ => rw [hop] at h; cases h
  | call note callee args target => rw [Expr.code.eq_def]; rfl
  | name | field | index | array | newArray | cast => rw [Expr.code]; rfl

/-- The value of a condition is made from its jumps, unless it is written down. -/
theorem Expr.value_of_jump (f : Frame) (h : e.isCondition = true)
    (hlit : ∀ note t, e ≠ .literal note (.bool t)) :
    (e.code f).push = (do materialize (e.code f).jump; applyCoercion e.note) := by
  cases e with
  | literal note value =>
    cases value with
    | bool b => exact absurd rfl (hlit note b)
    | _ => cases h
  | unary note op operand =>
    cases op with
    | not => rw [Expr.code]; rfl
    | neg => cases h
  | binary note op left right =>
    rw [Expr.code]
    rw [isCondition] at h
    cases hop : op.opClass with
    | arith _ => rw [hop] at h; cases h
    | compare _ | logical _ => rfl
  | _ => cases h

theorem applyCoercion_none {note : Note} (h : note.coercion = none) :
    applyCoercion note = pure () := by
  rw [applyCoercion, h]

/-- **The jumps of a condition go by its value, and its value is pushed if it is asked for.** -/
theorem Expr.Evaluates.runs {f : Frame} {w w' : m.World} {v : Value} (h : e.Evaluates m f w v w') :
    (∀ t, v = .ofBool t → ∀ label jumpIf σ, m.Runs ((e.code f).jump label jumpIf)
      (if t == jumpIf then some label else none) w σ w' σ) ∧
    (e.NotWidened → ∀ σ, m.Runs (e.code f).push none w σ w' (v :: σ)) := by
  have hbuilt (e : Expr) : (e.code f).Built f.analysis (e.code f) :=
    e.code_built (.refl _) (.refl f)
  -- The value of a condition follows from its jumps.
  have hvalue {e : Expr} {t : Bool} {w w' : m.World} (hc : e.isCondition = true)
      (hlit : ∀ note t, e ≠ .literal note (.bool t))
      (hjump : ∀ label jumpIf σ, m.Runs ((e.code f).jump label jumpIf)
        (if t == jumpIf then some label else none) w σ w' σ) :
      (∀ t', Value.ofBool t = .ofBool t' → ∀ label jumpIf σ, m.Runs ((e.code f).jump label jumpIf)
        (if t' == jumpIf then some label else none) w σ w' σ) ∧
      (e.NotWidened → ∀ σ, m.Runs (e.code f).push none w σ w' (.ofBool t :: σ)) := by
    refine ⟨fun t' ht => Value.ofBool_inj ht ▸ hjump, fun hkept σ => ?_⟩
    rw [value_of_jump f hc hlit, applyCoercion_none (hkept hc)]
    exact (Machine.Runs.materialize f.analysis fun l => hjump l false σ).andThen
      (a := f.analysis) (J := []) (.pure ()) .done
  induction h with
  | @literal note t w =>
    refine ⟨fun t' ht label jumpIf σ => ?_, fun hkept σ => ?_⟩
    · rw [← Value.ofBool_inj ht, Expr.code]
      show m.Runs (if t = jumpIf then Emit.jump label else pure ()) _ _ _ _ _
      by_cases hj : t = jumpIf
      · simpa [hj] using Machine.Runs.jump label
      · simpa [hj] using Machine.Runs.done
    · have hnone : note.coercion = none := hkept rfl
      rw [Expr.code]
      show m.Runs (do Emit.instruction (.iconst (if t then 1 else 0)); applyCoercion note) _ _ _ _ _
      rw [applyCoercion_none hnone]
      exact Machine.Runs.andThen (a := f.analysis) (J := []) (.instruction rfl rfl fun _ => rfl)
        (.pure ()) .done
  | @not note e t w w' _ ih =>
    refine hvalue rfl (by simp) fun label jumpIf σ => ?_
    rw [Expr.code]
    have hrun := ih.1 t rfl label (!jumpIf) σ
    cases t <;> cases jumpIf <;> exact hrun
  | @decided note op decisive left right w w' hop _ ih =>
    refine hvalue (by rw [isCondition, hop]) (by simp) fun label jumpIf σ => ?_
    rw [Expr.code, hop]
    exact .decided (hbuilt right) fun l c => ih.1 decisive rfl l c σ
  | @undecided note op decisive t left right w w1 w' hop _ _ ih ih' =>
    refine hvalue (by rw [isCondition, hop]) (by simp) fun label jumpIf σ => ?_
    rw [Expr.code, hop]
    exact .undecided (hbuilt right) (fun l c => ih.1 _ rfl l c σ) fun l c => ih'.1 t rfl l c σ
  | @compare note op cond t left right x y w w1 w' hop hkept hkept' _ _ ht ih ih' =>
    refine hvalue (by rw [isCondition, hop]) (by simp) fun label jumpIf σ => ?_
    rw [Expr.code, hop]
    have hcompare :=
      Emit.Built.compareAndJump (a := f.analysis) (W := fun _ => True) (J := [label]) cond
        (resultTypeOf left) (.head _) jumpIf
    exact (ih.2 hkept σ).andThen ((hbuilt right).push.then_ hcompare)
      ((ih'.2 hkept' (x :: σ)).andThen hcompare (.compareAndJump f.analysis ht))
  | @operand e v w w' hother hruns =>
    refine ⟨fun t ht label jumpIf σ => ?_, fun _ => hruns⟩
    subst ht
    rw [jump_of_operand f hother]
    exact (hruns σ).andThen (a := f.analysis) (.branch trivial rfl (.head []))
      (.branchTruth jumpIf rfl)

/-! ## Typed conditions -/

def Expr.operands : Expr → List Expr
  | .literal note value =>
    match value with
    | .bool _ => []
    | _ => [.literal note value]
  | .unary note op e =>
    match op with
    | .not => e.operands
    | .neg => [.unary note op e]
  | .binary note op left right =>
    match op.opClass with
    | .arith _ => [.binary note op left right]
    | .compare _ | .logical _ => left.operands ++ right.operands
  | e => [e]

theorem Expr.operands_of_not_isCondition (h : e.isCondition = false) : e.operands = [e] := by
  cases e with
  | literal note value => cases value <;> first | rfl | cases h
  | unary note op operand => cases op <;> first | rfl | cases h
  | binary note op left right =>
    cases hop : op.opClass with
    | arith => rw [operands, hop]
    | compare | logical => rw [isCondition, hop] at h; cases h
  | _ => rfl

def Value.Fits (v : Value) : Ty → Prop
  | .int => ∃ x, v = .int x
  | .long => ∃ x, v = .long x
  | .float => ∃ x, v = .float x
  | .double => ∃ x, v = .double x
  | .bool => ∃ t, v = .ofBool t
  | .string | .array _ | .record _ _ => ∃ x, v = .reference x
  | .void | .function .. | .error => False

/-- Values of a type can be compared, for being the same if they are not numbers. -/
theorem Machine.exists_compares (m : Machine) (hx : x.Fits operand) (hy : y.Fits operand)
    (hop : operand.isNumeric = true ∨
      (cond = .eq ∨ cond = .ne) ∧ (operand = .bool ∨ operand.isReference = true)) (w : m.World) :
    ∃ t, m.compares cond operand w x y = some t := by
  have hequality (h : operand.isNumeric = false) : ∃ same, cond.equality? = some same := by
    rcases hop with hop | ⟨rfl | rfl, -⟩
    · rw [h] at hop
      cases hop
    · exact ⟨true, rfl⟩
    · exact ⟨false, rfl⟩
  cases operand with
  | int | long | float | double =>
    obtain ⟨x, rfl⟩ := hx
    obtain ⟨y, rfl⟩ := hy
    exact ⟨_, rfl⟩
  | bool =>
    obtain ⟨x, rfl⟩ := hx
    obtain ⟨y, rfl⟩ := hy
    exact ⟨_, rfl⟩
  | string =>
    obtain ⟨same, hsame⟩ := hequality rfl
    exact ⟨_, by rw [compares, hsame]; rfl⟩
  | array | record =>
    obtain ⟨x, rfl⟩ := hx
    obtain ⟨y, rfl⟩ := hy
    obtain ⟨same, hsame⟩ := hequality rfl
    exact ⟨_, by rw [compares, hsame]; rfl⟩
  | void | function | error => exact hx.elim

theorem Expr.HasTy.ty_of_isCondition (h : e.HasTy v ty) (hc : e.isCondition = true) :
    ty = .bool := by
  cases e with
  | literal note value => cases value <;> first | exact h | cases hc
  | unary note op operand => cases op <;> first | exact h.1 | cases hc
  | binary note op left right =>
    obtain ⟨operand, hsignature, -⟩ := h
    cases hop : op.opClass with
    | arith => rw [isCondition, hop] at hc; cases hc
    | compare cond => exact (binarySignature?_compare hop hsignature).1
    | logical decisive => exact (binarySignature?_logical hop hsignature).1
  | _ => cases hc

theorem Expr.Typed.of_isCondition (h : e.Typed v ty) (hc : e.isCondition = true) :
    ty = .bool ∧ e.note.coercion = none := by
  obtain ⟨source, ⟨-, ⟨hnone, rfl⟩ | ⟨-, hw⟩⟩, hty⟩ := h
  · exact ⟨hty.ty_of_isCondition hc, hnone⟩
  · rw [hty.ty_of_isCondition hc] at hw
    cases ty <;> cases hw

/-- **A typed condition has a value if all its operands have values of their types.** -/
theorem Expr.Typed.evaluates {f : Frame} (h : e.Typed v ty)
    (hoperands : ∀ x ∈ e.operands, ∀ w, ∃ u w', x.Evaluates m f w u w' ∧
      u.Fits (resultTypeOf x)) (w : m.World) : ∃ u w', e.Evaluates m f w u w' ∧ u.Fits ty := by
  have hother {e : Expr} {ty : Ty} (h : e.Typed v ty) (hc : e.isCondition = false)
      (hoperands : ∀ x ∈ e.operands, ∀ w, ∃ u w', x.Evaluates m f w u w' ∧
        u.Fits (resultTypeOf x)) (w : m.World) : ∃ u w', e.Evaluates m f w u w' ∧ u.Fits ty := by
    have hfits := hoperands e (by simp [operands_of_not_isCondition hc]) w
    rwa [resultTypeOf, h.resultTy?] at hfits
  induction e generalizing ty w with
  | literal note value =>
    cases value with
    | bool t => exact ⟨_, w, .literal, (h.of_isCondition rfl).1 ▸ ⟨t, rfl⟩⟩
    | _ => exact hother h rfl hoperands w
  | unary note op operand ih =>
    cases op with
    | neg => exact hother h rfl hoperands w
    | not =>
      obtain ⟨rfl, -⟩ := h.of_isCondition rfl
      obtain ⟨_, -, -, hoperand⟩ := h
      obtain ⟨_, w', heval, t, rfl⟩ := ih hoperand hoperands w
      exact ⟨_, w', .not heval, _, rfl⟩
  | binary note op left right ihl ihr =>
    cases hop : op.opClass with
    | arith => exact hother h (by rw [isCondition, hop]) hoperands w
    | logical decisive =>
      obtain ⟨rfl, -⟩ := h.of_isCondition (by rw [isCondition, hop])
      obtain ⟨_, -, operand, hsignature, hl, hr⟩ := h
      obtain ⟨-, rfl⟩ := binarySignature?_logical hop hsignature
      rw [operands, hop] at hoperands
      obtain ⟨_, w1, heval, t, rfl⟩ := ihl hl (fun x hx => hoperands x (by simp [hx])) w
      by_cases ht : t = decisive
      · subst ht
        exact ⟨_, w1, .decided hop heval, t, rfl⟩
      · obtain ⟨_, w2, heval', t', rfl⟩ := ihr hr (fun x hx => hoperands x (by simp [hx])) w1
        obtain rfl : t = !decisive := by cases t <;> cases decisive <;> simp_all
        exact ⟨_, w2, .undecided hop heval heval', t', rfl⟩
    | compare cond =>
      obtain ⟨rfl, -⟩ := h.of_isCondition (by rw [isCondition, hop])
      obtain ⟨_, -, operand, hsignature, hl, hr⟩ := h
      have hoperand := (binarySignature?_compare hop hsignature).2
      rw [operands, hop] at hoperands
      obtain ⟨x, w1, heval, hx⟩ := ihl hl (fun x hx => hoperands x (by simp [hx])) w
      obtain ⟨y, w2, heval', hy⟩ := ihr hr (fun x hx => hoperands x (by simp [hx])) w1
      obtain ⟨t, ht⟩ := m.exists_compares hx hy hoperand w2
      have htype : resultTypeOf left = operand := by rw [resultTypeOf, Typed.resultTy? hl]; rfl
      exact ⟨_, w2, .compare hop (fun hc => (Typed.of_isCondition hl hc).2)
        (fun hc => (Typed.of_isCondition hr hc).2) heval heval' (htype ▸ ht), t, rfl⟩
  | _ => exact hother h rfl hoperands w

/-! ## Units -/

/-- **Conditions of a unit with nothing wrong in it jump by their values.** In all statements of
such a unit expressions are typed. The code of a typed condition jumps exactly if short-circuit
evaluation gives the value that is asked for, and goes on behind it otherwise, with the operand
stack as it was; if its value is asked for, that is pushed as one or zero. There is a value if the
operands have values, and control gets behind the code that pushes it. -/
theorem generated_conditions_jump {name source : String} {unit : SourceUnit} {a : Analysis}
    (h : Accepted name source unit a) :
    Stmt.CheckedAll a.view (Place.top.scope (Stmt.ownAll (Item.stmts unit.items)))
      (Item.stmts unit.items) ∧
    ∀ (c : Place) (e : Expr), e.Typed (a.view c) .bool → ∀ (m : Machine) (f : Frame),
      (∀ w t w', e.Evaluates m f w (.ofBool t) w' →
        (∀ label jumpIf σ, m.Runs ((e.code f).jump label jumpIf)
          (if t == jumpIf then some label else none) w σ w' σ) ∧
        ∀ σ, m.Runs (e.code f).push none w σ w' (.ofBool t :: σ)) ∧
      ((∀ x ∈ e.operands, ∀ w, ∃ v w', x.Evaluates m f w v w' ∧ v.Fits (resultTypeOf x)) →
        ∀ w, ∃ t w', e.Evaluates m f w (.ofBool t) w') ∧
      ∀ types frame words, f.Ready types frame a c words → ∀ b b' stack,
        (CodeBuffer.start (some maxWords)).Leads b → b.reachable = true →
        b.depth = totalWords (TypeStack.kinds stack) → (e.code f).push b = .ok ((), b') →
          b'.reachable = true := by
  refine ⟨h.sound.checked, fun c e hty m f => ⟨fun w t w' heval => ?_, fun hoperands w => ?_,
    fun types frame words hready b b' stack hb hreachable hdepth hrun => ?_⟩⟩
  · obtain ⟨hjump, hpush⟩ := heval.runs
    exact ⟨hjump t rfl, hpush fun hc => (hty.of_isCondition hc).2⟩
  · obtain ⟨_, w', heval, t, rfl⟩ := hty.evaluates hoperands w
    exact ⟨t, w', heval⟩
  · exact (Expr.code_carries hready hty rfl hb hreachable hdepth hrun).reachable

/-- A unit that compares numbers that may not be ordered. -/
def outsideSource : String :=
  "function outside(x: double, low: double, high: double) -> bool \x7b
return !(low <= x && x < high) || x != x;
\x7d"

/-- A machine whose numbers are never ordered, and that can do nothing but push them. -/
def Machine.unordered : Machine where
  World := Unit
  orderSingle _ _ := none
  orderDouble _ _ := none
  sameText _ _ _ := false
  perform i _ σ :=
    match i with
    | .dconst x => some ((), .double x :: σ)
    | _ => none

/-- A comparison of two numbers that are written down, negated. -/
def notLess (x y : Double) : Expr :=
  let note (ty : Ty) : Note := ⟨.nowhere, some ty, none⟩
  .unary (note .bool) .not (.binary (note .bool) .lt (.literal (note .double) (.double x))
    (.literal (note .double) (.double y)))

/-- Code that asks for `!(x < y)` jumps if the numbers are not ordered. -/
theorem notLess_jumps : ∃ unit a, Accepted "outside" outsideSource unit a ∧
    ∀ (x y : Double) (f : Frame) (label : LabelId) (σ : List Value),
      Machine.unordered.Runs (((notLess x y).code f).jump label true) (some label) () σ () σ := by
  obtain ⟨unit, a, h, -⟩ := exists_accepted (show isAccepted "outside" outsideSource
    (fun unit a => (generate unit a).methods.length == 2) = true by decide +kernel)
  refine ⟨unit, a, h, fun x y f label σ => ?_⟩
  have hwidens (ty : Ty) : (Note.mk .nowhere (some ty) none).Widens ty ty := ⟨rfl, .inl ⟨rfl, rfl⟩⟩
  have hnumber (z : Double) : (Expr.literal ⟨.nowhere, some .double, none⟩ (.double z)).Evaluates
      .unordered f () (.double z) () := by
    refine .operand rfl fun σ => ?_
    rw [Expr.code]
    · exact (Machine.Runs.instruction rfl rfl fun _ => rfl).andThen (a := a) (J := [])
        (.pure ()) .done
    · rintro b ⟨⟩
  have hvalue : (notLess x y).Evaluates .unordered f () (.ofBool true) () :=
    .not (t := false) (.compare (show BinOp.lt.opClass = .compare .lt from rfl) (fun _ => rfl)
      (fun _ => rfl) (hnumber x) (hnumber y) rfl)
  have htyped : (notLess x y).Typed (a.view .top) .bool := ⟨.bool, hwidens _, rfl, .bool, hwidens _,
    .double, rfl, ⟨_, hwidens _, rfl⟩, ⟨_, hwidens _, rfl⟩⟩
  exact (((generated_conditions_jump h).2 .top _ htyped .unordered f).1 () true () hvalue).1 label
    true σ

end StackCompiler

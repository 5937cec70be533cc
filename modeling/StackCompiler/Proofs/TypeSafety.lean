import StackCompiler.Proofs.Adapted
import StackCompiler.Proofs.TypedUnit

/-!
# Type safety

The check of a method tells kinds of values apart, but not references of different types. What is
made of a unit with nothing wrong in it is safe for types too: on every path through a method, each
instruction gets operands of the types that it names. An expression leaves one value of its type on
any stack.

* **`generated_methods_typeSafe`**: all methods of a unit are safe, and all of its expressions.
-/

namespace StackCompiler

variable {a : Analysis} {b b' : CodeBuffer} {types : MethodTypes}

/-! ## Units with nothing wrong in them -/

/-- The source text is a unit, and the analysis of that unit alone finds nothing wrong. -/
structure Accepted (name source : String) (unit : SourceUnit) (a : Analysis) : Prop where
  analyzed : ∃ read, SourceUnit.parse name source = .ok read ∧ read.analyzeAlone = (unit, a)
  ok : a.isOk = true

/-- The source text is accepted, and a condition holds of the outcome. -/
def isAccepted (name source : String) (p : SourceUnit → Analysis → Bool) : Bool :=
  match SourceUnit.parse name source with
  | .ok read => read.analyzeAlone.2.isOk && p read.analyzeAlone.1 read.analyzeAlone.2
  | .error _ => false

theorem exists_accepted {name source : String} {p : SourceUnit → Analysis → Bool}
    (h : isAccepted name source p = true) :
    ∃ unit a, Accepted name source unit a ∧ p unit a = true := by
  unfold isAccepted at h
  split at h
  · rename_i read hread
    obtain ⟨hok, hp⟩ := Bool.and_eq_true_iff.mp h
    exact ⟨read.analyzeAlone.1, read.analyzeAlone.2, ⟨⟨read, hread, Prod.mk.eta.symm⟩, hok⟩, hp⟩
  · cases h

theorem Accepted.sound {name source : String} {unit : SourceUnit}
    (h : Accepted name source unit a) : a.Sound unit.items := by
  obtain ⟨read, hread, hanalyzed⟩ := h.analyzed
  obtain ⟨hplain, hnatural⟩ := SourceUnit.parse_plain hread
  exact SourceUnit.analyzeAlone_sound hanalyzed h.ok hplain hnatural

/-! ## Methods -/

/-- On every path, instructions get operands of the types that they name, and each variable has one
type: what is read was last written for it. All instructions are ones that the machine has. -/
structure Method.TypeSafe (m : Method) (types : MethodTypes) (entry : Words) : Prop where
  operands : ∀ pos stack, m.TypeReaches types pos stack → ∃ i after, m.body.code[pos]? = some i ∧
    i.retype types (m.subjectAt pos) stack = some after
  owned : ∀ pos words i e, m.WordReaches entry pos words → m.body.code[pos]? = some i →
    i.reads (m.subjectAt pos) = some e → e.subject.isSome ∧ words.Holds e
  legal : ∀ i ∈ m.body.code, i.Legal
  result : types.result = m.body.header.ret

theorem Method.Typed.typeSafe {m : Method} {entry : Words} (h : m.Typed types entry)
    (hresult : types.result = m.body.header.ret) : m.TypeSafe types entry := by
  refine ⟨h.operands, h.reads, fun i hi => ?_, hresult⟩
  obtain ⟨pos, hpos⟩ := Array.mem_iff_getElem?.mp hi
  exact h.legal pos i hpos

theorem SourceUnit.MadeOf.result {unit : SourceUnit} {origin : MethodOrigin} {header : MethodHeader}
    {handed : List Entry} (h : unit.MadeOf a origin header types handed) :
    types.result = header.ret := by
  cases h with
  | function _ hret => exact hret.symm
  | record => rfl

/-! ## Pieces of code -/

namespace CodeBuffer

def GoesTo (b : CodeBuffer) (i : Instruction) (pos next : Nat) : Prop :=
  i.isTerminal = false ∧ next = pos + 1 ∨
    ∃ l, i.target? = some (.label l) ∧ b.labelAt l = some next

/-- The points that control gets to in the code that a buffer was extended by, with the types on the
stack there. -/
inductive PieceReaches (types : MethodTypes) (b b' : CodeBuffer) (stack : TypeStack) :
    Nat → TypeStack → Prop
  | start : PieceReaches types b b' stack b.code.size stack
  | step {pos next : Nat} {i : Instruction} {found after : TypeStack}
      (h : PieceReaches types b b' stack pos found) (hi : b'.code[pos]? = some i)
      (ht : i.retype types (b'.subjectAt pos) found = some after) (hn : b'.GoesTo i pos next) :
      PieceReaches types b b' stack next after

/-- The code leads from one stack to another: every path through it ends behind it with that stack,
and instructions on it get operands of the types that they name. -/
structure Carries (types : MethodTypes) (b b' : CodeBuffer) (stack stack' : TypeStack) : Prop where
  reachable : b'.reachable = true
  path : ∀ pos found, PieceReaches types b b' stack pos found →
    pos = b'.code.size ∧ found = stack' ∨ b.code.size ≤ pos ∧ ∃ i after,
      b'.code[pos]? = some i ∧ i.retype types (b'.subjectAt pos) found = some after

theorem Step.labelAt (h : Step b b') {l : LabelId} {pos : Nat} (hpos : b'.labelAt l = some pos) :
    b.labelAt l = some pos ∨ pos = b.code.size := by
  have hset {label : LabelId} {depth : Option Nat}
      (hpos : ((b.labels.setIfInBounds label ⟨some b.code.size, depth⟩)[l]?).bind
        LabelState.position = some pos) : b.labelAt l = some pos ∨ pos = b.code.size := by
    rw [Array.getElem?_setIfInBounds] at hpos
    split_ifs at hpos
    · cases hpos
      exact .inr rfl
    · cases hpos
    · exact .inl hpos
  cases h with
  | newLabel =>
    rw [CodeBuffer.labelAt, Array.getElem?_push] at hpos
    split_ifs at hpos
    · cases hpos
    · exact .inl hpos
  | bind label h =>
    cases bind_eq_ok.mp h with
    | onPath | byJumps | outOfReach => exact hset hpos
  | emit x i h =>
    cases emit_eq_ok.mp h with
    | dropped => exact .inl hpos
    | appended _ _ hn _ => exact .inl ((hn.labelAt l).symm.trans hpos)

/-- What holds of a buffer that code is written to. -/
structure Sane (b : CodeBuffer) : Prop where
  subjects : b.subjects.size = b.code.size
  fits : exceeds b.limit b.maxDepth = false

theorem Step.sane (h : Step b b') (hb : b.Sane) : b'.Sane ∧ b.code.size ≤ b'.code.size := by
  cases h with
  | newLabel => exact ⟨⟨hb.subjects, hb.fits⟩, Nat.le_refl _⟩
  | bind label h =>
    cases bind_eq_ok.mp h with
    | onPath | byJumps | outOfReach => exact ⟨⟨hb.subjects, hb.fits⟩, Nat.le_refl _⟩
  | emit x i h =>
    cases emit_eq_ok.mp h with
    | dropped => exact ⟨hb, Nat.le_refl _⟩
    | appended _ _ _ hfits =>
      refine ⟨⟨?_, ?_⟩, ?_⟩
      · rw [Array.size_push, Array.size_push, hb.subjects]
      · show exceeds b.limit (max b.maxDepth _) = false
        rcases Nat.le_total b.maxDepth (b.depth - b.popped i + b.pushed i) with hle | hle
        · rwa [Nat.max_eq_right hle]
        · rw [Nat.max_eq_left hle]
          exact hb.fits
      · show b.code.size ≤ (b.code.push i).size
        rw [Array.size_push]
        exact Nat.le_succ _

theorem Leads.sane (h : b.Leads b') (hb : b.Sane) : b'.Sane ∧ b.code.size ≤ b'.code.size := by
  induction h with
  | refl => exact ⟨hb, Nat.le_refl _⟩
  | tail _ hstep ih => exact ⟨(hstep.sane ih.1).1, Nat.le_trans ih.2 (hstep.sane ih.1).2⟩

theorem Leads.labelAt (h : b.Leads b') (hb : b.Sane) {l : LabelId} {pos : Nat}
    (hpos : b'.labelAt l = some pos) : b.labelAt l = some pos ∨ b.code.size ≤ pos := by
  induction h with
  | refl => exact .inl hpos
  | tail hleads hstep ih =>
    rcases hstep.labelAt hpos with hpos | rfl
    · exact ih hpos
    · exact .inr (Leads.sane hleads hb).2

theorem start_sane (limit : Option Nat) : (start limit).Sane := by
  refine ⟨rfl, ?_⟩
  cases limit <;> rfl

/-- **What is shaped carries its first stack to its last one.** -/
theorem Shaped.carries {S : Setting} {frame : Nat} {T : Shaping} {s : Shape}
    (h : b'.Shaped S frame T) (hfirst : S.first = b.code.size) (hlabel : S.label = b.labels.size)
    (hleads : b.Leads b') (hb : b.Sane) (hend : T.at_ b'.code.size = some s) :
    Carries S.types b b' S.entry.stack s.stack := by
  have hpoints (pos : Nat) (found : TypeStack)
      (hreaches : PieceReaches S.types b b' S.entry.stack pos found) :
      b.code.size ≤ pos ∧ pos ≤ b'.code.size ∧ ∃ c, T.at_ pos = some c ∧ c.stack = found := by
    induction hreaches with
    | start =>
      obtain ⟨c, hc, hle⟩ := h.start
      exact ⟨Nat.le_refl _, (hleads.sane hb).2, c, hfirst ▸ hc, hle.stack⟩
    | @step pos next i found after _ hi ht hn ih =>
      obtain ⟨hlow, -, c, hc, rfl⟩ := ih
      obtain ⟨c', s', hc', haccepts, hgoes, hjumps⟩ := h.code pos i (hfirst ▸ hlow) hi
      cases hc.symm.trans hc'
      have hafter : s'.stack = after := Option.some.inj (haccepts.types.symm.trans ht)
      have hlt : pos < b'.code.size := (Array.getElem?_eq_some_iff.mp hi).1
      rcases hn with ⟨hterm, rfl⟩ | ⟨l, htarget, hl⟩
      · obtain ⟨d, hd, hle⟩ := hgoes hterm
        exact ⟨Nat.le_succ_of_le hlow, hlt, d, hd, hle.stack.trans hafter⟩
      · obtain ⟨l', htarget', hmin, ⟨state, hstate, hdepth⟩, hle⟩ := hjumps _ htarget
        cases htarget'
        obtain ⟨hmax, d, hd, hdle⟩ := h.placed l state next hmin hstate
          ((labelAt_eq hstate).symm.trans hl) hdepth
        refine ⟨?_, hmax, d, hd, (hdle.stack.trans hle.stack).trans hafter⟩
        rcases hleads.labelAt hb hl with hold | hnew
        · rw [CodeBuffer.labelAt, Array.getElem?_eq_none (hlabel ▸ hmin)] at hold
          cases hold
        · exact hnew
  refine ⟨by rw [h.reach, hend]; rfl, fun pos found hreaches => ?_⟩
  obtain ⟨hlow, hhigh, c, hc, rfl⟩ := hpoints pos found hreaches
  rcases Nat.eq_or_lt_of_le hhigh with rfl | hlt
  · cases hend.symm.trans hc
    exact .inl ⟨rfl, rfl⟩
  · have hi := Array.getElem?_eq_getElem hlt
    obtain ⟨c', s', hc', haccepts, -⟩ := h.code pos _ (hfirst ▸ hlow) hi
    cases hc.symm.trans hc'
    exact .inr ⟨hlow, _, _, hi, haccepts.types⟩

/-- The shaping of a buffer of which only the end counts. -/
def resumed (b : CodeBuffer) (c : Shape) : Shaping :=
  ⟨fun pos => if pos = b.code.size then some c else none, fun _ => c⟩

theorem resumed_shaped (types : MethodTypes) (hb : b.Sane) (ht : b.Tracked)
    (hroom : exceeds b.limit 2 = false) (hreachable : b.reachable = true) {c : Shape}
    (hdepth : b.depth = c.depth) (frame : Nat) :
    b.Shaped ⟨types, b.limit, b.code.size, b.labels.size, c⟩ frame (b.resumed c) := by
  have hend : (b.resumed c).at_ b.code.size = some c := if_pos rfl
  have hle := (ht.end_ hreachable).2
  refine ⟨rfl, hroom, Nat.le_refl _, Nat.le_refl _, hb.subjects, ⟨c, hend, .refl c⟩, ?_,
    fun d hd => ?_, fun pos d hd => ?_, fun l state d hl hstate => ?_,
    fun l state pos hl hstate => ?_, fun pos i hpos hi => ?_⟩
  · rw [hend, hreachable]
    rfl
  · cases hend.symm.trans hd
    exact ⟨hdepth, exceeds_mono hle hb.fits⟩
  · obtain ⟨-, rfl⟩ : pos = b.code.size ∧ c = d := by simpa [resumed] using hd
    exact hdepth ▸ hle
  · rw [Array.getElem?_eq_none hl] at hstate
    cases hstate
  · rw [Array.getElem?_eq_none hl] at hstate
    cases hstate
  · rw [Array.getElem?_eq_none hpos] at hi
    cases hi

end CodeBuffer

/-- **The code of a typed expression leaves one value of its type on any stack**, or none if the
expression has no result. -/
theorem Expr.code_carries {frame : Nat} {c : Place} {f : Frame} {words : Words}
    (hf : f.Ready types frame a c words) {e : Expr} {ty : Ty} {t : JvmType}
    (hty : e.Typed (a.view c) ty) (ht : a.jvmType ty = .ok t)
    (hb : (CodeBuffer.start (some maxWords)).Leads b) (hreachable : b.reachable = true)
    {stack : TypeStack} (hdepth : b.depth = totalWords (TypeStack.kinds stack))
    (hrun : (e.code f).push b = .ok ((), b')) :
    CodeBuffer.Carries types b b' stack (t.values ++ stack) := by
  have hsane := (CodeBuffer.Leads.sane hb (CodeBuffer.start_sane _)).1
  have hroom : exceeds b.limit 2 = false := by
    rw [(CodeBuffer.Leads.keeps hb).limit]
    rfl
  have hshaped := CodeBuffer.resumed_shaped types (c := ⟨stack, words⟩) hsane
    (CodeBuffer.Leads.tracked hb (CodeBuffer.start_tracked _)) hroom hreachable hdepth frame
  have hpushes := (Expr.code_typed (E := fun _ => True) (S := ⟨types, b.limit, b.code.size,
    b.labels.size, ⟨stack, words⟩⟩) (fun _ => trivial) hf
      (fun _ _ _ _ => trivial) hty ht).push stack
  have hend : (b.resumed ⟨stack, words⟩).at_ b.code.size = some ⟨stack, words⟩ := if_pos rfl
  obtain ⟨T, hT⟩ := (hpushes hshaped fun d hd =>
    (Option.some.inj (hend.symm.trans hd)).symm).ok hrun
  have hlive := (hT.live (by rw [hend]; rfl)).resolve_right (by simp)
  obtain ⟨d, hlast⟩ := Option.isSome_iff_exists.mp hlive
  obtain rfl := hT.cur d hlast
  have hbuilt := (e.code_built (.refl f.analysis) (.refl f)).push (W := fun _ => True) (J := [])
  exact hT.shaped.carries rfl rfl (hbuilt.leads hrun) hsane hlast

/-! ## Units -/

/-- **All methods of a unit with nothing wrong in it are safe for types**, the constructors of its
records among them. In all statements of such a unit expressions are typed, and the code of a typed
expression leaves one value of its type on any stack. -/
theorem generated_methods_typeSafe {name source : String} {unit : SourceUnit} {a : Analysis}
    (h : Accepted name source unit a) :
    (∀ body : MethodBody, body.requests <:+: (generate unit a).requests →
      ∃ m ∈ (generate unit a).methods, m.body = body) ∧
    (∀ m ∈ (generate unit a).methods, ∃ types handed,
      unit.MadeOf a m.origin m.body.header types handed ∧ m.TypeSafe types (.of handed)) ∧
    Stmt.CheckedAll a.view (Place.top.scope (Stmt.ownAll (Item.stmts unit.items)))
      (Item.stmts unit.items) ∧
    ∀ (types : MethodTypes) (frame : Nat) (c : Place) (f : Frame) (words : Words)
      (e : Expr) (ty : Ty), f.Ready types frame a c words → e.Typed (a.view c) ty →
        ∃ t, e.resultTy? = some ty ∧ a.jvmType ty = .ok t ∧ ∀ b b' stack,
          (CodeBuffer.start (some maxWords)).Leads b → b.reachable = true →
          b.depth = totalWords (TypeStack.kinds stack) → (e.code f).push b = .ok ((), b') →
            CodeBuffer.Carries types b b' stack (t.values ++ stack) := by
  obtain ⟨hmethods, hbodies⟩ := @generateUpTo_sent unit a (some maxWords) h.sound h.ok rfl
  refine ⟨hbodies, fun m hm => ?_, h.sound.checked, fun types frame c f words e ty hf hty => ?_⟩
  · obtain ⟨types, handed, hmade, htyped, -⟩ := hmethods m hm
    exact ⟨types, handed, hmade, htyped.typeSafe hmade.result⟩
  · obtain ⟨t, ht⟩ := hty.jvmType hf.proper
    exact ⟨t, hty.resultTy?, ht, fun b b' stack hb hreachable hdepth hrun =>
      Expr.code_carries hf hty ht hb hreachable hdepth hrun⟩

/-- A unit with a record, an array, a widening, and a function that captures a variable. -/
def firstSource : String :=
  "struct P \x7bx: int\x7d
function first(ps: P[]) -> long \x7b
function at(i: int) -> P \x7breturn ps[i];\x7d
return at(0).x;
\x7d
print(first([P(1)]));"

/-- The four methods of a unit are safe for types. -/
theorem first_typeSafe : ∃ unit a, Accepted "first" firstSource unit a ∧
    (generate unit a).methods.length = 4 ∧ ∀ m ∈ (generate unit a).methods, ∃ types handed,
      unit.MadeOf a m.origin m.body.header types handed ∧ m.TypeSafe types (.of handed) := by
  obtain ⟨unit, a, h, hlength⟩ := exists_accepted (show isAccepted "first" firstSource
    (fun unit a => (generate unit a).methods.length == 4) = true by decide +kernel)
  exact ⟨unit, a, h, eq_of_beq hlength, (generated_methods_typeSafe h).2.1⟩

end StackCompiler

import StackCompiler.Proofs.Reanalysis
import StackCompiler.Proofs.TypeSafety

/-!
# Where control gets to

The analysis and the writing of code each follow where control gets to: the one by what statements
are made of, the other by the jumps that are written. They agree.

* **`reachability_agrees`**: where the analysis sees no way on, there is none in the code.
-/

namespace StackCompiler

open Stmt

variable {flow : Flow} {stmts : List Stmt} {loop : Option LoopLabels}

/-! ## Analysis -/

/-- Two ways to end are the same, as far as a loop is around that can be left. -/
def Flow.Agrees (inLoop : Bool) (flow flow' : Flow) : Prop :=
  flow.completes = flow'.completes ∧ (inLoop = true → flow.breaks = flow'.breaks)

namespace Flow.Agrees

variable {inLoop : Bool} {flow flow' next next' : Flow}

theorem refl (inLoop : Bool) (flow : Flow) : Agrees inLoop flow flow := ⟨rfl, fun _ => rfl⟩

theorem trans (h : Agrees inLoop flow flow') (h' : Agrees inLoop flow' next) :
    Agrees inLoop flow next :=
  ⟨h.1.trans h'.1, fun hl => (h.2 hl).trans (h'.2 hl)⟩

theorem andThen (h : Agrees inLoop flow flow') (h' : Agrees inLoop next next') :
    Agrees inLoop (flow.andThen next) (flow'.andThen next') := by
  grind [Agrees, Flow.andThen]

theorem orElse (h : Agrees inLoop flow flow') (h' : Agrees inLoop next next') :
    Agrees inLoop (flow.orElse next) (flow'.orElse next') := by
  grind [Agrees, Flow.orElse]

end Flow.Agrees

/-- The analysis finds the flow of the statement that it returns. -/
def Stmt.FlowFound (stmt : Stmt) : Prop :=
  ∀ ctx id?, Analyze.Returns (fun x => x.2.Agrees ctx.inLoop x.1.flow) (stmt.analyze ctx id?)

theorem Stmt.analyzeList_flow (h : ∀ stmt ∈ stmts, stmt.FlowFound) (ctx : Context) (flow : Flow)
    (warned : Bool) (ids : List (Option FnId)) :
    Analyze.Returns (fun x => x.2.Agrees ctx.inLoop (flow.andThen (flowAll x.1)))
      (analyzeList ctx flow warned ids stmts) := by
  induction stmts generalizing flow warned ids with
  | nil =>
    rw [analyzeList]
    exact .pure (by simp [flowAll, Flow.Agrees, Flow.andThen, Flow.normal])
  | cons stmt rest ih =>
    have hstep (flow : Flow) (warned : Bool) : Analyze.Returns
        (fun x => x.2.Agrees ctx.inLoop (flow.andThen (flowAll x.1))) (do
          let first ← stmt.analyze ctx ids.head?.join
          let rest ← analyzeList ctx (flow.andThen first.2) warned ids.tail rest
          return (first.1 :: rest.1, rest.2)) := by
      refine .bind (h stmt List.mem_cons_self ctx _) fun first hfirst => ?_
      refine .bind (ih (fun s hs => h s (List.mem_cons_of_mem _ hs)) _ _ _) fun _ hrest => .pure ?_
      have hall := hrest.trans (((Flow.Agrees.refl _ flow).andThen hfirst).andThen (.refl _ _))
      rwa [Flow.andThen_assoc, ← flowAll] at hall
    rw [analyzeList]
    dsimp only
    split_ifs
    · exact .andThen fun _ => hstep _ _
    · exact hstep _ _

/-- **The analysis finds the flow of the statement that it returns.** -/
theorem Stmt.analyze_flow (stmt : Stmt) : stmt.FlowFound := by
  induction stmt with
  | block _ body ih =>
    intro ctx id?
    rw [analyze]
    refine .andThen fun _ => .andThen fun ids => ?_
    refine .bind (analyzeList_flow ih ctx .normal false ids) fun x hx =>
      .andThen fun _ => .pure ?_
    rwa [Flow.normal_andThen] at hx
  | branch _ cond yes no ihyes ihno =>
    intro ctx id?
    rw [analyze]
    refine .andThen fun _ => .andThen fun _ => .andThen fun _ => .bind (ihyes ctx _) fun x hx =>
      .andThen fun _ => ?_
    cases no with
    | none => exact .pure (hx.orElse (.refl _ _))
    | some no =>
      exact .andThen fun _ => .andThen fun _ => .bind (ihno no rfl ctx _) fun y hy =>
        .andThen fun _ =>
        .pure (hx.orElse hy)
  | loop _ cond body ih =>
    intro ctx id?
    rw [analyze]
    refine .andThen fun _ => .andThen fun _ => .andThen fun _ => .bind (ih _ _) fun x hx =>
      .andThen fun _ => .pure ⟨?_, fun _ => rfl⟩
    rw [hx.2 rfl, Stmt.flow]
  | leave _ =>
    intro ctx id?
    rw [analyze]
    split_ifs with hloop
    · exact .pure (.refl _ _)
    · exact .andThen fun _ => .pure ⟨rfl, fun h => absurd h hloop⟩
  | next _ =>
    intro ctx id?
    rw [analyze]
    split_ifs
    · exact .andThen fun _ => .pure (.refl _ _)
    · exact .pure (.refl _ _)
  | var _ | ret _ _ | assign _ _ _ | expr _ =>
    intro ctx id?
    rw [analyze]
    exact .andThen fun _ => .pure (.refl _ _)
  | function head body =>
    intro ctx id?
    rw [analyze]
    exact .andThen fun _ => .andThen fun _ => .andThen fun _ => .andThen fun _ => .andThen fun _ =>
      .pure (.refl _ _)
  | range _ loopVar first last body =>
    intro ctx id?
    rw [analyze]
    exact .andThen fun _ => .andThen fun _ => .andThen fun _ => .andThen fun _ => .andThen fun _ =>
      .andThen fun _ => .pure (.refl _ _)

/-! ## Agreement -/

/-- The code of statements as the analysis returns them goes where the analysis says. -/
theorem Stmt.analyzeList_describes {ctx : Context} {ids : List (Option FnId)} {stmts' : List Stmt}
    {σ σ' : AnalysisState}
    (h : analyzeList ctx .normal false ids stmts σ = ((stmts', flow), σ')) {head : FrameHead}
    {s s' : GenState} (hrun : generateList head loop stmts' s = .ok () s')
    (hbelow : LoopLabels.Below s.code.labels.size loop)
    (hloop : loop.isSome = true → ctx.inLoop = true) : flow.Describes loop s.code s'.code := by
  have hflow := (analyzeList_flow (fun stmt _ => stmt.analyze_flow) ctx .normal false ids).of_eq h
  rw [Flow.normal_andThen] at hflow
  obtain ⟨hstops, htouches⟩ := generateList_flow (fun stmt _ => stmt.generate_flow) hrun hbelow
  refine ⟨fun hc => hstops (hflow.1.symm.trans hc), ?_⟩
  cases loop with
  | none => exact htouches
  | some labels =>
    rw [hflow.2 (hloop rfl)]
    exact htouches

/-- **The analysis and the code agree on where control gets to.** Where statements do not complete,
the code after them is out of reach; where they do not leave the loop around, no jump goes to the
end of that loop. A function with a result therefore does not end without one, and control stays
inside finished code: there is an instruction at each label that is jumped to. -/
theorem reachability_agrees :
    (∀ ctx ids stmts σ stmts' flow σ',
      Stmt.analyzeList ctx .normal false ids stmts σ = ((stmts', flow), σ') →
      ∀ head loop s s', Stmt.generateList head loop stmts' s = .ok () s' →
        LoopLabels.Below s.code.labels.size loop → (loop.isSome = true → ctx.inLoop = true) →
          (flow.completes = false → s'.code.reachable = false) ∧
          (flow.breaks = false → ∀ labels, loop = some labels → labels.leave ≠ labels.next →
            ∀ (pos : Nat) i, s'.code.code[pos]? = some i →
              i.target? = some (.label labels.leave) → s.code.code[pos]? = some i)) ∧
    ∀ name source unit a, Accepted name source unit a →
      (∀ f ∈ unit.allFunctions, ∃ id info, f.head.id = some id ∧ a.functions[id]? = some info ∧
        (info.ret ≠ .void → ∀ head s s', Stmt.generateList head none f.body s = .ok () s' →
          s'.code.reachable = false)) ∧
      (∀ method, (generate unit a).error ≠ some (.missingReturn method)) ∧
      (∀ l, (generate unit a).error ≠ some (.buffer (.neverBound l)) ∧
        (generate unit a).error ≠ some (.buffer (.pastEnd l))) ∧
      ∀ m ∈ (generate unit a).methods, ∀ (pos : Nat) i, m.body.code[pos]? = some i →
        i.StaysInside m.body.code pos := by
  refine ⟨fun ctx ids stmts σ stmts' flow σ' h head loop s s' hrun hbelow hloop => ?_,
    fun name source unit a h => ?_⟩
  · obtain ⟨hstops, htouches⟩ := Stmt.analyzeList_describes h hrun hbelow hloop
    refine ⟨hstops, fun hbreaks labels hl hne pos i hi ht => ?_⟩
    subst hl
    exact htouches.jumps pos i _ hi ht (hbelow labels rfl).1
      (by simp [LoopLabels.targets, hbreaks, hne])
  · have herror (e : GenerateError) (he : ¬ unit.TooLarge (some maxWords) e) :
        (generate unit a).error ≠ some e := fun h' => he (generateUpTo_error h.sound h.ok rfl h')
    refine ⟨fun f hf => ?_,
      fun method => herror _ (by simp [SourceUnit.TooLarge, GenerateError.ofSize]),
      fun l => ⟨herror _ (by simp [SourceUnit.TooLarge, GenerateError.ofSize]),
        herror _ (by simp [SourceUnit.TooLarge, GenerateError.ofSize])⟩, fun m hm => ?_⟩
    · obtain ⟨id, hid, ⟨info, hinfo, -, hends⟩, -, -⟩ := h.sound.admits f hf
      refine ⟨id, info, hid, hinfo, fun hret head s s' hrun => ?_⟩
      have hflow := Stmt.generateList_flow (fun stmt _ => stmt.generate_flow) hrun (by rintro _ ⟨⟩)
      exact hflow.stops (hends.resolve_left hret)
    · obtain ⟨_, _, -, htyped, -⟩ := (generateUpTo_sent h.sound h.ok rfl).1 m hm
      exact htyped.inside

/-- A function whose loop ends only by its result. -/
def untilSource : String :=
  "function f(n: int) -> int \x7b
var k = n;
while (true) \x7bif (k > 9) return k; k = k + n; continue; break;\x7d
\x7d
print(f(5));"

/-- Nothing leaves the loop from behind `continue`, and the function has no end without a result. -/
theorem until_agrees :
    (∃ (σ σ' : AnalysisState) (s s' : GenState) (span : Span),
      Stmt.analyzeList ⟨FnId.main, true⟩ .normal false [] [.next span, .leave span] σ =
        (([.next span, .leave span], .stop), σ') ∧
      Stmt.generateList ⟨FnId.main, []⟩ (some ⟨0, 1⟩) [.next span, .leave span] s = .ok () s' ∧
      s'.code.reachable = false ∧ ∀ (pos : Nat) i, s'.code.code[pos]? = some i →
        i.target? = some (.label 0) → s.code.code[pos]? = some i) ∧
    ∃ unit a, Accepted "until" untilSource unit a ∧
      (∀ method, (generate unit a).error ≠ some (.missingReturn method)) ∧
      ∀ m ∈ (generate unit a).methods, ∀ (pos : Nat) i, m.body.code[pos]? = some i →
        i.StaysInside m.body.code pos := by
  obtain ⟨unit, a, h, -⟩ := exists_accepted (show isAccepted "until" untilSource
    (fun unit a => (generate unit a).methods.length == 2) = true by decide +kernel)
  obtain ⟨hlists, hunits⟩ := reachability_agrees
  refine ⟨⟨.start unit 0, _, ⟨a, [], #[], #[], { CodeBuffer.empty with
    labels := #[⟨none, none⟩, ⟨none, none⟩] }, .start none 0⟩, _, ⟨0, 0, 1, 1⟩, rfl, rfl, ?_⟩,
    unit, a, h, (hunits _ _ _ _ h).2.1, (hunits _ _ _ _ h).2.2.2⟩
  have hrun := hlists ⟨FnId.main, true⟩ [] [.next ⟨0, 0, 1, 1⟩, .leave ⟨0, 0, 1, 1⟩]
    (.start unit 0) _ _ _ rfl ⟨FnId.main, []⟩ (some ⟨0, 1⟩) ⟨a, [], #[], #[],
    { CodeBuffer.empty with
    labels := #[⟨none, none⟩, ⟨none, none⟩] }, .start none 0⟩ _ rfl
    (by rintro _ ⟨⟩; exact ⟨Nat.zero_lt_two, Nat.one_lt_two⟩) fun _ => rfl
  exact ⟨hrun.1 rfl, hrun.2 rfl _ rfl Nat.zero_ne_one⟩

end StackCompiler

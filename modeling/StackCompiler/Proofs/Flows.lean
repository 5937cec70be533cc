import StackCompiler.Proofs.Checked
import StackCompiler.Proofs.Writing

/-!
# Where written code goes

The flow of a statement tells where control goes from it. The code that is written for the statement
goes nowhere else: it jumps only to labels of its own and to those of the loop around, and where the
statement does not complete control does not get behind its code.

* **`Stmt.generate_flow`**, **`Stmt.generateList_flow`**: the code of statements does.
-/

namespace StackCompiler

open Generate LoopLabels

variable {breaks : Bool} {flow : Flow} {l : LabelId} {J : List LabelId} {stmts : List Stmt}
  {loop : Option LoopLabels} {c : Unit}

/-! ## Writing -/

namespace CodeBuffer

/-- Of the labels that there were, only the given ones are placed or jumped to. -/
structure Touches (J : List LabelId) (b b' : CodeBuffer) : Prop where
  grows : b.labels.size ≤ b'.labels.size
  labels : ∀ l < b.labels.size, l ∉ J → b'.labels[l]? = b.labels[l]?
  jumps : ∀ (pos : Nat) i l, b'.code[pos]? = some i → i.target? = some (.label l) →
    l < b.labels.size → l ∉ J → b.code[pos]? = some i

variable {J J' : List LabelId} {b b' b'' : CodeBuffer}

namespace Touches

theorem refl (J : List LabelId) (b : CodeBuffer) : b.Touches J b :=
  ⟨Nat.le_refl _, fun _ _ _ => rfl, fun _ _ _ h _ _ _ => h⟩

theorem trans (h : b.Touches J b') (h' : b'.Touches J b'') : b.Touches J b'' where
  grows := Nat.le_trans h.grows h'.grows
  labels l hl hJ := (h'.labels l (Nat.lt_of_lt_of_le hl h.grows) hJ).trans (h.labels l hl hJ)
  jumps pos i l hi ht hl hJ :=
    h.jumps pos i l (h'.jumps pos i l hi ht (Nat.lt_of_lt_of_le hl h.grows) hJ) ht hl hJ

theorem mono (h : b.Touches J b') (hJ : J ⊆ J') : b.Touches J' b' :=
  ⟨h.grows, fun l hl hl' => h.labels l hl fun hm => hl' (hJ hm),
    fun pos i l hi ht hl hl' => h.jumps pos i l hi ht hl fun hm => hl' (hJ hm)⟩

theorem newLabel
    (h : Touches (b.labels.size :: J) { b with labels := b.labels.push ⟨none, none⟩ } b') :
    b.Touches J b' := by
  have hsize : (b.labels.push ⟨none, none⟩).size = b.labels.size + 1 := Array.size_push _
  refine ⟨by have := h.grows; grind, fun l hl hJ => ?_, fun pos i l hi ht hl hJ => ?_⟩
  · rw [h.labels l (by grind) (by simp [Nat.ne_of_lt hl, hJ]), Array.getElem?_push,
      if_neg (Nat.ne_of_lt hl)]
  · exact h.jumps pos i l hi ht (by grind) (by simp [Nat.ne_of_lt hl, hJ])

end Touches

theorem Emits.touches {x : Option Subject} {i : Instruction} (h : Emits x i b b')
    (hi : ∀ l, i.target? = some (.label l) → l ∈ J) : b.Touches J b' := by
  cases h with
  | dropped => exact .refl J b
  | @appended labels _ _ hnotes =>
    have hlabels : labels.size = b.labels.size ∧ ∀ l ∉ J, labels[l]? = b.labels[l]? := by
      cases hnotes with
      | @jump label state ht => grind [taken]
      | other => exact ⟨rfl, fun _ _ => rfl⟩
    refine ⟨Nat.le_of_eq hlabels.1.symm, fun l _ hl => hlabels.2 l hl, fun pos j l hj ht _ hl => ?_⟩
    rw [Array.getElem?_push] at hj
    split_ifs at hj
    · cases hj
      exact absurd (hi l ht) hl
    · exact hj

theorem Binds.touches {label : LabelId} (h : Binds label b b') (hl : label ∈ J) :
    b.Touches J b' := by
  cases h <;> exact ⟨by simp, by grind, fun _ _ _ h _ _ _ => h⟩

end CodeBuffer

theorem CodeBuffer.touches_tracks {W : Subject → Prop} : Emit.Built.Tracks W CodeBuffer.Touches :=
  ⟨.refl, .trans, fun hi _ h => h.touches hi, fun hl h => h.touches hl, .newLabel⟩

theorem Generate.Built.touches {α : Type} {m m' : Generate α} {s s' : GenState} {c : α}
    (h : ∀ a, Built a (fun _ => True) J m m') (hm : m s = .ok c s') : s.code.Touches J s'.code :=
  ((h s.analysis).runs (.of CodeBuffer.touches_tracks) (.refl _) hm).1

/-! ## Statements -/

mutual

/-- The functions that are declared in a statement, apart from those inside of other functions. -/
def Stmt.inner : Stmt → List FunctionDecl
  | .function head body => [⟨head, body⟩]
  | .block _ body => Stmt.innerAll body
  | .branch _ _ yes none => yes.inner
  | .branch _ _ yes (some no) => yes.inner ++ no.inner
  | .loop _ _ body | .range _ _ _ _ body => body.inner
  | .var _ | .ret .. | .leave _ | .next _ | .assign .. | .expr _ => []

def Stmt.innerAll : List Stmt → List FunctionDecl
  | [] => []
  | stmt :: rest => stmt.inner ++ Stmt.innerAll rest

end

/-- Where the jumps out of a loop go, from statements that leave it or do not. -/
def LoopLabels.targets (breaks : Bool) : Option LoopLabels → List LabelId
  | none => []
  | some labels => labels.next :: if breaks then [labels.leave] else []

theorem LoopLabels.targets_mono {breaks' : Bool} (h : breaks = true → breaks' = true)
    (loop : Option LoopLabels) : targets breaks loop ⊆ targets breaks' loop := by
  cases loop with
  | none => exact List.nil_subset _
  | some labels => cases breaks <;> cases breaks' <;> simp_all [targets]

theorem LoopLabels.targets_subset {leave next : LabelId} (h : leave ∈ J) (h' : next ∈ J) :
    targets breaks (some ⟨leave, next⟩) ⊆ J := by
  cases breaks <;> simp [targets, h, h']

/-- The code goes where the flow says. -/
structure Flow.Describes (flow : Flow) (loop : Option LoopLabels) (b b' : CodeBuffer) : Prop where
  stops : flow.completes = false → b'.reachable = false
  touches : b.Touches (targets flow.breaks loop) b'

/-- The labels of the loop around are among so many. -/
def LoopLabels.Below (count : Nat) (loop : Option LoopLabels) : Prop :=
  ∀ labels, loop = some labels → labels.leave < count ∧ labels.next < count

theorem LoopLabels.Below.mono {count count' : Nat} (h : Below count loop) (hc : count ≤ count') :
    Below count' loop :=
  fun labels hl => (h labels hl).imp (Nat.lt_of_lt_of_le · hc) (Nat.lt_of_lt_of_le · hc)

theorem LoopLabels.Below.lt {count : Nat} (h : Below count loop) (hl : l ∈ targets breaks loop) :
    l < count := by
  cases loop with
  | none => cases hl
  | some labels =>
    have := h labels rfl
    cases breaks <;> grind [targets]

namespace Generate

/-- The step writes code that goes where the flow says. -/
def Flows (flow : Flow) (loop : Option LoopLabels) (m : Generate Unit) : Prop :=
  ∀ ⦃s c s'⦄, m s = .ok c s' → Below s.code.labels.size loop →
    flow.Describes loop s.code s'.code

/-- Where there are so many labels, the step touches only the given ones. -/
def Touches {α : Type} (count : Nat) (J : List LabelId) (m : Generate α) : Prop :=
  ∀ ⦃s c s'⦄, m s = .ok c s' → count ≤ s.code.labels.size → s.code.Touches J s'.code

variable {α β : Type} {count : Nat} {J : List LabelId} {flow : Flow} {loop : Option LoopLabels}
  {m : Generate Unit}

theorem Touches.bind {m : Generate α} {k : α → Generate β} (hm : Touches count J m)
    (hk : ∀ c, Touches count J (k c)) : Touches count J (m >>= k) := by
  intro s _ s' h hcount
  obtain ⟨c, s1, h1, h2⟩ := bind_eq_ok.mp h
  have hfirst := hm h1 hcount
  exact hfirst.trans (hk c h2 (Nat.le_trans hcount hfirst.grows))

theorem Touches.then_ {k : Generate β} (hm : Touches count J m) (hk : Touches count J k) :
    Touches count J (do m; k) := hm.bind fun _ => hk

theorem Touches.withLabel {k : LabelId → Generate α}
    (hk : ∀ l, count ≤ l → Touches (l + 1) (l :: J) (k l)) :
    Touches count J (ofEmit Emit.newLabel >>= k) := by
  intro s _ s' h hcount
  obtain ⟨l, s1, h1, h2⟩ := bind_eq_ok.mp h
  cases h1
  have hrest := hk _ hcount h2 (by simp)
  exact .newLabel hrest

theorem Built.touched {m m' : Generate α} (h : ∀ a, Built a (fun _ => True) J m m') :
    Touches count J m :=
  fun _ _ _ hm _ => Built.touches h hm

theorem Built.flows {m' : Generate Unit} (h : ∀ a, Built a (fun _ => True) [] m m') :
    Flows .normal loop m :=
  fun _ _ _ hm _ => ⟨nofun, (touches h hm).mono (List.nil_subset _)⟩

theorem Flows.touched (h : Flows flow loop m) (hloop : Below count loop)
    (hJ : targets flow.breaks loop ⊆ J) : Touches count J m :=
  fun _ _ _ hm hcount => (h hm (hloop.mono hcount)).touches.mono hJ

theorem Flows.of_touches (h : ∀ count, Below count loop →
      Touches count (targets flow.breaks loop) m)
    (hstops : ∀ s c s', m s = .ok c s' → Below s.code.labels.size loop →
      flow.completes = false → s'.code.reachable = false) : Flows flow loop m :=
  fun _ _ _ hm hloop => ⟨hstops _ _ _ hm hloop, h _ hloop hm (Nat.le_refl _)⟩

theorem Flows.inScope (h : Flows flow loop m) : Flows flow loop (inScope m) := by
  intro s _ s' hrun hloop
  obtain ⟨_, s1, h1, hrun⟩ := bind_eq_ok.mp hrun
  obtain ⟨_, s2, h2, h3⟩ := bind_eq_ok.mp hrun
  cases h1
  unfold closeSlots at h3
  split at h3 <;> cases h3
  have hflow := h h2 hloop
  exact hflow

end Generate

section

variable {head : FrameHead} {loop : Option LoopLabels} {s s' : GenState} {b b' : CodeBuffer}

theorem Generate.whenReachable_run {m : Generate Unit} :
    whenReachable m s = if s.code.reachable = true then m s else .ok () s := by
  show (if s.code.reachable = true then m else pure ()) s = _
  split_ifs <;> rfl

/-- Where control does not get, functions are put aside and nothing else is done. -/
theorem Stmt.generateList_dead (hd : s.code.reachable = false) (head : FrameHead)
    (loop : Option LoopLabels) (stmts : List Stmt) : ∃ fs, fs.Sublist (Stmt.innerAll stmts) ∧
      Stmt.generateList head loop stmts s = .ok () { s with pending := s.pending ++ fs } := by
  induction stmts generalizing s with
  | nil => exact ⟨[], .slnil, by rw [List.append_nil]; rfl⟩
  | cons stmt rest ih =>
    have hskip : whenReachable (stmt.generate head loop) s = .ok () s := by
      rw [whenReachable_run, hd]
      rfl
    obtain ⟨fs, hfs, hrun⟩ := ih hd
    cases stmt with
    | function declHead body =>
      obtain ⟨fs, hfs, hrun⟩ := ih (s := { s with pending := s.pending ++ [⟨declHead, body⟩] }) hd
      refine ⟨⟨declHead, body⟩ :: fs, hfs.cons_cons _, ?_⟩
      rw [List.append_assoc] at hrun
      exact hrun
    | _ => exact ⟨fs, hfs.trans (List.sublist_append_right _ _),
        bind_eq_ok.mpr ⟨(), s, hskip, hrun⟩⟩

theorem Stmt.generateList_live (hlive : s.code.reachable = true) (stmt : Stmt) (rest : List Stmt) :
    Stmt.generateList head loop (stmt :: rest) s =
      (do stmt.generate head loop; Stmt.generateList head loop rest) s := by
  have hrun : whenReachable (stmt.generate head loop) s = stmt.generate head loop s := by
    rw [whenReachable_run, if_pos hlive]
  cases stmt with
  | function declHead body => rfl
  | _ =>
    show EStateM.bind _ _ s = EStateM.bind _ _ s
    rw [EStateM.bind, EStateM.bind, hrun]

theorem code_of_dead {u : Unit} (hd : s.code.reachable = false)
    (hrun : Stmt.generateList head loop stmts s = .ok u s') : s'.code = s.code := by
  obtain ⟨fs, -, hdead⟩ := Stmt.generateList_dead hd head loop stmts
  cases hrun.symm.trans hdead
  rfl

theorem Stmt.generateList_flow
    (h : ∀ stmt ∈ stmts, ∀ loop, Flows stmt.flow loop (stmt.generate head loop)) :
    Flows (Stmt.flowAll stmts) loop (Stmt.generateList head loop stmts) := by
  induction stmts with
  | nil =>
    intro s _ s' hrun _
    cases hrun
    exact ⟨nofun, .refl _ _⟩
  | cons stmt rest ih =>
    intro s _ s' hrun hloop
    cases hlive : s.code.reachable with
    | false =>
      rw [code_of_dead hlive hrun]
      exact ⟨fun _ => hlive, .refl _ _⟩
    | true =>
      rw [Stmt.generateList_live hlive] at hrun
      obtain ⟨_, s1, h1, h2⟩ := bind_eq_ok.mp hrun
      have hfirst := h stmt List.mem_cons_self loop h1 hloop
      rw [Stmt.flowAll]
      cases hc : stmt.flow.completes with
      | false =>
        have hstop := hfirst.stops hc
        rw [code_of_dead hstop h2]
        exact ⟨fun _ => hstop, hfirst.touches.mono (targets_mono (by simp [Flow.andThen, hc]) loop)⟩
      | true =>
        have hlast := ih (fun stmt' h' => h stmt' (List.mem_cons_of_mem _ h')) h2
          (hloop.mono hfirst.touches.grows)
        refine ⟨fun hstop => hlast.stops (by simpa [Flow.andThen, hc] using hstop), .trans
          (hfirst.touches.mono (targets_mono ?_ loop))
          (hlast.touches.mono (targets_mono ?_ loop))⟩ <;> grind [Flow.andThen]

/-- Control does not get to a label that nothing jumps to, unless it goes on to it. -/
theorem reachable_of_bind {b : CodeBuffer} (h : ofEmit (Emit.bind l) s = .ok c s')
    (hs : s.code.reachable = false) (ht : b.Touches J s.code)
    (hb : b.labels[l]? = some ⟨none, none⟩) (hJ : l ∉ J) : s'.code.reachable = false := by
  obtain ⟨code, hcode, rfl⟩ := ofEmit_eq_ok.mp h
  have hl := (ht.labels l (Array.getElem?_eq_some_iff.mp hb).1 hJ).trans hb
  cases CodeBuffer.bind_eq_ok.mp (Emit.ofWrite_eq_ok.mp hcode) with
  | onPath _ _ hr => exact absurd (hs.symm.trans hr) Bool.false_ne_true
  | byJumps hknown _ _ hjumps =>
    cases hl.symm.trans hknown
    cases hjumps
  | outOfReach => exact hs

/-- A new label comes after those that there were, and nothing jumps to it. -/
theorem newLabel_run (h : ofEmit Emit.newLabel s = .ok l s') :
    s.code.labels.size = l ∧ s'.code.labels.size = l + 1 ∧ s'.code.labels[l]? = some ⟨none, none⟩ ∧
      s'.code.reachable = s.code.reachable := by
  cases h
  simp

theorem reachable_of_terminal {i : Instruction} (h : instruction i s = .ok c s')
    (hi : i.isTerminal = true) : s'.code.reachable = false := by
  obtain ⟨code, hcode, rfl⟩ := ofEmit_eq_ok.mp h
  cases CodeBuffer.emit_eq_ok.mp (Emit.ofWrite_eq_ok.mp hcode) with
  | dropped hr => exact hr
  | appended => simp [hi]

theorem code_of_jump (h : ofEmit (Emit.jump l) s = .ok c s')
    (hs : s.code.reachable = false) : s'.code = s.code := by
  obtain ⟨code, hcode, rfl⟩ := ofEmit_eq_ok.mp h
  cases CodeBuffer.emit_eq_ok.mp (Emit.ofWrite_eq_ok.mp hcode) with
  | dropped => rfl
  | appended hr => exact absurd (hs.symm.trans hr) Bool.false_ne_true

open Generate (Flows Touches)

theorem Generate.Flows.generateBranch {yes : Generate Unit} (cond : Expr)
    (hyes : Flows flow loop yes) :
    Flows (flow.orElse .normal) loop (generateBranch head cond yes) := by
  refine .of_touches (fun count hloop => ?_)
    fun _ _ _ _ _ h => by simp [Flow.orElse, Flow.normal] at h
  refine .withLabel fun l hl => ?_
  refine .then_ (Built.touched fun _ => .jumpBy head cond (.head _) _) <| .then_ ?_
    (Built.touched fun _ => .place (.head _))
  refine hyes.inScope.touched (hloop.mono (Nat.le_succ_of_le hl)) (List.subset_cons_of_subset _ ?_)
  exact targets_mono (by simp +contextual [Flow.orElse]) loop

theorem Generate.Flows.generateChoice {flow' : Flow} {yes no : Generate Unit} (cond : Expr)
    (hyes : Flows flow loop yes) (hno : Flows flow' loop no) :
    Flows (flow.orElse flow') loop (generateChoice head cond yes no) := by
  refine .of_touches (fun count hloop => ?_) fun s _ s' hrun hloop hstops => ?_
  · refine .withLabel fun l hl => ?_
    refine .then_ (Built.touched fun _ => .jumpBy head cond (.head _) _) <| .then_
      (hyes.inScope.touched (hloop.mono (Nat.le_succ_of_le hl))
        (List.subset_cons_of_subset _ ?_)) ?_
    · exact targets_mono (by simp +contextual [Flow.orElse]) loop
    refine .withLabel fun done hdone => ?_
    refine .then_ (Built.touched fun _ => .jump (.head _)) <|
      .then_ (Built.touched fun _ => .place (.tail _ (.head _))) <| .then_ ?_
      (Built.touched fun _ => .place (.head _))
    refine hno.inScope.touched (hloop.mono (by omega)) (List.subset_cons_of_subset _
      (List.subset_cons_of_subset _ ?_))
    exact targets_mono (by simp +contextual [Flow.orElse]) loop
  · -- Nothing jumps to the end: control does not get to the jump after the first branch.
    obtain ⟨hyes', hno'⟩ : flow.completes = false ∧ flow'.completes = false := by
      simpa [Flow.orElse] using hstops
    obtain ⟨l, s1, h1, hrun⟩ := bind_eq_ok.mp hrun
    obtain ⟨_, s2, h2, hrun⟩ := bind_eq_ok.mp hrun
    obtain ⟨_, s3, h3, hrun⟩ := bind_eq_ok.mp hrun
    obtain ⟨done, s4, h4, hrun⟩ := bind_eq_ok.mp hrun
    obtain ⟨_, s5, h5, hrun⟩ := bind_eq_ok.mp hrun
    obtain ⟨_, s6, h6, hrun⟩ := bind_eq_ok.mp hrun
    obtain ⟨_, s7, h7, h8⟩ := bind_eq_ok.mp hrun
    obtain ⟨hl, hsize1, -, -⟩ := newLabel_run h1
    obtain ⟨hdone, hsize4, hfree, hr4⟩ := newLabel_run h4
    have hcond := (Built.touches (J := [l]) (fun _ => .jumpBy head cond (.head _) _) h2).grows
    have hfirst := hyes.inScope h3 (hloop.mono (by omega))
    have hgrows := hfirst.touches.grows
    have hjump := code_of_jump h5 (hr4.trans (hfirst.stops hyes'))
    have hplace := Built.touches (J := l :: targets flow'.breaks loop)
      (fun _ => .place (.head _)) h6
    have hgrows' := hplace.grows
    rw [hjump] at hplace hgrows'
    have hlast := hno.inScope h7 (hloop.mono (by omega))
    refine reachable_of_bind h8 (hlast.stops hno')
      (hplace.trans (hlast.touches.mono (List.subset_cons_self _ _))) hfree ?_
    intro hmem
    have hlt : done < s.code.labels.size + 1 := by
      rcases List.mem_cons.mp hmem with rfl | hmem
      · omega
      · exact Nat.lt_succ_of_lt (hloop.lt hmem)
    grind

theorem Generate.Flows.generateLoop {body : LoopLabels → Generate Unit} (cond : Expr)
    (hbody : ∀ labels, Flows flow (some labels) (body labels)) :
    Flows ⟨!cond.isTrueLiteral || flow.breaks, false⟩ loop (generateLoop head cond body) := by
  refine .of_touches (fun count hloop => ?_) fun s _ s' hrun hloop hstops => ?_
  · refine .withLabel fun top htop => .withLabel fun done hdone => ?_
    refine .then_ (Built.touched fun _ => .place (.tail _ (.head _))) <|
      .then_ (Built.touched fun _ => .testLoop head cond (.head _)) <|
      .then_ ((hbody _).inScope.touched ?_ (targets_subset (.head _) (.tail _ (.head _)))) <|
      .then_ (Built.touched fun _ => .jump (.tail _ (.head _)))
        (Built.touched fun _ => .place (.head _))
    rintro _ ⟨⟩
    exact ⟨Nat.lt_succ_self _, Nat.lt_succ_of_lt hdone⟩
  · -- Nothing jumps to the end: there is no test, and the body does not leave the loop.
    obtain ⟨htrue, hbreaks⟩ : cond.isTrueLiteral = true ∧ flow.breaks = false := by
      simpa using hstops
    obtain ⟨top, s1, h1, hrun⟩ := bind_eq_ok.mp hrun
    obtain ⟨done, s2, h2, hrun⟩ := bind_eq_ok.mp hrun
    obtain ⟨_, s3, h3, hrun⟩ := bind_eq_ok.mp hrun
    obtain ⟨_, s4, h4, hrun⟩ := bind_eq_ok.mp hrun
    obtain ⟨_, s5, h5, hrun⟩ := bind_eq_ok.mp hrun
    obtain ⟨_, s6, h6, h7⟩ := bind_eq_ok.mp hrun
    obtain ⟨-, hsize1, -, -⟩ := newLabel_run h1
    obtain ⟨hdone, hsize2, hfree, -⟩ := newLabel_run h2
    rw [testLoop, if_pos htrue] at h4
    cases h4
    have hplace := Built.touches (J := [top]) (fun _ => .place (.head _)) h3
    have hgrows := hplace.grows
    have hinside := ((hbody _).inScope h5 (by rintro _ ⟨⟩; constructor <;> grind)).touches
    have hjump := Built.touches (J := [top]) (fun _ => .jump (.head _)) h6
    refine reachable_of_bind h7 (reachable_of_terminal h6 rfl)
      (hplace.trans ((hinside.mono ?_).trans hjump)) hfree ?_
    · simp [targets, hbreaks]
    · grind

theorem Generate.Flows.repeatRange {body : LoopLabels → Generate Unit} (id : SymbolId) (kind : Kind)
    (slot bound : Nat) (hbody : ∀ labels, Flows flow (some labels) (body labels)) :
    Flows .normal loop (repeatRange id kind slot bound body) := by
  refine .of_touches (fun count hloop => ?_) nofun
  refine .withLabel fun top htop => .withLabel fun next hnext => .withLabel fun done hdone => ?_
  refine .then_ (Built.touched fun _ => .place (.tail _ (.tail _ (.head _)))) <|
    .then_ (Built.touched fun _ => .ofEmit (.testRange _ _ _ _ (.head _))) <|
    .then_ ((hbody _).inScope.touched ?_ (targets_subset (.head _) (.tail _ (.head _)))) <|
    .then_ (Built.touched fun _ => .place (.tail _ (.head _))) <|
    .then_ (Built.touched fun _ => .ofEmit (.stepRange _ _ trivial)) <|
    .then_ (Built.touched fun _ => .jump (.tail _ (.tail _ (.head _))))
      (Built.touched fun _ => .place (.head _))
  rintro _ ⟨⟩
  exact ⟨Nat.lt_succ_self _, Nat.lt_succ_of_lt hdone⟩

/-- **The code of a statement goes where its flow says.** -/
theorem Stmt.generate_flow (stmt : Stmt) (loop : Option LoopLabels) :
    Flows stmt.flow loop (stmt.generate head loop) := by
  induction stmt generalizing loop with
  | var decl => exact Built.flows fun _ => .generateVar head fun _ _ => trivial
  | function declHead body _ => exact Built.flows fun _ => .defer _
  | block _ body ih => exact (Stmt.generateList_flow ih).inScope
  | branch _ cond yes no ihyes ihno =>
    cases no with
    | none => exact .generateBranch cond (ihyes loop)
    | some no => exact .generateChoice cond (ihyes loop) (ihno no rfl loop)
  | loop _ cond body ih => exact .generateLoop cond fun labels => ih (some labels)
  | range _ loopVar first last body ih =>
    intro s _ s' hrun hloop
    obtain ⟨id, s1, h1, hrun1⟩ := bind_eq_ok.mp hrun
    obtain ⟨v, s2, h2, hrun2⟩ := bind_eq_ok.mp hrun1
    obtain ⟨kind, s3, h3, hrun3⟩ := bind_eq_ok.mp hrun2
    obtain ⟨-, rfl⟩ := (compute_eq_ok (x := s1.analysis.symbol id)).mp h2
    obtain ⟨-, rfl⟩ := compute_eq_ok.mp h3
    obtain rfl : s3 = s := by
      generalize loopVar.symbol = symbol at h1
      cases symbol <;> cases h1
      rfl
    have hrange : Flows .normal loop (startRange head id kind first last >>= fun x =>
        repeatRange id kind x.1 x.2 fun labels => body.generate head (some labels)) :=
      .of_touches (fun _ hloop => .bind
        (Built.touched fun _ => .startRange _ _ _ _ ⟨trivial, trivial⟩) fun _ =>
          (Flows.repeatRange _ _ _ _ fun labels => ih (some labels)).touched hloop
            (List.Subset.refl _)) nofun
    exact ⟨nofun, (hrange.inScope hrun3 hloop).touches⟩
  | ret _ value =>
    refine .of_touches (fun _ _ => Built.touched fun _ => .generateReturn head value)
      fun s _ s' hrun _ _ => ?_
    cases value with
    | none => exact reachable_of_terminal hrun rfl
    | some value =>
      obtain ⟨_, s1, -, hrun⟩ := bind_eq_ok.mp hrun
      obtain ⟨_, s2, -, hrun⟩ := bind_eq_ok.mp hrun
      obtain ⟨_, s3, -, hrun⟩ := bind_eq_ok.mp hrun
      obtain ⟨_, s4, -, hrun⟩ := bind_eq_ok.mp hrun
      exact reachable_of_terminal hrun rfl
  | leave _ | next _ =>
    intro s _ s' hrun _
    obtain ⟨labels, s1, h1, hjump⟩ := bind_eq_ok.mp hrun
    cases loop with
    | none => cases h1
    | some labels =>
      cases h1
      exact ⟨fun _ => reachable_of_terminal hjump rfl, Built.touches
        (fun _ => .jump (by simp [targets, Stmt.flow])) hjump⟩
  | assign _ target value =>
    exact Built.flows fun _ => .frame head fun _ _ hf hff =>
      .ofEmit (.generateAssign hf hff value fun _ _ => trivial)
  | expr value => exact Built.flows fun _ => .generateDiscarded head value

end

end StackCompiler

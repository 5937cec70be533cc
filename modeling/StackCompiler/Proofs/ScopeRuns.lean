import StackCompiler.Proofs.Frames

/-!
# Runs of operations on scopes

All scopes stay in one array with a number, and the open ones are told by their numbers. From
outside this is a plain stack of frames, each with its state and its names in the order of
declaration: any sequence of operations gives the same answers.

* `ScopeOp`, `ScopeAnswer`, `ScopeStack.step`: the operations;
* `ScopeStack.step_frames`, `ScopeStack.run_frames`: one step, and a run;
* **`scopes_refine_frames`**: the answers, and what is left after a scope.
-/

namespace StackCompiler

inductive ScopeOp where
  | enter (kind : ScopeKind)
  | declaring
  | analyzing
  | declare (name : String) (symbol : SymbolId)
  | resolve (name : String)
  | exit

inductive ScopeAnswer where
  | done
  | bound (binding : Binding)
  | left (symbols : List SymbolId)
  | failed (error : ScopeError)

/-- The scopes after an operation, and its answer. -/
def ScopeStack.step (s : ScopeStack) : ScopeOp → ScopeStack × ScopeAnswer
  | .enter kind => (s.enter kind, .done)
  | .declaring => (s.setState .declaring, .done)
  | .analyzing => (s.setState .analyzing, .done)
  | .declare name symbol =>
    match s.declare name symbol with
    | .ok s' => (s', .done)
    | .error error => (s, .failed error)
  | .resolve name =>
    match s.resolve name with
    | .ok binding => (s, .bound binding)
    | .error error => (s, .failed error)
  | .exit =>
    match s.exit with
    | .ok (symbols, s') => (s', .left symbols)
    | .error error => (s, .failed error)

/-- The state of a scope, and its names in the order of declaration. -/
abbrev ScopeFrame := ScopeState × List (String × SymbolId)

namespace Frames

/-- What a name is bound to in the innermost frame that has it. -/
def find (name : String) : List ScopeFrame → Option Binding
  | [] => none
  | frame :: outer =>
    match frame.2.lookup name with
    | some symbol => some ⟨symbol, outer.length⟩
    | none => find name outer

def step (frames : List ScopeFrame) : ScopeOp → List ScopeFrame × ScopeAnswer
  | .enter _ => ((.entered, []) :: frames, .done)
  | .declaring => (frames.modifyHead fun frame => (.declaring, frame.2), .done)
  | .analyzing => (frames.modifyHead fun frame => (.analyzing, frame.2), .done)
  | .declare name symbol =>
    match frames with
    | [] => ([], .failed .noScope)
    | (state, names) :: outer =>
      if state = .declaring ∨ state = .analyzing then
        match names.lookup name with
        | some existing => (frames, .failed (.duplicate name existing))
        | none => ((state, names ++ [(name, symbol)]) :: outer, .done)
      else (frames, .failed (.notDeclaring name state))
  | .resolve name =>
    match find name frames with
    | some binding => (frames, .bound binding)
    | none => (frames, .failed (.unresolved name))
  | .exit =>
    match frames with
    | [] => ([], .failed .noScope)
    | frame :: outer => (outer, .left (frame.2.map Prod.snd))

end Frames

namespace ScopeOp

section Runs

variable {σ : Type} (step : σ → ScopeOp → σ × ScopeAnswer)

def after (s : σ) (ops : List ScopeOp) : σ := ops.foldl (fun s op => (step s op).1) s

def answers (s : σ) : List ScopeOp → List ScopeAnswer
  | [] => []
  | op :: ops => (step s op).2 :: answers (step s op).1 ops

end Runs

/-- The number of new scopes that are open after an operation. -/
def opened (n : Nat) : ScopeOp → Nat
  | .enter _ => n + 1
  | .exit => n - 1
  | _ => n

/-- All scopes that are left are new ones, and all new ones are left. -/
def Nested : Nat → List ScopeOp → Prop
  | n, [] => n = 0
  | n, op :: ops => (op = .exit → 0 < n) ∧ Nested (op.opened n) ops

def made : ScopeOp → ScopeAnswer → List SymbolId
  | .declare _ symbol, .done => [symbol]
  | _, _ => []

/-- The symbols that are declared while no new scope is open. -/
def madeOutside : Nat → List ScopeOp → List ScopeAnswer → List SymbolId
  | n, op :: ops, answer :: rest =>
    (if n = 0 then made op answer else []) ++ madeOutside (op.opened n) ops rest
  | _, _, _ => []

end ScopeOp

open ScopeOp (after answers Nested made madeOutside)

/-! ## The frames of the open scopes -/

namespace ScopeStack

variable {s : ScopeStack}

def toFrames (s : ScopeStack) : List ScopeFrame :=
  s.frames.map fun scope => (scope.state, scope.names)

section

variable (h : s.Valid)
include h

theorem find_frames (name : String) : Frames.find name s.toFrames = s.resolveIn name s.active := by
  have hin (active : List Nat) (hactive : ∀ i ∈ active, i < s.scopes.size) :
      Frames.find name ((active.filterMap (s.scopes[·]?)).map fun scope =>
        (scope.state, scope.names)) = s.resolveIn name active := by
    induction active with
    | nil => rfl
    | cons i outer ih =>
      obtain ⟨hi, houter⟩ := List.forall_mem_cons.mp hactive
      have hlength : (outer.filterMap (s.scopes[·]?)).length = outer.length :=
        List.filterMap_length_eq_length.mpr fun j hj => by simpa using houter j hj
      cases hlookup : s.scopes[i].names.lookup name <;>
        simp only [resolveIn, List.filterMap_cons, Array.getElem?_eq_getElem hi, List.map_cons,
          Frames.find, Option.bind_some, Scope.lookup, List.length_map, hlength, hlookup, ih houter]
  exact hin s.active h.lt

theorem resolve_eq_ok {name : String} {binding : Binding} :
    s.resolve name = .ok binding ↔ Frames.find name s.toFrames = some binding := by
  rw [resolve, find_frames h]
  cases s.resolveIn name s.active with
  | none => constructor <;> intro h <;> cases h
  | some found => constructor <;> intro h <;> cases h <;> rfl

theorem resolve_congr {s' : ScopeStack} (h' : s'.Valid) (heq : s.toFrames = s'.toFrames)
    (name : String) : s.resolve name = s'.resolve name := by
  rw [resolve, resolve, ← find_frames h, ← find_frames h', heq]

theorem toFrames_enter (kind : ScopeKind) :
    (s.enter kind).toFrames = (.entered, []) :: s.toFrames := by
  rw [toFrames, frames_enter h]
  rfl

theorem toFrames_modifyCurrent {f : Scope → Scope} {g : ScopeFrame → ScopeFrame}
    (hg : ∀ scope, ((f scope).state, (f scope).names) = g (scope.state, scope.names)) :
    (s.modifyCurrent f).toFrames = s.toFrames.modifyHead g := by
  rw [toFrames, frames_modifyCurrent h, toFrames]
  cases s.frames with
  | nil => rfl
  | cons scope outer => rw [List.modifyHead_cons, List.map_cons, List.map_cons,
      List.modifyHead_cons, hg]

theorem declare_frames (name : String) (symbol : SymbolId) :
    (s.step (.declare name symbol)).1.Valid ∧ Frames.step s.toFrames (.declare name symbol) =
      ((s.step (.declare name symbol)).1.toFrames, (s.step (.declare name symbol)).2) := by
  cases hs : s.frames with
  | nil =>
    have hdeclare : s.declare name symbol = .error .noScope := by
      rw [declare, current?_eq h, hs]
      rfl
    have hframes : s.toFrames = [] := by rw [toFrames, hs]; rfl
    simp only [step, hdeclare, hframes]
    exact ⟨h, rfl⟩
  | cons scope outer =>
    have hframes : s.toFrames = (scope.state, scope.names) ::
        outer.map fun scope => (scope.state, scope.names) := by rw [toFrames, hs]; rfl
    by_cases hopen : scope.isOpen = true
    · have hstate : scope.state = .declaring ∨ scope.state = .analyzing := by
        simpa [Scope.isOpen] using hopen
      obtain ⟨existing, hlookup, hdeclare⟩ | ⟨hlookup, hdeclare⟩ :=
        declare_cases h hs hopen name symbol
      · have hlookup : scope.names.lookup name = some existing := hlookup
        simp only [step, hdeclare, hframes, Frames.step, if_pos hstate, hlookup]
        exact ⟨h, trivial⟩
      · have hlookup : scope.names.lookup name = none := hlookup
        have hnew := toFrames_modifyCurrent h (f := fun scope =>
          { scope with names := scope.names ++ [(name, symbol)] })
          (g := fun frame => (frame.1, frame.2 ++ [(name, symbol)])) fun _ => rfl
        simp only [step, hdeclare, hnew, hframes, Frames.step, if_pos hstate, hlookup]
        exact ⟨modifyCurrent_valid h _, rfl⟩
    · have hstate : ¬(scope.state = .declaring ∨ scope.state = .analyzing) := by
        simpa [Scope.isOpen] using hopen
      have hdeclare : s.declare name symbol = .error (.notDeclaring name scope.state) := by
        rw [declare, current?_eq h, hs]
        simp only [List.head?_cons, eq_false_of_ne_true hopen, Bool.not_false, if_true]
      simp only [step, hdeclare, hframes, Frames.step, if_neg hstate]
      exact ⟨h, trivial⟩

/-- An operation does the same to the frames and gives the same answer. -/
theorem step_frames (op : ScopeOp) : (s.step op).1.Valid ∧
    Frames.step s.toFrames op = ((s.step op).1.toFrames, (s.step op).2) := by
  have hstate (state : ScopeState) : (s.setState state).Valid ∧
      (s.setState state).toFrames = s.toFrames.modifyHead fun frame => (state, frame.2) :=
    ⟨modifyCurrent_valid h _, toFrames_modifyCurrent h fun _ => rfl⟩
  cases op with
  | enter kind =>
    exact ⟨enter_valid h kind, by rw [step, toFrames_enter h]; rfl⟩
  | declaring => exact ⟨(hstate _).1, by rw [step, (hstate _).2]; rfl⟩
  | analyzing => exact ⟨(hstate _).1, by rw [step, (hstate _).2]; rfl⟩
  | declare name symbol => exact declare_frames h name symbol
  | resolve name =>
    simp only [step, resolve, Frames.step, find_frames h]
    cases s.resolveIn name s.active with
    | none => exact ⟨h, rfl⟩
    | some binding => exact ⟨h, rfl⟩
  | exit =>
    obtain ⟨hs, hexit⟩ | ⟨scope, s', hs, hvalid, hexit⟩ := exit_cases h
    · have hframes : s.toFrames = [] := by rw [toFrames, hs]; rfl
      simp only [step, hexit, hframes]
      exact ⟨h, rfl⟩
    · have hframes : s.toFrames = (scope.state, scope.names) :: s'.toFrames := by
        rw [toFrames, hs]
        rfl
      simp only [step, hexit, hframes]
      exact ⟨hvalid, rfl⟩

theorem run_frames (ops : List ScopeOp) :
    (after step s ops).Valid ∧ after Frames.step s.toFrames ops = (after step s ops).toFrames ∧
      answers Frames.step s.toFrames ops = answers step s ops := by
  induction ops generalizing s with
  | nil => exact ⟨h, rfl, rfl⟩
  | cons op ops ih =>
    obtain ⟨hvalid, hstep⟩ := step_frames h op
    obtain ⟨hvalid', hafter, hanswers⟩ := ih hvalid
    refine ⟨hvalid', ?_, ?_⟩
    · rw [after, List.foldl_cons, hstep]
      exact hafter
    · rw [answers, hstep, hanswers, answers]

end

end ScopeStack

/-! ## Runs inside of a scope -/

namespace Frames

variable {outer : List ScopeFrame}

/-- An operation changes the top frame, or adds one to it or takes it away. -/
theorem step_top (outer : List ScopeFrame) (top : ScopeFrame) (op : ScopeOp) (hop : op ≠ .exit) :
    ∃ upper state new,
    (step (top :: outer) op).1 = upper ++ (state, top.2 ++ new) :: outer ∧
      upper.length = op.opened 0 ∧ new.map Prod.snd = made op (step (top :: outer) op).2 := by
  obtain ⟨state, names⟩ := top
  cases op with
  | enter kind => exact ⟨[(.entered, [])], state, [], by simp [step], rfl, rfl⟩
  | declaring => exact ⟨[], .declaring, [], by simp [step], rfl, rfl⟩
  | analyzing => exact ⟨[], .analyzing, [], by simp [step], rfl, rfl⟩
  | declare name symbol =>
    unfold step
    dsimp only
    split_ifs
    · split
      · exact ⟨[], state, [], by simp, rfl, rfl⟩
      · exact ⟨[], state, [(name, symbol)], rfl, rfl, rfl⟩
    · exact ⟨[], state, [], by simp, rfl, rfl⟩
  | resolve name =>
    unfold step
    dsimp only
    split <;> exact ⟨[], state, [], by simp, rfl, rfl⟩
  | exit => exact absurd rfl hop

theorem step_above (upper : List ScopeFrame) (frame : ScopeFrame) (op : ScopeOp)
    (hop : op = .exit → 0 < upper.length) : ∃ upper' state new,
    (step (upper ++ frame :: outer) op).1 = upper' ++ (state, frame.2 ++ new) :: outer ∧
      upper'.length = op.opened upper.length ∧ new.map Prod.snd =
        if upper.length = 0 then made op (step (upper ++ frame :: outer) op).2 else [] := by
  cases upper with
  | nil => exact step_top outer frame op fun h => Nat.lt_irrefl 0 (hop h)
  | cons top upper =>
    by_cases hexit : op = .exit
    · subst hexit
      exact ⟨upper, frame.1, [], by simp [step], rfl, rfl⟩
    · obtain ⟨upper', state, new, hstep, hlength, -⟩ :=
        step_top (upper ++ frame :: outer) top op hexit
      refine ⟨upper' ++ (state, top.2 ++ new) :: upper, frame.1, [], ?_, ?_, rfl⟩
      · rw [List.cons_append, hstep]
        simp
      · rw [List.length_append, hlength]
        cases op with
        | exit => exact absurd rfl hexit
        | _ => simp [ScopeOp.opened, Nat.add_comm]

/-- Operations inside of a scope only add the names that they declare there. -/
theorem run_above (ops : List ScopeOp) (upper : List ScopeFrame) (frame : ScopeFrame)
    (h : Nested upper.length ops) : ∃ state new,
    after step (upper ++ frame :: outer) ops = (state, frame.2 ++ new) :: outer ∧ new.map Prod.snd =
        madeOutside upper.length ops (answers step (upper ++ frame :: outer) ops) := by
  induction ops generalizing upper frame with
  | nil =>
    obtain rfl := List.eq_nil_of_length_eq_zero h
    exact ⟨frame.1, [], by simp [after], rfl⟩
  | cons op ops ih =>
    obtain ⟨upper', state, new, hstep, hlength, hnew⟩ := step_above upper frame op h.1
    obtain ⟨state', new', hafter, hnew'⟩ := ih upper' (state, frame.2 ++ new) (hlength ▸ h.2)
    refine ⟨state', new ++ new', ?_, ?_⟩
    · rw [after, List.foldl_cons, hstep, ← List.append_assoc]
      exact hafter
    · rw [List.map_append, hnew, hnew', answers, madeOutside, hstep, hlength]

theorem find_eq_some {name : String} {frames : List ScopeFrame} {binding : Binding} :
    find name frames = some binding ↔ ∃ inner frame outer, frames = inner ++ frame :: outer ∧
      (∀ other ∈ inner, other.2.lookup name = none) ∧
      frame.2.lookup name = some binding.symbol ∧ binding.depth = outer.length := by
  induction frames with
  | nil => simp [find]
  | cons frame frames ih =>
    rw [find]
    cases hlookup : frame.2.lookup name with
    | some symbol =>
      refine ⟨fun h => ?_, ?_⟩
      · cases h
        exact ⟨[], frame, frames, rfl, List.forall_mem_nil _, hlookup, rfl⟩
      · rintro ⟨_ | ⟨_, inner⟩, frame', outer, heq, hinner, hfound, hdepth⟩ <;> cases heq
        · cases hlookup.symm.trans hfound
          exact congrArg (fun depth => some (Binding.mk _ depth)) hdepth.symm
        · cases hlookup.symm.trans (hinner _ List.mem_cons_self)
    | none =>
      refine ih.trans ⟨?_, ?_⟩
      · rintro ⟨inner, frame', outer, rfl, hinner, hfound⟩
        exact ⟨frame :: inner, frame', outer, rfl, List.forall_mem_cons.mpr ⟨hlookup, hinner⟩,
          hfound⟩
      · rintro ⟨_ | ⟨_, inner⟩, frame', outer, heq, hinner, hfound⟩ <;> cases heq
        · cases hlookup.symm.trans hfound.1
        · exact ⟨inner, frame', outer, rfl, (List.forall_mem_cons.mp hinner).2, hfound⟩

end Frames

/-- Leaving a scope gives what was declared in it, and the frames around it are as before. -/
theorem ScopeStack.exit_frames {s : ScopeStack} (h : s.Valid) (kind : ScopeKind)
    {inner : List ScopeOp} (hinner : Nested 0 inner) :
    let t := after step (s.enter kind) inner
    (t.step .exit).1.Valid ∧ (t.step .exit).1.toFrames = s.toFrames ∧
      (t.step .exit).2 = .left (madeOutside 0 inner (answers step (s.enter kind) inner)) := by
  intro t
  obtain ⟨hvalid, hafter, hanswers⟩ := run_frames (enter_valid h kind) inner
  rw [toFrames_enter h] at hafter hanswers
  obtain ⟨state, new, hframes, hnew⟩ := Frames.run_above inner [] (.entered, []) hinner
  obtain ⟨hvalid', hstep⟩ := step_frames hvalid .exit
  rw [← hafter, ← List.nil_append (_ :: _), hframes] at hstep
  refine ⟨hvalid', (Prod.mk.inj hstep).1.symm, (Prod.mk.inj hstep).2.symm.trans ?_⟩
  rw [← hanswers]
  exact congrArg ScopeAnswer.left hnew

/-- **The scopes are a stack of frames.** -/
theorem scopes_refine_frames (ops : List ScopeOp) :
    let s := after ScopeStack.step .empty ops
    let frames := after Frames.step [] ops
    answers ScopeStack.step .empty ops = answers Frames.step [] ops ∧
    (∀ name binding, s.resolve name = .ok binding ↔ ∃ inner frame outer,
      frames = inner ++ frame :: outer ∧ (∀ other ∈ inner, other.2.lookup name = none) ∧
      frame.2.lookup name = some binding.symbol ∧ binding.depth = outer.length) ∧
    (∀ name symbol error, (s.step (.declare name symbol)).2 = .failed error →
      (s.step (.declare name symbol)).1 = s) ∧
    ∀ kind inner, Nested 0 inner →
      let t := after ScopeStack.step (s.enter kind) inner
      (t.step .exit).2 =
        .left (madeOutside 0 inner (answers ScopeStack.step (s.enter kind) inner)) ∧
      ∀ name, (t.step .exit).1.resolve name = s.resolve name := by
  intro s frames
  obtain ⟨hvalid, hafter, hanswers⟩ := ScopeStack.run_frames ScopeStack.empty_valid ops
  have hframes : s.toFrames = frames := hafter.symm
  refine ⟨hanswers.symm, fun name binding => ?_, fun name symbol error => ?_,
    fun kind inner hinner => ?_⟩
  · rw [ScopeStack.resolve_eq_ok hvalid, hframes, Frames.find_eq_some]
  · rw [ScopeStack.step]
    cases s.declare name symbol with
    | ok s' => exact fun h => by cases h
    | error _ => exact fun _ => rfl
  · obtain ⟨hvalid', hsame, hanswer⟩ := ScopeStack.exit_frames hvalid kind hinner
    exact ⟨hanswer, ScopeStack.resolve_congr hvalid' hvalid hsame⟩

end StackCompiler

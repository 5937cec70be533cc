import StackCompiler.Proofs.Completeness
import StackCompiler.Proofs.UnitClasses

/-!
# Making code again

Making code of a unit gives slots to its variables. Made again with these slots in place, the code
is the same: a slot that is read has been given before, and each variable gets the slot that it has.

* **`generate_again`**: code made again is the same, and a listing shows the classes in the files.
-/

namespace StackCompiler

variable {a : Analysis} {J : List LabelId} {W : Subject → Prop}

/-! ## Writing -/

/-- **Code is written in the same way with more slots**, unless a variable is used too early. -/
theorem Emit.Built.again {α : Type} {m m' : Emit α} (h : Built a W J m m') (b : CodeBuffer) :
    Except.Repeats (m b) (m' b) := by
  induction h generalizing b with
  | pure | throw | instruction | branch | about | place => exact .inr rfl
  | early he => exact .inl ⟨_, rfl, he⟩
  | withLabel _ ih => exact .bind (x := Emit.newLabel b) (.inr rfl) fun p => ih p.1 p.2
  | call _ _ _ _ ih => exact .bind (ih b) fun _ => .inr rfl
  | bind _ _ ihm ihk => exact .bind (ihm b) fun p => ihk p.1 p.2

/-! ## Making methods -/

theorem assignSlot_of_slot {id : SymbolId} {slot : Nat}
    (h : (a.symbols[id]?).bind Symbol.slot = some slot) : a.assignSlot id slot = .ok a := by
  obtain ⟨symbol, hx, hslot⟩ := Option.bind_eq_some_iff.mp h
  have hsame : { symbol with slot := some slot } = symbol := by rw [← hslot]
  have hset : a.symbols.setIfInBounds id symbol = a.symbols := Array.ext_getElem? (by grind)
  simp only [Analysis.assignSlot, hx, hslot, if_true, hsame, hset]

/-- A symbol keeps the slot that it is given, and if it has another one, then it always has. -/
theorem assignSlot_again (a : Analysis) (id : SymbolId) (slot : Nat) :
    (∃ a1, a.assignSlot id slot = .ok a1 ∧ a.Fills a1 ∧
      ∀ a2, a1.Fills a2 → a2.assignSlot id slot = .ok a2) ∨
    ∃ e, a.assignSlot id slot = .error e ∧ ∀ a2, a.Fills a2 → a2.assignSlot id slot = .error e := by
  cases hx : a.symbols[id]? with
  | none =>
    have hnone {a2 : Analysis} (h : a2.symbols[id]? = none) : a2.assignSlot id slot = .ok a2 := by
      rw [Analysis.assignSlot, h]
    exact .inl ⟨a, hnone hx, .refl a, fun a2 h => hnone (by simpa [hx] using h.same.symbols id)⟩
  | some symbol =>
    by_cases hother : ∃ existing, symbol.slot = some existing ∧ existing ≠ slot
    · obtain ⟨existing, hslot, hne⟩ := hother
      refine .inr ⟨⟨symbol.name, existing, slot⟩, ?_, fun a2 h => ?_⟩
      · simp only [Analysis.assignSlot, hx, hslot, if_neg hne]
      · obtain ⟨symbol2, hx2, hsame⟩ := h.same.symbol hx
        have hslot2 : symbol2.slot = some existing := by
          simpa [hx2] using h.slots id existing (by simpa [hx] using hslot)
        simp only [Analysis.assignSlot, hx2, hslot2, if_neg hne, hsame.name]
    · have hok : a.assignSlot id slot = .ok { a with
          symbols := a.symbols.setIfInBounds id { symbol with slot := some slot } } := by
        unfold Analysis.assignSlot
        grind
      have hlt := (Array.getElem?_eq_some_iff.mp hx).1
      refine .inl ⟨_, hok, ⟨assignSlot_sameButSlots hok, fun other n hn => ?_⟩, fun a2 h => ?_⟩
      · rw [Array.getElem?_setIfInBounds]
        split_ifs with heq
        · subst heq
          rw [hx, Option.bind_some] at hn
          have : n = slot := by_contra fun hne => hother ⟨n, hn, hne⟩
          rw [this]
          rfl
        · exact hn
      · refine assignSlot_of_slot (h.slots id slot ?_)
        rw [Array.getElem?_setIfInBounds, if_pos rfl, if_pos hlt]
        rfl

def GenState.filled (s : GenState) (a : Analysis) : GenState := { s with analysis := a }

namespace Generate

abbrev Outcome (α : Type) := EStateM.Result GenerateError GenState α

namespace Outcome

variable {α : Type}

def state : Outcome α → GenState
  | .ok _ s | .error _ s => s

def filled (a : Analysis) : Outcome α → Outcome α
  | .ok c s => .ok c (s.filled a)
  | .error e s => .error e (s.filled a)

def IsEarly (r : Outcome α) : Prop := ∃ e s, r = .error e s ∧ e.isEarly = true

end Outcome

/-- The first step only gives slots, and the second one ends in the same way with these from the
start; or the first one uses a variable too early. -/
def Again {α : Type} (m m' : Generate α) (s : GenState) : Prop :=
  Outcome.IsEarly (m s) ∨ s.analysis.Fills (Outcome.state (m s)).analysis ∧
    ∀ a, (Outcome.state (m s)).analysis.Fills a → m' (s.filled a) = Outcome.filled a (m s)

section

variable {α β : Type} {m : Generate α} {k : α → Generate β} {s s' : GenState}

theorem bind_of_ok {c : α} (h : m s = .ok c s') : (m >>= k) s = k c s' := by
  show EStateM.bind m k s = _
  rw [EStateM.bind, h]

theorem bind_of_error {e : GenerateError} (h : m s = .error e s') : (m >>= k) s = .error e s' := by
  show EStateM.bind m k s = _
  rw [EStateM.bind, h]

end

namespace Again

variable {α β : Type} {s : GenState}

theorem blind {m m' : Generate α} (hs : (Outcome.state (m s)).analysis = s.analysis)
    (h : ∀ a, m' (s.filled a) = Outcome.filled a (m s)) : Again m m' s :=
  .inr ⟨hs ▸ .refl _, fun a _ => h a⟩

theorem compute (x : Except GenerateError α) :
    Again (Generate.compute x) (Generate.compute x) s := by
  cases x <;> exact blind rfl fun _ => rfl

theorem bind {m m' : Generate α} {k k' : α → Generate β} (hm : Again m m' s)
    (hk : ∀ c s', m s = .ok c s' → s.analysis.Fills s'.analysis → Again (k c) (k' c) s') :
    Again (m >>= k) (m' >>= k') s := by
  rcases hm with ⟨e, s1, he, hearly⟩ | ⟨hfills, hagain⟩
  · exact .inl ⟨e, s1, bind_of_error he, hearly⟩
  unfold Again
  cases hrun : m s with
  | error e s1 =>
    rw [hrun] at hfills hagain
    rw [bind_of_error hrun]
    exact .inr ⟨hfills, fun a ha => bind_of_error (hagain a ha)⟩
  | ok c s1 =>
    rw [hrun] at hfills hagain
    rw [bind_of_ok hrun]
    refine (hk c s1 hrun hfills).imp_right fun h => ⟨hfills.trans h.1, fun a ha => ?_⟩
    rw [bind_of_ok (hagain a (h.1.trans ha))]
    exact h.2 a ha

/-- What is seen of the state may depend on slots, if that makes no difference to the step. -/
theorem withState {k : GenState → Generate α}
    (h : ∀ a, s.analysis.Fills a → Again (k s) (k (s.filled a)) s) :
    Again (do k (← get)) (do k (← get)) s := by
  by_cases hearly : Outcome.IsEarly (k s s)
  · exact .inl hearly
  · have hfills := ((h _ (.refl _)).resolve_left hearly).1
    exact .inr ⟨hfills, fun a ha => ((h a (hfills.trans ha)).resolve_left hearly).2 a ha⟩

end Again

variable {α : Type} {a : Analysis} {s : GenState}

/-- **What is built from steps of making methods ends in the same way again.** -/
theorem Built.again {m m' : Generate α} (h : Built a W J m m') (hs : a.SameButSlots s.analysis) :
    Again m m' s := by
  induction h generalizing s with
  | pure | throw | isReachable | openSlots | defer => exact .blind rfl fun _ => rfl
  | compute x => exact .compute x
  | @ofEmit _ _ m m' h =>
    rcases h.again s.code with ⟨e, he, hearly⟩ | heq
    · exact .inl ⟨e, s, by rw [Generate.ofEmit, he], hearly⟩
    · refine .blind ?_ fun a => ?_ <;> simp only [Generate.ofEmit, GenState.filled, heq] <;>
        cases m s.code <;> rfl
  | withLabel _ ih =>
    exact .bind (.blind rfl fun _ => rfl) fun l s' _ hfills => ih l (hs.trans hfills.same)
  | allocate kind =>
    refine .blind ?_ fun a => ?_ <;> simp only [Generate.allocate, GenState.filled] <;>
      cases s.slots.allocate kind <;> rfl
  | closeSlots =>
    refine .blind ?_ fun a => ?_ <;> simp only [Generate.closeSlots, GenState.filled] <;>
      cases s.slots.closeScope <;> rfl
  | assignSlot id slot =>
    unfold Again Generate.assignSlot
    rcases assignSlot_again s.analysis id slot with ⟨a1, hrun, hfills, hagain⟩ | ⟨e, hrun, hagain⟩
    · rw [hrun]
      exact .inr ⟨hfills, fun a ha => by simp only [GenState.filled, hagain a ha]; rfl⟩
    · rw [hrun]
      exact .inr ⟨.refl _, fun a ha => by simp only [GenState.filled, hagain a ha]; rfl⟩
  | withAnalysis _ ih => exact .withState fun a ha => ih _ _ hs ha hs
  | bind _ _ ihm ihk =>
    exact .bind (ihm hs) fun c s' _ hfills => ihk c (hs.trans hfills.same)

theorem generateMethod_again (id : FnId) (params : List Param) (body : List Stmt)
    (hs : a.SameButSlots s.analysis) :
    Again (generateMethod id params body) (generateMethod id params body) s := by
  unfold generateMethod
  refine .bind (.blind rfl fun _ => rfl) fun _ s1 _ h1 => .bind
    ((allocateParams_built params).again (hs.trans h1.same)) fun _ s2 _ h2 => ?_
  have hs2 := (hs.trans h1.same).trans h2.same
  refine .withState fun a2 ha2 => ?_
  rw [GenState.filled, ha2.same.function]
  refine .bind (.compute _) fun info s3 _ h3 => .bind
    ((allocateCaptures_built info.captures []).again (hs2.trans h3.same)) fun captures s4 _ h4 => ?_
  have hs4 := (hs2.trans h3.same).trans h4.same
  refine .bind ((Stmt.generateBody_built ⟨id, captures⟩ body).again hs4) fun _ s5 _ h5 =>
    .bind ((endMethod_built info).again (hs4.trans h5.same)) fun _ s6 _ _ =>
      .withState fun a6 ha6 => ?_
  rw [show methodHeader (s6.filled a6).analysis id = methodHeader s6.analysis id by
    unfold methodHeader; rw [GenState.filled, ha6.same.methodRef]]
  exact .bind (.compute _) fun _ _ _ _ => .compute _

/-- **Steps that describe classes and make methods end in the same way again.** -/
theorem Made.again {m : Generate α} (h : Made a m) (hs : a.SameButSlots s.analysis) :
    Again m m s := by
  induction h generalizing s with
  | pure | throw | send => exact .blind rfl fun _ => rfl
  | constructor record fields =>
    exact .withState fun _ _ => .bind (.compute _) fun _ _ _ _ => .blind rfl fun _ => rfl
  | method id params body =>
    exact .bind (generateMethod_again id params body hs) fun m s' _ _ => .blind rfl fun _ => rfl
  | nextPending =>
    obtain ⟨analysis, pending, requests, methods, code, slots⟩ := s
    cases pending <;> exact .blind rfl fun _ => rfl
  | withAnalysis _ hk ih =>
    refine .withState fun a' ha' => ?_
    rw [hk _ hs, hk (s.filled a').analysis (hs.trans ha'.same)]
    exact ih hs
  | bind _ _ ihm ihk => exact .bind (ihm hs) fun c s' _ h => ihk c (hs.trans h.same)

end Generate

/-! ## Units -/

def GenState.unstarted (a : Analysis) : GenState :=
  ⟨a, [], #[], #[], .start (some maxWords), .start (some maxWords) 0⟩

theorem generate_of_run (unit : SourceUnit) (hok : a.isOk = true) :
    (∀ u s, generateUnit unit (.unstarted a) = .ok u s →
      generate unit a = ⟨s.requests.toList, s.methods.toList, s.analysis, none⟩) ∧
    ∀ e s, generateUnit unit (.unstarted a) = .error e s →
      generate unit a = ⟨s.requests.toList, s.methods.toList, s.analysis, some e⟩ := by
  unfold generate generateUpTo GenState.unstarted
  rw [if_neg (by simp [hok])]
  refine ⟨fun u s h => ?_, fun e s h => ?_⟩ <;> rw [h]

/-- **Making code again changes nothing**: it gives the same requests and methods, or the same
error, and leaves the slots as they are. So a listing shows the classes that the files are made
of. -/
theorem generate_again {name source : String} {unit : SourceUnit} {a : Analysis}
    (h : Accepted name source unit a) :
    generate unit (generate unit a).analysis = generate unit a ∧
      ∀ options a' emitted, options.emitIr = true → emitUnit unit a options = (a', .ok emitted) →
        a' = (generate unit a).analysis ∧ ∃ classes : List ClassFile,
          (generate unit a).requests = classes.flatMap ClassFile.requests ∧
          emitted.artifacts = Assembly.artifacts ⟨classes.toArray, .idle⟩ options.format ++
            [⟨unitClassName unit.name ++ ".ir", Assembly.listing ⟨classes.toArray, .idle⟩⟩] := by
  have hagain : generate unit (generate unit a).analysis = generate unit a := by
    obtain ⟨hdone, hstopped⟩ := generate_of_run unit h.ok
    have hok {a' : Analysis} (ha' : a.Fills a') : a'.isOk = true := by
      rw [ha'.same.rest]
      exact h.ok
    rcases (Generate.Made.generateUnit unit).again (s := .unstarted a) (.refl a) with
      ⟨e, s, he, hearly⟩ | ⟨hfills, hsame⟩
    · obtain ⟨_, -, -, -, hends⟩ := @generateUpTo_ends unit a (some maxWords) h.sound h.ok rfl
      have herror : (generateUpTo (some maxWords) unit a).error = some e :=
        congrArg Generated.error (hstopped e s he)
      rcases hends with ⟨hnone, -⟩ | ⟨e', he', hlarge, -⟩
      · cases hnone.symm.trans herror
      · cases he'.symm.trans herror
        rcases hlarge with ⟨-, hsize⟩ | ⟨_, _, -, -, rfl⟩
        · cases e <;> first | cases hsize | cases hearly
        · cases hearly
    · cases hrun : generateUnit unit (.unstarted a) with
      | ok u s =>
        rw [hrun] at hfills hsame
        rw [hdone u s hrun]
        exact (generate_of_run unit (hok hfills)).1 u s (hsame s.analysis (.refl _))
      | error e s =>
        rw [hrun] at hfills hsame
        rw [hstopped e s hrun]
        exact (generate_of_run unit (hok hfills)).2 e s (hsame s.analysis (.refl _))
  refine ⟨hagain, fun options a' emitted hlisted hemit => ?_⟩
  dsimp only [emitUnit] at hemit
  split at hemit
  · cases hemit
  · rename_i assembly hassembly
    rw [if_pos hlisted, hagain] at hemit
    split at hemit
    · cases hemit
    · rename_i listed hlisting
      cases hemit
      obtain ⟨herror, haccept⟩ := Generated.assemble_accepted hassembly
      obtain ⟨-, haccept'⟩ := Generated.assemble_accepted hlisting
      obtain ⟨classes, hrequests, -⟩ := generate_classes herror
      rw [hrequests] at haccept haccept'
      have hall := Assembly.acceptAll_classes haccept
      have hall' := Assembly.acceptAll_classes haccept'
      rw [Array.empty_append] at hall hall'
      exact ⟨rfl, classes, hrequests, by rw [hall, hall']⟩

/-- A unit with variables that share a slot, and one that control does not get to. -/
def scopesSource : String :=
  "if (true) \x7bvar x = 1; print(x);\x7d else \x7bvar y = 2.5; print(y);\x7d
while (true) \x7bbreak; var z = 3; print(z);\x7d"

theorem scopes_again : ∃ unit a, Accepted "scopes" scopesSource unit a ∧
    generate unit (generate unit a).analysis = generate unit a := by
  obtain ⟨unit, a, h, -⟩ := exists_accepted (show isAccepted "scopes" scopesSource
    (fun unit a => (generate unit a).methods.length == 1) = true by decide +kernel)
  exact ⟨unit, a, h, (generate_again h).1⟩

end StackCompiler

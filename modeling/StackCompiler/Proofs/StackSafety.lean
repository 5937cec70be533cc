import Mathlib.Data.List.Induction
import StackCompiler.Codegen.Classes
import StackCompiler.Proofs.StackAccepts
import StackCompiler.Proofs.Writing

/-!
# Stack safety of generated methods

Every method that is handed on has been written into a buffer and checked. So its paths find their
operands, stay inside the code and the frame, end at returns, and its size of the operand stack is
the exact one.

* **`generated_methods_stackSafe`**: every method of a unit for which code is made is safe.
-/

namespace StackCompiler

open Generate List

variable {a : Analysis} {id : FnId} {fields : List (String × JvmType)} {xs : List Request}
  {m : Method} {header : MethodHeader} {limit : Option Nat} {record : RecordInfo} {r : Request}
  {body : List Stmt} {params : List Param} {s s' : GenState}

/-! ## One method -/

/-- What holds on every path through a method from its first instruction with an empty stack. -/
structure MethodBody.StackSafe (m : MethodBody) (ret : Option Kind) : Prop where
  /-- Control is at an instruction, which finds its operands on the stack. -/
  operands : ∀ pos stack, Reaches m.code pos stack →
    ∃ i rest, m.code[pos]? = some i ∧ stack = i.effect.pops.reverse ++ rest
  /-- Control neither jumps nor goes on to a place outside the code. -/
  inside : ∀ pos stack i, Reaches m.code pos stack → m.code[pos]? = some i →
    (∀ target, i.target? = some target → ∃ next, target = .index next ∧ next < m.code.size) ∧
      (i.isTerminal = false → pos + 1 < m.code.size)
  /-- A path that cannot go on is at a return of the result. -/
  ends : ∀ pos stack, Reaches m.code pos stack →
    (∀ next, ¬ StackStep m.code (pos, stack) next) → m.code[pos]? = some (.ret ret)
  returns : ∀ pos stack kind, Reaches m.code pos stack → m.code[pos]? = some (.ret kind) →
    kind = ret
  /-- Only slots of the frame are touched. -/
  locals : ∀ pos stack i, Reaches m.code pos stack → m.code[pos]? = some i →
    i.slotsBelow m.limits.maxLocals
  /-- The stack is never deeper than the size of the operand stack says. -/
  depth : ∀ pos stack, Reaches m.code pos stack → totalWords stack ≤ m.limits.maxStack
  /-- Some path has a stack of that size. -/
  attained : ∃ pos stack, Reaches m.code pos stack ∧ totalWords stack = m.limits.maxStack

theorem exists_goesTo_or_ret {code : Array Instruction} {pos : Nat} {i : Instruction}
    {stack : KindStack} (h : Fits code pos i stack) :
    (∃ next, i.GoesTo pos next) ∨ ∃ kind, i = .ret kind := by
  cases ht : i.isTerminal with
  | false => exact .inl ⟨pos + 1, .inr ⟨ht, rfl⟩⟩
  | true =>
    cases i with
    | goto target =>
      obtain ⟨next, rfl, _⟩ := h.jumps target rfl
      exact .inl ⟨next, .inl rfl⟩
    | ret kind => exact .inr ⟨kind, rfl⟩
    | _ => cases ht

/-- **A finished method is safe, and its operand stack is within the limit.** -/
theorem finishMethod_safe {origin : MethodOrigin} {ret : Option Kind} {code : CodeBuffer}
    {slots : SlotAllocator} (h : finishMethod origin header ret code slots = .ok m)
    (hcode : code.Tracked) (hlimit : exceeds code.limit 2 = false) :
    m.body.header = header ∧ m.body.StackSafe ret ∧
      exceeds code.limit m.body.limits.maxStack = false := by
  unfold finishMethod at h
  cases hf : code.finish with
  | error e => simp only [hf] at h; cases h
  | ok out =>
  obtain ⟨final, depth⟩ := out
  obtain ⟨rfl, hfin⟩ := CodeBuffer.finish_eq_ok.mp hf
  simp only [hf] at h
  cases hv : verifyUpTo code.limit final ⟨code.maxDepth, slots.max⟩ ret with
  | error e => simp only [hv] at h; cases h
  | ok u =>
  simp only [hv] at h
  cases h
  obtain ⟨⟨sim, hsim, -⟩, hcheck⟩ := verifyUpTo_eq_ok.mp hv
  have hk := (simulateUpTo_counts hsim).2.2 rfl
  obtain ⟨hle, hdepth, hattained⟩ := hcode.maxDepth hfin hk hlimit
  refine ⟨rfl, ⟨fun pos stack hr => ?_, fun pos stack i hr hi => ?_, fun pos stack hr hend => ?_,
    fun pos stack kind _ hi => (hcheck pos _ hi).2 kind rfl,
    fun pos stack i _ hi => (hcheck pos i hi).1, hdepth, hattained⟩, hle⟩
  · obtain ⟨i, hi, hfit⟩ := hk.fits pos stack hr
    obtain ⟨rest, hrest⟩ := hfit.operands
    exact ⟨i, rest, hi, hrest⟩
  · obtain ⟨j, hj, hfit⟩ := hk.fits pos stack hr
    cases hj.symm.trans hi
    exact ⟨hfit.jumps, hfit.goesOn⟩
  · obtain ⟨i, hi, hfit⟩ := hk.fits pos stack hr
    rcases exists_goesTo_or_ret hfit with ⟨next, hnext⟩ | ⟨kind, rfl⟩
    · obtain ⟨rest, rfl⟩ := hfit.operands
      exact absurd (.step hi hnext) (hend _)
    · rw [← (hcheck pos _ hi).2 kind rfl]
      exact hi

/-! ## Descriptions of classes -/

/-- The request describes no part of a method. -/
def Request.outsideMethods : Request → Prop
  | .beginClass _ | .addField _ | .endClass => True
  | .beginMethod _ | .emit _ | .endMethod _ => False

/-- Requests that describe whole methods with a property, and the classes around them. -/
inductive Described (P : MethodBody → Prop) : List Request → Prop
  | nil : Described P []
  | other {requests : List Request} {r : Request} (h : Described P requests)
      (hr : r.outsideMethods) : Described P (requests ++ [r])
  | method {requests : List Request} {m : MethodBody} (h : Described P requests) (hm : P m) :
      Described P (requests ++ m.requests)

theorem beginMethod_append_inj {header' : MethodHeader} {is is' : List Instruction}
    {ys : List Request}
    (h : xs ++ .beginMethod header :: is.map .emit = ys ++ .beginMethod header' :: is'.map .emit) :
    header = header' ∧ is = is' := by
  have hcut {header header' : MethodHeader} {is is' : List Instruction} {zs : List Request}
      (h : Request.beginMethod header :: is.map .emit =
        zs ++ .beginMethod header' :: is'.map .emit) : header = header' ∧ is = is' := by
    cases zs with
    | nil =>
      obtain ⟨hh, his⟩ := List.cons.inj h
      exact ⟨Request.beginMethod.inj hh,
        map_injective_iff.mpr (fun _ _ he => Request.emit.inj he) his⟩
    | cons z zs =>
      have hmem : Request.beginMethod header' ∈ is.map Request.emit := by
        rw [(List.cons.inj h).2]
        exact mem_append_right _ mem_cons_self
      obtain ⟨i, _, hi⟩ := mem_map.mp hmem
      cases hi
  rcases append_eq_append_iff.mp h with ⟨zs, _, hz⟩ | ⟨zs, _, hz⟩
  · exact hcut hz
  · exact (hcut hz).imp Eq.symm Eq.symm

theorem requests_suffix_concat {m : MethodBody} (h : m.requests <:+ xs ++ [r]) :
    r = .endMethod m.limits ∧ .beginMethod m.header :: m.code.toList.map .emit <:+ xs := by
  obtain ⟨ys, hys⟩ := h
  rw [MethodBody.requests, ← cons_append, ← append_assoc] at hys
  obtain ⟨hxs, hr⟩ := append_inj' hys rfl
  exact ⟨(List.cons.inj hr).1.symm, ys, hxs⟩

theorem requests_infix_concat {m : MethodBody} (hr : r ≠ .endMethod m.limits)
    (h : m.requests <:+: xs ++ [r]) : m.requests <:+: xs := by
  rcases infix_concat_iff.mp h with h | h
  · exact absurd (requests_suffix_concat h).1 hr
  · exact h

theorem Described.holds_of_mem {P : MethodBody → Prop} {requests : List Request}
    (h : Described P requests) {m : MethodBody} (hm : m.requests <:+: requests) : P m := by
  induction h with
  | nil =>
    rw [infix_nil] at hm
    cases hm
  | other _ hr ih =>
    refine ih (requests_infix_concat ?_ hm)
    rintro rfl
    exact hr
  | @method requests m' _ hm' ih =>
    have hsplit : requests ++ m'.requests =
        (requests ++ .beginMethod m'.header :: m'.code.toList.map .emit) ++
          [.endMethod m'.limits] := by simp [MethodBody.requests]
    rw [hsplit] at hm
    rcases infix_concat_iff.mp hm with hs | hi
    · obtain ⟨hlimits, ys, hys⟩ := requests_suffix_concat hs
      obtain ⟨hheader, hcode⟩ := beginMethod_append_inj hys
      have heq : m = m' := by
        cases m
        cases m'
        cases hheader
        cases Array.toList_inj.mp hcode
        cases hlimits
        rfl
      exact heq ▸ hm'
    · -- no request of the other method but its last one can end this one
      have hdrop (is : List Instruction) (h : m.requests <:+: requests ++ .beginMethod m'.header ::
          is.map .emit) : m.requests <:+: requests := by
        induction is using List.reverseRecOn with
        | nil => exact requests_infix_concat (by nofun) h
        | append_singleton is i ihi =>
          refine ihi (requests_infix_concat (r := .emit i) (by nofun) ?_)
          simpa using h
      exact ih (hdrop _ hi)

/-! ## Making methods -/

/-- From states with a property, a step gets only to such states, and its result has one. -/
def Generate.Ensures {α : Type} (I : GenState → Prop) (m : Generate α) (Q : α → Prop) : Prop :=
  ∀ ⦃s a s'⦄, I s → m s = .ok a s' → I s' ∧ Q a

namespace Generate.Ensures

variable {α β : Type} {I : GenState → Prop} {Q : α → Prop} {R : β → Prop}

theorem bind {m : Generate α} {f : α → Generate β} (hm : Ensures I m Q)
    (hf : ∀ a, Q a → Ensures I (f a) R) : Ensures I (m >>= f) R := by
  intro s b s' hs h
  obtain ⟨a, s1, h1, h2⟩ := bind_eq_ok.mp h
  obtain ⟨hs1, ha⟩ := hm hs h1
  exact hf a ha hs1 h2

theorem then_ {m : Generate Unit} {k : Generate β} {Q : Unit → Prop} (hm : Ensures I m Q)
    (hk : Ensures I k R) : Ensures I (do m; k) R := hm.bind fun _ _ => hk

theorem get : Ensures I (MonadState.get : Generate GenState) I := by
  intro s t s' hs h
  obtain ⟨rfl, rfl⟩ := get_eq_ok.mp h
  exact ⟨hs, hs⟩

theorem compute (x : Except GenerateError α) (h : ∀ a, x = .ok a → Q a) :
    Ensures I (compute x) Q := by
  intro s a s' hs hx
  obtain ⟨ha, rfl⟩ := compute_eq_ok.mp hx
  exact ⟨hs, h a ha⟩

theorem pure {a : α} (h : Q a) : Ensures I (pure a) Q := by
  intro s b s' hs hb
  obtain ⟨rfl, rfl⟩ := pure_eq_ok.mp hb
  exact ⟨hs, h⟩

theorem forM {f : β → Generate Unit} (xs : List β)
    (hf : ∀ x ∈ xs, Ensures I (f x) fun _ => True) : Ensures I (xs.forM f) fun _ => True := by
  induction xs with
  | nil => exact .pure trivial
  | cons x xs ih =>
    exact (hf x mem_cons_self).then_ (ih fun y hy => hf y (mem_cons_of_mem _ hy))

end Generate.Ensures

theorem kind?_of_jvmType {ty : Ty} {t : JvmType} (h : a.jvmType ty = .ok t) :
    t.kind? = Kind.ofTy? ty := by
  unfold Analysis.jvmType at h
  split at h
  · rename_i t' ht
    cases h
    cases ty with
    | array | record =>
      obtain ⟨_, _, rfl⟩ := Option.map_eq_some_iff.mp ht
      rfl
    | function | error => cases ht
    | _ => cases ht; rfl
  · cases h

/-- The head of a method says what the function results in; that of `main` has no result. -/
theorem methodHeader_ret {info : FunctionInfo} (h : methodHeader a id = .ok header)
    (hinfo : a.function id = .ok info) :
    Kind.ofTy? info.ret = header.ret.kind? ∨
      id = FnId.main ∧ header.name = "main" ∧ header.ret = .void := by
  unfold methodHeader at h
  split_ifs at h with hid
  · cases h
    exact .inr ⟨hid, rfl, rfl⟩
  · obtain ⟨ref, href, hheader⟩ := Except.bind_eq_ok.mp h
    simp only [Analysis.methodRef, Except.bind_eq_ok, hinfo, Except.ok.injEq] at href
    obtain ⟨_, rfl, params, _, captures, _, ret, hret, hr⟩ := href
    cases hr
    cases hheader
    exact .inl (kind?_of_jvmType hret).symm

/-- The method is safe for the result of its head, or of its function, and its stack is not too
large. -/
def Analysis.SafeMethod (a : Analysis) (m : MethodBody) : Prop :=
  ∃ ret, m.StackSafe ret ∧ m.limits.maxStack ≤ maxWords ∧
    (ret = m.header.ret.kind? ∨
      m.header.name = "main" ∧ m.header.ret = .void ∧
        ∃ info, a.functions[FnId.main]? = some info ∧ ret = Kind.ofTy? info.ret)

/-- While classes are made, the limit stands, the analysis only gets slots, and all methods are
safe. -/
structure Analysis.Making (a : Analysis) (s : GenState) : Prop where
  limit : s.code.limit = some maxWords
  analysis : a.SameButSlots s.analysis
  requests : Described a.SafeMethod s.requests.toList

theorem maxStack_le {n : Nat} (hl : limit = some maxWords) (h : exceeds limit n = false) :
    n ≤ maxWords := by
  subst hl
  simpa [exceeds] using h

theorem exceeds_two (h : limit = some maxWords) : exceeds limit 2 = false := by
  subst h
  rfl

def GenState.begin (s : GenState) (id : FnId) : GenState :=
  { s with
    code := .start s.code.limit
    slots := .start s.code.limit (if id = FnId.main then 1 else 0) }

theorem allocateParams_built (params : List Param) :
    Built a (fun _ => True) [] (allocateParams params) (allocateParams params) := by
  induction params with
  | nil => exact .pure _
  | cons param rest ih =>
    refine .analyzed _ _ fun _ _ => .symbol _ fun _ _ _ _ _ hsame => ?_
    rw [hsame.ty]
    exact (Built.compute _).bind fun _ => (Built.newSlot _ _).bind fun _ => ih

theorem allocateCaptures_built (ids : List SymbolId) (known : List (SymbolId × Nat)) :
    Built a (fun _ => True) [] (allocateCaptures ids known) (allocateCaptures ids known) := by
  induction ids generalizing known with
  | nil => exact .pure _
  | cons id rest ih =>
    refine .symbol _ fun _ _ _ _ _ hsame => ?_
    rw [hsame.ty]
    exact (Built.compute _).bind fun _ => (Built.allocate _).bind fun _ => ih _

theorem endMethod_built (info : FunctionInfo) :
    Built a (fun _ => True) [] (endMethod info) (endMethod info) := by
  refine Built.isReachable.bind fun reachable => ?_
  split
  · split
    · exact .throw _
    · exact .instruction trivial rfl
  · exact .pure _

theorem generateMethod_eq_ok :
    generateMethod id params body s = .ok m s' ↔ ∃ s1 info captures t t' header,
      allocateParams params (s.begin id) = .ok () s1 ∧ s1.analysis.function id = .ok info ∧
      allocateCaptures info.captures [] s1 = .ok captures t ∧
      Stmt.generateList ⟨id, captures⟩ none body t = .ok () t' ∧ endMethod info t' = .ok () s' ∧
      methodHeader s'.analysis id = .ok header ∧
      finishMethod (.function id) header (Kind.ofTy? info.ret) s'.code s'.slots = .ok m := by
  simp only [generateMethod, bind_eq_ok, get_eq_ok, compute_eq_ok]
  constructor
  · rintro ⟨_, _, ⟨⟩, _, s1, h1, _, _, ⟨rfl, rfl⟩, info, _, ⟨hinfo, rfl⟩, captures, t,
      h2, _, t', h3, _, _, h4, _, _, ⟨rfl, rfl⟩, header, _, ⟨hheader, rfl⟩, hfinish, rfl⟩
    exact ⟨_, info, captures, t, t', header, h1, hinfo, h2, h3, h4, hheader, hfinish⟩
  · rintro ⟨s1, info, captures, t, t', header, h1, hinfo, h2, h3, h4, hheader, hfinish⟩
    exact ⟨_, s.begin id, rfl, _, s1, h1, _, _, ⟨rfl, rfl⟩, info, _, ⟨hinfo, rfl⟩,
      captures, t, h2, _,
      t', h3, _, s', h4, _, _, ⟨rfl, rfl⟩, header, _, ⟨hheader, rfl⟩, hfinish, rfl⟩

theorem generateMethod_run (ha : a.SameButSlots s.analysis)
    (h : generateMethod id params body s = .ok m s') :
    (s.begin id).Follows s' ∧ s'.code.Linked a ∧ ∃ info header, s'.analysis.function id = .ok info ∧
      methodHeader s'.analysis id = .ok header ∧
      finishMethod (.function id) header (Kind.ofTy? info.ret) s'.code s'.slots = .ok m := by
  obtain ⟨s1, info, captures, t, t', header, h1, hinfo, h2, h3, h4, hheader, hfinish⟩ :=
    generateMethod_eq_ok.mp h
  have hcode := (Stmt.generateBody_built (a := a) ⟨id, captures⟩ body).then_ (endMethod_built info)
  have hparams := (allocateParams_built params).follows (s := s.begin id) ha h1
  have hsame1 := ha.trans hparams.analysis
  have hcaptures := (allocateCaptures_built info.captures []).follows hsame1 h2
  have hsame := hsame1.trans hcaptures.analysis
  have hrun : (do Stmt.generateList ⟨id, captures⟩ none body; endMethod info : Generate Unit) t =
      .ok _ s' := bind_eq_ok.mpr ⟨_, _, h3, h4⟩
  have hafter := hcaptures.trans (hcode.follows hsame hrun)
  have hlinked := hcode.linked hsame hrun <|
    (allocateCaptures_built info.captures []).linked hsame1 h2 <|
      (allocateParams_built params).linked (s := s.begin id) ha h1 (CodeBuffer.start_linked _ _)
  refine ⟨hparams.trans hafter, hlinked, info, header, ?_, hheader, hfinish⟩
  rw [hafter.analysis.function]
  exact hinfo

theorem generateMethod_safe (ha : a.SameButSlots s.analysis)
    (hroom : exceeds s.code.limit 2 = false) (h : generateMethod id params body s = .ok m s') :
    ∃ ret, m.body.StackSafe ret := by
  obtain ⟨hrun, -, info, header, -, -, hfinish⟩ := generateMethod_run ha h
  have hlimit : s'.code.limit = s.code.limit := hrun.code.keeps.limit
  exact ⟨_, (finishMethod_safe hfinish (hrun.code.tracked (CodeBuffer.start_tracked _))
    (hlimit ▸ hroom)).2.1⟩

theorem generateMethod_ensures (a : Analysis) (id : FnId) (params : List Param) (body : List Stmt) :
    Ensures a.Making (generateMethod id params body) fun m => a.SafeMethod m.body := by
  intro s m s' hs h
  obtain ⟨hrun, -, info, header, hinfo, hheader, hfinish⟩ := generateMethod_run hs.analysis h
  have hlimit : s'.code.limit = some maxWords := hrun.code.keeps.limit.trans hs.limit
  have hanalysis := hs.analysis.trans hrun.analysis
  obtain ⟨rfl, hsafe, hle⟩ := finishMethod_safe hfinish
    (hrun.code.tracked (CodeBuffer.start_tracked _)) (exceeds_two hlimit)
  refine ⟨⟨hlimit, hanalysis, ?_⟩, _, hsafe, maxStack_le hlimit hle, ?_⟩
  · rw [hrun.requests]
    exact hs.requests
  · refine (methodHeader_ret hheader hinfo).imp (fun hret => hret)
      fun ⟨hid, hname, hvoid⟩ => ⟨hname, hvoid, info, ?_, rfl⟩
    rw [hanalysis.function] at hinfo
    subst hid
    unfold Analysis.function at hinfo
    split at hinfo
    · cases hinfo
      assumption
    · cases hinfo

/-! ## Constructors -/

/-- These are fields of a class of a record. -/
def Analysis.HasFields (a : Analysis) (className : String) (fields : List (String × JvmType)) :
    Prop :=
  ∀ field ∈ fields, a.HasField ⟨className, field.1, field.2⟩

theorem storeFields_built {className : String} (hfields : a.HasFields className fields)
    (slots : SlotAllocator) :
    Emit.Built a (fun _ => True) [] (storeFields className slots fields)
      (storeFields className slots fields) := by
  induction fields generalizing slots with
  | nil => exact .pure _
  | cons field rest ih =>
    obtain ⟨hfield, hrest⟩ := forall_mem_cons.mp hfields
    rw [storeFields]
    split
    · exact .throw _
    · split
      · exact .throw _
      · exact .then_ (.about rfl trivial rfl (.inl rfl)) <|
          .then_ (.about rfl trivial rfl (.inl rfl)) <|
          .then_ (.instruction hfield rfl) (ih hrest _)

theorem constructorCode_built (limit : Option Nat) {className : String}
    (hfields : a.HasFields className fields) :
    Emit.Built a (fun _ => True) [] (constructorCode limit className fields)
      (constructorCode limit className fields) :=
  .then_ (.about rfl trivial rfl (.inl rfl)) <|
    .then_ (.instruction (.inl (by simp [objectClass, libraryClasses])) rfl) <|
    (storeFields_built hfields _).bind fun _ => .then_ (.instruction trivial rfl) (.pure _)

theorem generateConstructor_stackSafe (hfields : a.HasFields record.className fields)
    (hroom : exceeds limit 2 = false) (h : generateConstructor limit record fields = .ok m) :
    m.body.StackSafe none ∧ m.body.header.ret = .void ∧
      exceeds limit m.body.limits.maxStack = false := by
  obtain ⟨⟨slots, code⟩, hcode, hfinish⟩ := Except.bind_eq_ok.mp h
  have hleads := (constructorCode_built limit hfields).leads hcode
  have hlimit : code.limit = limit := hleads.keeps.limit
  obtain ⟨hheader, hsafe, hle⟩ := finishMethod_safe hfinish
    (hleads.tracked (CodeBuffer.start_tracked _)) (hlimit ▸ hroom)
  exact ⟨hsafe, by rw [hheader], hlimit ▸ hle⟩

theorem generateConstructor_safe (hfields : a.HasFields record.className fields)
    (hl : limit = some maxWords) (h : generateConstructor limit record fields = .ok m) :
    a.SafeMethod m.body := by
  obtain ⟨hsafe, hret, hle⟩ := generateConstructor_stackSafe hfields (exceeds_two hl) h
  exact ⟨none, hsafe, maxStack_le hl hle, .inl (by rw [hret]; rfl)⟩

/-! ## Units -/

section

variable (a : Analysis)

theorem send_ensures (hr : r.outsideMethods) : Ensures a.Making (send r) fun _ => True := by
  intro s _ s' hs h
  cases h
  refine ⟨⟨hs.limit, hs.analysis, ?_⟩, trivial⟩
  rw [Array.toList_push]
  exact hs.requests.other hr

theorem sendMethod_ensures (hm : a.SafeMethod m.body) :
    Ensures a.Making (sendMethod m) fun _ => True := by
  intro s _ s' hs h
  cases h
  refine ⟨⟨hs.limit, hs.analysis, ?_⟩, trivial⟩
  have hlist : (s.requests ++ m.body.requests).toList = s.requests.toList ++ m.body.requests :=
    Array.toList_appendList
  exact hlist ▸ hs.requests.method hm

theorem sendFields_ensures (fields : List (String × Ty)) :
    Ensures a.Making (sendFields fields) fun types => ∀ field ∈ types,
      ∃ ty, (field.1, ty) ∈ fields ∧ a.jvmType ty = .ok field.2 := by
  induction fields with
  | nil => exact .pure nofun
  | cons field rest ih =>
    refine Ensures.get.bind fun s hs => (Ensures.compute _ fun _ h => h).bind
      fun t ht => (send_ensures a (r := .addField _) trivial).then_
        (ih.bind fun types htypes => .pure ?_)
    rw [hs.analysis.jvmType] at ht
    refine forall_mem_cons.mpr ⟨⟨field.2, mem_cons_self, ht⟩, fun field' hfield' => ?_⟩
    obtain ⟨ty, hmem, hty⟩ := htypes field' hfield'
    exact ⟨ty, mem_cons_of_mem _ hmem, hty⟩

theorem generateRecord_ensures (source : String) (hrecord : record ∈ a.records) :
    Ensures a.Making (generateRecord source record) fun _ => True :=
  (send_ensures a (r := .beginClass _) trivial).then_ <| (sendFields_ensures a _).bind
    fun _ htypes => Ensures.get.bind fun _ hs =>
      (Ensures.compute _ fun _ h => generateConstructor_safe
        (fun field hfield => ⟨record, hrecord, by
          obtain ⟨ty, hmem, hty⟩ := htypes field hfield
          exact ⟨_, hmem, _, hty, rfl⟩⟩) hs.limit h).bind
        fun _ hm => (sendMethod_ensures a hm).then_ (send_ensures a (r := .endClass) trivial)

theorem generateFunction_ensures (f : FunctionDecl) :
    Ensures a.Making (generateFunction f) fun _ => True := by
  unfold generateFunction
  split
  · intro s _ s' _ h
    exact absurd h throw_ne_ok
  · exact (generateMethod_ensures a _ _ _).bind fun _ hm => sendMethod_ensures a hm

theorem nextPending_ensures : Ensures a.Making nextPending fun _ => True := by
  intro s f s' hs h
  simp only [nextPending, bind_eq_ok, get_eq_ok] at h
  obtain ⟨t, _, ⟨ht, rfl⟩, h⟩ := h
  subst ht
  cases hp : t.pending with
  | nil =>
    rw [hp] at h
    cases h
    exact ⟨hs, trivial⟩
  | cons f rest =>
    rw [hp] at h
    cases h
    exact ⟨⟨hs.limit, hs.analysis, hs.requests⟩, trivial⟩

theorem generatePending_ensures (fuel : Nat) :
    Ensures a.Making (generatePending fuel) fun _ => True := by
  induction fuel with
  | zero => exact .pure trivial
  | succ fuel ih =>
    refine (nextPending_ensures a).bind fun f _ => ?_
    cases f with
    | none => exact .pure trivial
    | some f => exact (generateFunction_ensures a f).then_ ih

theorem symbol_ensures (id : SymbolId) : Ensures a.Making (symbol id) fun _ => True :=
  Ensures.get.bind fun _ _ => .compute _ fun _ _ => trivial

theorem sendGlobal_ensures (id : SymbolId) : Ensures a.Making (sendGlobal id) fun _ => True :=
  Ensures.get.bind fun _ _ => (symbol_ensures a id).bind fun _ _ =>
      (Ensures.compute _ fun _ h => h).bind fun _ _ =>
        send_ensures a (r := .addField _) trivial

theorem generateUnit_ensures (unit : SourceUnit) :
    Ensures a.Making (generateUnit unit) fun _ => True :=
  Ensures.get.bind fun _ hs =>
    (Ensures.forM _ fun _ hr => generateRecord_ensures a unit.name
      (hs.analysis.records ▸ (mem_filter.mp hr).1)).then_ <|
    Ensures.get.bind fun _ _ => (send_ensures a (r := .beginClass _) trivial).then_ <|
    Ensures.get.bind fun _ _ =>
    (Ensures.forM _ fun id _ => sendGlobal_ensures a id).then_ <|
    (generateMethod_ensures a _ _ _).bind fun _ hm => (sendMethod_ensures a hm).then_ <|
    (Ensures.forM _ fun f _ => generateFunction_ensures a f).then_ <|
    (generatePending_ensures a _).then_ (send_ensures a (r := .endClass) trivial)

end

/-- **Every method that is handed on is safe on every path through it**, for the result of its head:
only the method `main` could have another, if an analysis gave the statements outside of functions
a result. -/
theorem generated_methods_stackSafe (unit : SourceUnit) (a : Analysis)
    (h : (generate unit a).error = none) (m : MethodBody)
    (hm : m.requests <:+: (generate unit a).requests) :
    ∃ ret, m.StackSafe ret ∧ m.limits.maxStack ≤ maxWords ∧
      (ret = m.header.ret.kind? ∨
        m.header.name = "main" ∧ ∃ info, a.functions[FnId.main]? = some info ∧
          ret = Kind.ofTy? info.ret) ∧
      ((∀ info, a.functions[FnId.main]? = some info → info.ret = .void) →
        ret = m.header.ret.kind?) := by
  unfold generate generateUpTo at h hm
  split_ifs at h hm with hok
  split at h
  · rename_i s hs
    rw [hs] at hm
    have hstart : a.Making ⟨a, [], #[], #[], .start (some maxWords), .start (some maxWords) 0⟩ :=
      ⟨rfl, .refl a, .nil⟩
    obtain ⟨ret, hsafe, hle, hret⟩ :=
      ((generateUnit_ensures a unit hstart hs).1.requests).holds_of_mem hm
    refine ⟨ret, hsafe, hle, hret.imp_right (And.imp_right And.right), fun hvoid => ?_⟩
    rcases hret with hret | ⟨-, hheader, info, hinfo, hret⟩
    · exact hret
    · rw [hret, hvoid info hinfo, hheader]
      rfl
  · cases h

def countingUnit : SourceUnit :=
  let number (n : Int) : Expr := .literal ⟨.nowhere, some .int, none⟩ (.int n)
  let printed : Expr := .call ⟨.nowhere, some .void, none⟩
    (.name ⟨.nowhere, none, none⟩ ⟨"print", none⟩)
    [.name ⟨.nowhere, some .int, none⟩ ⟨"i", some ⟨0, 1⟩⟩] (some (.builtin .print))
  ⟨"counting", [.stmt (.range .nowhere ⟨⟨"i", .nowhere⟩, some 0⟩ (number 0) (number 3)
    (.block .nowhere [.expr printed]))], .nowhere⟩

def countingAnalysis : Analysis where
  unit := "counting"
  className := "Counting"
  symbols := #[⟨"i", .loopVariable, .int, .nowhere, 1, false, some FnId.main, none⟩]
  functions := #[⟨"main", "main", "Counting", ⟨0, 0⟩, [], .void, none, [], false, .nowhere⟩]
  records := []
  globals := []
  diagnostics := []

def countingMain : MethodBody where
  header := ⟨"main", [.array .string], .void, true⟩
  code := #[.iconst 0, .store .int 1, .iconst 3, .store .int 2, .load .int 1, .load .int 2,
    .branchInt .ge (.index 12), .getStatic outField, .load .int 1,
    .invokeVirtual ⟨"java/io/PrintStream", "println", [.int], .void⟩, .iinc 1 1,
    .goto (.index 4), .ret none]
  limits := ⟨2, 3⟩

theorem countingMain_stackSafe :
    (generate countingUnit countingAnalysis).error = none ∧
      countingMain.requests <:+: (generate countingUnit countingAnalysis).requests ∧
      countingMain.StackSafe none := by
  have herror : (generate countingUnit countingAnalysis).error = none := by decide +kernel
  have hmain : countingMain.requests <:+: (generate countingUnit countingAnalysis).requests := by
    decide +kernel
  obtain ⟨ret, hsafe, -, -, hret⟩ := generated_methods_stackSafe _ _ herror _ hmain
  have hvoid (info : FunctionInfo) (h : countingAnalysis.functions[FnId.main]? = some info) :
      info.ret = .void := by
    cases h
    rfl
  obtain rfl : ret = none := hret hvoid
  exact ⟨herror, hmain, hsafe⟩

end StackCompiler

import StackCompiler.Proofs.StackSafety
import StackCompiler.Proofs.TypedWriting
import StackCompiler.Proofs.UnitSound

/-!
# Typed code of expressions

The code of a typed expression leaves one value of its type on the stack, or none if it has no
result, and changes nothing else.

* **`Expr.code_typed`**: the code of a typed expression.
-/

namespace StackCompiler

open CodeBuffer Emit List StackCompiler.Expr

variable {a : Analysis} {op : BinOp} {decl : DeclId} {e : Expr} {t u : JvmType} {args : List Expr}
  {ts : List JvmType} {note : Note} {c : Place} {info : RecordInfo} {symbol : Symbol}
  {operand source target ty : Ty} {stack : TypeStack}

/-! ## Types of values -/

theorem Analysis.jvmType_eq_ok :
    a.jvmType ty = .ok t ↔ JvmType.ofTy? a.recordClass? ty = some t := by
  unfold Analysis.jvmType
  cases JvmType.ofTy? a.recordClass? ty <;> simp

theorem View.Value.jvmType (h : (a.view c).Value ty) :
    ∃ t, a.jvmType ty = .ok t ∧ t.values = [t.onStack] := by
  simp only [Analysis.jvmType_eq_ok]
  fun_induction JvmType.ofTy? a.recordClass? ty with
  | case7 => exact h.elim
  | case8 elem ih =>
    obtain ⟨t, ht, _⟩ := ih h
    exact ⟨.array t, by rw [ht]; rfl, rfl⟩
  | case9 decl name =>
    obtain ⟨info, hinfo⟩ := Option.isSome_iff_exists.mp h
    exact ⟨.object info.className, by
      rw [Analysis.recordClass?, show a.record? decl = some info from hinfo]; rfl, rfl⟩
  | case10 => exact h.elim
  | case11 => exact h.elim
  | _ => exact ⟨_, rfl, rfl⟩

theorem View.Value.kind (h : (a.view c).Value ty) : ∃ kind, Kind.ofTy? ty = some kind := by
  cases ty with
  | void | function | error => exact h.elim
  | _ => exact ⟨_, rfl⟩

theorem Expr.HasTy.jvmType (hp : (a.view c).Proper) (h : e.HasTy (a.view c) ty) :
    ∃ t, a.jvmType ty = .ok t := by
  rcases h.value_or_void hp with rfl | hv
  · exact ⟨.void, rfl⟩
  · obtain ⟨t, ht, _⟩ := hv.jvmType
    exact ⟨t, ht⟩

theorem Expr.Typed.jvmType (hp : (a.view c).Proper) (h : e.Typed (a.view c) ty) :
    ∃ t, a.jvmType ty = .ok t := by
  rcases h.value_or_void hp with rfl | hv
  · exact ⟨.void, rfl⟩
  · obtain ⟨t, ht, _⟩ := hv.jvmType
    exact ⟨t, ht⟩

theorem jvmType_of_isNumeric (h : ty.isNumeric = true) :
    ∃ kind t, Kind.ofTy? ty = some kind ∧ kind.number? = some t ∧ a.jvmType ty = .ok t ∧
      t.values = [t] := by
  cases ty with
  | int => exact ⟨.int, .int, rfl, rfl, rfl, rfl⟩
  | long => exact ⟨.long, .long, rfl, rfl, rfl, rfl⟩
  | float => exact ⟨.float, .float, rfl, rfl, rfl, rfl⟩
  | double => exact ⟨.double, .double, rfl, rfl, rfl, rfl⟩
  | _ => cases h

/-! ## Taking values of types -/

theorem takeTypes_map (ts : List JvmType) (stack : TypeStack) :
    takeTypes ts (ts.map JvmType.onStack ++ stack) = some stack := by
  induction ts with
  | nil => rfl
  | cons t ts ih =>
    rw [map_cons, cons_append, takeTypes, if_pos t.onStack_standsFor]
    exact ih

theorem takeTypes_append {us : List JvmType} {rest : TypeStack}
    (h : takeTypes ts stack = some rest) : takeTypes (ts ++ us) stack = takeTypes us rest := by
  induction ts generalizing stack with
  | nil =>
    cases h
    rfl
  | cons t ts ih =>
    cases stack with
    | nil => cases h
    | cons found stack =>
      rw [takeTypes] at h
      split_ifs at h with hf
      rw [cons_append, takeTypes, if_pos hf]
      exact ih h

/-- The stack after values of some types have been pushed, the first of them first. -/
def pushTypes (ts : List JvmType) (stack : TypeStack) : TypeStack :=
  (ts.map JvmType.onStack).reverse ++ stack

theorem pushTypes_cons (t : JvmType) (ts : List JvmType) (stack : TypeStack) :
    pushTypes (t :: ts) stack = pushTypes ts (t.onStack :: stack) := by
  simp [pushTypes]

theorem pushTypes_append (ts us : List JvmType) (stack : TypeStack) :
    pushTypes (ts ++ us) stack = pushTypes us (pushTypes ts stack) := by
  simp [pushTypes]

theorem takeTypes_pushTypes (ts : List JvmType) (stack : TypeStack) :
    takeTypes ts.reverse (pushTypes ts stack) = some stack := by
  rw [pushTypes, ← map_reverse]
  exact takeTypes_map ts.reverse stack

/-! ## Methods that are being written -/

/-- The variables in view have slots in the method, and the frame is known to hold their values. -/
structure Frame.Ready (known : MethodTypes) (frame : Nat) (a : Analysis) (c : Place) (f : Frame)
    (words : Words) : Prop where
  same : a.SameButSlots f.analysis
  proper : (a.view c).Proper
  types : ∀ (x : SymbolId) symbol t, a.symbols[x]? = some symbol → a.jvmType symbol.ty = .ok t →
    known.variable_ (.symbol x) = some t
  place : ∀ (x : SymbolId) symbol, a.symbols[x]? = some symbol → symbol.kind.isStorage = true →
    symbol.isLocal = true ∨ symbol.isGlobal = true
  captured : ∀ g, ∀ x ∈ a.captures g, ∃ symbol, a.symbols[x]? = some symbol ∧
    symbol.isLocal = true
  slots : ∀ (x : SymbolId) symbol, f.analysis.symbols[x]? = some symbol → symbol.isLocal = true →
    a.Holds c x → ∃ slot kind, f.slot x symbol = .ok slot ∧ Kind.ofTy? symbol.ty = some kind ∧
      words.Holds ⟨some (.symbol x), kind, slot⟩ ∧ slot + kind.words ≤ frame
  homes : ∀ n e, words n = some e → e.AtHome known

theorem Symbol.isGlobal_of_isLocal (h : symbol.isLocal = true) : symbol.isGlobal = false := by
  rw [Symbol.isLocal, Bool.and_eq_true] at h
  rw [Symbol.isGlobal, Bool.and_eq_false_iff]
  exact .inr (by simpa [Option.isNone_eq_false_iff] using h.2)

section Pieces

variable {S : Setting} {frame : Nat} {E : GenerateError → Prop} {words : Words} {cond : Cond}
  {tys : List Ty} {xs : List SymbolId} {name : String}

/-- A piece of code that leaves the results of a type on the stack. -/
def Emit.Pushes (S : Setting) (frame : Nat) (E : GenerateError → Prop) (words : Words)
    (m : Emit Unit) (results : TypeStack) : Prop :=
  ∀ stack, Takes S frame E m ⟨stack, words⟩ ⟨results ++ stack, words⟩

section

variable (hE : S.MayOverflow E)
include hE

theorem Emit.Takes.plain {i : Instruction} {after : TypeStack}
    (ht : i.retype S.types none stack = some after) (htarget : i.target? = none)
    (hterm : i.isTerminal = false) (hreads : i.reads none = none) (hwrites : i.writes none = none)
    (hslots : i.slotsBelow frame) :
    Takes S frame E (Emit.instruction i) ⟨stack, words⟩ ⟨after, words⟩ :=
  .emit hE (.plain ht hreads hwrites hslots) htarget hterm

/-! ## Conversions -/

theorem convert_takes (h : source.Casts target) (ht : a.jvmType source = .ok t)
    (hu : a.jvmType target = .ok u) (stack : TypeStack) :
    Takes S frame E (convert source target) ⟨t.values ++ stack, words⟩
      ⟨u.values ++ stack, words⟩ := by
  unfold convert
  by_cases heq : source = target
  · subst heq
    cases ht.symm.trans hu
    rw [if_pos rfl]
    exact .pure _
  rw [if_neg heq]
  obtain ⟨hs, hn⟩ := h.resolve_right heq
  obtain ⟨k, t', hk, hkt, ht', hvt⟩ := jvmType_of_isNumeric (a := a) hs
  obtain ⟨k', u', hk', hku, hu', hvu⟩ := jvmType_of_isNumeric (a := a) hn
  cases ht'.symm.trans ht
  cases hu'.symm.trans hu
  have hne : k ≠ k' := by
    rintro rfl
    refine heq ?_
    cases source <;> cases target <;>
      first | rfl | (cases hs; done) | (cases hn; done) | cases hk.trans hk'.symm
  rw [if_neg (by simp [hs, hn]), hvt, hvu]
  refine .liftThen (kindOf_eq_ok.mpr hk) (.liftThen (kindOf_eq_ok.mpr hk') ?_)
  rw [if_pos hne]
  refine .plain hE ?_ rfl rfl rfl rfl trivial
  simp only [Instruction.retype, if_neg hne, hkt, hku, Option.bind_some, cons_append,
    nil_append, takeTypes, if_pos (JvmType.StandsFor.refl _), Option.map_some]

theorem applyCoercion_takes (h : note.Widens source target) (ht : a.jvmType source = .ok t)
    (hu : a.jvmType target = .ok u) (stack : TypeStack) :
    Takes S frame E (applyCoercion note) ⟨t.values ++ stack, words⟩ ⟨u.values ++ stack, words⟩ := by
  unfold applyCoercion
  obtain ⟨hty, ⟨hc, rfl⟩ | ⟨hc, hw⟩⟩ := h
  · cases ht.symm.trans hu
    rw [hc]
    exact .pure _
  · rw [hc, hty]
    refine convert_takes hE (.inl ⟨?_, isNumeric_of_widensTo hw⟩) ht hu stack
    unfold Ty.widensTo at hw
    split at hw
    · rfl
    · rfl
    · rfl
    · cases hw

/-! ## Variables -/

theorem load_takes {x : Subject} {kind : Kind} {slot : Nat} (hx : S.types.variable_ x = some t)
    (hkind : t.kind? = some kind) (hword : words.Holds ⟨some x, kind, slot⟩)
    (hhomes : ∀ n e, words n = some e → e.AtHome S.types) (hframe : slot + kind.words ≤ frame)
    (stack : TypeStack) :
    Takes S frame E (Emit.about x (.load kind slot)) ⟨stack, words⟩ ⟨t.onStack :: stack, words⟩ :=
  .emit hE (.load hx hkind (hhomes _ _ hword.first) hframe hword) rfl rfl

theorem Frame.Ready.load_takes {f : Frame} (h : f.Ready S.types frame a c words) {x : SymbolId}
    (hx : a.symbols[x]? = some symbol) (hk : symbol.kind.isStorage = true) (hholds : a.Holds c x)
    (ht : a.jvmType symbol.ty = .ok t) (stack : TypeStack) :
    Takes S frame E (f.load x) ⟨stack, words⟩ ⟨t.values ++ stack, words⟩ := by
  obtain ⟨symbol', hx', hsame⟩ := h.same.symbol hx
  rcases h.place x symbol hx hk with hlocal | hglobal
  · rw [← hsame.isLocal] at hlocal
    obtain ⟨slot, kind, hslot, hkind, hword, hframe⟩ := h.slots x _ hx' hlocal hholds
    have hinstr := Frame.loadInstruction_eq_ok.mpr ⟨_, hx', .inr ⟨Symbol.isGlobal_of_isLocal hlocal,
      kind, hkind, slot, hslot, rfl⟩⟩
    rw [hsame.ty] at hkind
    have htk : t.kind? = some kind := (kind?_of_jvmType ht).trans hkind
    have hvalues : t.values = [t.onStack] := if_neg (by rintro rfl; cases htk)
    rw [hvalues]
    exact .liftThen hinstr
      (StackCompiler.load_takes hE (h.types x symbol t hx ht) htk hword h.homes hframe stack)
  · have hinstr := Frame.loadInstruction_eq_ok.mpr ⟨_, hx', .inl ⟨hsame.isGlobal.trans hglobal, _,
      (h.same.globalField hsame).trans (Analysis.globalField_eq_ok ht), rfl⟩⟩
    exact .liftThen hinstr (.emit hE (.plain rfl rfl rfl trivial) rfl rfl)

/-! ## Operators -/

end

theorem View.Value.values (hv : (a.view c).Value ty) (ht : a.jvmType ty = .ok t) :
    t.values = [t.onStack] := by
  obtain ⟨u, hu, hvalues⟩ := hv.jvmType
  cases ht.symm.trans hu
  exact hvalues

/-- The operands of an operator that computes are numbers, or strings that are joined. -/
theorem binarySignature?_arith {arithOp : ArithOp} (hop : op.opClass = .arith arithOp)
    (h : binarySignature? op operand operand = some ⟨operand, ty⟩) :
    ty = operand ∧ (operand = .string ∨ operand.isNumeric = true) := by
  have hjoin (h : (operand.join? operand).map (fun t => (⟨t, t⟩ : OpSignature)) =
      some ⟨operand, ty⟩) : ty = operand ∧ (operand = .string ∨ operand.isNumeric = true) := by
    obtain ⟨t, ht, hrow⟩ := Option.map_eq_some_iff.mp h
    cases hrow
    exact ⟨rfl, .inr (join?_self ht).1⟩
  cases op with
  | add =>
    simp only [binarySignature?] at h
    split_ifs at h with hs
    · cases h
      exact ⟨rfl, .inl rfl⟩
    · exact hjoin h
  | sub | mul | div | rem => exact hjoin h
  | _ => cases hop

/-- The operands of a comparison are numbers, or any values that are compared for being equal. -/
theorem binarySignature?_compare (hop : op.opClass = .compare cond)
    (h : binarySignature? op operand operand = some ⟨operand, ty⟩) :
    ty = .bool ∧ (operand.isNumeric = true ∨
      (cond = .eq ∨ cond = .ne) ∧ (operand = .bool ∨ operand.isReference = true)) := by
  have hjoin (h : (operand.join? operand).map (fun t => (⟨t, .bool⟩ : OpSignature)) =
      some ⟨operand, ty⟩) : ty = .bool ∧ operand.isNumeric = true := by
    obtain ⟨t, ht, hrow⟩ := Option.map_eq_some_iff.mp h
    cases hrow
    exact ⟨rfl, (join?_self ht).1⟩
  cases op with
  | lt | le | gt | ge => exact ⟨(hjoin h).1, .inl (hjoin h).2⟩
  | eq | ne =>
    have hcond : cond = .eq ∨ cond = .ne := by
      cases hop
      simp
    simp only [binarySignature?] at h
    split at h
    · rename_i t ht
      cases h
      exact ⟨rfl, .inl (join?_self ht).1⟩
    · split_ifs at h with hs
      cases h
      exact ⟨rfl, .inr ⟨hcond, hs.2⟩⟩
  | _ => cases hop

theorem binarySignature?_logical {decisive : Bool} (hop : op.opClass = .logical decisive)
    (h : binarySignature? op operand operand = some ⟨operand, ty⟩) :
    ty = .bool ∧ operand = .bool := by
  cases op with
  | and | or =>
    simp only [binarySignature?] at h
    split_ifs at h
    cases h
    exact ⟨rfl, rfl⟩
  | _ => cases hop

theorem applyArith_takes (hE : S.MayOverflow E) (op : ArithOp)
    (h : operand = .string ∨ operand.isNumeric = true) (ht : a.jvmType operand = .ok t)
    (stack : TypeStack) :
    Takes S frame E (applyArith op operand) ⟨t.values ++ (t.values ++ stack), words⟩
      ⟨t.values ++ stack, words⟩ := by
  unfold applyArith
  by_cases hs : operand = .string
  · subst hs
    cases ht
    rw [if_pos rfl]
    exact .plain hE rfl rfl rfl rfl rfl trivial
  · rw [if_neg hs]
    obtain ⟨kind, t', hk, hn, ht', hvalues⟩ := jvmType_of_isNumeric (a := a) (h.resolve_left hs)
    cases ht.symm.trans ht'
    refine .liftThen (kindOf_eq_ok.mpr hk) (.plain hE ?_ rfl rfl rfl rfl trivial)
    simp only [Instruction.retype, hn, Option.bind_some, hvalues, cons_append, nil_append,
      takeTypes, if_pos (JvmType.StandsFor.refl _), Option.map_some]

theorem floatCompare_operand (isDouble : Bool) (cond : Cond) :
    (floatCompare isDouble cond).operand = if isDouble then .double else .float := by
  cases isDouble <;> cases cond <;> rfl

theorem compareAndJump_jumps (hE : S.MayOverflow E) (ht : a.jvmType operand = .ok t)
    (h : operand.isNumeric = true ∨
      (cond = .eq ∨ cond = .ne) ∧ (operand = .bool ∨ operand.isReference = true)) {m : Emit Unit}
    (hm : Takes S frame E m ⟨stack, words⟩ ⟨t.values ++ (t.values ++ stack), words⟩) (l : LabelId)
    (jumpIf : Bool) :
    Jumps S frame E (do m; compareAndJump cond operand l jumpIf) l ⟨stack, words⟩ := by
  have hint (op : CompareOp) (number : JvmType) (hn : op.operand.number? = some number)
      (hvalues : t.values = [number]) (cond : Cond) :
      Jumps S frame E (do
        m
        Emit.instruction (.compare op)
        Emit.instruction (.branchZero cond (.label l))) l ⟨stack, words⟩ := by
    have hcompare : Takes S frame E (do m; Emit.instruction (.compare op)) ⟨stack, words⟩
        ⟨.int :: stack, words⟩ := by
      refine hm.then_ (.plain hE ?_ rfl rfl rfl rfl trivial)
      simp only [Instruction.retype, hn, Option.bind_some, hvalues, cons_append,
        nil_append, takeTypes, if_pos (JvmType.StandsFor.refl _), Option.map_some]
    rw [← bind_assoc]
    exact .branch hE hcompare (.plain rfl rfl rfl trivial) rfl
  have href (hcond : cond = .eq ∨ cond = .ne) (href : t.kind? = some .reference) :
      Jumps S frame E (do
        m
        Emit.instruction (.branchRef (if jumpIf then cond else cond.negate) (.label l))) l
        ⟨stack, words⟩ := by
    have hvalues : t.values = [t.onStack] := if_neg (by rintro rfl; cases href)
    have hstands : t.onStack.StandsFor .anyObject := .inr ⟨rfl, by rwa [JvmType.kind?_onStack]⟩
    have hbranch : (if jumpIf then cond else cond.negate) = .eq ∨
        (if jumpIf then cond else cond.negate) = .ne := by
      rcases hcond with rfl | rfl <;> cases jumpIf <;> simp [Cond.negate]
    refine .branch hE hm (.plain ?_ rfl rfl trivial) rfl
    simp only [Instruction.retype, if_pos hbranch, hvalues, cons_append, nil_append,
      takeTypes, if_pos hstands]
  cases operand with
  | int | bool =>
    cases ht
    exact .branch hE hm (.plain rfl rfl rfl trivial) rfl
  | long =>
    cases ht
    exact hint .lcmp .long rfl rfl _
  | float =>
    cases ht
    exact hint _ .float (by rw [floatCompare_operand]; rfl) rfl _
  | double =>
    cases ht
    exact hint _ .double (by rw [floatCompare_operand]; rfl) rfl _
  | string =>
    cases ht
    have hequals : Takes S frame E (do m; Emit.instruction (.invokeStatic equalsMethod))
        ⟨stack, words⟩ ⟨.int :: stack, words⟩ :=
      hm.then_ (.plain hE rfl rfl rfl rfl rfl trivial)
    show Jumps S frame E (do m; Emit.instruction (.invokeStatic equalsMethod); _) l _
    rw [← bind_assoc]
    exact .branch hE hequals (.plain rfl rfl rfl trivial) rfl
  | array elem =>
    obtain ⟨hcond, _⟩ := h.resolve_left (by simp [Ty.isNumeric])
    exact href hcond (kind?_of_jvmType ht)
  | record decl name =>
    obtain ⟨hcond, _⟩ := h.resolve_left (by simp [Ty.isNumeric])
    exact href hcond (kind?_of_jvmType ht)
  | void | function | error => simp [Ty.isNumeric, Ty.isReference] at h

/-! ## Calls -/

variable {a : Analysis} {c : Place} {f : Frame}

/-- An expression leaves its result wherever it has a type. -/
def Expr.Pushed (S : Setting) (frame : Nat) (E : GenerateError → Prop) (words : Words)
    (a : Analysis) (c : Place) (f : Frame) (e : Expr) : Prop :=
  ∀ ty t, e.Typed (a.view c) ty → a.jvmType ty = .ok t →
    Pushes S frame E words (e.code f).push t.values

theorem pushAll_takes (hargs : ∀ e ∈ args, e.Pushed S frame E words a c f)
    (htys : HaveTys (a.view c) args tys) (hvalue : ∀ ty ∈ tys, (a.view c).Value ty)
    (hts : List.Forall₂ (fun ty t => a.jvmType ty = .ok t) tys ts) (stack : TypeStack) :
    Takes S frame E (pushAll f args) ⟨stack, words⟩ ⟨pushTypes ts stack, words⟩ := by
  induction args generalizing tys ts stack with
  | nil =>
    cases tys with
    | cons => exact htys.elim
    | nil =>
      cases hts
      exact .pure _
  | cons e args ih =>
    cases tys with
    | nil => exact htys.elim
    | cons ty tys =>
      cases hts with
      | @cons _ t _ ts ht hts =>
        obtain ⟨he, hargs⟩ := forall_mem_cons.mp hargs
        obtain ⟨hv, hvalue⟩ := forall_mem_cons.mp hvalue
        rw [pushTypes_cons]
        have hpush := he ty t htys.1 ht stack
        rw [hv.values ht] at hpush
        exact hpush.then_ (ih hargs htys.2 hvalue hts _)

theorem mapM_jvmType (h : ∀ ty ∈ tys, (a.view c).Value ty) :
    ∃ ts, List.Forall₂ (fun ty t => a.jvmType ty = .ok t) tys ts := by
  induction tys with
  | nil => exact ⟨[], .nil⟩
  | cons ty tys ih =>
    obtain ⟨hv, htys⟩ := forall_mem_cons.mp h
    obtain ⟨t, ht, _⟩ := hv.jvmType
    obtain ⟨ts, hts⟩ := ih htys
    exact ⟨t :: ts, .cons ht hts⟩

theorem isStorage_of_isLocal (h : symbol.isLocal = true) : symbol.kind.isStorage = true := by
  rw [Symbol.isLocal, Bool.and_eq_true] at h
  exact h.1

theorem View.Proper.captureTypes (h : (a.view c).Proper)
    (hxs : ∀ x ∈ xs, ∃ symbol, a.symbols[x]? = some symbol ∧ symbol.isLocal = true) :
    ∃ ts, List.Forall₂ (fun x t => ∃ symbol, a.symbols[x]? = some symbol ∧ symbol.isLocal = true ∧
      a.jvmType symbol.ty = .ok t) xs ts := by
  induction xs with
  | nil => exact ⟨[], .nil⟩
  | cons x xs ih =>
    obtain ⟨⟨symbol, hx, hlocal⟩, hxs⟩ := forall_mem_cons.mp hxs
    obtain ⟨t, ht, _⟩ := (h.symbol x symbol hx (isStorage_of_isLocal hlocal)).jvmType
    obtain ⟨ts, hts⟩ := ih hxs
    exact ⟨t :: ts, .cons ⟨symbol, hx, hlocal, ht⟩ hts⟩

theorem Frame.Ready.loadAll_takes (hE : S.MayOverflow E) (h : f.Ready S.types frame a c words)
    (hts : List.Forall₂ (fun x t => ∃ symbol, a.symbols[x]? = some symbol ∧
      symbol.isLocal = true ∧ a.jvmType symbol.ty = .ok t) xs ts) (hxs : ∀ x ∈ xs, a.Holds c x)
    (stack : TypeStack) :
    Takes S frame E (xs.forM f.load) ⟨stack, words⟩ ⟨pushTypes ts stack, words⟩ := by
  induction hts generalizing stack with
  | nil => exact .pure _
  | @cons x t xs ts hx hts ih =>
    obtain ⟨symbol, hsymbol, hlocal, ht⟩ := hx
    obtain ⟨hx, hxs⟩ := forall_mem_cons.mp hxs
    have hk := isStorage_of_isLocal hlocal
    have hload := h.load_takes hE hsymbol hk hx ht stack
    rw [(h.proper.symbol x symbol hsymbol hk).values ht] at hload
    rw [pushTypes_cons]
    exact hload.then_ (ih hxs _)

/-- The method of a function, with the types of its parameters and of what it captures. -/
theorem Analysis.SameButSlots.methodRef_eq {a' : Analysis} (h : a.SameButSlots a') {id : FnId}
    {info : FunctionInfo} (hinfo : a.functions[id]? = some info)
    {ps cs : List JvmType} {r : JvmType}
    (hps : List.Forall₂ (fun ty t => a.jvmType ty = .ok t) info.params ps)
    (hcs : List.Forall₂ (fun x t => ∃ symbol, a.symbols[x]? = some symbol ∧
      symbol.isLocal = true ∧ a.jvmType symbol.ty = .ok t) info.captures cs)
    (hr : a.jvmType info.ret = .ok r) :
    a'.methodRef id = .ok ⟨info.className, info.method, ps ++ cs, r⟩ := by
  have hfun : a'.function id = .ok info := by rw [Analysis.function, h.functions, hinfo]
  unfold Analysis.methodRef
  refine Except.bind_eq_ok.mpr ⟨info, hfun, Except.bind_eq_ok.mpr ⟨ps, mapM_eq_ok.mpr ?_,
    Except.bind_eq_ok.mpr ⟨cs, mapM_eq_ok.mpr ?_, Except.bind_eq_ok.mpr ⟨r, ?_, rfl⟩⟩⟩⟩
  · exact hps.imp fun ty t ht => by rw [h.jvmType]; exact ht
  · refine hcs.imp ?_
    rintro x t ⟨symbol, hx, -, ht⟩
    obtain ⟨symbol', hx', hsame⟩ := h.symbol hx
    refine Except.bind_eq_ok.mpr ⟨symbol', by rw [Analysis.symbol, hx'], ?_⟩
    rw [hsame.ty, h.jvmType]
    exact ht
  · rw [h.jvmType]
    exact hr

/-- **A call takes the arguments and the captured variables that its method names.** -/
theorem callFunction_takes (hE : S.MayOverflow E)
    (h : f.Ready S.types frame a c words) {id : FnId} {params : List Ty} {ret : Ty}
    (hsig : (a.view c).signature id = some (params, ret)) (hcalls : (a.view c).calls id)
    (hargs : ∀ e ∈ args, e.Pushed S frame E words a c f)
    (htys : HaveTys (a.view c) args params) (ht : a.jvmType ret = .ok t) (stack : TypeStack) :
    Takes S frame E (callFunction f id (pushAll f args)) ⟨stack, words⟩
      ⟨t.values ++ stack, words⟩ := by
  obtain ⟨info, hinfo, hpair⟩ := Option.map_eq_some_iff.mp hsig
  cases hpair
  have hcaptures : a.captures id = info.captures := by rw [Analysis.captures, hinfo]; rfl
  have hvalues := h.proper.params id _ _ hsig
  obtain ⟨ps, hps⟩ := mapM_jvmType hvalues
  obtain ⟨cs, hcs⟩ := h.proper.captureTypes fun x hx => h.captured id x (hcaptures ▸ hx)
  have hfun : f.analysis.function id = .ok info := by
    rw [Analysis.function, h.same.functions, hinfo]
  refine (pushAll_takes hargs htys hvalues hps stack).then_ (.liftThen hfun ?_)
  refine (h.loadAll_takes hE hcs (fun x hx => hcalls x (hcaptures ▸ hx)) _).then_
    (.liftThen (h.same.methodRef_eq hinfo hps hcs ht) ?_)
  refine .emit hE (.plain ?_ rfl rfl trivial) rfl rfl
  simp only [Instruction.retype, ← pushTypes_append, takeTypes_pushTypes, Option.map_some]

theorem callConstructor_takes (hE : S.MayOverflow E)
    (h : f.Ready S.types frame a c words) (hinfo : a.record? decl = some info)
    (hargs : ∀ e ∈ args, e.Pushed S frame E words a c f)
    (htys : HaveTys (a.view c) args info.fieldTypes) (stack : TypeStack) :
    Takes S frame E (callConstructor f decl (pushAll f args)) ⟨stack, words⟩
      ⟨.object info.className :: stack, words⟩ := by
  have hvalues : ∀ ty ∈ info.fieldTypes, (a.view c).Value ty := by
    intro ty hty
    obtain ⟨field, hfield, rfl⟩ := mem_map.mp hty
    exact h.proper.fields decl info hinfo field hfield
  obtain ⟨ts, hts⟩ := mapM_jvmType hvalues
  have hinit : f.analysis.constructorRef info = .ok ⟨info.className, "<init>", ts, .void⟩ := by
    refine Except.bind_eq_ok.mpr ⟨ts, mapM_eq_ok.mpr (hts.imp fun ty t ht => ?_), rfl⟩
    rw [h.same.jvmType]
    exact ht
  have hrecord : f.analysis.record? decl = some info := by
    rw [Analysis.record?, h.same.records]
    exact hinfo
  unfold callConstructor
  rw [hrecord]
  refine .liftThen hinit (.then_ (.plain hE rfl rfl rfl rfl rfl trivial)
    (.then_ (.plain hE rfl rfl rfl rfl rfl trivial)
      (.then_ (pushAll_takes hargs htys hvalues hts _) (.plain hE ?_ rfl rfl rfl rfl trivial))))
  simp only [Instruction.retype]
  rw [takeTypes_append (takeTypes_pushTypes ts _)]
  simp only [takeTypes, if_pos (JvmType.StandsFor.refl _), Option.map_some]
  rfl

theorem printlnParam_standsFor (hv : (a.view c).Value ty) (ht : a.jvmType ty = .ok t) :
    t.onStack.StandsFor (printlnParam ty) := by
  cases ty with
  | int | long | float | double | bool | string =>
    cases ht
    exact .inl rfl
  | array elem =>
    have hk := kind?_of_jvmType ht
    exact .inr ⟨rfl, by rw [JvmType.kind?_onStack, hk]; rfl⟩
  | record decl name =>
    have hk := kind?_of_jvmType ht
    exact .inr ⟨rfl, by rw [JvmType.kind?_onStack, hk]; rfl⟩
  | void | function | error => exact hv.elim

theorem valueOfParam_standsFor (hv : (a.view c).Value ty) (ht : a.jvmType ty = .ok t) :
    t.onStack.StandsFor (valueOfParam ty) := by
  by_cases hs : ty = .string
  · subst hs
    cases ht
    exact .inr ⟨rfl, rfl⟩
  · rw [show valueOfParam ty = printlnParam ty by cases ty <;> first | rfl | exact absurd rfl hs]
    exact printlnParam_standsFor hv ht

theorem callBuiltin_takes (hE : S.MayOverflow E) {builtin : Builtin}
    {argTy : Ty} (hv : (a.view c).Value argTy) (haccepts : builtin.accepts argTy = true)
    (ht : a.jvmType argTy = .ok t) (hu : a.jvmType builtin.result = .ok u) {arg : Emit Unit}
    (harg : Pushes S frame E words arg t.values) (stack : TypeStack) :
    Takes S frame E (callBuiltin builtin argTy arg) ⟨stack, words⟩ ⟨u.values ++ stack, words⟩ := by
  have hpush (stack : TypeStack) :
      Takes S frame E arg ⟨stack, words⟩ ⟨t.onStack :: stack, words⟩ := by
    have hpush := harg stack
    rwa [hv.values ht] at hpush
  cases builtin with
  | print =>
    cases hu
    refine .then_ (.plain hE rfl rfl rfl rfl rfl trivial) (.then_ (hpush _)
      (.plain hE ?_ rfl rfl rfl rfl trivial))
    simp only [Instruction.retype, reverse_cons, reverse_nil, nil_append,
      cons_append, takeTypes, if_pos (printlnParam_standsFor hv ht)]
    rfl
  | len =>
    cases hu
    refine .then_ (hpush _) ?_
    cases argTy with
    | array elem =>
      obtain ⟨t', ht', rfl⟩ := Option.map_eq_some_iff.mp (Analysis.jvmType_eq_ok.mp ht)
      exact .plain hE rfl rfl rfl rfl rfl trivial
    | string =>
      cases ht
      exact .plain hE rfl rfl rfl rfl rfl trivial
    | error => exact hv.elim
    | _ => cases haccepts
  | str =>
    cases hu
    refine .then_ (hpush _) (.plain hE ?_ rfl rfl rfl rfl trivial)
    simp only [Instruction.retype, reverse_cons, reverse_nil, nil_append, takeTypes,
      if_pos (valueOfParam_standsFor hv ht)]
    rfl

/-! ## Arrays -/

theorem intConstant_eq_ok {value : Int} (h : 0 ≤ value) (h' : value ≤ maxInt) :
    intConstant value = .ok (.iconst (.ofInt value)) := by
  unfold intConstant
  rw [if_pos]
  simp only [maxInt] at h'
  omega

theorem elemOf_of_value (hv : (a.view c).Value ty) (ht : a.jvmType ty = .ok t) :
    ∃ elem, elemOf t = .ok elem ∧ ArrayElem.ofType? t = some elem := by
  have hvalues := hv.values ht
  unfold elemOf
  cases t with
  | void => cases hvalues
  | _ => exact ⟨_, rfl, rfl⟩

theorem fillArray_takes (hE : S.MayOverflow E) {elems : List Expr}
    (helems : ∀ e ∈ elems, e.Pushed S frame E words a c f) (hv : (a.view c).Value ty)
    (ht : a.jvmType ty = .ok t) {elem : ArrayElem} (helem : ArrayElem.ofType? t = some elem)
    {index : Nat} (htys : HaveTys (a.view c) elems (List.replicate elems.length ty))
    (hroom : ((index + elems.length : Nat) : Int) ≤ maxInt) (stack : TypeStack) :
    Takes S frame E (fillArray f elem index elems) ⟨.array t :: stack, words⟩
      ⟨.array t :: stack, words⟩ := by
  induction elems generalizing index with
  | nil => exact .pure _
  | cons e elems ih =>
    obtain ⟨he, helems⟩ := forall_mem_cons.mp helems
    rw [length_cons, replicate_succ] at htys
    rw [length_cons] at hroom
    have hindex : ((index : Nat) : Int) ≤ maxInt := by omega
    have hpush := he ty t htys.1 ht (.int :: .array t :: .array t :: stack)
    rw [hv.values ht] at hpush
    refine .then_ (.plain hE rfl rfl rfl rfl rfl trivial)
      (.liftThen (intConstant_eq_ok (Int.natCast_nonneg index) hindex)
        (.then_ (.plain hE rfl rfl rfl rfl rfl trivial) (.then_ hpush (.then_
          (.plain hE ?_ rfl rfl rfl rfl trivial) (ih helems htys.2 (by omega))))))
    simp only [Instruction.retype, cons_append, nil_append, JvmType.onStack_onStack]
    rw [if_pos ⟨trivial, .refl _, helem⟩]

/-! ## Expressions -/

/-- That an array has more elements than can be counted is one of the errors `E`. -/
def Expr.LongIn (E : GenerateError → Prop) (es : List Expr) : Prop :=
  ∀ note elems, .array note elems ∈ es → maxInt < (elems.length : Int) →
    E (.intRange elems.length)

theorem Expr.LongIn.mono {es es' : List Expr} (h : LongIn E es) (hes : es' ⊆ es) : LongIn E es' :=
  fun note elems hx => h note elems (hes hx)

/-- Code that leaves the result of a type, or that jumps by it. -/
structure ExprCode.Good (S : Setting) (frame : Nat) (E : GenerateError → Prop) (words : Words)
    (code : ExprCode) (ty : Ty) (t : JvmType) : Prop where
  push : Pushes S frame E words code.push t.values
  jump : ty = .bool → ∀ l jumpIf stack, Jumps S frame E (code.jump l jumpIf) l ⟨stack, words⟩

theorem ExprCode.Good.ofValue (hE : S.MayOverflow E)
    (hw : note.Widens source target) (ht : a.jvmType source = .ok t) (hu : a.jvmType target = .ok u)
    {value : Emit Unit} (hvalue : Pushes S frame E words value t.values) :
    (ExprCode.ofValue note value).Good S frame E words target u := by
  have hpush : Pushes S frame E words (do value; applyCoercion note) u.values :=
    fun stack => (hvalue stack).then_ (applyCoercion_takes hE hw ht hu stack)
  refine ⟨hpush, ?_⟩
  rintro rfl l jumpIf stack
  cases hu
  exact .branch hE (hpush stack) (.plain rfl rfl rfl trivial) rfl

theorem ExprCode.Good.ofJump (hE : S.MayOverflow E)
    (hw : note.Widens .bool target) (hu : a.jvmType target = .ok u)
    {jump : LabelId → Bool → Emit Unit}
    (hjump : ∀ l jumpIf stack, Jumps S frame E (jump l jumpIf) l ⟨stack, words⟩) :
    (ExprCode.ofJump note jump).Good S frame E words target u :=
  ⟨fun stack => (materialize_takes hE fun l => hjump l false stack).then_
    (applyCoercion_takes (a := a) (t := .boolean) hE hw rfl hu stack), fun _ => hjump⟩

theorem literalInstruction_takes (hE : S.MayOverflow E) {value : Literal}
    (h : value.HasTy ty) (ht : a.jvmType ty = .ok t) :
    Pushes S frame E words (do Emit.instruction (← literalInstruction value)) t.values := by
  intro stack
  cases value with
  | int value =>
    obtain ⟨rfl, hle, hmax⟩ := h
    cases ht
    exact .liftThen (intConstant_eq_ok hle hmax) (.plain hE rfl rfl rfl rfl rfl trivial)
  | long | float | double | bool | string =>
    cases h
    cases ht
    exact .liftThen rfl (.plain hE rfl rfl rfl rfl rfl trivial)

theorem foldedNegation_takes (hE : S.MayOverflow E) {operand : Expr}
    {folded : Except GenerateError Instruction} (hf : foldedNegation? operand = some folded)
    (ht : a.jvmType ty = .ok t) (h : operand.Typed (a.view c) ty ∨ ty = .int ∧ operand.IsLeastInt) :
    Pushes S frame E words (do Emit.instruction (← folded)) t.values := by
  intro stack
  cases operand with
  | literal note value =>
    simp only [foldedNegation?] at hf
    split_ifs at hf with hc
    rcases h with ⟨source, ⟨-, ⟨-, rfl⟩ | ⟨hco, -⟩⟩, hty⟩ | ⟨rfl, note', heq, -⟩
    · cases value with
      | int value =>
        obtain ⟨rfl, hle, hmax⟩ := hty
        cases ht
        cases hf
        have hconst : intConstant (-value) = .ok (.iconst (.ofInt (-value))) := by
          unfold intConstant
          rw [if_pos]
          simp only [maxInt] at hmax
          omega
        exact .liftThen hconst (.plain hE rfl rfl rfl rfl rfl trivial)
      | long | float | double =>
        cases hty
        cases ht
        cases hf
        exact .liftThen rfl (.plain hE rfl rfl rfl rfl rfl trivial)
      | bool | string => cases hf
    · rw [show note.coercion = some ty from hco] at hc
      cases hc
    · cases heq
      cases ht
      cases hf
      exact .liftThen (x := intConstant (-(maxInt + 1))) rfl (.plain hE rfl rfl rfl rfl rfl trivial)
  | _ => cases hf

theorem typeOf_of_typed {v : View} (h : e.Typed v ty) (hn : ty.isNumeric = false) :
    typeOf e = .ok ty := by
  obtain ⟨source, hw, -⟩ := h
  obtain ⟨-, hty, -⟩ := hw.eq_of_not_numeric hn
  rw [typeOf, ty?, hty]

theorem resultTypeOf_of_typed {v : View} (h : e.Typed v ty) : resultTypeOf e = ty := by
  rw [resultTypeOf, h.resultTy?]
  rfl

theorem Frame.Ready.fieldRef_eq (h : f.Ready S.types frame a c words)
    (hinfo : a.record? decl = some info) {position : Nat} {field : String}
    (hfield : info.fields[position]? = some (field, ty)) (ht : a.jvmType ty = .ok t) :
    f.analysis.fieldRef (.record decl name) (some position) = .ok ⟨info.className, field, t⟩ := by
  have hrecord : f.analysis.record? decl = some info := by
    rw [Analysis.record?, h.same.records]
    exact hinfo
  unfold Analysis.fieldRef
  simp only [hrecord, Option.bind_some, hfield]
  refine Except.bind_eq_ok.mpr ⟨t, ?_, rfl⟩
  rw [h.same.jvmType]
  exact ht

theorem jvmType_record (hinfo : a.record? decl = some info) :
    a.jvmType (.record decl name) = .ok (.object info.className) := by
  rw [Analysis.jvmType_eq_ok, JvmType.ofTy?, Analysis.recordClass?, hinfo]
  rfl

theorem Frame.Ready.arrayElem_eq (h : f.Ready S.types frame a c words) {elem : Ty}
    (hv : (a.view c).Value elem) (ht : a.jvmType elem = .ok t) :
    ∃ e, f.analysis.arrayElem (.array elem) = .ok e ∧ ArrayElem.ofType? t = some e := by
  obtain ⟨e, he, htype⟩ := elemOf_of_value hv ht
  refine ⟨e, Except.bind_eq_ok.mpr ⟨t, ?_, he⟩, htype⟩
  rw [h.same.jvmType]
  exact ht

theorem jvmType_array {elem : Ty} (ht : a.jvmType elem = .ok t) :
    a.jvmType (.array elem) = .ok (.array t) := by
  rw [Analysis.jvmType_eq_ok] at ht ⊢
  rw [JvmType.ofTy?, ht]
  rfl

end Pieces

section

variable {S : Setting} {frame : Nat} {E : GenerateError → Prop} {words : Words} {a : Analysis}
  {c : Place} {f : Frame}

/-- **The code of a typed expression leaves one value of its type, or none if it has no result.**
Only the limit of the buffer, or an array that is too long to be counted, keeps it from being
written. -/
theorem Expr.code_typed (hE : S.MayOverflow E)
    (h : f.Ready S.types frame a c words) (hlong : LongIn E e.subs)
    (hty : e.Typed (a.view c) ty) (ht : a.jvmType ty = .ok t) :
    (e.code f).Good S frame E words ty t := by
  -- the parts of an expression leave their results
  have hpushed {x : Expr} (hx : ∀ {ty t}, x.Typed (a.view c) ty → a.jvmType ty = .ok t →
      (x.code f).Good S frame E words ty t) : x.Pushed S frame E words a c f :=
    fun ty t hty ht => (hx hty ht).push
  induction e generalizing ty t with
  | literal note value =>
    obtain ⟨source, hw, hs⟩ := hty
    obtain ⟨s, hst⟩ := hs.jvmType h.proper
    have hgood : (ExprCode.ofValue note _).Good S frame E words ty t :=
      .ofValue hE hw hst ht (literalInstruction_takes hE hs hst)
    cases value with
    | bool b =>
      refine ⟨hgood.push, fun _ l jumpIf stack => ?_⟩
      show Jumps S frame E (if b = jumpIf then Emit.jump l else pure ()) l _
      split_ifs
      · exact .goto hE l _
      · exact .pure l _
    | _ => exact hgood
  | name note ref =>
    obtain ⟨source, hw, binding, symbol, hbinding, hsymbol, hk, rfl, hsees⟩ := hty
    obtain ⟨s, hst, -⟩ := (h.proper.symbol _ _ hsymbol hk).jvmType
    have href : ref.symbol = .ok binding.symbol := by rw [NameRef.symbol, hbinding]
    exact .ofValue hE hw hst ht fun stack =>
      .liftThen href (h.load_takes hE hsymbol hk hsees hst stack)
  | binary note op left right ihl ihr =>
    obtain ⟨source, hw, operand, hop, hl, hr⟩ := hty
    obtain ⟨u, hu⟩ := Typed.jvmType h.proper hl
    have hleft := ihl (hlong.mono (by simp [subs])) hl hu
    have hright := ihr (hlong.mono (by simp [subs])) hr hu
    have hboth (stack : TypeStack) := (hleft.push stack).then_ (hright.push (u.values ++ stack))
    have hresult : resultTypeOf left = operand := resultTypeOf_of_typed hl
    rw [code]
    cases hclass : op.opClass with
    | arith arithOp =>
      obtain ⟨rfl, hoperand⟩ := binarySignature?_arith hclass hop
      refine .ofValue hE hw hu ht fun stack => ?_
      rw [← bind_assoc, hresult]
      exact (hboth stack).then_ (applyArith_takes hE arithOp hoperand hu stack)
    | compare cond =>
      obtain ⟨rfl, hoperand⟩ := binarySignature?_compare hclass hop
      refine .ofJump hE hw ht fun l jumpIf stack => ?_
      rw [← bind_assoc, hresult]
      exact compareAndJump_jumps hE hu hoperand (hboth stack) l jumpIf
    | logical decisive =>
      obtain ⟨rfl, rfl⟩ := binarySignature?_logical hclass hop
      refine .ofJump hE hw ht fun l jumpIf stack => ?_
      unfold jumpLogical
      split_ifs
      · exact (hleft.jump rfl l jumpIf stack).then_ (hright.jump rfl l jumpIf stack)
      · exact .skip (fun l => hleft.jump rfl l decisive stack) (hright.jump rfl l jumpIf stack)
  | unary note op operand ih =>
    have hlong' : LongIn E operand.subs := hlong.mono (by simp [subs])
    cases op with
    | not =>
      obtain ⟨source, hw, rfl, ho⟩ := hty
      have hoperand := ih hlong' ho rfl
      exact .ofJump hE hw ht fun l jumpIf stack => hoperand.jump rfl l (!jumpIf) stack
    | neg =>
      obtain ⟨source, hw, hn, ho⟩ := hty
      obtain ⟨kind, s, hk, hnumber, hst, hvalues⟩ := jvmType_of_isNumeric (a := a) hn
      refine .ofValue hE hw hst ht ?_
      cases hfolded : foldedNegation? operand with
      | some folded => exact foldedNegation_takes hE hfolded hst ho
      | none =>
        intro stack
        have ho : operand.Typed (a.view c) source := by
          refine ho.resolve_right ?_
          rintro ⟨rfl, note', rfl, -, hc⟩
          simp [foldedNegation?, hc, negatedInstruction?] at hfolded
        refine ((ih hlong' ho hst).push stack).then_ ?_
        rw [show note.ty = some source from hw.1]
        refine .liftThen (kindOf_eq_ok.mpr hk) (.plain hE ?_ rfl rfl rfl rfl trivial)
        simp only [Instruction.retype, hnumber, Option.bind_some, hvalues, cons_append,
          nil_append, takeTypes, if_pos (JvmType.StandsFor.refl _), Option.map_some]
  | call note callee args target _ ih =>
    obtain ⟨source, hw, hs⟩ := hty
    obtain ⟨s, hst⟩ := hs.jvmType h.proper
    have hargs : ∀ e ∈ args, e.Pushed S frame E words a c f := fun e he => hpushed
      (ih e he (hlong.mono fun x hx => by
        simp only [subs, mem_cons, mem_append, mem_subsAll]
        exact .inr (.inr ⟨e, he, hx⟩)))
    cases target with
    | none => exact hs.elim
    | some target =>
      cases target with
      | function id =>
        obtain ⟨params, hsig, hcalls, htys⟩ := hs
        exact .ofValue hE hw hst ht fun stack =>
          callFunction_takes hE h hsig hcalls hargs htys hst stack
      | constructor decl =>
        obtain ⟨info, hinfo, rfl, htys⟩ := hs
        have hdecl : info.decl = decl := h.proper.decl decl info hinfo
        cases hst.symm.trans (jvmType_record (hdecl ▸ hinfo))
        exact .ofValue hE hw hst ht fun stack =>
          callConstructor_takes hE h hinfo hargs htys stack
      | builtin builtin =>
        obtain ⟨argTy, hv, haccepts, rfl, htys⟩ := hs
        cases args with
        | nil => exact htys.elim
        | cons arg args =>
          obtain ⟨u, hu, -⟩ := hv.jvmType
          refine .ofValue hE hw hst ht fun stack => ?_
          show Takes S frame E (callBuiltin builtin (resultTypeOf arg) (arg.code f).push) _ _
          rw [resultTypeOf_of_typed htys.1]
          exact callBuiltin_takes hE hv haccepts hu hst
            (hargs arg mem_cons_self argTy u htys.1 hu) stack
  | field note base field position ih =>
    obtain ⟨source, hw, hs⟩ := hty
    obtain ⟨s, hst⟩ := hs.jvmType h.proper
    obtain ⟨decl, name, info, position, fieldName, hinfo, rfl, hfield, hbase⟩ := hs
    have hbase' := ih (hlong.mono (by simp [subs])) hbase (jvmType_record hinfo)
    refine .ofValue hE hw hst ht fun stack => .liftThen (typeOf_of_typed hbase rfl) ?_
    refine .liftThen (h.fieldRef_eq hinfo hfield hst) ((hbase'.push stack).then_
      (.plain hE ?_ rfl rfl rfl rfl trivial))
    simp only [Instruction.retype]
    exact congrArg _ (if_pos (JvmType.StandsFor.refl _))
  | index note base position ihb ihp =>
    obtain ⟨source, hw, hs⟩ := hty
    have hv := HasTy.index_value h.proper hs
    obtain ⟨s, hst, hvalues⟩ := hv.jvmType
    obtain ⟨hbase, hposition⟩ := hs
    have hbase' := ihb (hlong.mono (by simp [subs])) hbase (jvmType_array hst)
    have hposition' := ihp (hlong.mono (by simp [subs])) hposition rfl
    obtain ⟨elem, helem, htype⟩ := h.arrayElem_eq hv hst
    refine .ofValue hE hw hst ht fun stack => .liftThen (typeOf_of_typed hbase rfl) ?_
    refine .liftThen helem ((hbase'.push stack).then_ ((hposition'.push _).then_
      (.plain hE ?_ rfl rfl rfl rfl trivial)))
    rw [hvalues]
    exact if_pos ⟨.refl _, htype⟩
  | array note elems ih =>
    obtain ⟨source, hw, elem, rfl, hv, htys⟩ := hty
    obtain ⟨u, hu, -⟩ := hv.jvmType
    have hst := jvmType_array hu
    obtain ⟨e, he, htype⟩ := elemOf_of_value hv hu
    have helems : ∀ x ∈ elems, x.Pushed S frame E words a c f := fun x hx => hpushed
      (ih x hx (hlong.mono fun y hy => by
        simp only [subs, mem_cons, mem_subsAll]
        exact .inr ⟨x, hx, hy⟩))
    have helemTy : elementTypeOf note .arrayType = .ok elem := by
      rw [elementTypeOf, show note.ty = some (.array elem) from hw.1]
    refine .ofValue hE hw hst ht fun stack => .liftThen helemTy (.liftThen
      ((h.same.jvmType elem).trans hu) (.liftThen he ?_))
    by_cases hroom : (elems.length : Int) ≤ maxInt
    · refine .liftThen (intConstant_eq_ok (Int.natCast_nonneg _) hroom)
        (.then_ (.plain hE rfl rfl rfl rfl rfl trivial)
          (.then_ (.plain hE rfl rfl rfl rfl rfl trivial) ?_))
      exact fillArray_takes hE helems hv hu htype htys (by simpa using hroom) stack
    · refine .liftError ?_ (hlong note elems (by simp [subs]) (by omega))
      rw [intConstant, if_neg]
      simp only [maxInt] at hroom
      omega
  | newArray note elem length ih =>
    obtain ⟨source, hw, elemTy, rfl, hv, hlength⟩ := hty
    obtain ⟨u, hu, -⟩ := hv.jvmType
    have hlength' := ih (hlong.mono (by simp [subs])) hlength rfl
    have helemTy : elementTypeOf note .newArrayType = .ok elemTy := by
      rw [elementTypeOf, show note.ty = some (.array elemTy) from hw.1]
    exact .ofValue hE hw (jvmType_array hu) ht fun stack => .liftThen helemTy (.liftThen
      ((h.same.jvmType elemTy).trans hu) ((hlength'.push stack).then_
        (.plain hE rfl rfl rfl rfl rfl trivial)))
  | cast note operand target ih =>
    obtain ⟨source, hw, hv, operandTy, hcasts, ho⟩ := hty
    obtain ⟨s, hst, -⟩ := hv.jvmType
    obtain ⟨u, hu⟩ := Typed.jvmType h.proper ho
    have hoperand := ih (hlong.mono (by simp [subs])) ho hu
    refine .ofValue hE hw hst ht fun stack => (hoperand.push stack).then_ ?_
    rw [show note.ty = some source from hw.1, resultTypeOf_of_typed ho]
    exact convert_takes hE hcasts hu hst stack

end

end StackCompiler

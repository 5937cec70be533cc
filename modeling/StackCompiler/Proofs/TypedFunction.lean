import StackCompiler.Proofs.TypedMethod

/-!
# Typed functions

Callers put arguments and captured variables into the first slots of a frame, one after the other. A
function with nothing wrong in it becomes a method that finds them there, unless it is too large.

* **`generateMethod_typed`**: its method is typed.
-/

namespace StackCompiler

open CodeBuffer Emit List

variable {info : FunctionInfo} {params : List Param} {xs : List SymbolId} {x : SymbolId}
  {arg : Subject × Kind}

/-! ## What callers hand over -/

/-- The values that callers hand over, one after the other from a slot on. -/
def Entry.row : Nat → List (Subject × Kind) → List Entry
  | _, [] => []
  | slot, (x, kind) :: rest => ⟨some x, kind, slot⟩ :: Entry.row (slot + kind.words) rest

def rowWords : List (Subject × Kind) → Nat
  | [] => 0
  | (_, kind) :: rest => kind.words + rowWords rest

/-- A frame that holds some values and nothing else. -/
def Words.of (es : List Entry) : Words := es.foldr (fun e w => w.write e) fun _ => none

/-- The slot of a variable that is handed over. -/
def rowSlot (row : List Entry) (x : Subject) : Option Nat :=
  (row.find? (·.subject = some x)).map Entry.slot

section Row

variable {start : Nat} {args : List (Subject × Kind)} {e : Entry}

theorem rowWords_cons (arg : Subject × Kind) (args : List (Subject × Kind)) :
    rowWords (arg :: args) = arg.2.words + rowWords args := rfl

theorem rowWords_append (args args' : List (Subject × Kind)) :
    rowWords (args ++ args') = rowWords args + rowWords args' := by
  induction args with
  | nil => exact (Nat.zero_add _).symm
  | cons arg args ih => rw [cons_append, rowWords_cons, rowWords_cons, ih, Nat.add_assoc]

theorem row_append (start : Nat) (args args' : List (Subject × Kind)) :
    Entry.row start (args ++ args') =
      Entry.row start args ++ Entry.row (start + rowWords args) args' := by
  induction args generalizing start with
  | nil => rfl
  | cons arg args ih =>
    rw [cons_append, Entry.row, Entry.row, ih, rowWords_cons, Nat.add_assoc, cons_append]

/-- **A value is behind the words of those before it.** -/
theorem row_getElem? (start : Nat) (args : List (Subject × Kind)) (i : Nat) :
    (Entry.row start args)[i]? =
      (args[i]?).map fun arg => ⟨some arg.1, arg.2, start + rowWords (args.take i)⟩ := by
  induction args generalizing start i with
  | nil => rfl
  | cons arg args ih =>
    cases i with
    | zero => rfl
    | succ i =>
      rw [Entry.row, getElem?_cons_succ, ih, getElem?_cons_succ, take_succ_cons,
        rowWords_cons, Nat.add_assoc]

theorem row_bounds (h : e ∈ Entry.row start args) :
    start ≤ e.slot ∧ e.slot + e.kind.words ≤ start + rowWords args := by
  induction args generalizing start with
  | nil => cases h
  | cons arg args ih =>
    rw [rowWords_cons]
    rcases mem_cons.mp h with rfl | h
    · exact ⟨Nat.le_refl _, by show start + arg.2.words ≤ _; omega⟩
    · have hbounds := ih h
      omega

theorem mem_of_row (h : e ∈ Entry.row start args) :
    ∃ x, (x, e.kind) ∈ args ∧ e.subject = some x := by
  obtain ⟨i, hi⟩ := mem_iff_getElem?.mp h
  rw [row_getElem?] at hi
  obtain ⟨arg, harg, rfl⟩ := Option.map_eq_some_iff.mp hi
  exact ⟨arg.1, mem_of_getElem? harg, rfl⟩

theorem exists_mem_row (start : Nat) (h : arg ∈ args) :
    ∃ n, ⟨some arg.1, arg.2, n⟩ ∈ Entry.row start args := by
  obtain ⟨i, hi⟩ := mem_iff_getElem?.mp h
  exact ⟨_, mem_of_getElem? ((row_getElem? start args i).trans (by rw [hi]; rfl))⟩

theorem of_eq_some {es : List Entry} {n : Nat} (h : Words.of es n = some e) :
    e ∈ es ∧ e.Covers n := by
  induction es with
  | nil => cases h
  | cons e' es ih =>
    rw [Words.of, foldr_cons, Words.write] at h
    split_ifs at h with hn
    · cases h
      exact ⟨mem_cons_self, hn⟩
    · obtain ⟨hmem, hcovers⟩ := ih h
      exact ⟨mem_cons_of_mem _ hmem, hcovers⟩

theorem of_row_holds (h : e ∈ Entry.row start args) :
    (Words.of (Entry.row start args)).Holds e := by
  induction args generalizing start with
  | nil => cases h
  | cons arg args ih =>
    rcases mem_cons.mp h with rfl | h
    · exact Words.write_holds _ _
    · intro n hn
      show (Words.of _).write _ n = _
      rw [Words.write, if_neg, ih h n hn]
      intro hcovers
      have hlt : n < start + arg.2.words := hcovers.2
      exact Nat.not_lt.mpr (Nat.le_trans (row_bounds h).1 hn.1) hlt

theorem rowSlot_eq (hargs : (args.map Prod.fst).Nodup) (h : e ∈ Entry.row start args) {x : Subject}
    (hx : e.subject = some x) : rowSlot (Entry.row start args) x = some e.slot := by
  induction args generalizing start with
  | nil => cases h
  | cons arg args ih =>
    obtain ⟨hnot, hargs⟩ := nodup_cons.mp hargs
    rcases mem_cons.mp h with rfl | h
    · cases hx
      rw [rowSlot, Entry.row, find?_cons_of_pos (by simp)]
      rfl
    · obtain ⟨y, hy, hsubject⟩ := mem_of_row h
      cases hx.symm.trans hsubject
      have hne : arg.1 ≠ x := fun he => hnot (he ▸ mem_map.mpr ⟨_, hy, rfl⟩)
      rw [rowSlot, Entry.row, find?_cons_of_neg (by simpa using hne)]
      exact ih hargs h

theorem rowSlot_eq_none {x : Subject} (hx : ∀ arg ∈ args, arg.1 ≠ x) :
    rowSlot (Entry.row start args) x = none := by
  rw [rowSlot, Option.map_eq_none_iff, find?_eq_none]
  intro e he
  obtain ⟨y, hy, hsubject⟩ := mem_of_row he
  simpa [hsubject] using hx _ hy

end Row

/-! ## Taking slots -/

section Slots

variable {S : Setting} {E : GenerateError → Prop} {a : Analysis} {s : GenState} {T : Shaping}
  {d : Shape} {args : List (Subject × Kind)}

/-- Slots are taken one after the other, and nothing is written. -/
structure GenState.Takes (words : Nat) (s s' : GenState) : Prop where
  code : s'.code = s.code
  pending : s'.pending = s.pending
  next : s'.slots.next = s.slots.next + words

/-- **Parameters get slots one after the other.** -/
theorem allocateParams_typed (hE : Refuses S.limit E) (h : s.Held S a T d)
    (hargs : List.Forall₂ (fun param arg => ∃ x symbol, param.symbol = some x ∧
      a.symbols[x]? = some symbol ∧ Kind.ofTy? symbol.ty = some arg.2 ∧ arg.1 = .symbol x)
      params args) (hnodup : (params.filterMap Param.symbol).Nodup)
    (hfresh : ∀ x ∈ params.filterMap Param.symbol, ∀ symbol, s.analysis.symbols[x]? = some symbol →
      symbol.slot = none) : Generate.Wp E (allocateParams params) s fun _ s' => s'.Held S a T d ∧
      s.Takes (rowWords args) s' ∧
      (∀ y ∉ params.filterMap Param.symbol, s'.analysis.symbols[y]? = s.analysis.symbols[y]?) ∧
      ∀ e ∈ Entry.row s.slots.next args, ∃ x symbol, e.subject = some (.symbol x) ∧
        s'.analysis.symbols[x]? = some symbol ∧ symbol.slot = some e.slot := by
  induction hargs generalizing s with
  | nil => exact .pure ⟨h, ⟨rfl, rfl, rfl⟩, fun _ _ => rfl, nofun⟩
  | @cons param arg params args hfirst hargs ih =>
    obtain ⟨x, symbol, hx, hsymbol, hkind, harg⟩ := hfirst
    obtain ⟨y, kind⟩ := arg
    cases harg
    have hids : (param :: params).filterMap Param.symbol = x :: params.filterMap Param.symbol :=
      filterMap_cons_some hx
    rw [hids] at hnodup hfresh ⊢
    obtain ⟨hnot, hnodup⟩ := nodup_cons.mp hnodup
    obtain ⟨symbol', hsymbol', hsame⟩ := h.same.symbol hsymbol
    have hslot : symbol'.slot = none := hfresh x mem_cons_self symbol' hsymbol'
    refine .analyzed hx (.symbol hsymbol' (.compute (kindOf_eq_ok.mpr (hsame.ty ▸ hkind)) ?_))
    refine (h.newSlot hE hsymbol' hslot kind).bind ?_
    rintro _ _ ⟨rfl, rfl, h1⟩
    refine (ih h1 hnodup fun z hz symbol1 hsymbol1 => ?_).imp ?_
    · have hne : z ≠ x := fun he => hnot (he ▸ hz)
      exact hfresh z (mem_cons_of_mem _ hz) symbol1 ((withSlot_other hne).symm.trans hsymbol1)
    rintro _ s' ⟨h', htakes, hother, hrow⟩
    refine ⟨h', ⟨htakes.code, htakes.pending, htakes.next.trans (Nat.add_assoc ..)⟩,
      fun z hz => ?_, fun e he => ?_⟩
    · obtain ⟨hne, hz⟩ := not_or.mp (mt mem_cons.mpr hz)
      exact (hother z hz).trans (withSlot_other hne)
    · rcases mem_cons.mp he with rfl | he
      · exact ⟨x, _, rfl, (hother x hnot).trans (withSlot_self hsymbol'), rfl⟩
      · exact hrow e he

/-- **Captured variables get slots one after the other.** -/
theorem allocateCaptures_typed (hE : Refuses S.limit E) (h : s.Held S a T d)
    (hargs : List.Forall₂ (fun x arg => ∃ symbol, a.symbols[x]? = some symbol ∧
      Kind.ofTy? symbol.ty = some arg.2 ∧ arg.1 = .symbol x) xs args) (hnodup : xs.Nodup)
    (known : List (SymbolId × Nat)) :
    Generate.Wp E (allocateCaptures xs known) s fun slots s' => s'.Held S a T d ∧
      s.Takes (rowWords args) s' ∧ s'.analysis = s.analysis ∧
      (∀ y ∉ xs, slots.lookup y = known.lookup y) ∧
      ∀ e ∈ Entry.row s.slots.next args, ∃ x, e.subject = some (.symbol x) ∧
        slots.lookup x = some e.slot := by
  induction hargs generalizing s known with
  | nil => exact .pure ⟨h, ⟨rfl, rfl, rfl⟩, rfl, fun _ _ => rfl, nofun⟩
  | @cons x arg xs args hfirst hargs ih =>
    obtain ⟨symbol, hsymbol, hkind, harg⟩ := hfirst
    obtain ⟨y, kind⟩ := arg
    cases harg
    obtain ⟨hnot, hnodup⟩ := nodup_cons.mp hnodup
    obtain ⟨symbol', hsymbol', hsame⟩ := h.same.symbol hsymbol
    refine .symbol hsymbol' (.compute (kindOf_eq_ok.mpr (hsame.ty ▸ hkind)) ?_)
    refine (h.allocate hE kind).bind ?_
    rintro _ _ ⟨rfl, rfl, h1⟩
    refine (ih h1 hnodup _).imp ?_
    rintro slots s' ⟨h', htakes, hanalysis, hother, hrow⟩
    refine ⟨h', ⟨htakes.code, htakes.pending, htakes.next.trans (Nat.add_assoc ..)⟩, hanalysis,
      fun z hz => ?_, fun e he => ?_⟩
    · obtain ⟨hne, hz⟩ := not_or.mp (mt mem_cons.mpr hz)
      rw [hother z hz, lookup_cons, beq_false_of_ne hne]
    · rcases mem_cons.mp he with rfl | he
      · refine ⟨x, rfl, ?_⟩
        rw [hother x hnot, lookup_cons, beq_self_eq_true]
      · exact hrow e he

/-! ## The start of a method -/

def Shaping.start (c : Shape) : Shaping := ⟨fun pos => if pos = 0 then some c else none, fun _ => c⟩

theorem start_shaped (hroom : exceeds S.limit 2 = false) (hfirst : S.first = 0)
    (hlabel : S.label = 0) (hentry : S.entry.stack = []) (frame : Nat) {w : Words}
    (hw : w.Within S.entry.words) :
    (CodeBuffer.start S.limit).Shaped S frame (.start ⟨[], w⟩) := by
  have hzero : exceeds S.limit 0 = false := by
    cases S.limit with
    | none => rfl
    | some m => simp [exceeds]
  refine ⟨rfl, hroom, by rw [hfirst]; exact Nat.zero_le _, by rw [hlabel]; exact Nat.zero_le _, rfl,
    ?_, rfl, ?_, fun pos c hc => ?_, fun l state d _ hl => ?_, fun l state pos _ hl => ?_,
    fun pos i _ hi => ?_⟩
  · exact hfirst ▸ ⟨⟨[], w⟩, rfl, hentry.symm, hw⟩
  · rintro c hc
    cases hc
    exact ⟨rfl, hzero⟩
  · obtain ⟨-, rfl⟩ : pos = 0 ∧ (⟨[], w⟩ : Shape) = c := by
      simpa [Shaping.start] using hc
    exact Nat.le_refl _
  · cases hl
  · cases hl
  · cases hi

/-- Before the first instruction, the frame holds what callers hand over. -/
theorem GenState.Held.enter (h : s.Held S a T d) (hcode : s.code = .start S.limit)
    (hfirst : S.first = 0) (hlabel : S.label = 0) (hentry : S.entry.stack = [])
    (hfree : ∀ n e, S.entry.words n = some e → n < s.slots.next)
    (hhomes : ∀ n e, S.entry.words n = some e → e.AtHome S.types) :
    s.Held S a (.start ⟨[], S.entry.words⟩) ⟨[], S.entry.words⟩ := by
  refine ⟨hcode ▸ start_shaped h.shaped.room hfirst hlabel hentry _ (.refl _),
    fun c hc => ?_, h.same, h.limit, h.next_le, hfree, hhomes⟩
  rw [hcode] at hc
  cases hc
  rfl

end Slots

/-! ## Functions -/

/-- The variable as callers hand it over. -/
def Analysis.argument (a : Analysis) (x : SymbolId) : Option (Subject × Kind) :=
  (a.symbols[x]?).bind fun symbol => (Kind.ofTy? symbol.ty).map (.symbol x, ·)

/-- A function with nothing wrong in it. At its start only its parameters are in view. -/
structure Analysis.Admits (a : Analysis) (id : FnId) (params : List Param) (body : List Stmt) :
    Prop where
  info : ∃ info, a.functions[id]? = some info ∧
    List.Forall₂ (Param.Checked (a.view .top) id) params info.params ∧
    (info.ret = .void ∨ (Stmt.flowAll body).completes = false)
  place : ∃ c, c.function = id ∧ c.inLoop = false ∧ Stmt.CheckedAll a.view c body ∧
    ∀ x ∈ c.known, ∀ symbol, a.symbols[x]? = some symbol → symbol.owner = some id →
      x ∈ params.filterMap Param.symbol
  distinct : (params.filterMap Param.symbol ++ Stmt.declaredAll body).Nodup

/-- What callers of a function hand over: its arguments and the variables that it captures. -/
def Analysis.handed (a : Analysis) (id : FnId) (params : List SymbolId) : List Entry :=
  Entry.row (if id = FnId.main then 1 else 0) ((params ++ a.captures id).filterMap a.argument)

def Analysis.variableType (a : Analysis) (x : SymbolId) : Option JvmType :=
  (a.symbols[x]?).bind fun symbol => (a.jvmType symbol.ty).toOption

/-- What is known of the variables of a function and of its result. -/
def Analysis.functionTypes (a : Analysis) (id : FnId) (params : List SymbolId) : MethodTypes where
  variable_
    | .symbol x | .bound x => a.variableType x
    | .self | .field _ | .function _ => none
  slot := rowSlot (a.handed id params)
  result := ((a.functions[id]?).bind fun info => (a.jvmType info.ret).toOption).getD .void

/-- Where the method of a function begins. -/
def Analysis.setting (a : Analysis) (limit : Option Nat) (id : FnId) (params : List SymbolId) :
    Setting :=
  ⟨a.functionTypes id params, limit, 0, 0, ⟨[], .of (a.handed id params)⟩⟩

section Functions

variable {a : Analysis} {items : List Item} {limit : Option Nat} {id : FnId}

theorem Analysis.Sound.knows (h : a.Sound items) (limit : Option Nat) (id : FnId)
    (params : List SymbolId) : a.Knows (a.setting limit id params) id := by
  refine ⟨h.proper, fun x symbol hx => (h.fresh x symbol hx).place, fun f x hx => ?_,
    fun x symbol t hx ht => ?_, fun x => ?_, fun info hinfo => ?_⟩
  · obtain ⟨symbol, hsymbol, hlocal, -⟩ := h.captured f x hx
    exact ⟨symbol, hsymbol, hlocal⟩
  · have hvariable : a.variableType x = some t := by
      rw [Analysis.variableType, hx, Option.bind_some, ht]
      rfl
    exact ⟨hvariable, hvariable⟩
  · refine rowSlot_eq_none fun arg harg => ?_
    obtain ⟨y, -, hy⟩ := mem_filterMap.mp harg
    obtain ⟨symbol, -, hsymbol⟩ := Option.bind_eq_some_iff.mp hy
    obtain ⟨kind, -, rfl⟩ := Option.map_eq_some_iff.mp hsymbol
    nofun
  · have hret := (h.proper .top).ret id info.params info.ret (by
      show (a.functions[id]?).map _ = _
      rw [hinfo]
      rfl)
    obtain ⟨t, ht⟩ : ∃ t, a.jvmType info.ret = .ok t := by
      rcases hret with hvoid | hvalue
      · exact ⟨.void, by rw [hvoid]; rfl⟩
      · obtain ⟨t, ht, -⟩ := hvalue.jvmType
        exact ⟨t, ht⟩
    have hresult : (a.setting limit id params).types.result = t := by
      show ((a.functions[id]?).bind fun info => (a.jvmType info.ret).toOption).getD .void = t
      rw [hinfo, Option.bind_some, ht]
      rfl
    rw [hresult]
    exact ht

theorem argument_eq {symbol : Symbol} {kind : Kind} (hx : a.symbols[x]? = some symbol)
    (hkind : Kind.ofTy? symbol.ty = some kind) : a.argument x = some (.symbol x, kind) := by
  rw [Analysis.argument, hx, Option.bind_some, hkind]
  rfl

theorem argument_eq_some (h : a.argument x = some arg) :
    ∃ symbol, a.symbols[x]? = some symbol ∧ Kind.ofTy? symbol.ty = some arg.2 ∧
      arg.1 = .symbol x := by
  obtain ⟨symbol, hsymbol, h⟩ := Option.bind_eq_some_iff.mp h
  obtain ⟨kind, hkind, rfl⟩ := Option.map_eq_some_iff.mp h
  exact ⟨symbol, hsymbol, hkind, rfl⟩

theorem arguments_nodup (h : xs.Nodup) : ((xs.filterMap a.argument).map Prod.fst).Nodup := by
  have hsub : ((xs.filterMap a.argument).map Prod.fst).Sublist (xs.map Subject.symbol) := by
    rw [map_filterMap]
    induction xs with
    | nil => exact .slnil
    | cons x xs ih =>
      have ih := ih (nodup_cons.mp h).2
      cases ha : a.argument x with
      | none =>
        rw [filterMap_cons_none (by rw [ha]; rfl)]
        exact .cons _ ih
      | some arg =>
        obtain ⟨-, -, -, hsubject⟩ := argument_eq_some ha
        rw [filterMap_cons_some (b := arg.1) (by rw [ha]; rfl), hsubject]
        exact .cons_cons _ ih
  exact hsub.nodup (h.map fun _ _ he => Subject.symbol.inj he)

theorem Analysis.Sound.captureArguments (h : a.Sound items) (hxs : xs ⊆ a.captures id) :
    List.Forall₂ (fun x arg => ∃ symbol, a.symbols[x]? = some symbol ∧
      Kind.ofTy? symbol.ty = some arg.2 ∧ arg.1 = .symbol x) xs (xs.filterMap a.argument) := by
  induction xs with
  | nil => exact .nil
  | cons x xs ih =>
    obtain ⟨hx, hxs⟩ := cons_subset.mp hxs
    obtain ⟨symbol, hsymbol, hlocal, -⟩ := h.captured id x hx
    obtain ⟨kind, hkind⟩ :=
      ((h.proper .top).symbol x symbol hsymbol (isStorage_of_isLocal hlocal)).kind
    rw [filterMap_cons_some (argument_eq hsymbol hkind)]
    exact .cons ⟨symbol, hsymbol, hkind, rfl⟩ (ih hxs)

theorem Analysis.Sound.paramArguments (h : a.Sound items) {tys : List Ty}
    (hparams : List.Forall₂ (Param.Checked (a.view .top) id) params tys) :
    List.Forall₂ (fun param arg => ∃ x symbol, param.symbol = some x ∧
      a.symbols[x]? = some symbol ∧ Kind.ofTy? symbol.ty = some arg.2 ∧ arg.1 = .symbol x)
      params ((params.filterMap Param.symbol).filterMap a.argument) := by
  induction hparams with
  | nil => exact .nil
  | cons hparam hparams ih =>
    obtain ⟨x, symbol, hx, hsymbol, hkind, -, -⟩ := hparam
    obtain ⟨kind, hk⟩ := ((h.proper .top).symbol x symbol hsymbol (by rw [hkind]; rfl)).kind
    rw [filterMap_cons_some hx, filterMap_cons_some (argument_eq hsymbol hk)]
    exact .cons ⟨x, symbol, hx, hsymbol, hk, rfl⟩ ih

theorem Param.symbol_of_checked {tys : List Ty}
    (hparams : List.Forall₂ (Param.Checked (a.view .top) id) params tys)
    (hx : x ∈ params.filterMap Param.symbol) :
    ∃ symbol, a.symbols[x]? = some symbol ∧ symbol.kind = .parameter ∧ symbol.owner = some id := by
  induction hparams with
  | nil => cases hx
  | cons hparam hparams ih =>
    obtain ⟨y, symbol, hy, hsymbol, hkind, howner, -⟩ := hparam
    rw [filterMap_cons_some hy] at hx
    rcases mem_cons.mp hx with rfl | hx
    · exact ⟨symbol, hsymbol, hkind, howner⟩
    · exact ih hx

theorem Analysis.Sound.handed_nodup (h : a.Sound items) {body : List Stmt}
    (hf : a.Admits id params body) : (params.filterMap Param.symbol ++ a.captures id).Nodup := by
  obtain ⟨info, -, hparams, -⟩ := hf.info
  refine nodup_append.mpr ⟨(nodup_append.mp hf.distinct).1, h.distinct id, ?_⟩
  rintro x hx _ hx' rfl
  obtain ⟨symbol, hsymbol, -, howner⟩ := Param.symbol_of_checked hparams hx
  obtain ⟨_, hsymbol', -, hne⟩ := h.captured id x hx'
  cases hsymbol.symm.trans hsymbol'
  exact hne howner

theorem Analysis.Sound.methodHeader_eq (h : a.Sound items) {a' : Analysis}
    (hsame : a.SameButSlots a') (hinfo : a.functions[id]? = some info) :
    ∃ header, methodHeader a id = .ok header ∧ methodHeader a' id = .ok header := by
  have hcaptures : a.captures id = info.captures := by rw [Analysis.captures, hinfo]; rfl
  obtain ⟨ps, hps⟩ := mapM_jvmType ((h.proper .top).params id info.params info.ret (by
    show (a.functions[id]?).map _ = _
    rw [hinfo]
    rfl))
  have hlocals : ∀ x ∈ info.captures, ∃ symbol, a.symbols[x]? = some symbol ∧
      symbol.isLocal = true := by
    intro x hx
    obtain ⟨symbol, hsymbol, hlocal, -⟩ := h.captured id x (hcaptures ▸ hx)
    exact ⟨symbol, hsymbol, hlocal⟩
  obtain ⟨cs, hcs⟩ := (h.proper .top).captureTypes hlocals
  have hret := (h.knows none id []).result info hinfo
  unfold methodHeader
  split_ifs
  · exact ⟨_, rfl, rfl⟩
  · refine ⟨⟨info.method, ps ++ cs, (a.setting none id []).types.result, true⟩, ?_, ?_⟩
    · exact Except.bind_eq_ok.mpr ⟨_, (Analysis.SameButSlots.refl a).methodRef_eq
        hinfo hps hcs hret, rfl⟩
    · exact Except.bind_eq_ok.mpr ⟨_, hsame.methodRef_eq hinfo hps hcs hret, rfl⟩

/-! ## Methods of functions -/

/-- What making a method keeps: only its own variables get slots, and only functions inside are put
aside. -/
structure GenState.Made (a : Analysis) (id : FnId) (params : List SymbolId)
    (inner : List FunctionDecl) (s s' : GenState) : Prop where
  same : a.SameButSlots s'.analysis
  limit : s'.code.limit = s.code.limit
  slots : ∀ x ∈ params, ∃ symbol, s'.analysis.symbols[x]? = some symbol ∧
    symbol.slot = rowSlot (a.handed id params) (.symbol x)
  others : ∀ (x : SymbolId) symbol, a.symbols[x]? = some symbol → symbol.owner ≠ some id →
    s'.analysis.symbols[x]? = s.analysis.symbols[x]?
  pending : ∃ fs, fs.Sublist inner ∧ s'.pending = s.pending ++ fs

variable {E : GenerateError → Prop} {s : GenState} {params : List Param} {body : List Stmt}

/-- A function can be written from its start: parameters and captured variables have slots. -/
structure GenState.Entered (a : Analysis) (id : FnId) (params : List Param) (body : List Stmt)
    (c : Place) (s : GenState) (captures : List (SymbolId × Nat)) (s' : GenState) : Prop where
  ready : s'.Ready (a.setting s.code.limit id (params.filterMap Param.symbol)) a ⟨id, captures⟩ c
    (Stmt.declaredAll body) none
    (.start ⟨[], .of (a.handed id (params.filterMap Param.symbol))⟩)
    (.of (a.handed id (params.filterMap Param.symbol)))
  code : s'.code = .start s.code.limit
  pending : s'.pending = s.pending
  slots : ∀ x ∈ params.filterMap Param.symbol, ∃ symbol, s'.analysis.symbols[x]? = some symbol ∧
    symbol.slot = rowSlot (a.handed id (params.filterMap Param.symbol)) (.symbol x)
  others : ∀ y ∉ params.filterMap Param.symbol,
    s'.analysis.symbols[y]? = s.analysis.symbols[y]?

theorem enter_typed (h : a.Sound items) (hE : Refuses s.code.limit E)
    (hroom : exceeds s.code.limit 2 = false) (hf : a.Admits id params body)
    (hsame : a.SameButSlots s.analysis)
    (hfresh : ∀ (x : SymbolId) symbol, s.analysis.symbols[x]? = some symbol →
      symbol.owner = some id → symbol.slot = none) (hinfo : a.functions[id]? = some info)
    {c : Place} (hc : c.function = id)
    (hknown : ∀ x ∈ c.known, ∀ symbol, a.symbols[x]? = some symbol → symbol.owner = some id →
      x ∈ params.filterMap Param.symbol) {α : Type}
    {k : FunctionInfo → List (SymbolId × Nat) → Generate α} {Q : α → GenState → Prop}
    (hk : ∀ captures s', s.Entered a id params body c captures s' →
      Generate.Wp E (k info captures) s' Q) : Generate.Wp E (do
      allocateParams params
      let info ← Generate.compute ((← get).analysis.function id)
      let captures ← allocateCaptures info.captures []
      k info captures) (s.begin id) Q := by
  obtain ⟨info', hinfo', hparams, -⟩ := hf.info
  cases hinfo.symm.trans hinfo'
  have hcaptures : a.captures id = info.captures := by rw [Analysis.captures, hinfo]; rfl
  generalize hS : a.setting s.code.limit id (params.filterMap Param.symbol) = S
  have hlimit : S.limit = s.code.limit := hS ▸ rfl
  have hempty : GenState.Held S a (s.begin id) (.start ⟨[], fun _ => none⟩) ⟨[],
    fun _ => none⟩ := by
    refine ⟨?_, fun d hd => ?_, hsame, hlimit.symm, Nat.le_refl _, fun n e he => ?_,
      fun n e he => ?_⟩
    · subst hS
      exact start_shaped hroom rfl rfl rfl _ fun n e he => by cases he
    · cases hd
      rfl
    · cases he
    · cases he
  refine (allocateParams_typed (hlimit ▸ hE) hempty (h.paramArguments hparams)
    (nodup_append.mp hf.distinct).1 fun x hx symbol hsymbol => ?_).bind ?_
  · obtain ⟨symbol0, hsymbol0, -, howner⟩ := Param.symbol_of_checked hparams hx
    obtain ⟨_, hsymbol', hsameSlot⟩ := hsame.symbol hsymbol0
    cases hsymbol.symm.trans hsymbol'
    exact hfresh x symbol hsymbol (hsameSlot.owner.trans howner)
  rintro _ s1 ⟨h1, htakes1, hothers1, hrow1⟩
  refine .get (.compute (a := info) (by rw [Analysis.function, h1.same.functions, hinfo]) ?_)
  refine (allocateCaptures_typed (hlimit ▸ hE) h1 (h.captureArguments fun x hx => hcaptures ▸ hx)
    (hcaptures ▸ h.distinct id) []).bind ?_
  rintro captures s2 ⟨h2, htakes2, hanalysis2, -, hrow2⟩
  have hhanded : a.handed id (params.filterMap Param.symbol) =
      Entry.row (s.begin id).slots.next ((params.filterMap Param.symbol).filterMap a.argument) ++
        Entry.row s1.slots.next (info.captures.filterMap a.argument) := by
    rw [Analysis.handed, filterMap_append, row_append, htakes1.next, hcaptures]
    rfl
  have hnext : s2.slots.next = (if id = FnId.main then 1 else 0) +
      rowWords ((params.filterMap Param.symbol ++ a.captures id).filterMap a.argument) := by
    rw [htakes2.next, htakes1.next, filterMap_append, rowWords_append, hcaptures, Nat.add_assoc]
    rfl
  have hdisjoint := h.handed_nodup hf
  have hbound {e : Entry} (he : e ∈ a.handed id (params.filterMap Param.symbol)) :
      e.slot + e.kind.words ≤ s2.slots.next := hnext ▸ (row_bounds he).2
  refine hk captures s2 ⟨hS ▸ ⟨?_, fun x symbol hx hlocal hholds => ?_, fun x hx => ?_,
    fun labels hl => (by cases hl), fun labels hl => (by cases hl)⟩,
    htakes2.code.trans htakes1.code, htakes2.pending.trans htakes1.pending, fun x hx => ?_,
    fun y hy => hanalysis2 ▸ hothers1 y hy⟩
  · subst hS
    refine h2.enter (htakes2.code.trans htakes1.code) rfl rfl rfl (fun n e he => ?_)
      fun n e he => ?_
    · obtain ⟨hmem, hcovers⟩ := of_eq_some he
      exact Nat.lt_of_lt_of_le hcovers.2 (hbound hmem)
    · intro x n hx hn
      have hslot := rowSlot_eq (arguments_nodup hdisjoint) (of_eq_some he).1 hx
      exact Option.some.inj (hslot.symm.trans hn)
  · have hword {e : Entry} (he : e ∈ a.handed id (params.filterMap Param.symbol)) :
        Words.Holds (.of (a.handed id (params.filterMap Param.symbol))) e := of_row_holds he
    obtain ⟨symbol0, hsymbol0, hsymbol⟩ := h2.same.symbol_of hx
    rw [hsymbol.isLocal] at hlocal
    obtain ⟨kind, hkind⟩ :=
      ((h.proper .top).symbol x symbol0 hsymbol0 (isStorage_of_isLocal hlocal)).kind
    have harg := argument_eq hsymbol0 hkind
    rw [← hsymbol.ty] at hkind
    rcases hholds symbol0 hsymbol0 hlocal with ⟨howner, hmem⟩ | ⟨howner, hmem⟩
    · -- a parameter
      rw [hc] at howner
      obtain ⟨n, he⟩ := exists_mem_row (s.begin id).slots.next
        (mem_filterMap.mpr ⟨x, hknown x hmem symbol0 hsymbol0 howner, harg⟩)
      have hmem := hhanded ▸ mem_append_left _ he
      refine ⟨n, kind, ?_, hkind, hword hmem, hbound hmem⟩
      obtain ⟨_, symbol', hx', hsymbol', hslot⟩ := hrow1 _ he
      cases hx'
      rw [hanalysis2, hsymbol'] at hx
      cases hx
      rw [Frame.slot, show (s2.frame ⟨id, captures⟩).function = id from rfl,
        if_pos (hsymbol.owner.trans howner), hslot]
    · -- a captured variable
      rw [hc] at howner hmem
      obtain ⟨n, he⟩ := exists_mem_row s1.slots.next (mem_filterMap.mpr ⟨x, hcaptures ▸ hmem, harg⟩)
      have hmem := hhanded ▸ mem_append_right _ he
      refine ⟨n, kind, ?_, hkind, hword hmem, hbound hmem⟩
      obtain ⟨_, hx', hlookup⟩ := hrow2 _ he
      cases hx'
      rw [Frame.slot, show (s2.frame ⟨id, captures⟩).function = id from rfl,
        if_neg (hsymbol.owner ▸ howner), show (s2.frame ⟨id, captures⟩).captures =
          captures from rfl,
        hlookup]
  · obtain ⟨hmem, symbol0, hsymbol0, howner⟩ := hx
    have hnot : x ∉ params.filterMap Param.symbol := fun hx =>
      (nodup_append.mp hf.distinct).2.2 x hx x hmem rfl
    refine ⟨hS ▸ rowSlot_eq_none fun arg harg => ?_, fun symbol hsymbol => ?_⟩
    · obtain ⟨y, hy, harg⟩ := mem_filterMap.mp harg
      obtain ⟨-, -, -, hsubject⟩ := argument_eq_some harg
      rw [hsubject]
      rintro ⟨⟩
      refine (mem_append.mp hy).elim hnot fun hx => ?_
      obtain ⟨_, hsymbol', -, hne⟩ := h.captured id x hx
      cases hsymbol0.symm.trans hsymbol'
      exact hne howner
    · rw [hanalysis2, hothers1 x hnot] at hsymbol
      obtain ⟨_, hsymbol', hsameSlot⟩ := hsame.symbol hsymbol0
      cases hsymbol.symm.trans hsymbol'
      exact hfresh x symbol hsymbol (hsameSlot.owner.trans howner)
  · obtain ⟨symbol0, hsymbol0, hkind, -⟩ := Param.symbol_of_checked hparams hx
    obtain ⟨kind, hk⟩ := ((h.proper .top).symbol x symbol0 hsymbol0 (by rw [hkind]; rfl)).kind
    obtain ⟨n, he⟩ := exists_mem_row (s.begin id).slots.next
      (mem_filterMap.mpr ⟨x, hx, argument_eq hsymbol0 hk⟩)
    obtain ⟨_, symbol', hx', hsymbol', hslot⟩ := hrow1 _ he
    cases hx'
    have hmem : _ ∈ a.handed id (params.filterMap Param.symbol) := hhanded ▸ mem_append_left _ he
    exact ⟨symbol', hanalysis2 ▸ hsymbol',
      hslot.trans (rowSlot_eq (arguments_nodup hdisjoint) hmem rfl).symm⟩

/-- A function without a result returns at its end; others do not get there. -/
theorem endMethod_typed {S : Setting} {T : Shaping} {w : Words} (hE : Refuses S.limit E)
    (hresult : a.jvmType info.ret = .ok S.types.result) (h : s.Held S a T ⟨[], w⟩)
    (hends : info.ret = .void ∨ T.at_ s.code.code.size = none) :
    Generate.Wp E (endMethod info) s fun _ s' =>
      ∃ T', s.Adds S a T w ⟨[], w⟩ s' T' ∧ T'.at_ s'.code.code.size = none := by
  unfold endMethod
  refine .get ?_
  show Generate.Wp E (if s.code.reachable = true then _ else _) s _
  rw [h.shaped.reach]
  cases hc : T.at_ s.code.code.size with
  | none => exact .pure ⟨T, ⟨⟨s.code, rfl⟩, h, .refl _ _ _ _⟩, hc⟩
  | some d =>
    have hvoid : info.ret = .void := hends.resolve_right (by rw [hc]; nofun)
    rw [hvoid] at hresult
    rw [if_pos (show (some d).isSome = true from rfl)]
    show Generate.Wp E (if info.ret ≠ .void then _ else Generate.instruction (.ret none)) s _
    rw [if_neg (by simp [hvoid])]
    have haccepts : Shape.Accepts S.types s.slots.max none (.ret none) ⟨[], w⟩ ⟨[], w⟩ :=
      .plain (if_pos (Except.ok.inj hresult).symm) rfl rfl trivial
    exact h.returns hE haccepts rfl rfl

/-- **The method of a function with nothing wrong in it is typed**, unless it is too large. -/
theorem generateMethod_typed (h : a.Sound items) (hE : Refuses s.code.limit E)
    (hroom : exceeds s.code.limit 2 = false) (hf : a.Admits id params body)
    (hlong : Expr.LongIn E (Stmt.exprsAll body)) (hsame : a.SameButSlots s.analysis)
    (hfresh : ∀ (x : SymbolId) symbol, s.analysis.symbols[x]? = some symbol →
      symbol.owner = some id → symbol.slot = none) :
    Generate.Wp E (generateMethod id params body) s fun m s' => m.origin = .function id ∧
      methodHeader a id = .ok m.body.header ∧
      m.Typed (a.functionTypes id (params.filterMap Param.symbol))
        (.of (a.handed id (params.filterMap Param.symbol))) ∧
      s.Made a id (params.filterMap Param.symbol) (Stmt.innerAll body) s' := by
  obtain ⟨info, hinfo, hparams, hends⟩ := hf.info
  obtain ⟨c, hc, hloop, hchecked, hknown⟩ := hf.place
  have hnodup := (nodup_append.mp hf.distinct).2.1
  refine Generate.Ends.bind (P := fun _ s' => s' = s.begin id) (.of_ok rfl rfl) ?_
  rintro _ _ rfl
  refine enter_typed h hE hroom hf hsame hfresh hinfo hc hknown fun captures s1 hentered => ?_
  have hknows := h.knows s.code.limit id (params.filterMap Param.symbol)
  refine (Stmt.generateList_typed (fun stmt hstmt => Stmt.generate_typed hE hknows
    (Stmt.declared_nodup hnodup hstmt) (hlong.mono fun x hx => Stmt.mem_exprsAll.mpr
      ⟨stmt, hstmt, hx⟩)) hchecked hc (by rw [hloop]; nofun) hnodup hentered.ready).run.bind ?_
  rintro _ s2 ⟨hrun, T2, w2, h2, hp2⟩
  have hends2 (hc : (Stmt.flowAll body).completes = false) : T2.at_ s2.code.code.size = none := by
    have hflow := Stmt.generateList_flow (fun stmt _ => stmt.generate_flow) hrun nofun
    simpa [h2.shaped.reach] using hflow.stops hc
  refine (endMethod_typed hE (hknows.result info hinfo) h2 (hends.imp_right hends2)).bind ?_
  rintro _ _ ⟨T3, ⟨⟨b, rfl⟩, h3, hp3⟩, hcur⟩
  have hp := hp2.then_ hp3 nofun
  obtain ⟨header, hheader, hheader'⟩ := h.methodHeader_eq h3.same hinfo
  have hlabels : s1.code.labels.size = 0 := by rw [hentered.code]; rfl
  have hmade : s.Made a id (params.filterMap Param.symbol) (Stmt.innerAll body)
      { s2 with code := b } := by
    rw [append_nil] at hp
    refine ⟨h3.same, h3.shaped.limit, fun x hx => ?_, fun x symbol hx hne => ?_, ?_⟩
    · obtain ⟨symbol, hsymbol, hslot⟩ := hentered.slots x hx
      refine ⟨symbol, (hp.symbols x fun hmem => ?_).trans hsymbol, hslot⟩
      exact (nodup_append.mp hf.distinct).2.2 x hx x hmem.1 rfl
    · refine (hp.symbols x fun hown => ?_).trans (hentered.others x fun hmem => ?_)
      · obtain ⟨-, symbol', hx', howner⟩ := hown
        cases hx.symm.trans hx'
        exact hne howner
      · obtain ⟨_, hx', -, howner⟩ := Param.symbol_of_checked hparams hmem
        cases hx.symm.trans hx'
        exact hne howner
    · obtain ⟨fs, hfs, hpending⟩ := hp.pending
      exact ⟨fs, hfs, hentered.pending ▸ hpending⟩
  refine .get (.compute hheader' ?_)
  have hret : Kind.ofTy? info.ret =
      (a.setting s.code.limit id (params.filterMap Param.symbol)).types.result.kind? :=
    (kind?_of_jvmType (hknows.result info hinfo)).symm
  rw [hret]
  rcases finishMethod_typed h3.shaped rfl rfl rfl hcur (fun l hl =>
    (hp.placed l (hlabels ▸ Nat.zero_le _) hl).resolve_left (by simp))
    (.function id) header rfl with
    ⟨m, hm, horigin, hbody, htyped⟩ | ⟨hexceeds, herror⟩
  · exact .of_ok (by rw [hm]; rfl) ⟨horigin, hbody ▸ hheader, htyped, hmade⟩
  · exact .of_error (by rw [herror]; rfl) (hE.tooLong (isSome_of_exceeds hexceeds) _)

end Functions

end StackCompiler

import StackCompiler.Proofs.Flows
import StackCompiler.Proofs.TypedSteps

/-!
# Typed code of statements

Statements start and end with an empty operand stack. They can be written wherever they are checked:
nothing but the size of the method keeps them from being written.

* **`Stmt.generate_typed`**, **`Stmt.generateList_typed`**: all statements.
-/

namespace StackCompiler

open CodeBuffer Emit Generate List StackCompiler.Expr

variable {cond e : Expr} {m : Generate Unit} {t : JvmType} {kind : Kind} {l : LabelId}
  {inner : List FunctionDecl} {stmts : List Stmt} {ys : List SymbolId}
  {body : LoopLabels → Generate Unit} {frame slot : Nat} {stmt : Stmt} {symbol : Symbol}
  {id x : SymbolId} {ty : Ty}

/-! ## Single statements -/

section Statements

open GenState

variable {S : Setting} {E : GenerateError → Prop} {a : Analysis} {head : FrameHead} {c : Place}
  {xs : List SymbolId} {loop : Option LoopLabels} {s : GenState} {T : Shaping} {w : Words}

theorem push_typed (hE : Refuses S.limit E) (hk : a.Knows S head.function) {stack : TypeStack}
    (h : s.Held S a T ⟨stack, w⟩) (hc : s.Covers a head c w) (hlong : LongIn E e.subs)
    (hty : e.Typed (a.view c) ty) (ht : a.jvmType ty = .ok t) :
    Generate.Wp E (Generate.push head e) s fun _ s' =>
      ∃ T', s.Adds S a T w ⟨t.values ++ stack, w⟩ s' T' :=
  .get (h.pushes ((code_typed hE.overflow (h.ready hk hc) hlong hty ht).push stack))

theorem jumpBy_typed (hE : Refuses S.limit E) (hk : a.Knows S head.function)
    (h : s.Held S a T ⟨[], w⟩) (hc : s.Covers a head c w) (hlong : LongIn E e.subs)
    (hty : e.Typed (a.view c) .bool) {jumpIf : Bool}
    (hopen : (T.at_ s.code.code.size).isSome → s.code.Open S T l ⟨[], w⟩) :
    Generate.Wp E (Generate.jumpBy head e l jumpIf) s fun _ s' => ∃ T',
      s.Adds S a T w ⟨[], w⟩ s' T' :=
  .get (h.jumps ((code_typed hE.overflow (h.ready hk hc) hlong hty rfl).jump rfl l jumpIf []) hopen)

/-- A value is stored above all others, in a slot that was taken for it. -/
theorem store_typed (hE : Refuses S.limit E) {x : Subject} {A : Analysis}
    (h : s.Held S a T ⟨t.values, w⟩)
    (h' : GenState.Held S a { s with slots := grown s.slots kind, analysis := A } T ⟨t.values, w⟩)
    (hx : S.types.variable_ x = some t) (hfree : S.types.slot x = none)
    (hkind : t.kind? = some kind) (own : SymbolId → Prop)
    (hown : ∀ y, ¬ own y → A.symbols[y]? = s.analysis.symbols[y]?) :
    Generate.Wp E (Generate.about x (.store kind s.slots.next))
      { s with slots := grown s.slots kind, analysis := A } fun _ s' =>
        ∃ b T', s' = { s with slots := grown s.slots kind, analysis := A, code := b } ∧
        s'.Held S a T' ⟨[], w.write ⟨some x, kind, s.slots.next⟩⟩ ∧
        Passes own [] [] s T w s' T' (w.write ⟨some x, kind, s.slots.next⟩) := by
  have hvalues : t.values = [t.onStack] := if_neg (by rintro rfl; cases hkind)
  have hhome : Entry.AtHome ⟨some x, kind, s.slots.next⟩ S.types := by
    rintro _ n ⟨⟩ hn
    rw [hfree] at hn
    cases hn
  rw [hvalues] at h'
  have ha := Shape.Accepts.store hx hkind hhome (Nat.le_max_right s.slots.max _) [] w
  refine (Generate.Wp.ofEmit (Takes.emit hE.overflow ha rfl rfl h'.shaped h'.cur)).imp ?_
  rintro _ _ ⟨b, rfl, T', hg⟩
  have hp : Passes own [] [] s T w { s with code := b } T'
    (w.write ⟨some x, kind, s.slots.next⟩) := by
    refine .of_ends (s := s) hg.toEnds fun n hn => ?_
    rw [Words.write, if_neg]
    intro hcovers
    exact Nat.not_le_of_lt hn hcovers.1
  refine ⟨b, T', rfl, ⟨hg.shaped, hg.cur, h'.same, h'.limit, h'.next_le, fun n e he => ?_,
    fun n e he => ?_⟩, { hp with
      symbols := hown, next := Nat.le_add_right _ _, max := Nat.le_max_left _ _ }⟩
  · simp only [Words.write] at he
    split_ifs at he with hn
    · exact hn.2
    · exact Nat.lt_of_lt_of_le (h.free n e he) (Nat.le_add_right _ _)
  · simp only [Words.write] at he
    split_ifs at he
    · cases he
      exact hhome
    · exact h.homes n e he

theorem GenState.Covers.declare {s' : GenState} {own : SymbolId → Prop} {W : List LabelId}
    {T' : Shaping} {w' : Words} {known : List SymbolId} (h : s.Covers a head c w)
    (hp : Passes own inner W s T w s' T' w') (hown : ∀ y, own y → y = x)
    (hx : s'.analysis.symbols[x]? = some symbol) (hslot : symbol.slot = some slot)
    (howner : symbol.owner = some head.function) (hkind : Kind.ofTy? symbol.ty = some kind)
    (hword : w'.Holds ⟨some (.symbol x), kind, slot⟩) (hnext : slot + kind.words ≤ s'.slots.next)
    (hknown : known = c.known ++ [x]) : s'.Covers a head { c with known := known } w' := by
  intro y symbol' hy hlocal hholds
  by_cases hyx : y = x
  · subst hyx
    cases hy.symm.trans hx
    refine ⟨slot, kind, ?_, hkind, hword, hnext⟩
    rw [Frame.slot, show (s'.frame head).function = head.function from rfl, if_pos howner, hslot]
  · rw [hp.symbols y fun hy' => hyx (hown y hy')] at hy
    have hholds' : a.Holds c y := by
      intro symbol hsymbol hlocal
      refine (hholds symbol hsymbol hlocal).imp_left fun hmem => ⟨hmem.1, ?_⟩
      have hmem := hmem.2
      simp only [hknown, mem_append, mem_singleton] at hmem
      exact hmem.resolve_right hyx
    obtain ⟨slot', kind', hslot', hkind', hword', hnext'⟩ := h y symbol' hy hlocal hholds'
    refine ⟨slot', kind', hslot', hkind', fun m hm => ?_, Nat.le_trans hnext' hp.next⟩
    rw [hp.words m (Nat.lt_of_lt_of_le hm.2 hnext'), hword' m hm]

theorem withSlot_self (hx : s.analysis.symbols[x]? = some symbol) :
    (s.withSlot x symbol slot).symbols[x]? = some { symbol with slot := some slot } := by
  rw [GenState.withSlot, Array.getElem?_setIfInBounds, if_pos rfl,
    if_pos (Array.getElem?_eq_some_iff.mp hx).1]

theorem withSlot_other {y : SymbolId} (h : y ≠ x) :
    (s.withSlot x symbol slot).symbols[y]? = s.analysis.symbols[y]? := by
  rw [GenState.withSlot, Array.getElem?_setIfInBounds, if_neg (Ne.symm h)]

theorem generateVar_typed (hE : Refuses S.limit E) (hk : a.Knows S head.function) {decl : VarDecl}
    (hchecked : decl.Checked (a.view c) c) (hf : c.function = head.function)
    (hlong : LongIn E decl.init.subs)
    (h : s.Ready S a head c decl.symbol.toList loop T w) :
    Generate.Wp E (generateVar head decl) s fun _ s' => ∃ T' w', s'.Held S a T' ⟨[], w'⟩ ∧
      Passes (a.OwnedIn head.function decl.symbol.toList) [] [] s T w s' T' w' ∧
      s'.Covers a head (c.after (.var decl)) w' := by
  obtain ⟨id, symbol, hid, hsymbol, hkind, howner, hinit⟩ := hchecked
  have hsymbol : a.symbols[id]? = some symbol := hsymbol
  have hstorage : symbol.kind.isStorage = true := by rw [hkind]; rfl
  have hvalue := (hk.proper c).symbol id symbol hsymbol hstorage
  obtain ⟨t, ht, hvalues⟩ := hvalue.jvmType
  have hafter : (c.after (.var decl)).known = c.known ++ [id] := by
    show c.known ++ decl.symbol.toList = _
    rw [hid]
    rfl
  refine .analyzed hid ?_
  refine (push_typed hE hk h.held h.covers hlong hinit ht).bind ?_
  rintro _ _ ⟨T1, ⟨b, rfl⟩, h1, hp1⟩
  rw [append_nil] at h1
  obtain ⟨symbol', hx', hsame⟩ := h.held.same.symbol hsymbol
  refine .symbol hx' ?_
  rcases hk.place id symbol hsymbol hstorage with hlocal | hglobal
  · -- a local variable gets a slot
    have hlocal' := hsame.isLocal.trans hlocal
    have howner : symbol.owner = some head.function := by
      rw [← hf]
      refine howner.resolve_left fun hnone => ?_
      simp [Symbol.isLocal, hnone] at hlocal
    obtain ⟨kind, hkind⟩ := hvalue.kind
    have hkind' : Kind.ofTy? symbol'.ty = some kind := by rw [hsame.ty, hkind]
    have htk : t.kind? = some kind := (kind?_of_jvmType ht).trans hkind
    have howned : a.OwnedIn head.function decl.symbol.toList id :=
      ⟨by rw [hid]; simp, symbol, hsymbol, howner⟩
    obtain ⟨hfree, hfresh⟩ := h.fresh id howned
    have hslot : symbol'.slot = none := hfresh symbol' hx'
    rw [if_neg (by rw [Symbol.isGlobal_of_isLocal hlocal']; exact Bool.false_ne_true)]
    refine .compute (kindOf_eq_ok.mpr hkind') ((h1.newSlot hE hx' hslot kind).bind ?_)
    rintro _ _ ⟨rfl, rfl, h2⟩
    have hx := (hk.symbol id symbol t hsymbol ht).1
    refine (store_typed hE h1 h2 hx hfree htk (fun y => y = id)
      fun y hy => withSlot_other hy).imp ?_
    rintro _ _ ⟨b', T', rfl, h', hp'⟩
    have hp : Passes (fun y => y = id) [] [] s T w _ T' _ :=
      (hp1.mono (fun _ => False.elim) .slnil).then_ hp' fun _ hy => hy
    refine ⟨T', _, h', hp.mono (fun y hy => hy ▸ howned) .slnil, ?_⟩
    exact h.covers.declare hp (fun _ hy => hy) (withSlot_self hx') rfl (hsame.owner.trans howner)
      hkind' (Words.write_holds _ _) (Nat.le_refl _) hafter
  · -- a global variable is a static field
    rw [if_pos (hsame.isGlobal.trans hglobal)]
    have hfield := (h.held.same.globalField hsame).trans (Analysis.globalField_eq_ok ht)
    have hput : Takes S s.slots.max E (Emit.instruction (.putStatic ⟨a.className, symbol.name, t⟩))
        ⟨t.values, w⟩ ⟨[], w⟩ := by
      refine .plain hE.overflow ?_ rfl rfl rfl rfl trivial
      simp only [Instruction.retype, hvalues, takeTypes, if_pos t.onStack_standsFor]
    refine .get (.compute hfield ((h1.pushes hput).imp ?_))
    rintro _ _ ⟨T', ⟨b', rfl⟩, h', hp'⟩
    have hp := hp1.then_ hp' fun _ => False.elim
    refine ⟨T', w, h', hp.mono (fun _ => False.elim) .slnil, fun y symbol1 hy hlocal hholds => ?_⟩
    refine h.covers y symbol1 hy hlocal fun symbol2 hsymbol2 hlocal2 =>
      (hholds symbol2 hsymbol2 hlocal2).imp_left (And.imp_right fun hmem => ?_)
    rw [hafter, mem_append, mem_singleton] at hmem
    refine hmem.resolve_right ?_
    rintro rfl
    cases hsymbol.symm.trans hsymbol2
    rw [Symbol.isGlobal_of_isLocal hlocal2] at hglobal
    cases hglobal

theorem Frame.Ready.store_takes (hE : S.MayOverflow E) {f : Frame}
    (h : f.Ready S.types frame a c w) (hx : a.symbols[x]? = some symbol)
    (hk : symbol.kind.isStorage = true) (hknown : x ∈ c.known) (hf : f.function = c.function)
    (howner : symbol.owner = none ∨ symbol.owner = some c.function)
    (ht : a.jvmType symbol.ty = .ok t) (stack : TypeStack) :
    Takes S frame E (f.store x) ⟨t.values ++ stack, w⟩ ⟨stack, w⟩ := by
  have hvalues := (h.proper.symbol x symbol hx hk).values ht
  obtain ⟨symbol', hx', hsame⟩ := h.same.symbol hx
  rcases h.place x symbol hx hk with hlocal | hglobal
  · have howner : symbol.owner = some c.function := by
      refine howner.resolve_left fun hnone => ?_
      simp [Symbol.isLocal, hnone] at hlocal
    have howner' : symbol'.owner = some f.function := by rw [hsame.owner, hf, howner]
    rw [← hsame.isLocal] at hlocal
    obtain ⟨slot, kind, hslot, hkind, hword, hframe⟩ := h.slots x symbol' hx' hlocal
      fun symbol1 hsymbol1 _ => .inl ⟨by cases hx.symm.trans hsymbol1; exact howner, hknown⟩
    have hslot' : symbol'.slot = some slot := by
      rw [Frame.slot, if_pos howner'] at hslot
      cases hs : symbol'.slot with
      | none => simp only [hs] at hslot; cases hslot
      | some n => simp only [hs] at hslot; cases hslot; rfl
    have hinstr := Frame.storeInstruction_eq_ok.mpr ⟨_, hx',
      .inr ⟨Symbol.isGlobal_of_isLocal hlocal, howner', kind, hkind, slot, hslot', rfl⟩⟩
    rw [hsame.ty] at hkind
    have hstore := Shape.Accepts.store (h.types x symbol t hx ht)
      ((kind?_of_jvmType ht).trans hkind) (h.homes _ _ hword.first) hframe stack w
    rw [hword.write_eq] at hstore
    rw [hvalues]
    exact .liftThen hinstr (.emit hE hstore rfl rfl)
  · have hinstr := Frame.storeInstruction_eq_ok.mpr ⟨_, hx', .inl ⟨hsame.isGlobal.trans hglobal, _,
      (h.same.globalField hsame).trans (Analysis.globalField_eq_ok ht), rfl⟩⟩
    refine .liftThen hinstr (.emit hE (.plain ?_ rfl rfl trivial) rfl rfl)
    simp only [Instruction.retype, hvalues, cons_append, nil_append, takeTypes,
      if_pos t.onStack_standsFor]

/-- An assignment leaves nothing on the stack, and the frame holds the same variables. -/
theorem generateAssign_takes (hE : S.MayOverflow E) {f : Frame}
    (h : f.Ready S.types frame a c w) (hf : f.function = c.function) {target value : Expr}
    (htarget : target.Assignable (a.view c) c ty) (hvalue : value.Typed (a.view c) ty)
    (hlong : LongIn E (target.subs ++ value.subs)) :
    Takes S frame E (generateAssign f target value) ⟨[], w⟩ ⟨[], w⟩ := by
  have hlong' : LongIn E value.subs := hlong.mono (subset_append_right _ _)
  cases target with
  | name note ref =>
    obtain ⟨binding, symbol, hbinding, hsymbol, hkind, rfl, hknown, howner⟩ := htarget
    have hk : symbol.kind.isStorage = true := by rw [hkind]; rfl
    have href : ref.symbol = .ok binding.symbol := by rw [NameRef.symbol, hbinding]
    obtain ⟨t, ht, -⟩ := (h.proper.symbol _ _ hsymbol hk).jvmType
    exact .liftThen href (((code_typed hE h hlong' hvalue ht).push []).then_
      (h.store_takes hE hsymbol hk hknown hf howner ht []))
  | index note base position =>
    have htarget : (Expr.index note base position).HasTy (a.view c) ty := htarget
    have hv := HasTy.index_value h.proper htarget
    obtain ⟨t, ht, hvalues⟩ := hv.jvmType
    obtain ⟨hbase, hposition⟩ := htarget
    have hbase' := code_typed hE h (hlong.mono (by simp [subs])) hbase (jvmType_array ht)
    have hposition' := code_typed hE h (hlong.mono fun x hx => by simp [subs, hx]) hposition rfl
    have hvalue' := code_typed hE h hlong' hvalue ht
    obtain ⟨elem, helem, htype⟩ := h.arrayElem_eq hv ht
    refine .liftThen (typeOf_of_typed hbase rfl) (.liftThen helem ((hbase'.push []).then_
      ((hposition'.push _).then_ ((hvalue'.push _).then_ (.plain hE ?_ rfl rfl rfl rfl trivial)))))
    rw [hvalues]
    exact if_pos ⟨t.onStack_onStack, .refl _, htype⟩
  | field note base field position =>
    have htarget : (Expr.field note base field position).HasTy (a.view c) ty := htarget
    have hv := HasTy.field_value h.proper htarget
    obtain ⟨t, ht, hvalues⟩ := hv.jvmType
    obtain ⟨decl, name, info, position, fieldName, hinfo, rfl, hfield, hbase⟩ := htarget
    have hbase' := code_typed hE h (hlong.mono (by simp [subs])) hbase (jvmType_record hinfo)
    have hvalue' := code_typed hE h hlong' hvalue ht
    refine .liftThen (typeOf_of_typed hbase rfl) (.liftThen (h.fieldRef_eq hinfo hfield ht)
      ((hbase'.push []).then_ ((hvalue'.push _).then_ (.plain hE ?_ rfl rfl rfl rfl trivial))))
    rw [hvalues]
    simp only [Instruction.retype, takeTypes, if_pos t.onStack_standsFor, cons_append, nil_append]
    exact if_pos (JvmType.StandsFor.refl _)
  | _ => exact htarget.elim

theorem generateReturn_typed (hE : Refuses S.limit E) (hk : a.Knows S head.function)
    (hf : c.function = head.function) {value : Option Expr} {params : List Ty} {ret : Ty}
    (hsig : (a.view c).signature c.function = some (params, ret))
    (hvalue : Returned (a.view c) ret value)
    (hlong : ∀ e, value = some e → LongIn E e.subs)
    (h : s.Ready S a head c xs loop T w) :
    Generate.Wp E (generateReturn head value) s fun _ s' => ∃ T', s.Adds S a T w ⟨[], w⟩ s' T' := by
  obtain ⟨info, hinfo, hpair⟩ := Option.map_eq_some_iff.mp hsig
  cases hpair
  rw [hf] at hinfo
  have hresult := hk.result info hinfo
  cases value with
  | none =>
    have hvoid : S.types.result = .void := by
      rw [show info.ret = .void from hvalue] at hresult
      exact (Except.ok.inj hresult).symm
    have ha : Shape.Accepts S.types s.slots.max none (.ret none) ⟨[], w⟩ ⟨[], w⟩ :=
      .plain (if_pos hvoid) rfl rfl trivial
    exact (h.held.returns hE ha rfl rfl).imp fun _ _ h' => h'.imp fun _ h' => h'.1
  | some value =>
    obtain ⟨hne, hvalue⟩ := hvalue
    have hv := (hvalue.value_or_void (hk.proper c)).resolve_left hne
    obtain ⟨kind, hkind⟩ := hv.kind
    have hrk : S.types.result.kind? = some kind := (kind?_of_jvmType hresult).trans hkind
    have hfun : s.analysis.function head.function = .ok info := by
      rw [Analysis.function, h.held.same.functions, hinfo]
    refine (push_typed hE hk h.held h.covers (hlong value rfl) hvalue hresult).bind ?_
    rintro _ _ ⟨T1, h1⟩
    obtain ⟨b, rfl⟩ := h1.code
    refine .get (.compute hfun (.compute (kindOf_eq_ok.mpr hkind) ?_))
    have ha : Shape.Accepts S.types s.slots.max none (.ret (some kind))
        ⟨S.types.result.values ++ [], w⟩ ⟨[], w⟩ := by
      refine .plain ?_ rfl rfl trivial
      simp only [Instruction.retype, if_pos hrk, hv.values hresult, cons_append,
        nil_append, takeTypes, if_pos S.types.result.onStack_standsFor]
    exact (h1.held.returns hE ha rfl rfl).imp fun _ _ h' => h'.imp fun _ h' => h1.then_ h'.1

theorem generateDiscarded_typed (hE : Refuses S.limit E) (hk : a.Knows S head.function)
    (hty : e.Typed (a.view c) ty) (hlong : LongIn E e.subs)
    (h : s.Ready S a head c xs loop T w) :
    Generate.Wp E (generateDiscarded head e) s fun _ s' => ∃ T', s.Adds S a T w ⟨[], w⟩ s' T' := by
  obtain ⟨t, ht⟩ := hty.jvmType (hk.proper c)
  refine (push_typed hE hk h.held h.covers hlong hty ht).bind ?_
  rintro _ s1 ⟨T1, h1⟩
  rw [append_nil] at h1
  rw [hty.resultTy?, Option.bind_some]
  have htk := kind?_of_jvmType ht
  cases hkind : Kind.ofTy? ty with
  | none =>
    rw [hkind] at htk
    have hvalues : t.values = [] := by cases t <;> first | rfl | cases htk
    rw [hvalues] at h1
    exact .pure ⟨T1, h1⟩
  | some kind =>
    rw [hkind] at htk
    have hvalues : t.values = [t.onStack] := if_neg (by rintro rfl; cases htk)
    have hpop : Takes S s1.slots.max E (Emit.instruction (.pop kind)) ⟨t.values, w⟩ ⟨[], w⟩ := by
      refine .plain hE.overflow ?_ rfl rfl rfl rfl trivial
      simp only [Instruction.retype, hvalues, JvmType.kind?_onStack, if_pos htk]
    exact (h1.held.pushes hpop).imp fun _ _ h' => h'.imp fun _ => h1.then_

/-! ## Branches -/

/-- Code that can be written where a statement can, and that ends as statements do. -/
def Generate.Writes (S : Setting) (E : GenerateError → Prop) (a : Analysis) (head : FrameHead)
    (c : Place) (xs : List SymbolId) (loop : Option LoopLabels) (inner : List FunctionDecl)
    (m : Generate Unit) : Prop :=
  ∀ ⦃s T w⦄, s.Ready S a head c xs loop T w → Generate.Wp E m s fun _ =>
    Leaves S a (a.OwnedIn head.function xs) inner s T w

theorem GenState.Ready.openScope (h : s.Ready S a head c xs loop T w) :
    GenState.Ready S a head c xs loop { s with slots := s.slots.openScope } T w :=
  ⟨⟨h.held.shaped, h.held.cur, h.held.same, h.held.limit, h.held.next_le, h.held.free,
    h.held.homes⟩, h.covers,
    h.fresh, h.leave, h.next⟩

theorem Generate.Writes.inScope (hm : Writes S E a head c xs loop inner m)
    (h : s.Ready S a head c xs loop T w) :
    Generate.Wp E (Generate.inScope m) s fun _ s' => ∃ T', s'.Held S a T' ⟨[], w⟩ ∧
      Passes (a.OwnedIn head.function xs) inner [] s T w s' T' w :=
  h.held.inScope (hm h.openScope)

theorem Generate.Writes.scoped (hm : Writes S E a head c xs loop inner m) :
    Writes S E a head c xs loop inner (Generate.inScope m) :=
  fun _ _ w h => (hm.inScope h).imp fun _ _ h' => h'.imp fun _ h' => ⟨w, h'⟩

theorem Analysis.OwnedIn.mono {f : FnId} (hsub : xs ⊆ ys) (h : a.OwnedIn f xs x) :
    a.OwnedIn f ys x := ⟨hsub h.1, h.2⟩

theorem GenState.Ready.subset (h : s.Ready S a head c xs loop T w) (hsub : ys ⊆ xs) :
    s.Ready S a head c ys loop T w :=
  ⟨h.held, h.covers, fun x hx => h.fresh x (hx.mono hsub), h.leave, h.next⟩

/-- A statement is being written. Some variables and functions have been met, some labels wait to be
placed, and jumps back to others are in order. -/
structure GenState.Midway (S : Setting) (a : Analysis) (f : FnId) (xs : List SymbolId)
    (inner : List FunctionDecl) (waiting back : List LabelId) (s : GenState) (T : Shaping)
    (w : Words) (s' : GenState) (T' : Shaping) : Prop where
  held : s'.Held S a T' ⟨[], w⟩
  passes : Passes (a.OwnedIn f xs) inner waiting s T w s' T' w
  waits : ∀ l ∈ waiting, s'.code.Waits S T' l ⟨[], w⟩
  opens : ∀ l ∈ back, (T.at_ s.code.code.size).isSome → s'.code.Open S T' l ⟨[], w⟩
  nodup : (back ++ waiting).Nodup

namespace GenState.Midway

variable {f : FnId} {waiting back : List LabelId} {zs : List SymbolId}
  {inner' : List FunctionDecl} {s1 s' : GenState} {T1 T' : Shaping}

theorem refl (f : FnId) (h : s.Held S a T ⟨[], w⟩) : Midway S a f [] [] [] [] s T w s T :=
  ⟨h, .refl _ s T w, nofun, nofun, .nil⟩

theorem newLabel (h : Midway S a f xs inner waiting [] s T w s1 T1) :
    Generate.Wp E (Generate.ofEmit Emit.newLabel) s1 fun l s' => ∃ T',
      Midway S a f xs inner (l :: waiting) [] s T w s' T' ∧
        T'.at_ s'.code.code.size = T1.at_ s1.code.code.size := by
  refine (h.held.newLabel ⟨[], w⟩).imp ?_
  rintro _ _ ⟨rfl, b, T', rfl, h', hf⟩
  refine ⟨T', ⟨h', h.passes.newLabel hf, forall_mem_cons.mpr ⟨hf.waits, fun l hl =>
    hf.waits_old (h.waits l hl)⟩, nofun, nodup_cons.mpr ⟨fun hl => ?_, h.nodup⟩⟩, hf.cur⟩
  exact Nat.lt_irrefl _ (h.passes.made _ hl).2

/-- A label is placed. If control gets there from the start, jumps back to it are in order. -/
theorem place (before after : List LabelId)
    (h : Midway S a f xs inner (before ++ l :: after) back s T w s1 T1) :
    Generate.Wp E (Generate.ofEmit (Emit.bind l)) s1 fun _ s' => ∃ T',
      Midway S a f xs inner (before ++ after) back s T w s' T' ∧
        (((T.at_ s.code.code.size).isSome → (T1.at_ s1.code.code.size).isSome) →
          Midway S a f xs inner (before ++ after) (l :: back) s T w s' T') := by
  have hl : l ∈ before ++ l :: after := by simp
  have hnodup := h.nodup
  rw [← append_assoc, perm_middle.nodup_iff, append_assoc] at hnodup
  obtain ⟨hnot, hrest⟩ := nodup_cons.mp hnodup
  refine (h.held.bind (h.waits l hl)).imp ?_
  rintro _ _ ⟨b, T', rfl, h', hp⟩
  have hne {x : LabelId} (hx : x ∈ back ++ (before ++ after)) : x ≠ l := fun he => hnot (he ▸ hx)
  have hwaits : ∀ x ∈ before ++ after, x ∈ before ++ l :: after ∧ x ≠ l := fun x hx =>
    ⟨by simp at hx ⊢; tauto, hne (mem_append_right _ hx)⟩
  have hpasses := h.passes.bind hp hl (by simp; tauto) hwaits
  have hopens : ∀ x ∈ back, (T.at_ s.code.code.size).isSome → b.Open S T' x ⟨[], w⟩ :=
    fun x hx hlive => hp.open_other (hne (mem_append_left _ hx)) (h.opens x hx hlive)
  have hothers : ∀ x ∈ before ++ after, b.Waits S T' x ⟨[], w⟩ := fun x hx =>
    hp.waits_other (hwaits x hx).2 (h.waits x (hwaits x hx).1)
  refine ⟨T', ⟨h', hpasses, hothers, hopens, hrest⟩, fun hlive => ⟨h', hpasses, hothers,
    forall_mem_cons.mpr ⟨fun hs => hp.open_self (h.waits l hl) ?_, hopens⟩, hnodup⟩⟩
  rw [hp.live (.inl (hlive hs))]
  rfl

theorem then_ (h : Midway S a f xs inner waiting back s T w s1 T1) (h' : s'.Held S a T' ⟨[], w⟩)
    (hp : Passes (a.OwnedIn f ys) inner' [] s1 T1 w s' T' w) :
    Midway S a f (xs ++ ys) (inner ++ inner') waiting back s T w s' T' :=
  ⟨h', (h.passes.mono (fun _ hx => hx.mono (subset_append_left _ _)) (.refl _)).then_ hp
      fun _ hx => hx.mono (subset_append_right _ _),
    fun l hl => (h.waits l hl).grows hp.grows,
    fun l hl hlive => (h.opens l hl hlive).grows hp.grows, h.nodup⟩

theorem adds (h : Midway S a f xs inner waiting back s T w s1 T1)
    (h' : s1.Adds S a T1 w ⟨[], w⟩ s' T') : Midway S a f xs inner waiting back s T w s' T' := by
  have hp : Passes (a.OwnedIn f []) [] [] s1 T1 w s' T' w := h'.passes.mono nofun (.refl _)
  simpa using h.then_ h'.held hp

/-- The last label is placed, and the statement has been written. -/
theorem finish (h : Midway S a f xs inner [l] back s T w s1 T1) :
    Generate.Wp E (Generate.ofEmit (Emit.bind l)) s1 fun _ =>
      Leaves S a (a.OwnedIn f xs) inner s T w := by
  refine (h.place [] []).imp ?_
  rintro _ s' ⟨T', h', -⟩
  exact ⟨T', w, h'.held, h'.passes⟩

/-- The end of a loop. -/
theorem repeats {top done : LabelId} (hE : Refuses S.limit E)
    (h : Midway S a f xs inner [done] [top] s T w s1 T1) :
    Generate.Wp E (do Generate.ofEmit (Emit.jump top); Generate.ofEmit (Emit.bind done)) s1 fun _ =>
      Leaves S a (a.OwnedIn f xs) inner s T w := by
  refine (h.held.jump hE fun hlive => h.opens top (by simp) (h.passes.alive hlive)).bind ?_
  rintro _ s2 ⟨T2, hjump⟩
  exact (h.adds hjump).finish

theorem ready (hm : Midway S a head.function ys inner waiting back s T w s' T')
    (h : s.Ready S a head c xs loop T w) (hys : ys ⊆ xs) (hzs : zs ⊆ xs)
    (hdisjoint : ∀ x ∈ zs, x ∉ ys) : s'.Ready S a head c zs loop T' w :=
  h.passes hm.held hm.passes (fun _ hx => hx.mono hys) hzs fun x hx hx' => hdisjoint x hx hx'.1

end GenState.Midway

section

variable (hE : Refuses S.limit E) (hk : a.Knows S head.function)
  (hcond : cond.Typed (a.view c) .bool) (hlong : LongIn E cond.subs)
include hE hk hcond hlong

theorem generateBranch_typed {yes : Generate Unit} (hyes : Writes S E a head c xs loop inner yes) :
    Writes S E a head c xs loop inner (generateBranch head cond yes) := by
  intro s T w h
  refine (Midway.refl head.function h.held).newLabel.bind ?_
  rintro other s1 ⟨T1, h1, -⟩
  have hready := h1.ready h (nil_subset _) (Subset.refl _) nofun
  refine (jumpBy_typed hE hk h1.held hready.covers hlong hcond fun _ =>
    (h1.waits other (by simp)).open (.refl _)).bind ?_
  rintro _ s2 ⟨T2, hjump⟩
  have h2 := h1.adds hjump
  refine (hyes.inScope (h2.ready h (nil_subset _) (Subset.refl _) nofun)).bind ?_
  rintro _ s3 ⟨T3, h3, hbody⟩
  exact (h2.then_ h3 hbody).finish

theorem generateChoice_typed {zs : List SymbolId} (hnodup : (ys ++ zs).Nodup)
    {inner' : List FunctionDecl} {yes no : Generate Unit}
    (hyes : Writes S E a head c ys loop inner yes) (hno : Writes S E a head c zs loop inner' no) :
    Writes S E a head c (ys ++ zs) loop (inner ++ inner') (generateChoice head cond yes no) := by
  intro s T w h
  refine (Midway.refl head.function h.held).newLabel.bind ?_
  rintro other s1 ⟨T1, h1, -⟩
  have hready := h1.ready h (nil_subset _) (subset_append_left _ _) nofun
  refine (jumpBy_typed hE hk h1.held hready.covers hlong hcond fun _ =>
    (h1.waits other (by simp)).open (.refl _)).bind ?_
  rintro _ s2 ⟨T2, hjump⟩
  have h2 := h1.adds hjump
  refine (hyes.inScope (h2.ready h (nil_subset _) (subset_append_left _ _) nofun)).bind ?_
  rintro _ s3 ⟨T3, h3, hbody⟩
  refine (h2.then_ h3 hbody).newLabel.bind ?_
  rintro done s4 ⟨T4, h4, -⟩
  refine (h4.held.jump hE fun _ => (h4.waits done (by simp)).open (.refl _)).bind ?_
  rintro _ s5 ⟨T5, hjump⟩
  refine ((h4.adds hjump).place [done] []).bind ?_
  rintro _ s6 ⟨T6, h6, -⟩
  refine (hno.inScope (h6.ready h (subset_append_left _ _) (subset_append_right _ _)
    fun x hx hx' => (nodup_append.mp hnodup).2.2 x hx' x hx rfl)).bind ?_
  rintro _ s7 ⟨T7, h7, hbody⟩
  exact (h6.then_ h7 hbody).finish

/-! ## Loops -/

theorem testLoop_typed (h : s.Held S a T ⟨[], w⟩) (hc : s.Covers a head c w) {done : LabelId}
    (hopen : s.code.Open S T done ⟨[], w⟩) :
    Generate.Wp E (testLoop head cond done) s fun _ s' => ∃ T', s.Adds S a T w ⟨[], w⟩ s' T' := by
  unfold testLoop
  split_ifs
  · exact .pure ⟨T, ⟨s.code, rfl⟩, h, .refl _ s T w⟩
  · exact jumpBy_typed hE hk h hc hlong hcond fun _ => hopen

theorem generateLoop_typed
    (hbody : ∀ labels, Writes S E a head c xs (some labels) inner (body labels)) :
    Writes S E a head c xs loop inner (generateLoop head cond body) := by
  intro s T w h
  refine (Midway.refl head.function h.held).newLabel.bind ?_
  rintro top s1 ⟨T1, h1, hcur1⟩
  refine h1.newLabel.bind ?_
  rintro done s2 ⟨T2, h2, hcur2⟩
  refine (h2.place [done] []).bind ?_
  rintro _ s3 ⟨T3, -, h3⟩
  have h3 := h3 fun hlive => by rwa [hcur2, hcur1]
  have hready3 := h3.ready h (nil_subset _) (Subset.refl _) nofun
  refine (testLoop_typed hE hk hcond hlong h3.held hready3.covers
    ((h3.waits done (by simp)).open (.refl _))).bind ?_
  rintro _ s4 ⟨T4, htest⟩
  have h4 := h3.adds htest
  have hready := h4.ready h (nil_subset _) (Subset.refl _) nofun
  refine ((hbody ⟨done, top⟩).inScope ⟨h4.held, hready.covers, hready.fresh, ?_, ?_⟩).bind ?_
  · rintro _ ⟨⟩ _
    exact (h4.waits done (by simp)).open (.refl _)
  · rintro _ ⟨⟩ hlive
    exact h4.opens top (by simp) (h4.passes.alive hlive)
  rintro _ s5 ⟨T5, h5, hbody⟩
  exact (h4.then_ h5 hbody).repeats hE

/-! ## Ranges -/

end

theorem number_of_isIntegral (h : ty.isIntegral = true) :
    (ty = .int ∧ Kind.ofTy? ty = some .int ∧ a.jvmType ty = .ok .int) ∨
      (ty = .long ∧ Kind.ofTy? ty = some .long ∧ a.jvmType ty = .ok .long) := by
  cases ty with
  | int => exact .inl ⟨rfl, rfl, rfl⟩
  | long => exact .inr ⟨rfl, rfl, rfl⟩
  | _ => cases h

section

variable (hE : S.MayOverflow E) (ht : t = .int ∧ kind = .int ∨ t = .long ∧ kind = .long)
  (hx : S.types.variable_ (.symbol id) = some t)
include hE ht hx

theorem testRange_jumps {bound : Nat} (hb : S.types.variable_ (.bound id) = some t)
    (hword : w.Holds ⟨some (.symbol id), kind, slot⟩)
    (hword' : w.Holds ⟨some (.bound id), kind, bound⟩)
    (hhomes : ∀ n e, w n = some e → e.AtHome S.types) (hslot : slot + kind.words ≤ frame)
    (hbound : bound + kind.words ≤ frame) (done : LabelId) :
    Jumps S frame E (testRange id kind slot bound done) done ⟨[], w⟩ := by
  unfold testRange
  rcases ht with ⟨rfl, rfl⟩ | ⟨rfl, rfl⟩
  · have hload := (load_takes hE hx rfl hword hhomes hslot []).then_
      (load_takes hE hb rfl hword' hhomes hbound _)
    rw [← bind_assoc]
    exact .branch hE hload (.plain rfl rfl rfl trivial) rfl
  · have hload := (load_takes hE hx rfl hword hhomes hslot []).then_
      ((load_takes hE hb rfl hword' hhomes hbound _).then_
        (.plain hE (i := .compare .lcmp) rfl rfl rfl rfl rfl trivial))
    simp only [← bind_assoc] at hload ⊢
    exact .branch hE hload (.plain rfl rfl rfl trivial) rfl

theorem stepRange_takes (hword : w.Holds ⟨some (.symbol id), kind, slot⟩)
    (hhomes : ∀ n e, w n = some e → e.AtHome S.types) (hslot : slot + kind.words ≤ frame) :
    Takes S frame E (stepRange id kind slot) ⟨[], w⟩ ⟨[], w⟩ := by
  unfold stepRange
  rcases ht with ⟨rfl, rfl⟩ | ⟨rfl, rfl⟩
  · rw [if_pos rfl]
    refine .emit hE ⟨?_, hword.write_eq.symm, ?_, ?_, hslot⟩ rfl rfl
    · simp only [Instruction.retype, Option.bind_some, hx]
      rfl
    · rintro e he
      cases he
      exact ⟨rfl, hword, hhomes _ _ hword.first⟩
    · rintro e he
      cases he
      exact hhomes _ _ hword.first
  · rw [if_neg (by decide)]
    have hstore := Shape.Accepts.store hx rfl (hhomes _ _ hword.first) hslot [] w
    rw [hword.write_eq] at hstore
    exact (load_takes hE hx rfl hword hhomes hslot []).then_
      (.then_ (.plain hE rfl rfl rfl rfl rfl trivial)
      (.then_ (.plain hE rfl rfl rfl rfl rfl trivial) (.emit hE hstore rfl rfl)))

end

/-- The number at hand and the bound of a range are in the frame. -/
structure RangeSlots (S : Setting) (w : Words) (next : Nat) (id : SymbolId) (kind : Kind)
    (slot bound : Nat) : Prop where
  number : ∃ t, (t = .int ∧ kind = .int ∨ t = .long ∧ kind = .long) ∧
    S.types.variable_ (.symbol id) = some t ∧ S.types.variable_ (.bound id) = some t
  slot_holds : w.Holds ⟨some (.symbol id), kind, slot⟩
  bound_holds : w.Holds ⟨some (.bound id), kind, bound⟩
  slot_le : slot + kind.words ≤ next
  bound_le : bound + kind.words ≤ next

theorem repeatRange_typed (hE : Refuses S.limit E) {bound : Nat}
    (hbody : ∀ labels, Writes S E a head c xs (some labels) inner (body labels))
    (h : s.Ready S a head c xs loop T w) (hrange : RangeSlots S w s.slots.next id kind slot bound) :
    Generate.Wp E (repeatRange id kind slot bound body) s fun _ =>
      Leaves S a (a.OwnedIn head.function xs) inner s T w := by
  obtain ⟨⟨t, hnumber, hx, hb⟩, hword, hword', hslot, hbound⟩ := hrange
  refine (Midway.refl head.function h.held).newLabel.bind ?_
  rintro top s1 ⟨T1, h1, hcur1⟩
  refine h1.newLabel.bind ?_
  rintro next s2 ⟨T2, h2, hcur2⟩
  refine h2.newLabel.bind ?_
  rintro done s3 ⟨T3, h3, hcur3⟩
  refine (h3.place [done, next] []).bind ?_
  rintro _ s4 ⟨T4, -, h4⟩
  have h4 := h4 fun hlive => by rwa [hcur3, hcur2, hcur1]
  have hmax := Nat.le_trans h.held.next_le h4.passes.max
  refine (h4.held.jumps (testRange_jumps hE.overflow hnumber hx hb hword hword' h.held.homes
    (Nat.le_trans hslot hmax) (Nat.le_trans hbound hmax) _)
    fun _ => (h4.waits done (by simp)).open (.refl _)).bind ?_
  rintro _ s5 ⟨T5, htest⟩
  have h5 := h4.adds htest
  have hready := h5.ready h (nil_subset _) (Subset.refl _) nofun
  refine ((hbody ⟨done, next⟩).inScope ⟨h5.held, hready.covers, hready.fresh, ?_, ?_⟩).bind ?_
  · rintro _ ⟨⟩ _
    exact (h5.waits done (by simp)).open (.refl _)
  · rintro _ ⟨⟩ _
    exact (h5.waits next (by simp)).open (.refl _)
  rintro _ s6 ⟨T6, h6, hbody⟩
  refine ((h5.then_ h6 hbody).place [done] []).bind ?_
  rintro _ s7 ⟨T7, h7, -⟩
  have hmax := Nat.le_trans h.held.next_le h7.passes.max
  refine (h7.held.pushes (stepRange_takes hE.overflow hnumber hx hword h.held.homes
    (Nat.le_trans hslot hmax))).bind ?_
  rintro _ s8 ⟨T8, hstep⟩
  exact (h7.adds hstep).repeats hE

/-- The first number of a range and its bound are put into the frame. -/
theorem startRange_typed (hE : Refuses S.limit E) (hk : a.Knows S head.function)
    (hsymbol : a.symbols[id]? = some symbol) (howner : symbol.owner = some head.function)
    (hint : symbol.ty.isIntegral = true) (hkind : Kind.ofTy? symbol.ty = some kind)
    {first last : Expr} (hfirst : first.Typed (a.view c) symbol.ty)
    (hlast : last.Typed (a.view c) symbol.ty) (hlong : LongIn E first.subs)
    (hlong' : LongIn E last.subs) (h : s.Ready S a head c [id] loop T w) :
    Generate.Wp E (startRange head id kind first last) s fun slots s' => ∃ T' w',
      s'.Held S a T' ⟨[], w'⟩ ∧
      Passes (fun x => x = id) [] [] s T w s' T' w' ∧
      s'.Covers a head { c with known := c.known ++ [id] } w' ∧
      RangeSlots S w' s'.slots.next id kind slots.1 slots.2 := by
  obtain ⟨t, hnumber, ht⟩ : ∃ t, (t = .int ∧ kind = .int ∨ t = .long ∧ kind = .long) ∧
      a.jvmType symbol.ty = .ok t := by
    rcases number_of_isIntegral (a := a) hint with ⟨hty, hk, ht⟩ | ⟨hty, hk, ht⟩
    · cases hkind.symm.trans hk
      exact ⟨.int, .inl ⟨rfl, rfl⟩, ht⟩
    · cases hkind.symm.trans hk
      exact ⟨.long, .inr ⟨rfl, rfl⟩, ht⟩
  obtain ⟨hvar, hvarBound⟩ := hk.symbol id symbol t hsymbol ht
  have htk : t.kind? = some kind := (kind?_of_jvmType ht).trans hkind
  obtain ⟨symbol', hx', hsame⟩ := h.held.same.symbol hsymbol
  have howned : a.OwnedIn head.function [id] id := ⟨by simp, symbol, hsymbol, howner⟩
  refine (push_typed hE hk h.held h.covers hlong hfirst ht).bind ?_
  rintro _ _ ⟨T1, ⟨b1, rfl⟩, h1, hp1⟩
  rw [append_nil] at h1
  obtain ⟨hfree, hfresh⟩ := h.fresh id howned
  refine (h1.newSlot hE hx' (hfresh symbol' hx') kind).bind ?_
  rintro _ _ ⟨rfl, rfl, h2⟩
  refine (store_typed hE h1 h2 hvar hfree htk (fun x => x = id)
    fun x hx => withSlot_other hx).bind ?_
  rintro _ _ ⟨b3, T3, rfl, h3, hp3⟩
  have hp : Passes (fun x => x = id) [] [] s T w _ T3 _ :=
    (hp1.mono (fun _ => False.elim) .slnil).then_ hp3 fun _ hx => hx
  have hcovers3 := h.covers.declare hp (fun _ hx => hx) (withSlot_self hx') rfl
    (hsame.owner.trans howner) (by rw [← hkind, ← hsame.ty]) (Words.write_holds _ _) (Nat.le_refl _)
    rfl
  have hcovers : GenState.Covers a head c _ _ := h.covers_passes h3 hp fun x hx => hx ▸ howned
  refine (push_typed hE hk h3 hcovers hlong' hlast ht).bind ?_
  rintro _ _ ⟨T4, ⟨b4, rfl⟩, h4, hp4⟩
  rw [append_nil] at h4
  refine (h4.allocate hE kind).bind ?_
  rintro _ _ ⟨rfl, rfl, h5⟩
  refine (store_typed hE h4 h5 hvarBound (hk.bound id) htk (fun _ => False) fun _ _ => rfl).bind ?_
  rintro _ _ ⟨b', T', rfl, h', hp'⟩
  have hlater := hp4.then_ hp' fun _ hx => hx
  refine .pure ⟨T', _, h', hp.then_ hlater fun _ => False.elim, ?_, ?_⟩
  · exact hcovers3.passes hlater (fun _ => False.elim) (.refl _)
  · exact ⟨⟨t, hnumber, hvar, hvarBound⟩, (Words.write_holds _ _).write (Nat.le_refl _),
      Words.write_holds _ _, Nat.le_add_right _ _, Nat.le_refl _⟩

theorem generateRange_typed (hE : Refuses S.limit E) (hk : a.Knows S head.function)
    {loopVar : LoopVar} (hid : loopVar.symbol = some id) (hsymbol : a.symbols[id]? = some symbol)
    (howner : symbol.owner = some head.function) (hint : symbol.ty.isIntegral = true)
    {first last : Expr} (hfirst : first.Typed (a.view c) symbol.ty)
    (hlast : last.Typed (a.view c) symbol.ty) (hlong : LongIn E first.subs)
    (hlong' : LongIn E last.subs) (hnodup : (id :: xs).Nodup)
    (hbody : ∀ labels, Writes S E a head { c with known := c.known ++ [id] } xs
      (some labels) inner (body labels)) :
    Writes S E a head c (id :: xs) loop inner (generateRange head loopVar first last body) := by
  intro s T w h
  obtain ⟨kind, hkind⟩ : ∃ kind, Kind.ofTy? symbol.ty = some kind := by
    rcases number_of_isIntegral (a := a) hint with ⟨-, hk, -⟩ | ⟨-, hk, -⟩
    · exact ⟨_, hk⟩
    · exact ⟨_, hk⟩
  obtain ⟨symbol', hx', hsame⟩ := h.held.same.symbol hsymbol
  have hnotin : id ∉ xs := (nodup_cons.mp hnodup).1
  have hm : Writes S E a head c (id :: xs) loop inner
      (startRange head id kind first last >>= fun slots =>
        repeatRange id kind slots.1 slots.2 body) := by
    intro s T w h
    have hstart : s.Ready S a head c [id] loop T w := h.subset (by simp)
    have howned : ∀ x, x = id → a.OwnedIn head.function (id :: xs) x := by
      rintro x rfl
      exact ⟨mem_cons_self, symbol, hsymbol, howner⟩
    refine (startRange_typed hE hk hsymbol howner hint hkind hfirst hlast hlong hlong' hstart).bind
      ?_
    rintro ⟨slot, bound⟩ s1 ⟨T1, w1, h1, hp1, hcovers1, hrange⟩
    have hready : s1.Ready S a head c xs loop T1 w1 :=
      h.passes h1 hp1 howned (subset_cons_self _ _) fun x hx heq => hnotin (heq ▸ hx)
    refine (repeatRange_typed hE hbody ⟨h1, hcovers1, hready.fresh, hready.leave, hready.next⟩
      hrange).imp ?_
    rintro _ s' ⟨T', w', h', hp'⟩
    exact ⟨T', w', h', (hp1.mono howned .slnil).then_ hp' fun x hx =>
      hx.mono (subset_cons_self _ _)⟩
  exact .analyzed hid (.symbol hx' (.compute (kindOf_eq_ok.mpr (hsame.ty ▸ hkind)) (hm.scoped h)))

/-! ## Statements -/

/-- The end of a statement: the variables that it declares are in view. -/
def Stmt.Left (S : Setting) (a : Analysis) (head : FrameHead) (c : Place) (stmt : Stmt)
    (s : GenState) (T : Shaping) (w : Words) (s' : GenState) : Prop :=
  ∃ T' w', s'.Held S a T' ⟨[], w'⟩ ∧
    Passes (a.OwnedIn head.function stmt.declared) stmt.inner [] s T w s' T' w' ∧
    s'.Covers a head (c.after stmt) w'

/-- A statement can be written wherever it is checked. -/
def Stmt.Written (S : Setting) (E : GenerateError → Prop) (a : Analysis) (head : FrameHead)
    (stmt : Stmt) : Prop :=
  ∀ ⦃c loop s T w⦄, stmt.Checked a.view c → c.function = head.function →
    (c.inLoop = true → loop.isSome) → s.Ready S a head c stmt.declared loop T w →
    Generate.Wp E (stmt.generate head loop) s fun _ => stmt.Left S a head c s T w

theorem Generate.Writes.place {c' : Place} (hm : Writes S E a head c' xs loop inner m)
    (hfunction : c'.function = c.function) (hknown : c'.known = c.known) :
    Writes S E a head c xs loop inner m := by
  intro s T w h
  refine hm ⟨h.held, fun x symbol hx hlocal hholds => h.covers x symbol hx hlocal ?_, h.fresh,
    h.leave, h.next⟩
  unfold Analysis.Holds at hholds ⊢
  rwa [← hfunction, ← hknown]

theorem Stmt.Written.writes (h : stmt.Written S E a head) {c' : Place}
    (hchecked : stmt.Checked a.view c') (hf : c.function = head.function)
    (hloop : c'.inLoop = true → loop.isSome) (hfunction : c'.function = c.function)
    (hknown : c'.known = c.known) :
    Writes S E a head c stmt.declared loop stmt.inner (stmt.generate head loop) := by
  refine Writes.place (fun s T w hr => ?_) hfunction hknown
  refine (h hchecked (hfunction.trans hf) hloop hr).imp ?_
  rintro _ s' ⟨T', w', h', hp, -⟩
  exact ⟨T', w', h', hp⟩

/-- What is declared in a scope inside of a statement is not in view after it. -/
theorem Generate.Writes.written (hown : stmt.own = [])
    (hm : Writes S E a head c stmt.declared loop stmt.inner (stmt.generate head loop))
    (h : s.Ready S a head c stmt.declared loop T w) :
    Generate.Wp E (stmt.generate head loop) s fun _ => stmt.Left S a head c s T w := by
  refine (hm h).imp ?_
  rintro _ s' ⟨T', w', h', hp⟩
  refine ⟨T', w', h', hp, ?_⟩
  have hafter : c.after stmt = c := by rw [Place.after, hown, append_nil]
  rw [hafter]
  exact h.covers_passes h' hp fun _ hx => hx

theorem writes_of_code (hm : ∀ ⦃s T w⦄, s.Ready S a head c [] loop T w →
      Generate.Wp E m s fun _ s' => ∃ T', s.Adds S a T w ⟨[], w⟩ s' T') :
    Writes S E a head c [] loop [] m :=
  fun _ _ w h => (hm h).imp fun _ _ h' => h'.imp fun _ h' =>
    ⟨w, h'.held, h'.passes.mono nofun .slnil⟩

theorem GenState.Ready.defer (h : s.Ready S a head c xs loop T w) (fs : List FunctionDecl) :
    GenState.Ready S a head c xs loop { s with pending := s.pending ++ fs } T w ∧
      Passes (fun _ => False) fs [] s T w { s with pending := s.pending ++ fs } T w :=
  ⟨⟨⟨h.held.shaped, h.held.cur, h.held.same, h.held.limit, h.held.next_le, h.held.free,
    h.held.homes⟩, h.covers,
    h.fresh, h.leave, h.next⟩,
    { Passes.refl (fun _ => False) s T w with pending := ⟨fs, .refl _, rfl⟩ }⟩

/-- **Statements, one after the other.** -/
theorem Stmt.generateList_typed (hstmts : ∀ stmt ∈ stmts, stmt.Written S E a head) {c : Place}
    (hchecked : Stmt.CheckedAll a.view c stmts) (hf : c.function = head.function)
    (hloop : c.inLoop = true → loop.isSome) (hnodup : (Stmt.declaredAll stmts).Nodup) :
    Writes S E a head c (Stmt.declaredAll stmts) loop (Stmt.innerAll stmts)
      (Stmt.generateList head loop stmts) := by
  induction stmts generalizing c with
  | nil =>
    intro s T w h
    exact .pure ⟨T, w, h.held, .refl _ s T w⟩
  | cons stmt rest ih =>
    obtain ⟨hstmt, hrest⟩ := forall_mem_cons.mp hstmts
    have hnodup' := nodup_append.mp hnodup
    intro s T w h
    cases hlive : s.code.reachable with
    | false =>
      obtain ⟨fs, hfs, hrun⟩ := Stmt.generateList_dead hlive head loop (stmt :: rest)
      obtain ⟨hready, hp⟩ := h.defer fs
      exact .of_ok hrun ⟨T, w, hready.held, hp.mono (fun _ hx => hx.elim) hfs⟩
    | true =>
      rw [Generate.Wp, Generate.Ends, Stmt.generateList_live hlive]
      refine (hstmt hchecked.1 hf hloop (h.subset (subset_append_left _ _))).bind ?_
      rintro _ s1 ⟨T1, w1, h1, hp1, hcovers1⟩
      have hready : s1.Ready S a head c (Stmt.declaredAll rest) loop T1 w1 :=
        h.passes h1 hp1 (fun x hx => hx.mono (subset_append_left _ _))
          (subset_append_right _ _) fun x hx hx' => hnodup'.2.2 x hx'.1 x hx rfl
      refine (ih hrest (c := c.after stmt) hchecked.2 hf hloop hnodup'.2.1
        ⟨h1, hcovers1, hready.fresh, hready.leave, hready.next⟩).imp ?_
      rintro _ s' ⟨T', w', h', hp'⟩
      exact ⟨T', w', h', (hp1.mono (fun x hx => hx.mono (subset_append_left _ _))
        (List.Sublist.refl _)).then_ hp' fun x hx => hx.mono (subset_append_right _ _)⟩

theorem Stmt.declared_nodup (h : (Stmt.declaredAll stmts).Nodup) (hstmt : stmt ∈ stmts) :
    stmt.declared.Nodup := by
  induction stmts with
  | nil => cases hstmt
  | cons first rest ih =>
    obtain ⟨hfirst, hrest, -⟩ := nodup_append.mp h
    rcases mem_cons.mp hstmt with rfl | hstmt
    · exact hfirst
    · exact ih hrest hstmt

/-- **A statement can be written wherever it is checked.** -/
theorem Stmt.generate_typed (hE : Refuses S.limit E) (hk : a.Knows S head.function)
    (hnodup : stmt.declared.Nodup) (hlong : LongIn E stmt.exprs) :
    stmt.Written S E a head := by
  induction stmt with
  | var decl =>
    intro c loop s T w hchecked hf _ h
    exact generateVar_typed hE hk hchecked hf hlong h
  | function declHead body _ =>
    intro c loop s T w _ _ _ h
    refine Writes.written rfl (fun s T w h => ?_) h
    obtain ⟨hready, hp⟩ := h.defer [⟨declHead, body⟩]
    exact .of_ok rfl ⟨T, w, hready.held, hp.mono nofun (.refl _)⟩
  | block span body ih =>
    intro c loop s T w hchecked hf hloop h
    have hbody : ∀ stmt ∈ body, stmt.Written S E a head := fun stmt hstmt => ih stmt hstmt
      (Stmt.declared_nodup hnodup hstmt)
      (hlong.mono fun x hx => Stmt.mem_exprsAll.mpr ⟨stmt, hstmt, hx⟩)
    refine Writes.written rfl ?_ h
    exact Writes.scoped ((Stmt.generateList_typed hbody hchecked hf hloop hnodup).place rfl rfl)
  | branch span cond yes no ihyes ihno =>
    intro c loop s T w hchecked hf hloop h
    cases no with
    | none =>
      obtain ⟨hcond, hyes⟩ := hchecked
      have hyes := (ihyes hnodup (hlong.mono (subset_append_right _ _))).writes (c := c) hyes hf
        hloop rfl rfl
      exact (generateBranch_typed hE hk hcond (hlong.mono (subset_append_left _ _))
        hyes).written rfl h
    | some no =>
      obtain ⟨hcond, hyes, hno⟩ := hchecked
      obtain ⟨hnodupYes, hnodupNo, -⟩ := nodup_append.mp hnodup
      have hyes := (ihyes hnodupYes (hlong.mono fun x hx => by simp [Stmt.exprs, hx])).writes
        (c := c) hyes hf hloop rfl rfl
      have hno := (ihno no rfl hnodupNo (hlong.mono fun x hx => by simp [Stmt.exprs, hx])).writes
        (c := c) hno hf hloop rfl rfl
      exact (generateChoice_typed hE hk hcond (hlong.mono (subset_append_left _ _)) hnodup hyes
        hno).written rfl h
  | loop span cond body ih =>
    intro c loop s T w hchecked hf _ h
    obtain ⟨hcond, hbody⟩ := hchecked
    have hbody (labels : LoopLabels) : Writes S E a head c body.declared (some labels)
        body.inner (body.generate head (some labels)) :=
      (ih hnodup (hlong.mono (subset_append_right _ _))).writes hbody hf (fun _ => rfl) rfl rfl
    exact (generateLoop_typed hE hk hcond (hlong.mono (subset_append_left _ _)) hbody).written rfl h
  | range span loopVar first last body ih =>
    intro c loop s T w hchecked hf _ h
    obtain ⟨id, symbol, hid, hsymbol, -, howner, hint, hfirst, hlast, hbody⟩ := hchecked
    have hdeclared : (Stmt.range span loopVar first last body).declared = id :: body.declared := by
      rw [Stmt.declared, hid]
      rfl
    have hnodup' := hdeclared ▸ hnodup
    have hbody (labels : LoopLabels) : Writes S E a head
        { c with known := c.known ++ [id] } body.declared (some labels) body.inner
        (body.generate head (some labels)) :=
      (ih (nodup_cons.mp hnodup').2 (hlong.mono fun x hx => by
        simp [Stmt.exprs, hx])).writes hbody hf (fun _ => rfl) rfl rfl
    refine Writes.written rfl ?_ h
    rw [hdeclared]
    exact generateRange_typed hE hk hid hsymbol (howner.trans (congrArg some hf)) hint hfirst hlast
      (hlong.mono fun x hx => by simp [Stmt.exprs, hx])
      (hlong.mono fun x hx => by simp [Stmt.exprs, hx]) hnodup' hbody
  | ret span value =>
    intro c loop s T w hchecked hf _ h
    obtain ⟨-, params, ret, hsig, hvalue⟩ := hchecked
    refine Writes.written rfl (writes_of_code fun s T w h =>
      generateReturn_typed hE hk hf hsig hvalue ?_ h) h
    rintro e rfl
    exact hlong
  | leave span =>
    intro c loop s T w hchecked _ hloop h
    obtain ⟨labels, rfl⟩ := Option.isSome_iff_exists.mp (hloop hchecked)
    exact Writes.written rfl (writes_of_code fun s T w h =>
      h.held.jump hE (h.leave labels rfl)) h
  | next span =>
    intro c loop s T w hchecked _ hloop h
    obtain ⟨labels, rfl⟩ := Option.isSome_iff_exists.mp (hloop hchecked)
    exact Writes.written rfl (writes_of_code fun s T w h =>
      h.held.jump hE (h.next labels rfl)) h
  | assign span target value =>
    intro c loop s T w hchecked hf _ h
    obtain ⟨ty, htarget, hvalue⟩ := hchecked
    exact Writes.written rfl (writes_of_code fun s T w h => .get (h.held.pushes
      (generateAssign_takes hE.overflow (h.held.ready hk h.covers) hf.symm htarget hvalue hlong))) h
  | expr value =>
    intro c loop s T w hchecked _ _ h
    obtain ⟨ty, hvalue⟩ := hchecked
    exact Writes.written rfl (writes_of_code fun s T w h =>
      generateDiscarded_typed hE hk hvalue hlong h) h

end Statements

end StackCompiler

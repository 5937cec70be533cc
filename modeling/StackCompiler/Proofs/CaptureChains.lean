import Mathlib.Data.List.Sort
import StackCompiler.Proofs.Nesting
import StackCompiler.Proofs.TypeSafety
import StackCompiler.Proofs.TypedParts

/-!
# What functions capture

A function captures what it reads of functions around it, and what functions that it calls capture,
unless it owns it. Captures are handed over at calls, so that whoever calls a function needs to
have them.

* **`SourceUnit.captures_least`**: this holds in every unit, whatever the order of the calls;
* **`SourceUnit.captures_at_hand`**: captures belong to functions around, and in a unit with nothing
  wrong in it they are at hand wherever a function is called.
-/

namespace StackCompiler

open Captures List Stmt

variable {e : Expr} {c : Place} {ty : Ty} {v : View}

/-! ## Chains of calls -/

/-- Some round changes nothing, and what comes out is what that round starts with. -/
theorem spread_eq_iterate (owner : SymbolId → Option FnId) (calls : Array CallSite) (fuel : Nat)
    (k : Captures) : ∃ rounds ≤ fuel,
      spread owner calls fuel k = (spreadRound owner calls)^[rounds] k := by
  induction fuel generalizing k with
  | zero => exact ⟨0, Nat.le_refl _, rfl⟩
  | succ fuel ih =>
    rw [spread]
    split_ifs
    · exact ⟨0, Nat.zero_le _, rfl⟩
    · obtain ⟨rounds, hle, heq⟩ := ih (spreadRound owner calls k)
      exact ⟨rounds + 1, Nat.succ_le_succ hle, heq⟩

theorem Captures.ext_of {k k' : Captures} (hsize : k.size = k'.size) (h : ∀ f, k.of f = k'.of f) :
    k = k' := by
  refine Array.ext hsize fun f hf hf' => ?_
  have hof := h f
  rwa [of_eq, of_eq, Array.getElem?_eq_getElem hf, Array.getElem?_eq_getElem hf'] at hof

namespace AnalysisState

variable {s : AnalysisState} {f : FnId} {x : SymbolId}

/-- Each function calls the next one, the last one reads the symbol, and none of them owns it. -/
structure Chain (s : AnalysisState) (f : FnId) (x : SymbolId) (chain : List FnId) : Prop where
  first : chain.head? = some f
  calls : chain.IsChain fun caller callee =>
    ∃ site ∈ s.calls, site.caller = caller ∧ site.callee = callee
  last : ∃ reader, chain.getLast? = some reader ∧ (reader, x) ∈ s.outerReads
  owner : ∀ g ∈ chain, s.owner? x ≠ some g

theorem Chain.cons {site : CallSite} {chain : List FnId} (h : s.Chain site.callee x chain)
    (hsite : site ∈ s.calls) (howner : s.owner? x ≠ some site.caller) :
    s.Chain site.caller x (site.caller :: chain) := by
  obtain ⟨reader, hlast, hread⟩ := h.last
  obtain _ | ⟨g, chain⟩ := chain
  · cases hlast
  obtain rfl : g = site.callee := Option.some.inj h.first
  exact ⟨rfl, .cons_cons ⟨site, hsite, rfl, rfl⟩ h.calls,
    ⟨reader, by rwa [getLast?_cons_cons], hread⟩, forall_mem_cons.mpr ⟨howner, h.owner⟩⟩

namespace Nested

theorem owner_ne (h : s.Nested) {read : FnId × SymbolId} (hread : read ∈ s.outerReads) :
    s.owner? read.2 ≠ some read.1 := by
  obtain ⟨-, symbol, g, hsymbol, howner, hne, -⟩ := h.reads read hread
  rw [owner?, hsymbol, Option.bind_some, howner]
  exact fun he => hne (Option.some.inj he)

theorem direct_lt (h : s.Nested) :
    (directCaptures s.functions.size s.outerReads).Within fun _ x => x < s.symbols.size :=
  directCaptures_within fun read hread => by
    obtain ⟨-, symbol, g, hsymbol, -⟩ := h.reads read hread
    exact (Array.getElem?_eq_some_iff.mp hsymbol).1

/-- There are enough rounds. -/
theorem enough (s : AnalysisState) :
    (directCaptures s.functions.size s.outerReads).size * s.symbols.size <
      s.functions.size * s.symbols.size + 1 +
        (directCaptures s.functions.size s.outerReads).total := by
  rw [directCaptures_size]
  omega

theorem captures_fixed (h : s.Nested) : spreadRound s.owner? s.calls s.captures = s.captures :=
  spread_fixed directCaptures_sorted h.direct_lt (enough s)

theorem captures_sorted (s : AnalysisState) : s.captures.Sorted :=
  spread_sorted _ directCaptures_sorted

/-- **A function captures a symbol if and only if a chain of calls leads to a reader of it.** -/
theorem mem_captures (h : s.Nested) : x ∈ s.captures.of f ↔ ∃ chain, s.Chain f x chain := by
  constructor
  · refine spread_within (P := fun f x => ∃ chain, s.Chain f x chain) ?_ _ ?_ f x
    · rintro site hsite y ⟨chain, hchain⟩ howner
      exact ⟨_, hchain.cons hsite howner⟩
    · refine directCaptures_within fun read hread => ⟨[read.1], rfl, .singleton _,
        ⟨read.1, rfl, hread⟩, ?_⟩
      exact forall_mem_singleton.mpr (h.owner_ne hread)
  · rintro ⟨chain, hchain⟩
    induction chain generalizing f with
    | nil => cases hchain.first
    | cons g chain ih =>
      obtain rfl : g = f := Option.some.inj hchain.first
      obtain ⟨reader, hlast, hread⟩ := hchain.last
      obtain ⟨howner, howners⟩ := forall_mem_cons.mp hchain.owner
      obtain _ | ⟨callee, chain⟩ := chain
      · cases hlast
        obtain ⟨⟨info, hinfo⟩, -⟩ := h.reads _ hread
        exact (spread_grows _ _).mem
          (mem_directCaptures hread (Array.getElem?_eq_some_iff.mp hinfo).1)
      · obtain ⟨⟨site, hsite, rfl, rfl⟩, hcalls⟩ := isChain_cons_cons.mp hchain.calls
        rw [getLast?_cons_cons] at hlast
        obtain ⟨⟨info, hinfo⟩, -⟩ := h.calls site hsite
        refine spread_closed directCaptures_sorted h.direct_lt (enough s) hsite ?_
          (ih ⟨rfl, hcalls, ⟨reader, hlast, hread⟩, howners⟩) howner
        rw [directCaptures_size]
        exact (Array.getElem?_eq_some_iff.mp hinfo).1

/-- The order of the calls does not matter. -/
theorem captures_perm (h : s.Nested) {calls : Array CallSite}
    (hperm : calls.toList.Perm s.calls.toList) :
    ({ s with calls := calls } : AnalysisState).captures = s.captures := by
  have hmem (site : CallSite) : site ∈ calls ↔ site ∈ s.calls := by
    rw [Array.mem_def, Array.mem_def, hperm.mem_iff]
  have h' : ({ s with calls := calls } : AnalysisState).Nested :=
    ⟨h.main, h.reads, fun site hsite => h.calls site ((hmem site).mp hsite)⟩
  have hchain (f : FnId) (x : SymbolId) (chain : List FnId) :
      ({ s with calls := calls } : AnalysisState).Chain f x chain ↔ s.Chain f x chain := by
    have hlink :
        (fun caller callee => ∃ site ∈ calls, site.caller = caller ∧ site.callee = callee) =
          fun caller callee => ∃ site ∈ s.calls, site.caller = caller ∧ site.callee = callee := by
      simp only [hmem]
    exact ⟨fun h => ⟨h.first, hlink ▸ h.calls, h.last, h.owner⟩,
      fun h => ⟨h.first, hlink ▸ h.calls, h.last, h.owner⟩⟩
  have hof (f : FnId) : ({ s with calls := calls } : AnalysisState).captures.of f =
      s.captures.of f := by
    refine List.Pairwise.eq_of_mem_iff (captures_sorted _ f) (captures_sorted s f) fun x => ?_
    rw [h'.mem_captures, h.mem_captures]
    exact exists_congr (hchain f x)
  exact Captures.ext_of ((captures_size _).trans (captures_size s).symm) hof

/-- **What a function captures belongs to a function around it.** -/
theorem captures_around (h : s.Nested) (hx : x ∈ s.captures.of f) :
    ∃ symbol g, s.symbols[x]? = some symbol ∧ symbol.owner = some g ∧
      Relation.TransGen (Inside s.functions) f g := by
  refine spread_within (P := fun f x => ∃ symbol g, s.symbols[x]? = some symbol ∧
    symbol.owner = some g ∧ Relation.TransGen (Inside s.functions) f g) ?_ _ ?_ f x hx
  · rintro site hsite x ⟨symbol, g, hsymbol, howner, haround⟩ hne
    obtain ⟨-, info, hinfo, hwithin⟩ := h.calls site hsite
    -- the callee stands in a function around the caller, and so does what it captures
    obtain ⟨parent, ⟨info', hinfo', hparent⟩, hparents⟩ := Relation.TransGen.head'_iff.mp haround
    cases hinfo.symm.trans hinfo'
    refine ⟨symbol, g, hsymbol, howner, ?_⟩
    refine (Relation.reflTransGen_iff_eq_or_transGen.mp
      ((hwithin parent hparent).trans hparents)).resolve_left fun he => hne ?_
    rw [owner?, hsymbol, Option.bind_some, howner, he]
  · refine directCaptures_within fun read hread => ?_
    obtain ⟨-, symbol, g, hsymbol, howner, hne, hwithin⟩ := h.reads read hread
    exact ⟨symbol, g, hsymbol, howner,
      (Relation.reflTransGen_iff_eq_or_transGen.mp hwithin).resolve_left hne⟩

/-- A function at the top captures nothing. -/
theorem captures_top (h : s.Nested) (hf : s.AtTop f) : s.captures.of f = [] := by
  refine eq_nil_iff_forall_not_mem.mpr fun x hx => ?_
  obtain ⟨info, hinfo, hnone⟩ := hf
  obtain ⟨symbol, g, -, -, haround⟩ := h.captures_around hx
  obtain ⟨parent, ⟨info', hinfo', hparent⟩, -⟩ := Relation.TransGen.head'_iff.mp haround
  cases hinfo.symm.trans hinfo'
  cases hnone.symm.trans hparent

end Nested

end AnalysisState

theorem SourceUnit.analyze_recorded (unit : SourceUnit) (index : Nat) (exports : ExportTable) :
    (unit.analyze index exports).2.symbols = (unit.recorded index exports).symbols ∧
      (unit.analyze index exports).2.functions =
        (unit.recorded index exports).functions.mapIdx fun id info =>
          { info with captures := (unit.recorded index exports).captures.of id } := by
  obtain ⟨_, _, _, _, _, _, _, _, _, _, _, _, hclose, hresult⟩ :=
    SourceUnit.analyze_run (Prod.eta (unit.analyze index exports)).symm
  obtain ⟨hsymbols, -, -, -, hfunctions, -⟩ := AnalysisState.closeCaptures_eq hclose
  rw [hresult]
  exact ⟨hsymbols, hfunctions⟩

/-- **What functions capture is exactly what they need.** The captures of a function are in
increasing order, and it captures a symbol if and only if a chain of calls leads from it to a
function that reads the symbol, where no function of the chain owns the symbol. After some rounds
captures do not change any more, and the order of the calls does not matter. -/
theorem SourceUnit.captures_least {name source : String} {unit : SourceUnit}
    (hparse : SourceUnit.parse name source = .ok unit) (index : Nat) (exports : ExportTable) :
    let s := unit.recorded index exports
    let a := (unit.analyze index exports).2
    (∀ f, (a.captures f).Pairwise (· < ·) ∧ ∀ x, x ∈ a.captures f ↔ ∃ chain, s.Chain f x chain) ∧
    (∃ rounds, s.captures = (spreadRound s.owner? s.calls)^[rounds]
        (directCaptures s.functions.size s.outerReads) ∧
      spreadRound s.owner? s.calls s.captures = s.captures) ∧
    ∀ calls : Array CallSite, calls.toList.Perm s.calls.toList →
      ({ s with calls := calls } : AnalysisState).captures = s.captures := by
  intro s a
  have hnested : s.Nested :=
    (unit.recorded_nested (SourceUnit.parse_plain hparse).1 index exports).1
  refine ⟨fun f => ?_, ?_, fun calls hcalls => hnested.captures_perm hcalls⟩
  · rw [Analysis.captures_eq (unit.analyze_recorded index exports).2]
    exact ⟨AnalysisState.Nested.captures_sorted _ f, fun x => hnested.mem_captures⟩
  · obtain ⟨rounds, -, heq⟩ := spread_eq_iterate _ _ _ _
    exact ⟨rounds, heq, hnested.captures_fixed⟩

/-- Two functions that call each other; one of them reads a variable of the function around. -/
def paritySource : String :=
  "function outer(n: int) -> int \x7b
val limit: int = n;
function even(k: int) -> int \x7bif (k >= limit) \x7breturn k;\x7d return odd(k + 1);\x7d
function odd(k: int) -> int \x7breturn even(k + 1);\x7d
return odd(0);
\x7d
print(outer(7));"

/-- The function that does not read the variable captures it too. -/
theorem odd_captures_limit : ∃ unit, SourceUnit.parse "parity" paritySource = .ok unit ∧
    (unit.analyze 0 .empty).2.captures 3 = [7] ∧
    ∃ chain, (unit.recorded 0 .empty).Chain 3 7 chain := by
  obtain ⟨unit', a, ⟨⟨unit, hparse, hanalyze⟩, -⟩, hcaptures⟩ := exists_accepted
    (show isAccepted "parity" paritySource (fun _ a => a.captures 3 == [7]) = true by
      decide +kernel)
  have hcaptures : (unit.analyze 0 .empty).2.captures 3 = [7] := by
    rw [show unit.analyze 0 .empty = (unit', a) from hanalyze]
    exact eq_of_beq hcaptures
  refine ⟨unit, hparse, hcaptures, ?_⟩
  refine (((SourceUnit.captures_least hparse 0 .empty).1 3).2 7).mp ?_
  rw [hcaptures]
  exact List.mem_cons_self

/-! ## Calls -/

mutual

/-- The functions that an expression calls. No calls stand in the name that is called. -/
def Expr.calls : Expr → List FnId
  | .literal .. | .name .. => []
  | .binary _ _ left right => left.calls ++ right.calls
  | .unary _ _ operand | .cast _ operand _ => operand.calls
  | .call _ _ args (some (.function f)) => f :: Expr.callsAll args
  | .call _ _ args _ => Expr.callsAll args
  | .field _ base _ _ => base.calls
  | .index _ base position => base.calls ++ position.calls
  | .array _ elems => Expr.callsAll elems
  | .newArray _ _ length => length.calls

def Expr.callsAll : List Expr → List FnId
  | [] => []
  | e :: es => e.calls ++ Expr.callsAll es

end

mutual

/-- The calls in a statement, each with the place where it stands. -/
def Stmt.calls (c : Place) : Stmt → List (Place × FnId)
  | .var decl => decl.init.calls.map (c, ·)
  | .function head body => callsAll
      (((c.inside (head.id.getD c.function)).starting head.paramIds).scope (ownAll body)) body
  | .block _ body => callsAll (c.scope (ownAll body)) body
  | .branch _ cond yes none => cond.calls.map (c, ·) ++ yes.calls (c.scope yes.own)
  | .branch _ cond yes (some no) =>
    cond.calls.map (c, ·) ++ (yes.calls (c.scope yes.own) ++ no.calls (c.scope no.own))
  | .loop _ cond body => cond.calls.map (c, ·) ++ body.calls (c.scope body.own).loop
  | .range _ loopVar first last body => (first.calls ++ last.calls).map (c, ·) ++
      body.calls ((c.starting loopVar.symbol.toList).scope body.own).loop
  | .ret _ value => (value.toList.flatMap Expr.calls).map (c, ·)
  | .leave _ | .next _ => []
  | .assign _ target value => (target.calls ++ value.calls).map (c, ·)
  | .expr value => value.calls.map (c, ·)

def Stmt.callsAll (c : Place) : List Stmt → List (Place × FnId)
  | [] => []
  | stmt :: rest => stmt.calls c ++ callsAll (c.after stmt) rest

end

def SourceUnit.calls (unit : SourceUnit) : List (Place × FnId) :=
  callsAll (Place.top.scope (ownAll (Item.stmts unit.items))) (Item.stmts unit.items)

theorem Expr.mem_callsAll {es : List Expr} {f : FnId} :
    f ∈ Expr.callsAll es ↔ ∃ e ∈ es, f ∈ e.calls := by
  induction es with
  | nil => simp [Expr.callsAll]
  | cons e es ih => simp [Expr.callsAll, ih]

theorem Expr.mem_calls {f : FnId} (h : f ∈ e.calls) :
    (∃ note callee args, e = .call note callee args (some (.function f))) ∨
      ∃ x ∈ e.parts, f ∈ x.calls := by
  cases e with
  | literal | name => cases h
  | call note callee args target =>
    match target with
    | some (.function g) =>
      rcases mem_cons.mp h with rfl | h
      · exact .inl ⟨note, callee, args, rfl⟩
      · exact .inr (Expr.mem_callsAll.mp h)
    | none | some (.constructor _) | some (.builtin _) => exact .inr (Expr.mem_callsAll.mp h)
  | _ => simpa [Expr.calls, Expr.parts, Expr.mem_callsAll] using h

theorem Expr.HasTy.calls (h : e.HasTy v ty) : ∀ f ∈ e.calls, v.calls f := by
  intro f hf
  induction e using Expr.induction_parts generalizing ty with
  | step e ih =>
    obtain ⟨note, callee, args, rfl⟩ | ⟨x, hx, hf⟩ := Expr.mem_calls hf
    · obtain ⟨params, -, hcalls, -⟩ := h
      exact hcalls
    · obtain ⟨ty, hty⟩ | ⟨-, -, note, rfl, -⟩ := h.parts x hx
      · exact ih x hx hty hf
      · cases hf

theorem Stmt.callsAll_eq_roots {stmts : List Stmt} (h : ∀ stmt ∈ stmts, ∀ c,
      stmt.calls c = (stmt.roots c).flatMap fun x => x.2.calls.map (x.1, ·)) (c : Place) :
    callsAll c stmts = (rootsAll c stmts).flatMap fun x => x.2.calls.map (x.1, ·) := by
  induction stmts generalizing c with
  | nil => rfl
  | cons stmt rest ih =>
    obtain ⟨hfirst, hrest⟩ := forall_mem_cons.mp h
    rw [callsAll, rootsAll, flatMap_append, ← hfirst, ← ih hrest]

theorem Stmt.calls_eq_roots (stmt : Stmt) (c : Place) :
    stmt.calls c = (stmt.roots c).flatMap fun x => x.2.calls.map (x.1, ·) := by
  induction stmt generalizing c with
  | function head body ih | block span body ih => exact callsAll_eq_roots ih _
  | branch span cond yes no ihyes ihno =>
    cases no with
    | none => simp [Stmt.calls, roots, ← ihyes]
    | some no => simp [Stmt.calls, roots, ← ihyes, ← ihno no rfl]
  | loop span cond body ih | range span loopVar first last body ih =>
    simp [Stmt.calls, roots, ← ih]
  | ret span value => cases value <;> simp [Stmt.calls, roots]
  | _ => simp [Stmt.calls, roots]

/-- Wherever checked statements call a function, the function can be called. -/
theorem Stmt.CheckedAll.calls {J : Place → View} {stmts : List Stmt}
    (h : CheckedAll J c stmts) : ∀ call ∈ callsAll c stmts, (J call.1).calls call.2 := by
  intro call hcall
  rw [callsAll_eq_roots fun stmt _ => stmt.calls_eq_roots] at hcall
  obtain ⟨x, hx, hcall⟩ := mem_flatMap.mp hcall
  obtain ⟨f, hf, rfl⟩ := mem_map.mp hcall
  obtain ⟨ty, hty⟩ | ⟨note, ref, hname⟩ := h.roots x hx
  · exact hty.calls f hf
  · rw [hname] at hf
    cases hf

theorem Analysis.captures_around {a : Analysis} {s : AnalysisState}
    (hsymbols : a.symbols = s.symbols) (hfunctions : a.functions = s.functions.mapIdx fun id info =>
      { info with captures := s.captures.of id }) (h : s.Nested) {f : FnId} {x : SymbolId}
    (hx : x ∈ a.captures f) : ∃ symbol g, a.symbols[x]? = some symbol ∧ symbol.owner = some g ∧
      Relation.TransGen (Inside a.functions) f g := by
  rw [Analysis.captures_eq hfunctions] at hx
  obtain ⟨symbol, g, hsymbol, howner, haround⟩ := h.captures_around hx
  refine ⟨symbol, g, hsymbols ▸ hsymbol, howner, Relation.TransGen.mono (fun f g => ?_) _ _ haround⟩
  rintro ⟨info, hinfo, hparent⟩
  refine ⟨{ info with captures := s.captures.of f }, ?_, hparent⟩
  rw [hfunctions, Array.getElem?_mapIdx, hinfo]
  rfl

/-- **Captures are at hand where they are needed.** What a function captures belongs to a function
around it, so that functions at the top capture nothing. If nothing is wrong with the unit, then
wherever a function is called, what it captures is captured by the caller, or it is a variable of
the caller that has been declared before the call in a scope that is still open. -/
theorem SourceUnit.captures_at_hand {name source : String} {unit : SourceUnit}
    (hparse : SourceUnit.parse name source = .ok unit) :
    (∀ index exports,
      let a := (unit.analyze index exports).2
      (∀ f, ∀ x ∈ a.captures f, ∃ symbol g, a.symbols[x]? = some symbol ∧ symbol.owner = some g ∧
        Relation.TransGen (Inside a.functions) f g) ∧
      ∀ f ∈ FnId.main :: Stmt.idAll (Item.stmts (unit.analyze index exports).1.items),
        a.captures f = []) ∧
    (unit.analyzeAlone.2.isOk = true →
      let a := unit.analyzeAlone.2
      ∀ call ∈ unit.analyzeAlone.1.calls, ∀ x ∈ a.captures call.2,
        x ∈ a.captures call.1.function ∨ ∃ symbol, a.symbols[x]? = some symbol ∧
          symbol.owner = some call.1.function ∧ x ∈ call.1.known) := by
  have hplain := SourceUnit.parse_plain hparse
  refine ⟨fun index exports => ?_, fun hok => ?_⟩
  · intro a
    obtain ⟨hsymbols, hfunctions⟩ := unit.analyze_recorded index exports
    obtain ⟨hnested, htop⟩ := unit.recorded_nested hplain.1 index exports
    refine ⟨fun f x hx => Analysis.captures_around hsymbols hfunctions hnested hx, fun f hf => ?_⟩
    · rw [Analysis.captures_eq hfunctions]
      rcases List.mem_cons.mp hf with rfl | hf
      · exact hnested.captures_top hnested.main
      · exact hnested.captures_top (htop f hf)
  · intro a call hcall x hx
    have hsound := SourceUnit.analyzeAlone_sound Prod.mk.eta.symm hok hplain.1 hplain.2
    obtain ⟨symbol, hsymbol, hlocal, -⟩ := hsound.captured call.2 x hx
    rcases hsound.checked.calls call hcall x hx symbol hsymbol hlocal with
      ⟨howner, hknown⟩ | ⟨-, hcaptured⟩
    · exact .inr ⟨symbol, hsymbol, howner, hknown⟩
    · exact .inl hcaptured

/-- The variable is at hand where the function around calls one of the two. -/
theorem limit_at_hand : ∃ unit, SourceUnit.parse "parity" paritySource = .ok unit ∧
    unit.analyzeAlone.2.isOk = true ∧ ∃ call ∈ unit.analyzeAlone.1.calls,
      call.1.function = 1 ∧ unit.analyzeAlone.2.captures call.2 = [7] ∧
      ∀ x ∈ unit.analyzeAlone.2.captures call.2,
        x ∈ unit.analyzeAlone.2.captures call.1.function ∨
          ∃ symbol, unit.analyzeAlone.2.symbols[x]? = some symbol ∧
            symbol.owner = some call.1.function ∧ x ∈ call.1.known := by
  obtain ⟨unit', a, ⟨⟨unit, hparse, hanalyze⟩, hok⟩, hcalls⟩ := exists_accepted
    (show isAccepted "parity" paritySource (fun unit a => unit.calls.any fun call =>
      call.1.function == 1 && a.captures call.2 == [7]) = true by decide +kernel)
  obtain ⟨call, hcall, hp⟩ := List.any_eq_true.mp hcalls
  obtain ⟨hfunction, hcaptures⟩ := Bool.and_eq_true_iff.mp hp
  have hone := (SourceUnit.captures_at_hand hparse).2
  rw [hanalyze] at hone
  exact ⟨unit, hparse, by rw [hanalyze]; exact hok, call, by rw [hanalyze]; exact hcall,
    eq_of_beq hfunction, by rw [hanalyze]; exact eq_of_beq hcaptures,
    by rw [hanalyze]; exact hone hok call hcall⟩

end StackCompiler

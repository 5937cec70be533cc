import StackCompiler.Proofs.TypedFunction
import Mathlib.Data.List.Flatten

/-!
# The functions of a unit

Functions stand at the top of a unit or inside of others. Each has a number of its own, and each is
a function with nothing wrong in it if the unit is one.

* **`Analysis.Sound.admits`**: nothing is wrong with any of them.
-/

namespace StackCompiler

open List Stmt

variable {f : FunctionDecl} {fs : List FunctionDecl} {stmts : List Stmt}

/-! ## Functions inside of functions -/

mutual

/-- All functions that are declared in a statement, those inside of others too. -/
def Stmt.functions : Stmt → List FunctionDecl
  | .function head body => ⟨head, body⟩ :: functionsAll body
  | .block _ body => functionsAll body
  | .branch _ _ yes none => yes.functions
  | .branch _ _ yes (some no) => yes.functions ++ no.functions
  | .loop _ _ body | .range _ _ _ _ body => body.functions
  | .var _ | .ret .. | .leave _ | .next _ | .assign .. | .expr _ => []

def Stmt.functionsAll : List Stmt → List FunctionDecl
  | [] => []
  | stmt :: rest => stmt.functions ++ functionsAll rest

end

/-- A function and all functions inside of it. -/
def FunctionDecl.all (f : FunctionDecl) : List FunctionDecl := f :: functionsAll f.body

/-- The numbers of functions and of those inside of them. -/
def FunctionDecl.numbers (fs : List FunctionDecl) : List FnId :=
  (fs.flatMap FunctionDecl.all).filterMap (·.head.id)

theorem Stmt.innerAll_flatMap
    (h : ∀ stmt ∈ stmts, stmt.inner.flatMap FunctionDecl.all = stmt.functions) :
    (innerAll stmts).flatMap FunctionDecl.all = functionsAll stmts := by
  induction stmts with
  | nil => rfl
  | cons stmt stmts ih =>
    obtain ⟨hstmt, hstmts⟩ := forall_mem_cons.mp h
    rw [innerAll, flatMap_append, hstmt, ih hstmts, functionsAll]

theorem Stmt.inner_flatMap (stmt : Stmt) :
    stmt.inner.flatMap FunctionDecl.all = stmt.functions := by
  induction stmt with
  | function head body ih => simp [inner, functions, FunctionDecl.all]
  | block span body ih => exact innerAll_flatMap ih
  | branch span cond yes no ihyes ihno =>
    cases no with
    | none => exact ihyes
    | some no => rw [inner, flatMap_append, ihyes, ihno no rfl, functions]
  | loop _ _ _ ih | range _ _ _ _ _ ih => exact ih
  | _ => rfl

/-- The functions inside of a function are those that it puts aside, and those inside of them. -/
theorem FunctionDecl.numbers_cons (f : FunctionDecl) (fs : List FunctionDecl) :
    FunctionDecl.numbers (f :: fs) =
      f.head.id.toList ++ FunctionDecl.numbers (innerAll f.body) ++ FunctionDecl.numbers fs := by
  unfold FunctionDecl.numbers
  rw [innerAll_flatMap fun stmt _ => stmt.inner_flatMap, flatMap_cons,
    filterMap_append, FunctionDecl.all, filterMap_cons]
  cases f.head.id <;> rfl

theorem FunctionDecl.numbers_append (fs gs : List FunctionDecl) :
    FunctionDecl.numbers (fs ++ gs) = FunctionDecl.numbers fs ++ FunctionDecl.numbers gs := by
  rw [FunctionDecl.numbers, flatMap_append, filterMap_append]
  rfl

theorem FunctionDecl.numbers_sublist {gs : List FunctionDecl} (h : fs.Sublist gs) :
    (FunctionDecl.numbers fs).Sublist (FunctionDecl.numbers gs) :=
  (h.flatMap _).filterMap _

/-! ## Numbers -/

theorem map_fst_homes (ids : List FnId) (whole : List SymbolId)
    (homes : List (FnId × List SymbolId)) :
    (ids.map (·, whole) ++ homes).map Prod.fst = ids ++ homes.map Prod.fst := by
  simp [Function.comp_def]

theorem Stmt.functionsAll_perm (whole : List SymbolId)
    (h : ∀ stmt ∈ stmts, ∀ whole, (stmt.functions.filterMap (·.head.id)).Perm
      (stmt.id?.toList ++ (stmt.homes whole).map Prod.fst)) :
    ((functionsAll stmts).filterMap (·.head.id)).Perm
      (idAll stmts ++ (homesAll whole stmts).map Prod.fst) := by
  induction stmts with
  | nil => exact .nil
  | cons stmt stmts ih =>
    obtain ⟨hstmt, hstmts⟩ := forall_mem_cons.mp h
    have hids : idAll (stmt :: stmts) = stmt.id?.toList ++ idAll stmts := by
      rw [idAll, filterMap_cons]
      cases stmt.id? <;> rfl
    rw [functionsAll, filterMap_append, hids, homesAll, map_append]
    refine ((hstmt whole).append (ih hstmts)).trans ?_
    simp only [append_assoc]
    refine List.Perm.append_left _ ?_
    rw [← append_assoc, ← append_assoc]
    exact perm_append_comm.append_right _

theorem Stmt.functions_perm (stmt : Stmt) (whole : List SymbolId) :
    (stmt.functions.filterMap (·.head.id)).Perm
      (stmt.id?.toList ++ (stmt.homes whole).map Prod.fst) := by
  induction stmt generalizing whole with
  | function head body ih =>
    have hbody := functionsAll_perm (whole ++ head.paramIds ++ ownAll body) ih
    rw [functions, homes, id?, filterMap_cons, map_fst_homes]
    cases head.id with
    | none => exact hbody
    | some id => exact hbody.cons id
  | block span body ih =>
    rw [functions, homes, map_fst_homes]
    exact functionsAll_perm (whole ++ ownAll body) ih
  | branch span cond yes no ihyes ihno =>
    have hyes := ihyes (whole ++ yes.own)
    cases no with
    | none =>
      rw [functions, homes, map_fst_homes]
      exact hyes
    | some no =>
      rw [functions, homes, filterMap_append, map_append, map_fst_homes, map_fst_homes]
      exact hyes.append (ihno no rfl (whole ++ no.own))
  | loop span cond body ih =>
    rw [functions, homes, map_fst_homes]
    exact ih (whole ++ body.own)
  | range span loopVar first last body ih =>
    rw [functions, homes, map_fst_homes]
    exact ih (whole ++ loopVar.symbol.toList ++ body.own)
  | _ => exact .nil

theorem FunctionDecl.find?_eq (h : (fs.filterMap (·.head.id)).Nodup) {id : FnId} (hf : f ∈ fs)
    (hid : f.head.id = some id) : fs.find? (·.head.id = some id) = some f := by
  induction fs with
  | nil => cases hf
  | cons g fs ih =>
    rcases mem_cons.mp hf with rfl | hf
    · exact find?_cons_of_pos (decide_eq_true hid)
    · have hmem : id ∈ fs.filterMap (·.head.id) := mem_filterMap.mpr ⟨f, hf, hid⟩
      have hother : ¬g.head.id = some id := by
        intro hg
        rw [filterMap_cons, hg] at h
        exact (nodup_cons.mp h).1 hmem
      rw [find?_cons_of_neg (by simpa using hother)]
      refine ih (h.sublist ?_) hf
      exact (sublist_cons_self g fs).filterMap _

/-! ## Functions with nothing wrong in them -/

def Analysis.AdmitsAll (a : Analysis) (fs : List FunctionDecl) : Prop :=
  ∀ f ∈ fs, ∃ id, f.head.id = some id ∧ a.Admits id f.head.params f.body

section Admits

variable {a : Analysis} {c : Place}

theorem Stmt.CheckedAll.admits_of
    (hstmts : ∀ stmt ∈ stmts, ∀ c : Place, c.known ⊆ c.whole → stmt.declared.Nodup →
      stmt.Checked a.view c → a.AdmitsAll stmt.functions) (h : CheckedAll a.view c stmts)
    (hknown : c.known ⊆ c.whole) (hown : ownAll stmts ⊆ c.whole)
    (hdeclared : (declaredAll stmts).Nodup) : a.AdmitsAll (functionsAll stmts) := by
  induction stmts generalizing c with
  | nil => exact fun f hf => absurd hf not_mem_nil
  | cons stmt stmts ih =>
    obtain ⟨hstmt, hothers⟩ := forall_mem_cons.mp hstmts
    rw [ownAll, flatMap_cons] at hown
    obtain ⟨hfirst, hrest⟩ := append_subset.mp hown
    rw [declaredAll] at hdeclared
    have hlater := ih hothers h.2 (append_subset.mpr ⟨hknown, hfirst⟩) hrest
      hdeclared.of_append_right
    exact forall_mem_append.mpr ⟨hstmt c hknown hdeclared.of_append_left h.1, hlater⟩

theorem Stmt.Checked.admits {stmt : Stmt} (h : stmt.Checked a.view c) (hknown : c.known ⊆ c.whole)
    (hdeclared : stmt.declared.Nodup) : a.AdmitsAll stmt.functions := by
  induction stmt generalizing c with
  | function head body ih =>
    obtain ⟨id, params, ret, hid, hsig, hparams, houter, hbody, hends⟩ := h
    rw [declared] at hdeclared
    intro f hf
    rcases mem_cons.mp hf with rfl | hf
    · obtain ⟨info, hinfo, hsig⟩ := Option.map_eq_some_iff.mp hsig
      cases hsig
      refine ⟨id, hid, ⟨info, hinfo, hparams, hends⟩, ⟨_, rfl, rfl, hbody, ?_⟩, hdeclared⟩
      intro x hx symbol hsymbol howner
      -- what is known around the function is not the function's own
      rcases mem_append.mp hx with hx | hx
      · exact absurd howner (houter x (hknown hx) symbol hsymbol)
      · exact hx
    · refine hbody.admits_of (fun stmt hstmt c hc hd h => ih stmt hstmt h hc hd) ?_ ?_
        hdeclared.of_append_right f hf
      · exact subset_append_of_subset_left _ (append_subset.mpr
          ⟨subset_append_of_subset_left _ hknown, subset_append_right _ _⟩)
      · exact subset_append_right _ _
  | block span body ih =>
    exact CheckedAll.admits_of (fun stmt hstmt c hc hd h => ih stmt hstmt h hc hd) h
      (subset_append_of_subset_left _ hknown) (subset_append_right _ _) hdeclared
  | branch span cond yes no ihyes ihno =>
    cases no with
    | none => exact ihyes h.2 (subset_append_of_subset_left _ hknown) hdeclared
    | some no =>
      rw [declared] at hdeclared
      have hyes := ihyes h.2.1 (subset_append_of_subset_left _ hknown) hdeclared.of_append_left
      have hno := ihno no rfl h.2.2 (subset_append_of_subset_left _ hknown)
        hdeclared.of_append_right
      exact forall_mem_append.mpr ⟨hyes, hno⟩
  | loop span cond body ih =>
    exact ih h.2 (subset_append_of_subset_left _ hknown) hdeclared
  | range span loopVar first last body ih =>
    obtain ⟨id, symbol, hid, hsymbol, hkind, howner, hty, hfirst, hlast, hbody⟩ := h
    rw [declared] at hdeclared
    refine ih hbody (subset_append_of_subset_left _ (append_subset.mpr
      ⟨subset_append_of_subset_left _ hknown, subset_append_right _ _⟩))
      hdeclared.of_append_right
  | _ => exact fun f hf => absurd hf not_mem_nil

end Admits

/-! ## The functions of a unit -/

def SourceUnit.allFunctions (unit : SourceUnit) : List FunctionDecl :=
  functionsAll (Item.stmts unit.items)

/-- The parameters of a function, by its number. -/
def SourceUnit.paramsOf (unit : SourceUnit) (id : FnId) : List SymbolId :=
  ((unit.allFunctions.find? (·.head.id = some id)).map (·.head.paramIds)).getD []

/-- The function, by its number, has these parameters and is made of these statements. -/
def SourceUnit.Defines (unit : SourceUnit) (id : FnId) (params : List Param) (body : List Stmt) :
    Prop :=
  id = FnId.main ∧ params = [] ∧ body = unit.mainBody ∨
    ∃ f ∈ unit.allFunctions, f.head.id = some id ∧ f.head.params = params ∧ f.body = body

theorem Stmt.mem_functionsAll {f : FunctionDecl} :
    f ∈ functionsAll stmts ↔ ∃ stmt ∈ stmts, f ∈ stmt.functions := by
  induction stmts with
  | nil => simp [functionsAll]
  | cons stmt stmts ih => simp [functionsAll, ih]

theorem Stmt.functionsAll_inner
    (h : ∀ stmt ∈ stmts, ∀ f ∈ stmt.functions, functionsAll f.body ⊆ stmt.functions) :
    ∀ f ∈ functionsAll stmts, functionsAll f.body ⊆ functionsAll stmts := by
  intro f hf g hg
  obtain ⟨stmt, hstmt, hf⟩ := mem_functionsAll.mp hf
  exact mem_functionsAll.mpr ⟨stmt, hstmt, h stmt hstmt f hf hg⟩

theorem Stmt.functions_inner (stmt : Stmt) :
    ∀ f ∈ stmt.functions, functionsAll f.body ⊆ stmt.functions := by
  induction stmt with
  | function head body ih =>
    intro f hf
    rcases mem_cons.mp hf with rfl | hf
    · exact subset_cons_self _ _
    · exact subset_cons_of_subset _ (functionsAll_inner ih f hf)
  | block span body ih => exact functionsAll_inner ih
  | branch span cond yes no ihyes ihno =>
    cases no with
    | none => exact ihyes
    | some no =>
      intro f hf
      rcases mem_append.mp hf with hf | hf
      · exact subset_append_of_subset_left _ (ihyes f hf)
      · exact subset_append_of_subset_right _ (ihno no rfl f hf)
  | loop _ _ _ ih | range _ _ _ _ _ ih => exact ih
  | _ => exact fun f hf => absurd hf not_mem_nil

theorem SourceUnit.mem_of_inner {unit : SourceUnit} {g : FunctionDecl} (hf : f ∈ unit.allFunctions)
    (hg : g ∈ innerAll f.body) : g ∈ unit.allFunctions := by
  refine functionsAll_inner (fun stmt _ => stmt.functions_inner) f hf ?_
  rw [← innerAll_flatMap fun stmt _ => stmt.inner_flatMap]
  exact mem_flatMap.mpr ⟨g, hg, mem_cons_self⟩

theorem FunctionDecl.all_perm {gs : List FunctionDecl} {stmt : Stmt}
    (h : ((fs ++ innerAll stmts).flatMap FunctionDecl.all).Perm gs) :
    ((fs ++ innerAll (stmt :: stmts)).flatMap FunctionDecl.all).Perm (stmt.functions ++ gs) := by
  rw [innerAll, flatMap_append, flatMap_append, stmt.inner_flatMap]
  rw [flatMap_append] at h
  exact (perm_append_comm_assoc _ _ _).trans (h.append_left _)

/-- The functions of a unit are those at the top, those that its statements put aside, and those
inside. -/
theorem SourceUnit.functions_perm (unit : SourceUnit) :
    ((unit.functions ++ innerAll unit.mainBody).flatMap FunctionDecl.all).Perm
      unit.allFunctions := by
  unfold SourceUnit.functions SourceUnit.mainBody SourceUnit.allFunctions
  induction unit.items with
  | nil => exact .nil
  | cons item items ih =>
    cases item with
    | record record => exact ih
    | function f => exact List.Perm.append_left f.all ih
    | stmt stmt => exact FunctionDecl.all_perm ih

/-- The statements of a unit outside of functions have nothing wrong in them. -/
theorem SourceUnit.mainBody_checked {J : Place → View} {c : Place} (unit : SourceUnit)
    (h : CheckedAll J c (Item.stmts unit.items)) : CheckedAll J c unit.mainBody := by
  unfold SourceUnit.mainBody
  revert h
  induction unit.items generalizing c with
  | nil => exact id
  | cons item items ih =>
    intro h
    cases item with
    | record record => exact ih h
    | function f =>
      have hafter : c.after (.function f.head f.body) = c := by simp [Place.after, Stmt.own]
      exact ih (hafter ▸ h.2)
    | stmt stmt => exact ⟨h.1, ih h.2⟩

theorem SourceUnit.mainBody_declared (unit : SourceUnit) :
    (declaredAll unit.mainBody).Sublist (declaredAll (Item.stmts unit.items)) := by
  unfold SourceUnit.mainBody
  induction unit.items with
  | nil => exact List.Sublist.refl _
  | cons item items ih =>
    cases item with
    | record record => exact ih
    | function f => exact ih.trans (sublist_append_right _ _)
    | stmt stmt => exact ih.append_left stmt.declared

section Units

variable {a : Analysis} {unit : SourceUnit}

section

variable (h : a.Sound unit.items)
include h

/-- Functions have different numbers, and none is that of the statements outside of functions. -/
theorem Analysis.Sound.numbers_nodup :
    (FnId.main :: FunctionDecl.numbers (unit.functions ++ innerAll unit.mainBody)).Nodup := by
  have hperm := functionsAll_perm [] fun stmt (_ : stmt ∈ Item.stmts unit.items) =>
    stmt.functions_perm
  have hall := (unit.functions_perm.filterMap (·.head.id)).trans hperm
  exact ((hall.cons FnId.main).nodup_iff).mpr (h.numbers [])

/-- **Nothing is wrong with any function of a unit with nothing wrong in it.** -/
theorem Analysis.Sound.admits : a.AdmitsAll unit.allFunctions :=
  h.checked.admits_of (fun _ _ _ hknown hdeclared hstmt => hstmt.admits hknown hdeclared)
    (nil_subset _) (subset_append_right _ _) h.declared

theorem Analysis.Sound.admits_main : a.Admits FnId.main [] unit.mainBody := by
  obtain ⟨info, hinfo, hparams, hret, -⟩ := h.main
  refine ⟨⟨info, hinfo, hparams ▸ .nil, .inl hret⟩,
    ⟨_, rfl, rfl, unit.mainBody_checked h.checked, fun x hx => ?_⟩,
    h.declared.sublist unit.mainBody_declared⟩
  cases hx

theorem Analysis.Sound.allFunctions_nodup :
    (FnId.main :: unit.allFunctions.filterMap (·.head.id)).Nodup := by
  have hperm := unit.functions_perm.filterMap (·.head.id)
  exact ((hperm.cons FnId.main).nodup_iff).mp h.numbers_nodup

theorem Analysis.Sound.paramsOf_eq {id : FnId} (hf : f ∈ unit.allFunctions)
    (hid : f.head.id = some id) : unit.paramsOf id = f.head.paramIds := by
  have hfind : unit.allFunctions.find? (·.head.id = some id) = some f :=
    FunctionDecl.find?_eq h.allFunctions_nodup.of_cons hf hid
  rw [SourceUnit.paramsOf, hfind]
  rfl

theorem Analysis.Sound.paramsOf_main : unit.paramsOf FnId.main = [] := by
  have hfind : unit.allFunctions.find? (·.head.id = some FnId.main) = none := by
    refine find?_eq_none.mpr fun f hf hid => ?_
    exact (nodup_cons.mp h.allFunctions_nodup).1 (mem_filterMap.mpr ⟨f, hf, of_decide_eq_true hid⟩)
  rw [SourceUnit.paramsOf, hfind]
  rfl

end

end Units

end StackCompiler

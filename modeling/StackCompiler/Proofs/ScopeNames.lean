import StackCompiler.Proofs.Declarations

/-!
# Names in scopes

The open scopes as layers of names, of which it is only noted which of them are records. Until the
statements of a unit are looked at, this is all that the meaning of a written type depends on.

* `TypeExpr.meaning`, **`resolveType_gives`**: the meaning of a written type.
-/

namespace StackCompiler

variable {i : Nat} {known : String → Option DeclId} {t : TypeExpr}

def SymbolKind.record? : SymbolKind → Option DeclId
  | record decl => some decl
  | _ => none

/-- Layers of names, the innermost first; with a name goes its declaration if it is a record. -/
abbrev NameLayers := List (List (String × Option DeclId))

/-- The record that a name stands for: the innermost layer that has the name decides. -/
def NameLayers.record? (layers : NameLayers) (name : String) : Option DeclId :=
  (layers.findSome? (·.lookup name)).join

theorem lookup_snoc {β : Type} (layer : List (String × β)) (name : String) (r : β) (n : String) :
    (layer ++ [(name, r)]).lookup n = (layer.lookup n).or (if n = name then some r else none) := by
  rw [List.lookup_append, List.lookup_cons, List.lookup_nil]
  by_cases hn : n = name
  · rw [if_pos hn, beq_iff_eq.mpr hn]
  · rw [if_neg hn, beq_eq_false_iff_ne.mpr hn]

theorem optionRel_mono {α β : Type} {R R' : α → β → Prop} (hR : ∀ a b, R a b → R' a b)
    {x : Option α} {y : Option β} (h : Option.Rel R x y) : Option.Rel R' x y := by
  cases h with
  | none => exact .none
  | some h => exact .some (hR _ _ h)

/-! ## Layers of names -/

namespace AnalysisState

variable {s s' : AnalysisState} {layer : List (String × Option DeclId)} {layers : NameLayers}

/-- Some findings are added. -/
def noting (s : AnalysisState) (new : Diagnostics) : AnalysisState :=
  { s with diagnostics := s.diagnostics ++ new }

theorem noting_noting (s : AnalysisState) (new new' : Diagnostics) :
    (s.noting new).noting new' = s.noting (new ++ new') := by
  simp [noting, List.append_assoc]

theorem noting_nil (s : AnalysisState) : s.noting [] = s := by simp [noting]

/-- In a scope a name is bound to what a layer says. -/
def Bound (s : AnalysisState) (scope : Scope) (layer : List (String × Option DeclId)) : Prop :=
  ∀ name, Option.Rel (fun id r => ∃ x, s.symbols[id]? = some x ∧ x.kind.record? = r)
    (scope.lookup name) (layer.lookup name)

/-- The open scopes have the given layers of names, and the innermost takes more. -/
structure Names (s : AnalysisState) (layers : NameLayers) : Prop where
  valid : s.scopes.Valid
  isOpen : ∀ scope ∈ s.scopes.frames.head?, scope.isOpen = true
  bound : List.Forall₂ s.Bound s.scopes.frames layers

theorem Bound.mono {scope : Scope} (h : s.Bound scope layer)
    (hsymbols : ∀ (id : SymbolId) (x : Symbol), s.symbols[id]? = some x →
      s'.symbols[id]? = some x) :
    s'.Bound scope layer := by
  intro name
  refine optionRel_mono ?_ (h name)
  rintro id r ⟨x, hx, hr⟩
  exact ⟨x, hsymbols id x hx, hr⟩

theorem Names.congr (h : s.Names layers) (hscopes : s'.scopes = s.scopes)
    (hsymbols : ∀ (id : SymbolId) (x : Symbol), s.symbols[id]? = some x →
      s'.symbols[id]? = some x) :
    s'.Names layers := by
  refine ⟨hscopes ▸ h.valid, hscopes ▸ h.isOpen, ?_⟩
  rw [hscopes]
  exact h.bound.imp fun scope layer hb => hb.mono hsymbols

theorem Names.noting (h : s.Names layers) (new : Diagnostics) : (s.noting new).Names layers :=
  h.congr rfl fun _ _ hx => hx

/-- Scopes, symbols and findings change, and nothing else. -/
def AddsNames (s s' : AnalysisState) : Prop :=
  ∃ scopes symbols diagnostics,
    s' = { s with scopes := scopes, symbols := symbols, diagnostics := diagnostics }

theorem Names.open (h : s.Names layers) {kind : ScopeKind} {u : Unit}
    (ho : openScope kind s = (u, s')) :
    s'.Names ([] :: layers) ∧ s.AddsNames s' := by
  cases ho
  obtain ⟨hvalid, hframes⟩ := ScopeStack.frames_open h.valid kind
  refine ⟨⟨hvalid, hframes ▸ ?_, hframes ▸ .cons (fun name => .none) h.bound⟩, _, _, _, rfl⟩
  rintro scope ⟨⟩
  rfl

/-- A new symbol, unless its name is bound in the scope, so that the scope has one more name. -/
theorem Names.of_binds {symbol : Symbol} (hb : Binds s s' symbol) (h : s.Names (layer :: layers)) :
    s'.Names ((layer ++ [(symbol.name, symbol.kind.record?)]) :: layers) ∧ s.AddsNames s' := by
  obtain ⟨-, hscopes, new, hs'⟩ := hb
  refine ⟨?_, _, _, _, hs'⟩
  have hsymbols : s'.symbols = s.symbols.push symbol := by rw [hs']
  have hgrows (id : SymbolId) (x : Symbol) (hx : s.symbols[id]? = some x) :
      s'.symbols[id]? = some x := hsymbols ▸ getElem?_push_of_some _ hx
  obtain ⟨scope, outer, hlayer, hrest, hframes⟩ := List.forall₂_cons_right_iff.mp h.bound
  have hlayer := hlayer.mono hgrows
  have hrest := hrest.imp fun _ _ hb => hb.mono hgrows
  have hopen : scope.isOpen = true := h.isOpen scope (by rw [hframes]; rfl)
  rcases ScopeStack.declare_cases h.valid hframes hopen symbol.name s.symbols.size with
    ⟨existing, hexisting, hd⟩ | ⟨hnone, hd⟩
  · -- the name is bound already, and another name behind it makes no difference
    have hsame : s'.scopes = s.scopes := hscopes.elim And.left fun hok => by
      rw [hd] at hok
      cases hok
    refine ⟨hsame ▸ h.valid, hsame ▸ h.isOpen, ?_⟩
    rw [hsame, hframes]
    refine .cons (fun n => ?_) hrest
    have hn := hlayer n
    rw [lookup_snoc]
    split_ifs with heq
    · subst heq
      rw [hexisting] at hn ⊢
      cases hl : layer.lookup symbol.name with
      | none => rw [hl] at hn; cases hn
      | some r => rwa [hl] at hn
    · rwa [Option.or_none]
  · have hok : s.scopes.declare symbol.name s.symbols.size = .ok s'.scopes :=
      hscopes.resolve_left fun hsame => by
        obtain ⟨-, e, he⟩ := hsame
        rw [hd] at he
        cases he
    obtain ⟨hvalid, hframes'⟩ := ScopeStack.frames_declare h.valid hok
    rw [hframes, List.modifyHead_cons] at hframes'
    refine ⟨hvalid, ?_, ?_⟩
    · rw [hframes']
      rintro scope ⟨⟩
      exact hopen
    rw [hframes']
    refine .cons (fun n => ?_) hrest
    have hn := hlayer n
    rw [Scope.lookup, lookup_snoc, lookup_snoc]
    split_ifs with heq
    · subst heq
      rw [hnone] at hn
      rw [show scope.names.lookup symbol.name = none from hnone]
      cases hl : layer.lookup symbol.name with
      | some r => rw [hl] at hn; cases hn
      | none => exact .some ⟨symbol, by rw [hsymbols, Array.getElem?_push_size], rfl⟩
    · rwa [Option.or_none, Option.or_none]

theorem Names.resolve (h : s.Names layers) (name : String) :
    match layers.findSome? (·.lookup name) with
    | none => s.scopes.resolve name = .error (.unresolved name)
    | some r => ∃ binding symbol, s.scopes.resolve name = .ok binding ∧
      s.symbols[binding.symbol]? = some symbol ∧ symbol.kind.record? = r := by
  have hin {frames : List Scope} {layers : NameLayers} (h : List.Forall₂ s.Bound frames layers) :
      Option.Rel (fun id r => ∃ x, s.symbols[id]? = some x ∧ x.kind.record? = r)
        (frames.findSome? (·.lookup name)) (layers.findSome? (·.lookup name)) := by
    induction h with
    | nil => exact .none
    | @cons scope layer frames layers hbound _ ih =>
      rw [List.findSome?_cons, List.findSome?_cons]
      have hname := hbound name
      revert hname
      cases scope.lookup name <;> cases layer.lookup name <;> intro hname
      · exact ih
      · cases hname
      · cases hname
      · exact hname
  have hboth := hin h.bound
  have hresolve := s.scopes.resolve_eq name
  revert hboth hresolve
  cases s.scopes.frames.findSome? (·.lookup name) <;>
    cases layers.findSome? (·.lookup name) <;> intro hboth hresolve
  · exact hresolve
  · cases hboth
  · cases hboth
  · obtain ⟨binding, hok, rfl⟩ := hresolve
    cases hboth with
    | some hx =>
      obtain ⟨x, hx, hr⟩ := hx
      exact ⟨binding, x, hok, hx, hr⟩

end AnalysisState

/-! ## Written types -/

open AnalysisState

/-- A type as it is stored: void counts as wrong. -/
def Ty.stored (ty : Ty) : Ty := if ty = .void then .error else ty

/-- The meaning of a written type to the analysis, which has no arrays of void. -/
def TypeExpr.meaning (known : String → Option DeclId) : TypeExpr → Ty
  | .named ident => (TypeExpr.named ident).resolveIn known
  | .array elem _ => .array (elem.meaning known).stored

/-- In a state a step gives a value; all that it does is to report something. -/
def Analyze.Gives {α : Type} (m : Analyze α) (s : AnalysisState) (a : α) : Prop :=
  ∃ new, m s = (a, s.noting new)

namespace Analyze.Gives

variable {α β : Type} {s : AnalysisState}

theorem pure (a : α) : Gives (pure a) s a := ⟨[], by rw [noting_nil]; rfl⟩

theorem bind {m : Analyze α} {f : α → Analyze β} {a : α} {b : β} (hm : Gives m s a)
    (hf : ∀ new, Gives (f a) (s.noting new) b) : Gives (m >>= f) s b := by
  obtain ⟨new, hnew⟩ := hm
  obtain ⟨new', hnew'⟩ := hf new
  exact ⟨new ++ new', Analyze.bind_eq.mpr ⟨a, s.noting new, hnew, by rw [hnew', noting_noting]⟩⟩

theorem getThen {f : AnalysisState → Analyze β} {b : β} (hf : Gives (f s) s b) :
    Gives (get >>= f) s b := hf

theorem report (kind : DiagnosticKind) (message : String) (span : Span) (construct : Construct) :
    Gives (report kind message span construct) s () := ⟨[_], rfl⟩

theorem forM {f : α → Analyze Unit} (hf : ∀ x s, Gives (f x) s ()) (xs : List α)
    (s : AnalysisState) : Gives (xs.forM f) s () := by
  induction xs generalizing s with
  | nil => exact pure _
  | cons x xs ih => exact (hf x s).bind fun _ => ih _

theorem reportThen (kind : DiagnosticKind) (message : String) (span : Span)
    (construct : Construct) (a : α) :
    Gives (do StackCompiler.report kind message span construct; return a) s a :=
  (report _ _ _ _).bind fun _ => pure a

end Analyze.Gives

section Meaning

open Analyze

variable {s : AnalysisState} {layers : NameLayers}

theorem resolveTypeName_gives (h : s.Names layers) (ident : Ident) :
    Gives (resolveTypeName ident) s (match layers.record? ident.name with
      | some decl => .record decl ident.name
      | none => .error) := by
  have hname := h.resolve ident.name
  unfold NameLayers.record?
  refine Gives.getThen ?_
  revert hname
  cases layers.findSome? (·.lookup ident.name) with
  | none =>
    intro he
    rw [he]
    exact .reportThen _ _ _ _ _
  | some r =>
    rintro ⟨binding, symbol, hok, hsymbol, rfl⟩
    rw [hok]
    simp only [hsymbol, Option.map_some]
    cases symbol.kind with
    | record decl => exact .pure _
    | _ => exact .reportThen _ _ _ _ _

theorem rejectVoid_gives (span : Span) (ty : Ty) : Gives (rejectVoid span ty) s ty.stored := by
  unfold rejectVoid Ty.stored
  split_ifs
  · exact .reportThen _ _ _ _ _
  · exact .pure _

/-- **The meaning of a written type.** -/
theorem resolveType_gives (h : s.Names layers) (t : TypeExpr) :
    Gives (resolveType t) s (t.meaning layers.record?) := by
  induction t with
  | named ident =>
    rw [resolveType, TypeExpr.meaning, TypeExpr.resolveIn]
    cases Ty.primitive? ident.name with
    | some ty => exact .pure _
    | none => exact resolveTypeName_gives h ident
  | array elem span ih =>
    exact ih.bind fun _ => (rejectVoid_gives _ _).bind fun _ => .pure _

theorem resolveValueType_gives (h : s.Names layers) (t : TypeExpr) :
    Gives (resolveValueType t) s (t.meaning layers.record?).stored :=
  (resolveType_gives h t).bind fun _ => rejectVoid_gives _ _

theorem resolveResult_gives (h : s.Names layers) (t : Option TypeExpr) :
    Gives (resolveResult t) s ((t.map (·.meaning layers.record?)).getD .void) := by
  cases t with
  | none => exact .pure _
  | some t => exact resolveType_gives h t

theorem resolveParams_gives (h : s.Names layers) (params : List Param) :
    Gives (params.mapM fun p => resolveValueType p.ty) s
      (params.map fun p => (p.ty.meaning layers.record?).stored) := by
  induction params generalizing s with
  | nil => exact .pure _
  | cons p params ih =>
    rw [List.mapM_cons]
    exact (resolveValueType_gives h p.ty).bind fun new => (ih (h.noting new)).bind fun _ => .pure _

end Meaning

/-! ### Void -/

def TypeExpr.hasVoid : TypeExpr → Bool
  | .named ident => Ty.primitive? ident.name == some .void
  | .array elem _ => elem.hasVoid

theorem TypeExpr.resolveIn_ne_void (h : t.hasVoid = false) : t.resolveIn known ≠ .void := by
  cases t with
  | array elem span => exact Ty.noConfusion
  | named ident =>
    rw [resolveIn]
    rw [hasVoid, beq_eq_false_iff_ne] at h
    split
    · rename_i ty hty
      rintro rfl
      exact h hty
    · split <;> exact Ty.noConfusion

def TypeExpr.hasVoidElem : TypeExpr → Bool
  | .named _ => false
  | .array elem _ => elem.hasVoid

/-- Without arrays of void, a type means to the analysis what it means to other units. -/
theorem TypeExpr.meaning_eq (h : t.hasVoidElem = false) : t.meaning known = t.resolveIn known := by
  induction t with
  | named ident => rfl
  | array elem span ih =>
    have helem : elem.hasVoid = false := h
    have hinner : elem.hasVoidElem = false := by
      cases elem with
      | named ident => rfl
      | array inner span => exact helem
    rw [meaning, resolveIn, ih hinner, Ty.stored, if_neg (resolveIn_ne_void helem)]

theorem TypeExpr.stored_meaning_eq (h : t.hasVoid = false) :
    (t.meaning known).stored = t.resolveIn known := by
  have hinner : t.hasVoidElem = false := by
    cases t with
    | named ident => rfl
    | array elem span => exact h
  rw [meaning_eq hinner, Ty.stored, if_neg (resolveIn_ne_void h)]

end StackCompiler

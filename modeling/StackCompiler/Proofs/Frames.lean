import Mathlib.Data.List.Nodup
import StackCompiler.Scope

/-!
# Scopes as frames

The open scopes are a stack of frames, the innermost first. Entering a scope pushes a frame and
leaving it pops one, a declaration adds to the top frame, and a name that is found is in one of the
frames.

* `ScopeStack.layers`, `TopGrows`: the symbols of the frames, of which only the top ones grow.
-/

namespace StackCompiler

open List

namespace ScopeStack

/-- The open scopes exist, and none is opened twice. -/
structure Valid (s : ScopeStack) : Prop where
  nodup : s.active.Nodup
  lt : ∀ i ∈ s.active, i < s.scopes.size

/-- The open scopes, the innermost first. -/
def frames (s : ScopeStack) : List Scope := s.active.filterMap (s.scopes[·]?)

variable {s s' : ScopeStack} {name : String} {id : SymbolId}

theorem empty_valid : empty.Valid := ⟨nodup_nil, nofun⟩

section

variable (h : s.Valid)
include h

theorem length_frames : s.frames.length = s.active.length :=
  filterMap_length_eq_length.mpr fun i hi => by simpa using h.lt i hi

/-- The innermost scope is the top frame, and a change of it does not concern the others. -/
theorem Valid.top {i : Nat} {outer : List Nat} (hactive : s.active = i :: outer) :
    ∃ scope, s.scopes[i]? = some scope ∧ s.frames = scope :: outer.filterMap (s.scopes[·]?) ∧
      ∀ f, outer.filterMap ((s.scopes.modify i f)[·]?) = outer.filterMap (s.scopes[·]?) := by
  have hlt := h.lt i (hactive ▸ mem_cons_self)
  have hnodup := hactive ▸ h.nodup
  refine ⟨s.scopes[i], Array.getElem?_eq_getElem hlt, ?_, fun f => filterMap_congr fun j hj => ?_⟩
  · rw [frames, hactive, filterMap_cons, Array.getElem?_eq_getElem hlt]
  · have hne : i ≠ j := fun he => (nodup_cons.mp hnodup).1 (he ▸ hj)
    rw [Array.getElem?_modify, if_neg hne]

theorem current?_eq : s.current? = s.frames.head? := by
  unfold current?
  cases hactive : s.active with
  | nil => simp [frames, hactive]
  | cons i outer =>
    obtain ⟨scope, hscope, hframes, -⟩ := h.top hactive
    simpa [hframes] using hscope

theorem enter_valid (kind : ScopeKind) : (s.enter kind).Valid := by
  refine ⟨nodup_cons.mpr ⟨fun hmem => Nat.lt_irrefl _ (h.lt _ hmem), h.nodup⟩, fun i hi => ?_⟩
  show i < (s.scopes.push _).size
  rw [Array.size_push]
  rcases mem_cons.mp hi with rfl | hi
  · exact Nat.lt_succ_self _
  · exact Nat.lt_succ_of_lt (h.lt i hi)

theorem frames_enter (kind : ScopeKind) :
    (s.enter kind).frames = ⟨kind, .entered, []⟩ :: s.frames := by
  simp only [frames, enter]
  rw [filterMap_cons, Array.getElem?_push_size]
  refine congrArg _ (filterMap_congr fun i hi => ?_)
  rw [Array.getElem?_push, if_neg (Nat.ne_of_lt (h.lt i hi))]

theorem modifyCurrent_valid (f : Scope → Scope) : (s.modifyCurrent f).Valid := by
  unfold modifyCurrent
  split
  · exact h
  · refine ⟨h.nodup, fun i hi => ?_⟩
    show i < (s.scopes.modify _ f).size
    rw [Array.size_modify]
    exact h.lt i hi

theorem frames_modifyCurrent (f : Scope → Scope) :
    (s.modifyCurrent f).frames = s.frames.modifyHead f := by
  unfold modifyCurrent
  cases hactive : s.active with
  | nil => simp [frames, hactive]
  | cons i outer =>
    obtain ⟨scope, hscope, hframes, hothers⟩ := h.top hactive
    have hscope' : (s.scopes.modify i f)[i]? = some (f scope) := by
      rw [Array.getElem?_modify, if_pos rfl, hscope, Option.map_some]
    rw [hframes]
    simp only [frames, filterMap_cons, hscope', hothers, modifyHead_cons]

theorem frames_open (kind : ScopeKind) : ((s.enter kind).setState .declaring).Valid ∧
      ((s.enter kind).setState .declaring).frames = ⟨kind, .declaring, []⟩ :: s.frames := by
  have h' := enter_valid h kind
  refine ⟨modifyCurrent_valid h' _, ?_⟩
  rw [setState, frames_modifyCurrent h', frames_enter h]
  rfl

theorem exit_cases : s.frames = [] ∧ s.exit = .error .noScope ∨
    ∃ scope s', s.frames = scope :: s'.frames ∧ s'.Valid ∧
      s.exit = .ok (scope.names.map Prod.snd, s') := by
  unfold exit
  cases hactive : s.active with
  | nil => exact .inl ⟨by simp [frames, hactive], rfl⟩
  | cons i outer =>
    obtain ⟨scope, hscope, hframes, hothers⟩ := h.top hactive
    refine .inr ⟨scope, _, ?_, ⟨(nodup_cons.mp (hactive ▸ h.nodup)).2, fun j hj => ?_⟩, by
      simp only [hscope]; rfl⟩
    · rw [hframes, frames, hothers]
    · show j < (s.scopes.modify i _).size
      rw [Array.size_modify]
      exact h.lt j (hactive ▸ mem_cons_of_mem _ hj)

theorem frames_exit {symbols : List SymbolId} (he : s.exit = .ok (symbols, s')) :
    s'.Valid ∧ ∃ scope, s.frames = scope :: s'.frames := by
  obtain ⟨-, hexit⟩ | ⟨scope, _, hframes, hvalid, hexit⟩ := exit_cases h
  · cases hexit.symm.trans he
  · cases hexit.symm.trans he
    exact ⟨hvalid, scope, hframes⟩

theorem declare_cases {scope : Scope} {outer : List Scope} (hframes : s.frames = scope :: outer)
    (hopen : scope.isOpen = true) (name : String) (id : SymbolId) :
    (∃ existing, scope.lookup name = some existing ∧
      s.declare name id = .error (.duplicate name existing)) ∨
    scope.lookup name = none ∧ s.declare name id =
      .ok (s.modifyCurrent fun scope => { scope with names := scope.names ++ [(name, id)] }) := by
  unfold declare
  rw [current?_eq h, hframes]
  simp only [head?_cons, hopen, Bool.not_true, Bool.false_eq_true, if_false]
  cases hlookup : scope.lookup name with
  | some existing => exact .inl ⟨existing, rfl, rfl⟩
  | none => exact .inr ⟨rfl, rfl⟩

end

/-- A declaration that succeeds adds to the names of the innermost scope. -/
theorem declare_eq_ok (h : s.declare name id = .ok s') :
    s' = s.modifyCurrent fun scope => { scope with names := scope.names ++ [(name, id)] } := by
  unfold declare at h
  split at h
  · cases h
  · split_ifs at h
    split at h
    · cases h
    · exact (Except.ok.inj h).symm

theorem frames_declare (hv : s.Valid) (h : s.declare name id = .ok s') : s'.Valid ∧ s'.frames =
      s.frames.modifyHead fun scope => { scope with names := scope.names ++ [(name, id)] } := by
  rw [declare_eq_ok h]
  exact ⟨modifyCurrent_valid hv _, frames_modifyCurrent hv _⟩

/-- A name is looked up in the open scopes, from the innermost outwards. -/
theorem resolve_eq (s : ScopeStack) (name : String) : match s.frames.findSome? (·.lookup name) with
    | none => s.resolve name = .error (.unresolved name)
    | some id => ∃ binding, s.resolve name = .ok binding ∧ binding.symbol = id := by
  have hin (open_ : List Nat) : (s.resolveIn name open_).map Binding.symbol =
      (open_.filterMap (s.scopes[·]?)).findSome? (·.lookup name) := by
    induction open_ with
    | nil => rfl
    | cons i outer ih =>
      rw [resolveIn, filterMap_cons]
      cases s.scopes[i]? with
      | none => exact ih
      | some scope =>
        rw [findSome?_cons, Option.bind_some]
        cases scope.lookup name with
        | none => exact ih
        | some id => rfl
  rw [frames, ← hin, resolve]
  cases s.resolveIn name s.active with
  | none => rfl
  | some binding => exact ⟨binding, rfl, rfl⟩

/-! ## Symbols -/

def layers (s : ScopeStack) : List (List SymbolId) :=
  s.frames.map fun scope => scope.names.map Prod.snd

theorem mem_of_resolve {binding : Binding} (h : s.resolve name = .ok binding) :
    binding.symbol ∈ s.layers.flatten := by
  have hresolve := s.resolve_eq name
  cases hfind : s.frames.findSome? (·.lookup name) with
  | none =>
    rw [hfind, h] at hresolve
    cases hresolve
  | some id =>
    rw [hfind] at hresolve
    obtain ⟨binding', heq, rfl⟩ := hresolve
    cases h.symm.trans heq
    obtain ⟨scope, hscope, hlookup⟩ := exists_of_findSome?_eq_some hfind
    obtain ⟨before, after, hnames, _⟩ := lookup_eq_some_iff.mp hlookup
    refine mem_flatten.mpr ⟨_, mem_map.mpr ⟨scope, hscope, rfl⟩, ?_⟩
    exact mem_map.mpr ⟨(name, binding.symbol), by simp [hnames], rfl⟩

end ScopeStack

/-- Of some layers only the top one has grown, by some of the given symbols. -/
structure TopGrows (before after : List (List SymbolId)) (new : List SymbolId) : Prop where
  tail : after.tail = before.tail
  top : ∀ x ∈ after.headD [], x ∈ before.headD [] ∨ x ∈ new

namespace TopGrows

variable {a b c : List (List SymbolId)} {new new' : List SymbolId}

theorem refl (a : List (List SymbolId)) (new : List SymbolId) : TopGrows a a new :=
  ⟨rfl, fun _ h => .inl h⟩

theorem trans (h : TopGrows a b new) (h' : TopGrows b c new') : TopGrows a c (new ++ new') := by
  refine ⟨h'.tail.trans h.tail, fun x hx => ?_⟩
  rcases h'.top x hx with hx | hx
  · exact (h.top x hx).imp_right (mem_append_left _)
  · exact .inr (mem_append_right _ hx)

theorem mem_flatten {a : List (List SymbolId)} {x : SymbolId} :
    x ∈ a.flatten ↔ x ∈ a.headD [] ∨ x ∈ a.tail.flatten := by
  cases a with
  | nil => simp
  | cons first rest => simp

theorem mem (h : TopGrows a b new) {x : SymbolId} (hx : x ∈ b.flatten) :
    x ∈ a.flatten ∨ x ∈ new := by
  rcases mem_flatten.mp hx with hx | hx
  · exact (h.top x hx).imp_left fun hx => mem_flatten.mpr (.inl hx)
  · exact .inl (mem_flatten.mpr (.inr (h.tail ▸ hx)))

end TopGrows

theorem ScopeStack.topGrows {s s' : ScopeStack} {f : Scope → Scope} {new : List SymbolId}
    (h : s'.frames = s.frames.modifyHead f)
    (hf : ∀ scope, ∀ entry ∈ (f scope).names, entry ∈ scope.names ∨ entry.2 ∈ new) :
    TopGrows s.layers s'.layers new := by
  unfold layers
  rw [h]
  cases s.frames with
  | nil => exact .refl _ _
  | cons scope outer =>
    refine ⟨rfl, fun x hx => ?_⟩
    obtain ⟨entry, hentry, rfl⟩ := mem_map.mp hx
    exact (hf scope entry hentry).imp_left fun h => mem_map_of_mem h

end StackCompiler

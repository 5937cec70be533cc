import Mathlib.Data.List.Forall2
import StackCompiler.Codegen.Statements

/-!
# Steps that can fail

Computations of the project are run in order, and the first that fails ends them. A run of several
steps that succeeds is a run of each of them.

* `Except.bind_eq_ok`, `mapM_eq_ok`, `exists_of_mapM_eq_ok`: steps that only compute;
* `Emit.bind_eq_ok`, `Emit.lift_eq_ok`: steps of writing code;
* `Generate.bind_eq_ok`, `Generate.compute_eq_ok`, `Generate.ofEmit_eq_ok`: steps of making methods.
-/

namespace StackCompiler

variable {α β ε : Type} {f : α → Except ε β} {xs : List α} {ys : List β}

theorem getElem?_push_of_some {xs : Array α} {p : Nat} {x : α} (y : α) (h : xs[p]? = some x) :
    (xs.push y)[p]? = some x := by
  rw [Array.getElem?_push, if_neg, h]
  rintro rfl
  rw [Array.getElem?_eq_none (Nat.le_refl _)] at h
  cases h

/-! ## Computing -/

theorem Except.bind_eq_ok {x : Except ε α} {f : α → Except ε β} {r : β} :
    x >>= f = .ok r ↔ ∃ a, x = .ok a ∧ f a = .ok r := by
  cases x with
  | error e => simp [Bind.bind, Except.bind]
  | ok a => simp [Bind.bind, Except.bind]

theorem Except.pure_eq_ok {a r : α} : (pure a : Except ε α) = .ok r ↔ r = a :=
  ⟨fun h => (Except.ok.inj h).symm, fun h => h ▸ rfl⟩

theorem mapM_eq_ok : xs.mapM f = .ok ys ↔ List.Forall₂ (fun x y => f x = .ok y) xs ys := by
  induction xs generalizing ys with
  | nil => rw [List.mapM_nil, List.forall₂_nil_left_iff, Except.pure_eq_ok]
  | cons x xs ih =>
    simp only [List.mapM_cons, List.forall₂_cons_left_iff, Except.bind_eq_ok, Except.pure_eq_ok, ih]
    constructor
    · rintro ⟨y, hy, zs, hzs, rfl⟩
      exact ⟨y, zs, hy, hzs, rfl⟩
    · rintro ⟨y, zs, hy, hzs, rfl⟩
      exact ⟨y, hy, zs, hzs, rfl⟩

theorem exists_of_forall₂ {R : α → β → Prop} (h : List.Forall₂ R xs ys) {y : β} (hy : y ∈ ys) :
    ∃ x ∈ xs, R x y := by
  induction h with
  | nil => cases hy
  | cons hfirst _ ih =>
    rcases List.mem_cons.mp hy with rfl | hy
    · exact ⟨_, List.mem_cons_self, hfirst⟩
    · obtain ⟨x, hx, hr⟩ := ih hy
      exact ⟨x, List.mem_cons_of_mem _ hx, hr⟩

theorem exists_of_mapM_eq_ok (h : xs.mapM f = .ok ys) {y : β} (hy : y ∈ ys) :
    ∃ x ∈ xs, f x = .ok y :=
  exists_of_forall₂ (mapM_eq_ok.mp h) hy

/-! ## Writing -/

namespace Emit

variable {α β : Type} {b b' : CodeBuffer} {r : α × CodeBuffer}

theorem bind_eq_ok {m : Emit α} {f : α → Emit β} {r : β × CodeBuffer} :
    (m >>= f) b = .ok r ↔ ∃ a b', m b = .ok (a, b') ∧ f a b' = .ok r := by
  show (m b >>= fun p => f p.1 p.2) = .ok r ↔ _
  rw [Except.bind_eq_ok]
  exact ⟨fun ⟨⟨a, b'⟩, h⟩ => ⟨a, b', h⟩, fun ⟨a, b', h⟩ => ⟨(a, b'), h⟩⟩

theorem pure_eq_ok {a : α} : (pure a : Emit α) b = .ok r ↔ r = (a, b) :=
  Except.pure_eq_ok

theorem throw_ne_ok {e : GenerateError} : (throw e : Emit α) b ≠ .ok r := nofun

theorem lift_eq_ok {x : Except GenerateError α} :
    (liftM x : Emit α) b = .ok r ↔ ∃ a, x = .ok a ∧ r = (a, b) := by
  show (x >>= fun a => pure (a, b)) = .ok r ↔ _
  simp only [Except.bind_eq_ok, Except.pure_eq_ok]

theorem ofWrite_eq_ok {w : CodeBuffer.Write α} : ofWrite w b = .ok r ↔ w b = .ok r.1 r.2 := by
  unfold ofWrite
  cases w b with
  | ok a b' => simp [Prod.ext_iff]
  | error e b' => simp

end Emit

/-! ## Making methods -/

namespace Generate

variable {α β : Type} {s s' : GenState}

theorem bind_eq_ok {m : Generate α} {f : α → Generate β} {r : β} :
    (m >>= f) s = .ok r s' ↔ ∃ a s1, m s = .ok a s1 ∧ f a s1 = .ok r s' := by
  show EStateM.bind m f s = .ok r s' ↔ _
  unfold EStateM.bind
  cases m s with
  | ok a s1 => simp
  | error e s1 => simp

theorem pure_eq_ok {a r : α} : (pure a : Generate α) s = .ok r s' ↔ r = a ∧ s' = s := by
  show EStateM.Result.ok a s = .ok r s' ↔ _
  simp [eq_comm]

theorem throw_ne_ok {e : GenerateError} {r : α} : (throw e : Generate α) s ≠ .ok r s' := nofun

theorem get_eq_ok {r : GenState} : (get : Generate GenState) s = .ok r s' ↔ r = s ∧ s' = s := by
  show EStateM.Result.ok s s = .ok r s' ↔ _
  simp [eq_comm]

theorem compute_eq_ok {x : Except GenerateError α} {r : α} :
    compute x s = .ok r s' ↔ x = .ok r ∧ s' = s := by
  unfold compute
  cases x with
  | ok a => simp [eq_comm]
  | error e => simp

theorem ofEmit_eq_ok {x : Emit α} {r : α} :
    ofEmit x s = .ok r s' ↔ ∃ code, x s.code = .ok (r, code) ∧ s' = { s with code := code } := by
  unfold ofEmit
  cases x s.code with
  | error e => simp
  | ok p =>
    obtain ⟨a, code⟩ := p
    simp only [EStateM.Result.ok.injEq, Except.ok.injEq, Prod.mk.injEq]
    exact ⟨fun ⟨ha, hs⟩ => ⟨code, ⟨ha, rfl⟩, hs.symm⟩, fun ⟨_, ⟨ha, hc⟩, hs⟩ =>
      ⟨ha, by rw [hs, hc]⟩⟩

end Generate

end StackCompiler

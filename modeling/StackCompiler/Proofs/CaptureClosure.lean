import Mathlib.Data.List.Forall2
import Mathlib.Data.List.Sublists
import StackCompiler.Analysis.Captures

/-!
# The captures of all functions

Captures spread along calls until nothing changes. The number of rounds is large enough, so that in
the end a function captures all that its callees need and it does not own.

* `Captures.Within`, `spread_within`: a property of captures that holds of what is read directly and
  passes from callee to caller holds of all;
* **`spread_fixed`**, **`spread_closed`**: in the end nothing is missing.
-/

namespace StackCompiler

open List

variable {site : CallSite} {ids : List SymbolId} {n : Nat} {x : SymbolId}

/-! ## Increasing lists -/

theorem mem_insertSorted {y : SymbolId} : y ∈ insertSorted x ids ↔ y = x ∨ y ∈ ids := by
  induction ids with
  | nil => simp [insertSorted]
  | cons z ids ih =>
    rw [insertSorted]
    split_ifs with hlt heq
    · simp
    · subst heq
      simp
    · simp only [mem_cons, ih]
      tauto

theorem sublist_insertSorted (x : SymbolId) (ids : List SymbolId) :
    ids.Sublist (insertSorted x ids) := by
  induction ids with
  | nil => exact nil_sublist _
  | cons z ids ih =>
    rw [insertSorted]
    split_ifs
    · exact sublist_cons_self _ _
    · exact List.Sublist.refl _
    · exact ih.cons_cons z

theorem insertSorted_pairwise (h : ids.Pairwise (· < ·)) :
    (insertSorted x ids).Pairwise (· < ·) := by
  induction ids with
  | nil => exact pairwise_singleton _ _
  | cons z ids ih =>
    have hz := (pairwise_cons.mp h).1
    rw [insertSorted]
    split_ifs with hlt heq
    · refine pairwise_cons.mpr ⟨fun y hy => ?_, h⟩
      rcases mem_cons.mp hy with rfl | hy
      · exact hlt
      · exact Nat.lt_trans hlt (hz y hy)
    · exact h
    · refine pairwise_cons.mpr ⟨fun y hy => ?_, ih h.of_cons⟩
      rcases mem_insertSorted.mp hy with rfl | hy
      · exact Nat.lt_of_le_of_ne (Nat.le_of_not_lt hlt) (Ne.symm heq)
      · exact hz y hy

/-! ## Growth -/

namespace Captures

variable {k k' k'' : Captures} {f g : FnId} {x y : SymbolId}

theorem of_eq (k : Captures) (f : FnId) : k.of f = (k[f]?).getD [] := by
  rw [Captures.of, Array.getD_eq_getD_getElem?]

theorem of_add (k : Captures) (f g : FnId) (x : SymbolId) :
    (k.add f x).of g = if f = g then ((k[g]?).map (insertSorted x)).getD [] else k.of g := by
  rw [of_eq, of_eq, Captures.add, Array.getElem?_modify]
  split_ifs <;> rfl

theorem mem_of_add (h : y ∈ (k.add f x).of g) : y ∈ k.of g ∨ g = f ∧ y = x := by
  rw [of_add] at h
  split_ifs at h with hfg
  · subst hfg
    rw [of_eq]
    cases hc : k[f]? with
    | none => simp [hc] at h
    | some ids =>
      rw [hc, Option.map_some, Option.getD_some, mem_insertSorted] at h
      exact h.symm.imp_right fun h => ⟨rfl, h⟩
  · exact .inl h

theorem mem_add (hf : f < k.size) : x ∈ (k.add f x).of f := by
  rw [of_add, if_pos rfl, Array.getElem?_eq_getElem hf]
  exact mem_insertSorted.mpr (.inl rfl)

/-- Every function captures what it did, and maybe more. -/
structure Grows (k k' : Captures) : Prop where
  size : k'.size = k.size
  sub : ∀ f, (k.of f).Sublist (k'.of f)

theorem Grows.refl (k : Captures) : k.Grows k := ⟨rfl, fun _ => .refl _⟩

theorem Grows.trans (h : k.Grows k') (h' : k'.Grows k'') : k.Grows k'' :=
  ⟨h'.size.trans h.size, fun f => (h.sub f).trans (h'.sub f)⟩

theorem Grows.mem (h : k.Grows k') (hx : x ∈ k.of f) : x ∈ k'.of f := (h.sub f).subset hx

theorem Grows.foldl {α : Type} {step : Captures → α → Captures}
    (hstep : ∀ (k : Captures) a, k.Grows (step k a)) (k : Captures) (as : List α) :
    k.Grows (as.foldl step k) := by
  induction as generalizing k with
  | nil => exact .refl k
  | cons a as ih => exact (hstep k a).trans (ih _)

theorem add_grows (k : Captures) (f : FnId) (x : SymbolId) : k.Grows (k.add f x) := by
  refine ⟨Array.size_modify .., fun g => ?_⟩
  rw [of_add]
  split_ifs with hfg
  · rw [of_eq]
    cases k[g]? with
    | none => exact .refl _
    | some ids => exact sublist_insertSorted x ids
  · exact .refl _

def Within (P : FnId → SymbolId → Prop) (k : Captures) : Prop := ∀ f, ∀ x ∈ k.of f, P f x

theorem Within.add {P : FnId → SymbolId → Prop} (h : k.Within P) (hx : P f x) :
    (k.add f x).Within P := by
  intro g y hy
  rcases mem_of_add hy with hy | ⟨rfl, rfl⟩
  · exact h g y hy
  · exact hx

def Sorted (k : Captures) : Prop := ∀ f, (k.of f).Pairwise (· < ·)

theorem Sorted.add (h : k.Sorted) (f : FnId) (x : SymbolId) : (k.add f x).Sorted := by
  intro g
  rw [of_add]
  split_ifs
  · have hg := h g
    rw [of_eq] at hg
    cases hc : k[g]? with
    | none => exact .nil
    | some ids =>
      rw [hc] at hg
      exact insertSorted_pairwise hg
  · exact h g

theorem foldl_keeps {α : Type} {Q : Captures → Prop} {step : Captures → α → Captures}
    {as : List α} (hstep : ∀ k, ∀ a ∈ as, Q k → Q (step k a)) (hc : Q k) : Q (as.foldl step k) := by
  induction as generalizing k with
  | nil => exact hc
  | cons a as ih =>
    exact ih (fun k a ha => hstep k a (mem_cons_of_mem _ ha)) (hstep k a mem_cons_self hc)

end Captures

open Captures

/-! ## Rounds -/

section Rounds

variable {owner : SymbolId → Option FnId} {calls : Array CallSite} {k : Captures}
  {P : FnId → SymbolId → Prop}

theorem spreadCall_grows (owner : SymbolId → Option FnId) (k : Captures) (site : CallSite) :
    k.Grows (spreadCall owner k site) := by
  refine Grows.foldl (fun k x => ?_) k _
  split_ifs
  · exact .refl k
  · exact add_grows k _ _

theorem spreadRound_grows (owner : SymbolId → Option FnId) (calls : Array CallSite)
    (k : Captures) : k.Grows (spreadRound owner calls k) := by
  rw [spreadRound, ← Array.foldl_toList]
  exact Grows.foldl (spreadCall_grows owner) k _

theorem spreadCall_within
    (hsite : ∀ x, P site.callee x → owner x ≠ some site.caller → P site.caller x) (h : k.Within P) :
    (spreadCall owner k site).Within P := by
  refine foldl_keeps (fun k' x hx hc' => ?_) h
  split_ifs with howner
  · exact hc'
  · exact hc'.add (hsite x (h _ x hx) howner)

/-- What holds of the captures of a callee holds of those that its caller takes over. -/
theorem spreadRound_within
    (hcalls : ∀ site ∈ calls, ∀ x, P site.callee x → owner x ≠ some site.caller → P site.caller x)
    (h : k.Within P) : (spreadRound owner calls k).Within P := by
  rw [spreadRound, ← Array.foldl_toList]
  exact foldl_keeps (fun k site hsite hc =>
    spreadCall_within (hcalls site (Array.mem_def.mpr hsite)) hc) h

theorem spreadRound_sorted (h : k.Sorted) : (spreadRound owner calls k).Sorted := by
  rw [spreadRound, ← Array.foldl_toList]
  refine foldl_keeps (fun k site _ hc => ?_) h
  refine foldl_keeps (fun k x _ hc => ?_) hc
  split_ifs
  · exact hc
  · exact hc.add _ _

theorem mem_spreadRound (hsite : site ∈ calls) (hcaller : site.caller < k.size)
    (hx : x ∈ k.of site.callee) (howner : owner x ≠ some site.caller) :
    x ∈ (spreadRound owner calls k).of site.caller := by
  obtain ⟨before, after, hcalls⟩ := append_of_mem (Array.mem_def.mp hsite)
  rw [spreadRound, ← Array.foldl_toList, hcalls, foldl_append, foldl_cons]
  have hbefore := Grows.foldl (spreadCall_grows owner) k before
  refine (Grows.foldl (spreadCall_grows owner) _ after).mem ?_
  generalize before.foldl (spreadCall owner) k = d at hbefore
  -- the call itself goes through the captures of the callee one by one
  have hx := hbefore.mem hx
  obtain ⟨front, back, hsplit⟩ := append_of_mem hx
  have hstep (e : Captures) (y : SymbolId) :
      e.Grows (if owner y = some site.caller then e else e.add site.caller y) := by
    split_ifs
    · exact .refl e
    · exact add_grows e _ _
  rw [spreadCall, hsplit, foldl_append, foldl_cons]
  refine (Grows.foldl hstep _ back).mem ?_
  rw [if_neg howner]
  exact mem_add (by rw [(Grows.foldl hstep d front).size, hbefore.size]; exact hcaller)

end Rounds

/-! ## The last round -/

namespace Captures

variable {k k' : Captures}

def total (k : Captures) : Nat := k.toList.flatten.length

theorem length_le_of_sorted (h : ids.Pairwise (· < ·)) (hlt : ∀ x ∈ ids, x < n) :
    ids.length ≤ n := by
  have hsub : ids ⊆ List.range n := fun x hx => mem_range.mpr (hlt x hx)
  have hnodup : ids.Nodup := h.imp Nat.ne_of_lt
  simpa using (subperm_of_subset hnodup hsub).length_le

theorem total_le (hsorted : k.Sorted) (hlt : k.Within fun _ x => x < n) : k.total ≤ k.size * n := by
  have hall : ∀ ids ∈ k.toList, ids.length ≤ n := by
    intro ids hids
    obtain ⟨f, hf⟩ := mem_iff_getElem?.mp hids
    have hof : k.of f = ids := by
      rw [of_eq, ← Array.getElem?_toList, hf]
      rfl
    exact length_le_of_sorted (hof ▸ hsorted f) (hof ▸ hlt f)
  rw [total, ← Array.length_toList]
  generalize k.toList = all at hall
  induction all with
  | nil => simp
  | cons ids rest ih =>
    have hhead := hall ids mem_cons_self
    have htail := ih fun ids hids => hall ids (mem_cons_of_mem _ hids)
    simp only [flatten_cons, length_append, length_cons, Nat.succ_mul]
    omega

theorem total_le_of_forall₂ {as bs : List (List SymbolId)} (h : List.Forall₂ List.Sublist as bs) :
    as.flatten.length ≤ bs.flatten.length ∧ (bs.flatten.length ≤ as.flatten.length → as = bs) := by
  induction h with
  | nil => exact ⟨Nat.le_refl _, fun _ => rfl⟩
  | @cons a b as bs hab _ ih =>
    obtain ⟨hle, heq⟩ := ih
    have hlen := hab.length_le
    simp only [flatten_cons, length_append]
    refine ⟨Nat.add_le_add hlen hle, fun hge => ?_⟩
    rw [hab.eq_of_length (by omega), heq (by omega)]

theorem Grows.total_lt (h : k.Grows k') (hne : k' ≠ k) : k.total < k'.total := by
  have hforall : List.Forall₂ List.Sublist k.toList k'.toList := by
    refine forall₂_iff_get.mpr ⟨by simp [h.size], fun i hi hi' => ?_⟩
    have hsub := h.sub i
    rw [of_eq, of_eq, ← Array.getElem?_toList, ← Array.getElem?_toList,
      getElem?_eq_getElem hi, getElem?_eq_getElem hi'] at hsub
    exact hsub
  refine Nat.lt_of_not_le fun hge => hne ?_
  exact (Array.toList_inj.mp ((total_le_of_forall₂ hforall).2 hge)).symm

end Captures

section Spread

variable {owner : SymbolId → Option FnId} {calls : Array CallSite} {k : Captures}
  {P : FnId → SymbolId → Prop}

theorem spread_grows (fuel : Nat) (k : Captures) : k.Grows (spread owner calls fuel k) := by
  induction fuel generalizing k with
  | zero => exact .refl k
  | succ fuel ih =>
    rw [spread]
    split_ifs
    · exact .refl k
    · exact (spreadRound_grows owner calls k).trans (ih _)

theorem spread_within
    (hcalls : ∀ site ∈ calls, ∀ x, P site.callee x → owner x ≠ some site.caller → P site.caller x)
    (fuel : Nat) (h : k.Within P) : (spread owner calls fuel k).Within P := by
  induction fuel generalizing k with
  | zero => exact h
  | succ fuel ih =>
    rw [spread]
    split_ifs
    · exact h
    · exact ih (spreadRound_within hcalls h)

theorem spread_sorted (fuel : Nat) (h : k.Sorted) : (spread owner calls fuel k).Sorted := by
  induction fuel generalizing k with
  | zero => exact h
  | succ fuel ih =>
    rw [spread]
    split_ifs
    · exact h
    · exact ih (spreadRound_sorted h)

/-- **There are enough rounds**: a further one changes nothing. -/
theorem spread_fixed {fuel : Nat} (hsorted : k.Sorted) (hlt : k.Within fun _ x => x < n)
    (hfuel : k.size * n < fuel + k.total) :
    spreadRound owner calls (spread owner calls fuel k) = spread owner calls fuel k := by
  induction fuel generalizing k with
  | zero => exact absurd (total_le hsorted hlt) (by omega)
  | succ fuel ih =>
    rw [spread]
    split_ifs with hfix
    · exact hfix
    · have hgrows := spreadRound_grows owner calls k
      have htotal := hgrows.total_lt hfix
      refine ih (spreadRound_sorted hsorted) (spreadRound_within (fun _ _ _ hx _ => hx) hlt) ?_
      rw [hgrows.size]
      omega

/-- **In the end a caller has what its callees capture**, unless it owns it. -/
theorem spread_closed {fuel : Nat} (hsorted : k.Sorted) (hlt : k.Within fun _ x => x < n)
    (hfuel : k.size * n < fuel + k.total) (hsite : site ∈ calls) (hcaller : site.caller < k.size)
    (hx : x ∈ (spread owner calls fuel k).of site.callee) (howner : owner x ≠ some site.caller) :
    x ∈ (spread owner calls fuel k).of site.caller := by
  have hfixed : spreadRound owner calls (spread owner calls fuel k) = spread owner calls fuel k :=
    spread_fixed hsorted hlt hfuel
  rw [← hfixed]
  exact mem_spreadRound hsite ((spread_grows fuel k).size ▸ hcaller) hx howner

end Spread

/-! ## What is read directly -/

section Direct

variable {functions : Nat} {reads : List (FnId × SymbolId)} {P : FnId → SymbolId → Prop}

theorem directCaptures_size (functions : Nat) (reads : List (FnId × SymbolId)) :
    (directCaptures functions reads).size = functions := by
  rw [directCaptures, (Grows.foldl (fun k (read : FnId × SymbolId) => add_grows k read.1 read.2)
    _ reads).size, Array.size_replicate]

theorem of_replicate (functions : Nat) (f : FnId) :
    Captures.of (Array.replicate functions []) f = [] := by
  rw [of_eq, Array.getElem?_replicate]
  split_ifs <;> rfl

theorem directCaptures_within (h : ∀ read ∈ reads, P read.1 read.2) :
    (directCaptures functions reads).Within P := by
  refine foldl_keeps (fun k read hread hc => hc.add (h read hread)) ?_
  intro f x hx
  rw [of_replicate] at hx
  cases hx

theorem directCaptures_sorted : (directCaptures functions reads).Sorted := by
  refine foldl_keeps (fun k read _ hc => hc.add _ _) ?_
  intro f
  rw [of_replicate]
  exact .nil

theorem mem_directCaptures {read : FnId × SymbolId} (hread : read ∈ reads)
    (hlt : read.1 < functions) : read.2 ∈ (directCaptures functions reads).of read.1 := by
  obtain ⟨before, after, rfl⟩ := append_of_mem hread
  have hstep (k : Captures) (read : FnId × SymbolId) := add_grows k read.1 read.2
  rw [directCaptures, foldl_append, foldl_cons]
  refine (Grows.foldl hstep _ after).mem (mem_add ?_)
  rw [(Grows.foldl hstep _ before).size, Array.size_replicate]
  exact hlt

end Direct

end StackCompiler

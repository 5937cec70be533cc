import Mathlib.Logic.Relation
import StackCompiler.Proofs.Exports

/-!
# What is withheld

An export is withheld if there is an error somewhere in what it is made of: in a type of its own
signature, or in the fields of a record that can be reached from there. Nothing else is withheld,
and the order of the exports does not matter.

* **`ExportTable.publish_exact`**: which exports are in the table, and how they are found.
-/

namespace StackCompiler

open List

variable {exports exports' : List Export} {w w' : List DeclId} {d : DeclId} {e r : Export}
  {P : DeclId → Prop}

/-! ## The least closed set -/

theorem Export.isBroken_iff : e.isBroken w = true ↔
    (∃ ty ∈ e.signature.types, ty.containsError = true) ∨ ∃ d ∈ w, e.signature.Mentions d := by
  simp only [isBroken, any_eq_true, Bool.or_eq_true, Ty.mentions_iff, Signature.Mentions]
  grind

theorem Export.isBroken_mono (hw : w ⊆ w') (h : e.isBroken w = true) : e.isBroken w' = true := by
  rw [isBroken_iff] at h ⊢
  exact h.imp_right fun ⟨d, hd, hm⟩ => ⟨d, hw hd, hm⟩

section

variable (hstep : ∀ e ∈ exports, ∀ w, (∀ d ∈ w, P d) → e.isBroken w = true → P e.decl)
include hstep

/-- What holds of all that is withheld holds after a round, if it is passed on to what is broken. -/
theorem withholdRound_induction (hw : ∀ d ∈ w, P d) : ∀ d ∈ withholdRound exports w, P d := by
  refine List.foldlRecOn (motive := fun w => ∀ d ∈ w, P d) exports _ hw fun w hw e he => ?_
  split_ifs with hknown hbroken
  · exact hw
  · exact forall_mem_cons.mpr ⟨hstep e he w hw hbroken, hw⟩
  · exact hw

theorem withholdRounds_induction (fuel : Nat) (hw : ∀ d ∈ w, P d) :
    ∀ d ∈ withholdRounds exports fuel w, P d := by
  induction fuel generalizing w with
  | zero => exact hw
  | succ fuel ih =>
    rw [withholdRounds]
    split_ifs
    · exact hw
    · exact ih (withholdRound_induction hstep hw)

/-- **What is withheld has every property that is passed on to what is broken.** -/
theorem withheld_induction (hd : d ∈ withheld exports) : P d :=
  withholdRounds_induction hstep _ (by simp) d hd

end

theorem mem_withheld_of_isBroken (he : e ∈ exports) (h : e.isBroken (withheld exports) = true) :
    e.decl ∈ withheld exports := by
  by_contra hkept
  rw [withheld_closed he hkept] at h
  cases h

theorem withheld_subset (h : exports ⊆ exports') : withheld exports ⊆ withheld exports' := fun _ =>
  withheld_induction fun _ he _ hw hbroken =>
    mem_withheld_of_isBroken (h he) (Export.isBroken_mono hw hbroken)

/-! ## Termination -/

theorem withholdRound_of_closed (h : ∀ e ∈ exports, e.decl ∉ w → e.isBroken w = false) :
    withholdRound exports w = w := by
  refine List.foldlRecOn (motive := (· = w)) exports _ rfl fun _ hsame e he => ?_
  subst hsame
  split_ifs with hknown hbroken
  · rfl
  · rw [h e he (by simpa using hknown)] at hbroken
    cases hbroken
  · rfl

theorem withholdRound_withheld (exports : List Export) :
    withholdRound exports (withheld exports) = withheld exports :=
  withholdRound_of_closed fun _ => withheld_closed

theorem withholdRounds_of_stable (h : withholdRound exports w = w) (fuel : Nat) :
    withholdRounds exports fuel w = w := by
  cases fuel with
  | zero => rfl
  | succ fuel => rw [withholdRounds, h, if_pos rfl]

theorem withholdRounds_add (m n : Nat) (w : List DeclId) :
    withholdRounds exports (m + n) w = withholdRounds exports n (withholdRounds exports m w) := by
  induction m generalizing w with
  | zero => rw [Nat.zero_add, withholdRounds]
  | succ m ih =>
    rw [Nat.add_right_comm, withholdRounds, withholdRounds]
    split_ifs with hsame
    · refine (withholdRounds_of_stable ?_ n).symm
      exact withholdRound_of_closed fun e he => isBroken_of_withholdRound hsame he
    · exact ih _

/-- **The rounds come to an end by themselves**: more of them than are allowed change nothing. -/
theorem withholdRounds_enough (extra : Nat) :
    withholdRounds exports (exports.length + 1 + extra) [] = withheld exports := by
  rw [withholdRounds_add]
  exact withholdRounds_of_stable (withholdRound_withheld exports) extra

/-! ## Reaching errors -/

/-- A signature mentions a record that is exported. -/
def Export.Uses (exports : List Export) (e r : Export) : Prop :=
  r ∈ exports ∧ (∃ fields, r.signature = .record fields) ∧ e.signature.Mentions r.decl

/-- There is no error in a signature, nor in the fields of an exported record reached from it. -/
def Export.Whole (exports : List Export) (e : Export) : Prop :=
  ∀ r, Relation.ReflTransGen (Export.Uses exports) e r →
    ∀ ty ∈ r.signature.types, ty.containsError = false

theorem mem_withheld_of_reaches (he : e ∈ exports)
    (h : Relation.ReflTransGen (Export.Uses exports) e r)
    (herror : ∃ ty ∈ r.signature.types, ty.containsError = true) : e.decl ∈ withheld exports := by
  induction h using Relation.ReflTransGen.head_induction_on with
  | refl => exact mem_withheld_of_isBroken he (Export.isBroken_iff.mpr (.inl herror))
  | head huses _ ih =>
    exact mem_withheld_of_isBroken he (Export.isBroken_iff.mpr (.inr ⟨_, ih huses.1, huses.2.2⟩))

/-- **What is withheld is what reaches an error**, given that what is mentioned are records. -/
theorem mem_withheld_iff (hrecords : ∀ e ∈ exports, ∀ r ∈ exports, e.signature.Mentions r.decl →
      ∃ fields, r.signature = .record fields) :
    d ∈ withheld exports ↔ ∃ e ∈ exports, e.decl = d ∧ ¬ e.Whole exports := by
  have hwhole {e : Export} : ¬ e.Whole exports ↔ ∃ r,
      Relation.ReflTransGen (Export.Uses exports) e r ∧
        ∃ ty ∈ r.signature.types, ty.containsError = true := by
    simp [Export.Whole]
  constructor
  · refine withheld_induction (P := fun d => ∃ e ∈ exports, e.decl = d ∧ ¬ e.Whole exports)
      fun e he w hw hbroken => ⟨e, he, rfl, hwhole.mpr ?_⟩
    obtain herror | ⟨d, hd, hmentions⟩ := Export.isBroken_iff.mp hbroken
    · exact ⟨e, .refl, herror⟩
    · obtain ⟨r, hr, rfl, hreaches⟩ := hw d hd
      obtain ⟨x, hx, herror⟩ := hwhole.mp hreaches
      exact ⟨x, .head ⟨hr, hrecords e he r hr hmentions, hmentions⟩ hx, herror⟩
  · rintro ⟨e, he, rfl, hreaches⟩
    obtain ⟨r, hr, herror⟩ := hwhole.mp hreaches
    exact mem_withheld_of_reaches he hr herror

/-! ## Owners -/

theorem find?_of_nodup_map {α : Type} {name : α → String} {xs : List α} (h : (xs.map name).Nodup)
    {x : α} (hx : x ∈ xs) : xs.find? (name · == name x) = some x := by
  obtain ⟨y, hy⟩ : ∃ y, xs.find? (name · == name x) = some y :=
    Option.isSome_iff_exists.mp (find?_isSome.mpr ⟨x, hx, beq_self_eq_true _⟩)
  rw [hy, inj_on_of_nodup_map h (mem_of_find?_eq_some hy) hx (by simpa using find?_some hy)]

namespace Published

variable {units : List SourceUnit} {p q : Published}

theorem Names.find?_add {names : Names} {seen : List Published}
    (h : ∀ name, names.owned.find? (·.name == name) = seen.find? (·.name == name)) (p : Published)
    (name : String) :
    (names.add p).owned.find? (·.name == name) = (seen ++ [p]).find? (·.name == name) := by
  unfold Names.add
  rw [find?_append, ← h name]
  cases hfind : names.owned.find? (·.name == p.name) with
  | none => exact find?_append
  | some existing =>
    have hsame : names.owned.find? (·.name == name) =
        (names.owned.find? (·.name == name)).or ([p].find? (·.name == name)) := by
      by_cases hname : p.name = name
      · rw [← hname, hfind, Option.some_or]
      · rw [find?_singleton, if_neg (by simpa using hname), Option.or_none]
    by_cases hunit : existing.publisher.unit = p.publisher.unit
    · simpa only [if_pos hunit] using hsame
    · simpa only [if_neg hunit] using hsame

theorem find?_owned (units : List SourceUnit) (name : String) :
    (owned units).find? (·.name == name) =
      (all (Publisher.ofUnits units)).find? (·.name == name) := by
  have hfold (names : Names) (seen ps : List Published)
      (h : ∀ name, names.owned.find? (·.name == name) = seen.find? (·.name == name)) :
      (ps.foldl Names.add names).owned.find? (·.name == name) =
        (seen ++ ps).find? (·.name == name) := by
    induction ps generalizing names seen with
    | nil => rw [append_nil]; exact h name
    | cons p ps ih =>
      rw [foldl_cons, show seen ++ p :: ps = seen ++ [p] ++ ps by simp]
      exact ih _ _ (Names.find?_add h p)
  exact hfold ⟨[], []⟩ [] _ fun _ => rfl

theorem mem_owned_iff : p ∈ owned units ↔
    (all (Publisher.ofUnits units)).find? (·.name == p.name) = some p := by
  rw [← find?_owned]
  exact ⟨find?_of_nodup_map (owned_names_nodup units), mem_of_find?_eq_some⟩

theorem owner_unique_of_id (hp : p ∈ owned units) (hq : q ∈ owned units) (h : p.id = q.id) :
    p = q := by
  have hname {p : Published} (hp : p ∈ owned units) : (∃ f, p.decl.item = .function f ∧
      p.decl.name = f.head.name) ∨ ∃ r, p.decl.item = .record r ∧ p.decl.name = r.name := by
    obtain ⟨unit, _, hpublisher⟩ := Publisher.mem_ofUnits.mp (of_mem_owned hp).1
    have hmem := (of_mem_owned hp).2
    rw [hpublisher] at hmem
    obtain ⟨_, _, _, hname⟩ := mem_topDecls hmem
    exact hname
  obtain ⟨unit, hunit, hitem⟩ := item_of_owned hp
  obtain ⟨unit', hunit', hitem'⟩ := item_of_owned hq
  rw [← h] at hunit' hitem'
  cases hunit.symm.trans hunit'
  have hsame := Option.some.inj (hitem.symm.trans hitem')
  refine owner_unique hp hq ?_
  rw [name, name]
  rcases hname hp with ⟨f, hf, hn⟩ | ⟨r, hr, hn⟩ <;>
    rcases hname hq with ⟨g, hg, hn'⟩ | ⟨t, ht, hn'⟩ <;> simp_all

end Published

/-! ## The table -/

namespace ExportTable

variable {units : List SourceUnit}

theorem record_of_mentions_entry (he : e ∈ entries units) (hr : r ∈ entries units)
    (h : e.signature.Mentions r.decl) : ∃ fields, r.signature = .record fields := by
  obtain ⟨p, hp, rfl⟩ := mem_map.mp he
  obtain ⟨q, hq, rfl⟩ := mem_map.mp hr
  obtain ⟨unit, record, hunit, hrecord, -⟩ := Published.mentions_cases hp h
  obtain ⟨unit', hunit', hitem⟩ := Published.item_of_owned hq
  cases hunit.symm.trans hunit'
  have hsame : q.decl.item = .record record := Option.some.inj (hitem.symm.trans hrecord)
  simp only [Published.entry, Published.signature, hsame]
  exact ⟨_, rfl⟩

/-- **Exactly what reaches an error is withheld.** Of the declarations of a name the first one is
exported, if there is no error in its signature or in the fields of a record export that can be
reached from it; nothing else is exported. To find out takes finitely many rounds, and the order of
the exports makes no difference. A name is found in the table if it is exported, and it is exported
once. -/
theorem publish_exact (units : List SourceUnit) :
    (∀ e, e ∈ (publish units).exports ↔
      ∃ p, (Published.all (Publisher.ofUnits units)).find? (·.name == p.name) = some p ∧
        e = p.entry (Published.owned units) ∧ e.Whole (entries units)) ∧
    (∀ extra, withholdRounds (entries units) ((entries units).length + 1 + extra) [] =
      withheld (entries units)) ∧
    (∀ exports : List Export, exports.Perm (entries units) →
      (exports.filter (!(withheld exports).contains ·.decl)).Perm (publish units).exports) ∧
    (∀ name e, (publish units).get? name = some e ↔ e ∈ (publish units).exports ∧ e.name = name) ∧
    ((publish units).exports.map Export.name).Nodup := by
  refine ⟨fun e => ?_, withholdRounds_enough, fun exports hperm => ?_, fun name e => ?_,
    exports_names_nodup units⟩
  · simp only [mem_publish, ← Published.mem_owned_iff]
    constructor
    · rintro ⟨⟨p, hp, rfl⟩, hkept⟩
      refine ⟨p, hp, rfl, ?_⟩
      by_contra hwhole
      exact hkept ((mem_withheld_iff fun _ he _ hr => record_of_mentions_entry he hr).mpr
        ⟨_, List.mem_map_of_mem hp, rfl, hwhole⟩)
    · rintro ⟨p, hp, rfl, hwhole⟩
      refine ⟨⟨p, hp, rfl⟩, fun hwithheld => ?_⟩
      obtain ⟨_, he, hdecl, hbroken⟩ :=
        (mem_withheld_iff fun _ he _ hr => record_of_mentions_entry he hr).mp hwithheld
      obtain ⟨q, hq, rfl⟩ := List.mem_map.mp he
      cases Published.owner_unique_of_id hq hp hdecl
      exact hbroken hwhole
  · have hsame : (fun e : Export => !(withheld exports).contains e.decl) =
        fun e => !(withheld (entries units)).contains e.decl := by
      funext e
      rw [Bool.eq_iff_iff]
      simp only [Bool.not_eq_true', List.contains_eq_mem, decide_eq_false_iff_not]
      exact not_congr ⟨(withheld_subset hperm.subset ·), (withheld_subset hperm.symm.subset ·)⟩
    rw [hsame]
    exact hperm.filter _
  · constructor
    · intro h
      exact ⟨List.mem_of_find?_eq_some h, by simpa using List.find?_some h⟩
    · rintro ⟨he, rfl⟩
      exact find?_of_nodup_map (exports_names_nodup units) he

end ExportTable

/-- A record with one field that holds another record. -/
def linkRecord (name linked : String) : Item :=
  .record ⟨⟨name, .nowhere⟩, [⟨⟨"link", .nowhere⟩, .named ⟨linked, .nowhere⟩, .nowhere⟩], .nowhere,
    none⟩

/-- Two units with records in a ring, and records that lead to a type that nothing declares. -/
def ringUnits : List SourceUnit :=
  [⟨"a", [linkRecord "A" "B", linkRecord "B" "A", linkRecord "C" "D"], .nowhere⟩,
    ⟨"b", [linkRecord "B" "C", linkRecord "D" "Missing", linkRecord "E" "C"], .nowhere⟩]

/-- Only the records in the ring are exported, also if the exports are looked at backwards. -/
theorem ringUnits_exact :
    (ExportTable.publish ringUnits).exports.map Export.name = ["A", "B"] ∧
    (∀ e ∈ (ExportTable.publish ringUnits).exports, e.Whole (ExportTable.entries ringUnits)) ∧
    ((ExportTable.entries ringUnits).reverse.filter
      (!(withheld (ExportTable.entries ringUnits).reverse).contains ·.decl)).Perm
        (ExportTable.publish ringUnits).exports := by
  obtain ⟨hkept, -, horder, -⟩ := ExportTable.publish_exact ringUnits
  refine ⟨by decide +kernel, fun e he => ?_, horder _ (List.reverse_perm _)⟩
  obtain ⟨p, -, -, hwhole⟩ := (hkept e).mp he
  exact hwhole

end StackCompiler

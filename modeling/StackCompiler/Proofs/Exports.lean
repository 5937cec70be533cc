import Mathlib.Data.List.Nodup
import Mathlib.Data.List.Perm.Subperm
import StackCompiler.Export

/-!
# What is exported

The table of exports belongs to all units: a name has one owner, and what is withheld takes along
all that mentions it. A record that is mentioned and not exported can therefore only be one of the
publishing unit itself, which another declaration has taken the name of.

* **`ExportTable.hasRecord_or_hidden`**: what a published signature mentions.
-/

namespace StackCompiler

open List Published

variable {d : DeclId} {e : Export} {units : List SourceUnit} {p : Published} {ty : Ty} {index : Nat}
  {items : List Item} {r : RecordDecl}

/-! ## Withholding -/

section Withholding

variable {exports : List Export} {w : List DeclId}

theorem withholdRound_eq (exports : List Export) (w : List DeclId) :
    ∃ new, withholdRound exports w = new ++ w ∧ (w.Nodup → (new ++ w).Nodup) ∧
      ∀ d ∈ new, ∃ e ∈ exports, e.decl = d := by
  induction exports generalizing w with
  | nil => exact ⟨[], rfl, fun h => h, nofun⟩
  | cons e exports ih =>
    have hskip : withholdRound exports w = withholdRound (e :: exports) w →
        ∃ new, withholdRound (e :: exports) w = new ++ w ∧ (w.Nodup → (new ++ w).Nodup) ∧
          ∀ d ∈ new, ∃ e' ∈ e :: exports, e'.decl = d := by
      intro heq
      obtain ⟨new, hnew, hnodup, hmem⟩ := ih w
      refine ⟨new, heq ▸ hnew, hnodup, fun d hd => ?_⟩
      obtain ⟨e', he', hdecl⟩ := hmem d hd
      exact ⟨e', mem_cons_of_mem _ he', hdecl⟩
    by_cases hknown : w.contains e.decl = true
    · exact hskip (by simp only [withholdRound, foldl_cons, if_pos hknown])
    by_cases hbroken : e.isBroken w = true
    · obtain ⟨new, hnew, hnodup, hmem⟩ := ih (e.decl :: w)
      refine ⟨new ++ [e.decl], ?_, fun hw => ?_, fun d hd => ?_⟩
      · rw [append_assoc, singleton_append, ← hnew]
        simp only [withholdRound, foldl_cons, if_neg hknown, if_pos hbroken]
      · rw [append_assoc, singleton_append]
        exact hnodup (nodup_cons.mpr ⟨by simpa using hknown, hw⟩)
      · rcases mem_append.mp hd with hd | hd
        · obtain ⟨e', he', hdecl⟩ := hmem d hd
          exact ⟨e', mem_cons_of_mem _ he', hdecl⟩
        · exact ⟨e, mem_cons_self, (mem_singleton.mp hd).symm⟩
    · exact hskip (by simp only [withholdRound, foldl_cons, if_neg hknown, if_neg hbroken])

theorem length_le_withholdRound (exports : List Export) (w : List DeclId) :
    w.length ≤ (withholdRound exports w).length := by
  obtain ⟨new, hnew, _⟩ := withholdRound_eq exports w
  rw [hnew, length_append]
  exact Nat.le_add_left _ _

theorem isBroken_of_withholdRound (h : (withholdRound exports w).length = w.length)
    (he : e ∈ exports) (hkept : e.decl ∉ w) : e.isBroken w = false := by
  induction exports with
  | nil => cases he
  | cons first exports ih =>
    by_cases hknown : w.contains first.decl = true
    · simp only [withholdRound, foldl_cons, if_pos hknown] at h
      rcases mem_cons.mp he with rfl | he
      · exact absurd (by simpa using hknown) hkept
      · exact ih h he
    by_cases hbroken : first.isBroken w = true
    · -- a withheld export would have made the list longer
      simp only [withholdRound, foldl_cons, if_neg hknown, if_pos hbroken] at h
      have hle := length_le_withholdRound exports (first.decl :: w)
      rw [withholdRound, h, length_cons] at hle
      exact absurd hle (Nat.not_succ_le_self _)
    · simp only [withholdRound, foldl_cons, if_neg hknown, if_neg hbroken] at h
      rcases mem_cons.mp he with rfl | he
      · exact Bool.not_eq_true _ ▸ hbroken
      · exact ih h he

theorem withholdRounds_closed {fuel : Nat} (hw : w.Nodup)
    (hmem : ∀ d ∈ w, ∃ e ∈ exports, e.decl = d) (hfuel : exports.length < fuel + w.length)
    (he : e ∈ exports) (hkept : e.decl ∉ withholdRounds exports fuel w) :
    e.isBroken (withholdRounds exports fuel w) = false := by
  induction fuel generalizing w with
  | zero =>
    -- there are no more withheld declarations than exports
    have hsub : w ⊆ exports.map Export.decl := fun d hd => by
      obtain ⟨e, he, rfl⟩ := hmem d hd
      exact mem_map_of_mem he
    have hle := (hw.subperm hsub).length_le
    rw [length_map] at hle
    omega
  | succ fuel ih =>
    rw [withholdRounds] at hkept ⊢
    by_cases hsame : (withholdRound exports w).length = w.length
    · rw [if_pos hsame] at hkept ⊢
      exact isBroken_of_withholdRound hsame he hkept
    · rw [if_neg hsame] at hkept ⊢
      obtain ⟨new, hnew, hnodup, hnewMem⟩ := withholdRound_eq exports w
      have hle := length_le_withholdRound exports w
      refine ih (hnew ▸ hnodup hw) (fun d hd => ?_) (by omega) hkept
      rw [hnew] at hd
      exact (mem_append.mp hd).elim (hnewMem d) (hmem d)

/-- What is not withheld has a signature without errors that mentions nothing withheld. -/
theorem withheld_closed (he : e ∈ exports) (hkept : e.decl ∉ withheld exports) :
    e.isBroken (withheld exports) = false :=
  withholdRounds_closed nodup_nil nofun (by simp) he hkept

end Withholding

/-! ## Owners of names -/

namespace Published

def all (publishers : List Publisher) : List Published :=
  publishers.flatMap fun p => p.decls.map (⟨p, ·⟩)

/-- What is known of the names once some declarations have been looked at. -/
structure Names.Of (names : Names) (seen : List Published) : Prop where
  nodup : (names.owned.map name).Nodup
  mem : ∀ p ∈ names.owned, p ∈ seen

variable {names : Names} {seen : List Published}

theorem Names.Of.add (h : names.Of seen) (p : Published) : (names.add p).Of (seen ++ [p]) := by
  have hold : ∀ q ∈ names.owned, q ∈ seen ++ [p] := fun q hq => mem_append_left _ (h.mem q hq)
  unfold Names.add
  cases hfind : names.owned.find? (·.name == p.name) with
  | none =>
    refine ⟨?_, fun q hq => ?_⟩
    · rw [map_append, nodup_append]
      refine ⟨h.nodup, nodup_singleton _, fun n hn n' hn' heq => ?_⟩
      obtain ⟨q, hq, rfl⟩ := mem_map.mp hn
      rw [map_singleton, mem_singleton] at hn'
      exact find?_eq_none.mp hfind q hq (beq_iff_eq.mpr (heq.trans hn'))
    · rcases mem_append.mp hq with hq | hq
      · exact hold q hq
      · exact mem_append_right _ hq
  | some existing =>
    dsimp only
    split_ifs
    · exact ⟨h.nodup, hold⟩
    · exact ⟨h.nodup, hold⟩

theorem Names.Of.foldl (h : names.Of seen) (ps : List Published) :
    (ps.foldl Names.add names).Of (seen ++ ps) := by
  induction ps generalizing names seen with
  | nil => exact (append_nil seen).symm ▸ h
  | cons p ps ih =>
    rw [foldl_cons, show seen ++ p :: ps = seen ++ [p] ++ ps by simp]
    exact ih (h.add p)

theorem collect_of (publishers : List Publisher) : (collect publishers).Of (all publishers) := by
  have hstart : (⟨[], []⟩ : Names).Of [] := ⟨nodup_nil, nofun⟩
  exact hstart.foldl (all publishers)

end Published

def Publisher.ofUnits (units : List SourceUnit) : List Publisher :=
  units.mapIdx fun number unit => Publisher.of unit number

theorem Publisher.mem_ofUnits {p : Publisher} :
    p ∈ ofUnits units ↔ ∃ unit, units[p.unit]? = some unit ∧ p = Publisher.of unit p.unit := by
  rw [ofUnits, mem_mapIdx]
  constructor
  · rintro ⟨i, hi, rfl⟩
    exact ⟨units[i], List.getElem?_eq_getElem hi, rfl⟩
  · rintro ⟨unit, hunit, hp⟩
    obtain ⟨hlt, rfl⟩ := List.getElem?_eq_some_iff.mp hunit
    exact ⟨p.unit, hlt, hp.symm⟩

namespace Published

def owned (units : List SourceUnit) : List Published := (collect (Publisher.ofUnits units)).owned

variable {units : List SourceUnit}

theorem owned_names_nodup (units : List SourceUnit) : ((owned units).map name).Nodup :=
  (collect_of _).nodup

theorem of_mem_owned (h : p ∈ owned units) :
    p.publisher ∈ Publisher.ofUnits units ∧ p.decl ∈ p.publisher.decls := by
  obtain ⟨publisher, hpublisher, hp⟩ := mem_flatMap.mp ((collect_of _).mem p h)
  obtain ⟨decl, hdecl, rfl⟩ := mem_map.mp hp
  exact ⟨hpublisher, hdecl⟩

theorem owner_unique {q : Published} (hp : p ∈ owned units) (hq : q ∈ owned units)
    (hname : p.name = q.name) : p = q :=
  inj_on_of_nodup_map (owned_names_nodup units) hp hq hname

end Published

/-! ## Declarations of a unit -/

/-- A declaration stands at its position among the items, under its own name. -/
theorem mem_topDecls {taken : List String} {d : TopDecl} (h : d ∈ topDecls taken index items) :
    ∃ offset, d.index = index + offset ∧
      items[offset]? = some d.item ∧ ((∃ f, d.item = .function f ∧ d.name = f.head.name) ∨
          ∃ r, d.item = .record r ∧ d.name = r.name) := by
  induction items generalizing taken index with
  | nil => cases h
  | cons item items ih =>
    have hlater {taken : List String} (h : d ∈ topDecls taken (index + 1) items) :
        ∃ offset, d.index = index + offset ∧ (item :: items)[offset]? = some d.item ∧
          ((∃ f, d.item = .function f ∧ d.name = f.head.name) ∨
            ∃ r, d.item = .record r ∧ d.name = r.name) := by
      obtain ⟨offset, hindex, hitem, hname⟩ := ih h
      exact ⟨offset + 1, by omega, hitem, hname⟩
    cases item with
    | function f =>
      rcases mem_cons.mp h with rfl | h
      · exact ⟨0, rfl, rfl, .inl ⟨f, rfl, rfl⟩⟩
      · exact hlater h
    | record r =>
      rcases mem_cons.mp h with rfl | h
      · exact ⟨0, rfl, rfl, .inr ⟨r, rfl, rfl⟩⟩
      · exact hlater h
    | stmt stmt => exact hlater h

theorem exists_topDecl (taken : List String) (index : Nat) {offset : Nat} {item : Item}
    (h : items[offset]? = some item) (hdecl : ∀ stmt, item ≠ .stmt stmt) :
    ∃ d ∈ topDecls taken index items, d.index = index + offset ∧ d.item = item := by
  induction items generalizing taken index offset with
  | nil => cases h
  | cons first items ih =>
    cases offset with
    | zero =>
      cases h
      cases item with
      | stmt stmt => exact absurd rfl (hdecl stmt)
      | _ => exact ⟨_, mem_cons_self, rfl, rfl⟩
    | succ offset =>
      have hlater (taken : List String) : ∃ d ∈ topDecls taken (index + 1) items,
          d.index = index + (offset + 1) ∧ d.item = item := by
        obtain ⟨d, hd, hindex, hitem⟩ := ih taken (index + 1) h
        exact ⟨d, hd, by omega, hitem⟩
      cases first with
      | function f =>
        obtain ⟨d, hd, hrest⟩ := hlater (uniqueMethod taken f.head.name.name :: taken)
        exact ⟨d, mem_cons_of_mem _ hd, hrest⟩
      | record r' =>
        obtain ⟨d, hd, hrest⟩ := hlater taken
        exact ⟨d, mem_cons_of_mem _ hd, hrest⟩
      | stmt stmt => exact hlater taken

def SourceUnit.recordAt? (unit : SourceUnit) (index : Nat) : Option RecordDecl :=
  match unit.items[index]? with
  | some (.record r) => some r
  | _ => none

theorem SourceUnit.recordAt?_eq {unit : SourceUnit} :
    unit.recordAt? index = some r ↔ unit.items[index]? = some (.record r) := by
  unfold recordAt?
  split <;> simp_all

theorem Publisher.item_of_mem {p : Publisher} (hp : p ∈ ofUnits units) {d : TopDecl}
    (hd : d ∈ p.decls) :
    ∃ unit, units[p.unit]? = some unit ∧ unit.items[d.index]? = some d.item := by
  obtain ⟨unit, hunit, hpublisher⟩ := mem_ofUnits.mp hp
  rw [hpublisher] at hd
  obtain ⟨offset, hindex, hoffset, _⟩ := mem_topDecls hd
  rw [Nat.zero_add] at hindex
  exact ⟨unit, hunit, hindex ▸ hoffset⟩

theorem Published.item_of_owned (hp : p ∈ owned units) :
    ∃ unit, units[p.id.unit]? = some unit ∧ unit.items[p.id.index]? = some p.decl.item :=
  Publisher.item_of_mem (of_mem_owned hp).1 (of_mem_owned hp).2

theorem Published.kind_of_owned (hp : p ∈ owned units) :
    (∃ f, p.decl.item = .function f) ∨ ∃ r, p.decl.item = .record r := by
  obtain ⟨unit, _, hpublisher⟩ := Publisher.mem_ofUnits.mp (of_mem_owned hp).1
  have hmem := (of_mem_owned hp).2
  rw [hpublisher] at hmem
  obtain ⟨_, _, _, ⟨f, hf, _⟩ | ⟨r, hr, _⟩⟩ := mem_topDecls hmem
  · exact .inl ⟨f, hf⟩
  · exact .inr ⟨r, hr⟩

theorem Publisher.ownRecord?_eq_some {p : Publisher} {name : String}
    (h : p.ownRecord? name = some d) : ∃ decl ∈ p.decls, d = ⟨p.unit, decl.index⟩ ∧
      ∃ r, decl.item = .record r ∧ decl.name.name = name := by
  obtain ⟨decl, hfind, rfl⟩ := Option.map_eq_some_iff.mp h
  refine ⟨decl, mem_of_find?_eq_some hfind, rfl, ?_⟩
  have hrecord := find?_some hfind
  cases hitem : decl.item with
  | record r =>
    rw [hitem] at hrecord
    exact ⟨r, rfl, by simpa using hrecord⟩
  | function _ | stmt _ =>
    rw [hitem] at hrecord
    cases hrecord

theorem publishedRecord?_eq_some {name : String}
    (h : publishedRecord? (owned units) name = some d) :
    ∃ p ∈ owned units, p.name = name ∧ p.id = d ∧ ∃ r, p.decl.item = .record r := by
  unfold publishedRecord? at h
  split at h
  · rename_i p hfind
    split at h
    · rename_i r hitem
      cases h
      exact ⟨p, mem_of_find?_eq_some hfind, by simpa using find?_some hfind, rfl, r, hitem⟩
    · cases h
  · cases h

/-! ## What signatures mention -/

def Ty.record? : Ty → Option DeclId
  | .record decl _ => some decl
  | .array elem => elem.record?
  | _ => none

theorem Ty.mentions_iff {decls : List DeclId} :
    ty.mentions decls = true ↔ ∃ d ∈ decls, ty.record? = some d := by
  fun_induction mentions decls ty with
  | case1 decl name => simp [record?]
  | case2 elem ih => exact ih
  | case3 ty hrecord harray =>
    cases ty with
    | record decl name => exact absurd rfl (hrecord decl name)
    | array elem => exact absurd rfl (harray elem)
    | _ => simp [record?]

/-- The record that a written type mentions is known under some name. -/
theorem TypeExpr.record?_resolveIn {known : String → Option DeclId} {t : TypeExpr}
    (h : (t.resolveIn known).record? = some d) : ∃ name, known name = some d := by
  induction t with
  | array elem span ih => exact ih h
  | named ident =>
    rw [resolveIn] at h
    split at h
    · rename_i ty hty
      exact absurd h (by unfold Ty.primitive? at hty; split at hty <;> cases hty <;> nofun)
    · split at h
      · rename_i decl hdecl
        cases h
        exact ⟨_, hdecl⟩
      · cases h

def Signature.Mentions (signature : Signature) (d : DeclId) : Prop :=
  ∃ ty ∈ signature.types, ty.record? = some d

/-- The records that a published declaration can name, those of the unit itself first. -/
def Published.known (owned : List Published) (p : Published) (name : String) : Option DeclId :=
  p.publisher.ownRecord? name <|> publishedRecord? owned name

/-- The types of a published signature are written there, except for an absent result. -/
theorem Published.mem_signature_types {owned : List Published}
    (h : ty ∈ (p.signature owned).types) :
    ty = .void ∨ ∃ t : TypeExpr, ty = t.resolveIn (p.known owned) := by
  unfold signature at h
  cases hitem : p.decl.item with
  | function f =>
    simp only [hitem] at h
    rcases mem_append.mp h with h | h
    · obtain ⟨param, _, rfl⟩ := mem_map.mp h
      exact .inr ⟨_, rfl⟩
    · rw [mem_singleton] at h
      cases hret : f.head.ret with
      | none => exact .inl (by rw [h, hret]; rfl)
      | some ret => exact .inr ⟨ret, by rw [h, hret]; rfl⟩
  | record r =>
    simp only [hitem, Signature.types, map_map] at h
    obtain ⟨field, _, rfl⟩ := mem_map.mp h
    exact .inr ⟨_, rfl⟩
  | stmt stmt =>
    simp only [hitem] at h
    cases h

/-- A published signature mentions a record of its unit, or one that owns its name. -/
theorem Published.mentions_cases (hp : p ∈ owned units)
    (h : (p.signature (owned units)).Mentions d) :
    ∃ unit r, units[d.unit]? = some unit ∧ unit.items[d.index]? = some (.record r) ∧
      (d.unit = p.publisher.unit ∨ ∃ q ∈ owned units, q.id = d) := by
  obtain ⟨ty, hty, hd⟩ := h
  obtain rfl | ⟨t, rfl⟩ := mem_signature_types hty
  · cases hd
  obtain ⟨name, hknown⟩ := TypeExpr.record?_resolveIn hd
  rw [known, Option.orElse_eq_orElse, Option.orElse_eq_or, Option.or_eq_some_iff] at hknown
  rcases hknown with hown | ⟨_, hpublished⟩
  · obtain ⟨decl, hdecl, rfl, r, hitem, _⟩ := Publisher.ownRecord?_eq_some hown
    obtain ⟨unit, hunit, hat⟩ := Publisher.item_of_mem (of_mem_owned hp).1 hdecl
    exact ⟨unit, r, hunit, hitem ▸ hat, .inl rfl⟩
  · obtain ⟨q, hq, _, rfl, r, hitem⟩ := publishedRecord?_eq_some hpublished
    obtain ⟨unit, hunit, hat⟩ := item_of_owned hq
    exact ⟨unit, r, hunit, hitem ▸ hat, .inr ⟨q, hq, rfl⟩⟩

/-! ## The table -/

namespace ExportTable

variable {units : List SourceUnit}

def HasRecord (t : ExportTable) (d : DeclId) : Prop :=
  ∃ e ∈ t.exports, e.decl = d ∧ ∃ fields, e.signature = .record fields

/-- Every record that an export mentions is exported. -/
def Closed (t : ExportTable) : Prop :=
  ∀ e ∈ t.exports, ∀ d, e.signature.Mentions d → t.HasRecord d

/-- The entries of the owners of names, before some of them are withheld. -/
def entries (units : List SourceUnit) : List Export :=
  (owned units).map (·.entry (owned units))

theorem exports_names_nodup (units : List SourceUnit) :
    ((publish units).exports.map Export.name).Nodup := by
  have hentries : ((entries units).map Export.name).Nodup := by
    rw [entries, map_map]
    exact owned_names_nodup units
  exact hentries.sublist (filter_sublist.map _)

theorem mem_publish : e ∈ (publish units).exports ↔ (∃ p ∈ owned units, e = p.entry (owned units)) ∧
      e.decl ∉ withheld (entries units) := by
  show e ∈ (entries units).filter _ ↔ _
  rw [mem_filter, entries, mem_map, Bool.not_eq_true', contains_eq_mem, decide_eq_false_iff_not]
  exact and_congr_left fun _ => exists_congr fun p => and_congr_right fun _ => eq_comm

/-- A published signature has no errors, and what it mentions is not withheld. -/
theorem whole_of_mem_publish (he : e ∈ (publish units).exports) (hty : ty ∈ e.signature.types) :
    ty.containsError = false ∧ ∀ d, ty.record? = some d → d ∉ withheld (entries units) := by
  obtain ⟨⟨p, hp, rfl⟩, hkept⟩ := mem_publish.mp he
  have hwhole := withheld_closed (mem_map_of_mem hp) hkept
  have hboth := any_eq_false.mp hwhole ty hty
  rw [Bool.or_eq_true, not_or, Bool.not_eq_true] at hboth
  exact ⟨hboth.1, fun d hd hmem => hboth.2 (Ty.mentions_iff.mpr ⟨d, hmem, hd⟩)⟩

theorem unit_of_mem_publish (he : e ∈ (publish units).exports) : e.decl.unit = e.unit := by
  obtain ⟨⟨p, _, rfl⟩, _⟩ := mem_publish.mp he
  rfl

theorem hasRecord_of_owned (hp : p ∈ owned units) (hitem : p.decl.item = .record r)
    (hkept : p.id ∉ withheld (entries units)) :
    (publish units).HasRecord p.id := by
  refine ⟨p.entry (owned units), mem_publish.mpr ⟨⟨p, hp, rfl⟩, hkept⟩, rfl, ?_⟩
  simp only [entry, signature, hitem]
  exact ⟨_, rfl⟩

/-- **A record that a published signature mentions is exported**, unless it is of that unit and does
not own its name. -/
theorem hasRecord_or_hidden (he : e ∈ (publish units).exports) (hd : e.signature.Mentions d) :
    (publish units).HasRecord d ∨ d.unit = e.unit ∧
      (∃ unit, units[d.unit]? = some unit ∧ (unit.recordAt? d.index).isSome) ∧
        ∀ p ∈ owned units, p.id ≠ d := by
  obtain ⟨ty, hty, htyd⟩ := hd
  have hkept := (whole_of_mem_publish he hty).2 d htyd
  obtain ⟨⟨p, hp, rfl⟩, _⟩ := mem_publish.mp he
  obtain ⟨unit, r, hunit, hat, hwhere⟩ := mentions_cases hp ⟨ty, hty, htyd⟩
  by_cases howned : ∃ q ∈ owned units, q.id = d
  · obtain ⟨q, hq, rfl⟩ := howned
    obtain ⟨unit', hunit', hat'⟩ := item_of_owned hq
    cases hunit.symm.trans hunit'
    exact .inl (hasRecord_of_owned hq (Option.some.inj (hat'.symm.trans hat)) hkept)
  · refine .inr ⟨hwhere.resolve_right howned, ⟨unit, hunit, ?_⟩, fun q hq hid =>
      howned ⟨q, hq, hid⟩⟩
    rw [SourceUnit.recordAt?_eq.mpr hat]
    rfl

end ExportTable

end StackCompiler

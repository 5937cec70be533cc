import StackCompiler.Proofs.Agreement

/-!
# Records that imports lead to

A unit knows the records that it imports and those that it declares. If all records that exports
mention are exported, then it knows every record that a value of an imported type can lead to.

* **`ExportTable.publish_mentions`**: what exports mention, and what importing units know of it.
-/

namespace StackCompiler

open List ExportTable

variable {d : DeclId} {info : RecordInfo} {ty : Ty} {record? : String → Option DeclId}
  {known : DeclId → Prop}

/-- The records in a type are known, and there are no functions in it. -/
def Ty.Known (known : DeclId → Prop) : Ty → Prop
  | .array elem => elem.Known known
  | .record decl _ => known decl
  | .function .. => False
  | _ => True

theorem Ty.Known.mono {known' : DeclId → Prop} (hmono : ∀ d, known d → known' d)
    (h : ty.Known known) : ty.Known known' := by
  fun_induction Ty.Known known ty with
  | case1 elem ih => exact ih h
  | case2 decl name => exact hmono decl h
  | case3 => exact h
  | case4 ty harray hrecord hfunction =>
    cases ty with
    | array elem => exact absurd rfl (harray elem)
    | record decl name => exact absurd rfl (hrecord decl name)
    | function d ps r => exact absurd rfl (hfunction d ps r)
    | _ => trivial

theorem Ty.Known.ofTy? {a : Analysis} (h : ty.Known fun d => (a.record? d).isSome)
    (herror : ty.containsError = false) : (JvmType.ofTy? a.recordClass? ty).isSome := by
  fun_induction JvmType.ofTy? a.recordClass? ty with
  | case8 elem ih =>
    rw [Option.isSome_map]
    exact ih h herror
  | case9 decl name =>
    rw [Option.isSome_map, Analysis.recordClass?, Option.isSome_map]
    exact h
  | case10 => exact h.elim
  | case11 => cases herror
  | _ => rfl

/-- In a written type no other records are to be known than the one that it mentions. -/
theorem TypeExpr.known_record? (record? : String → Option DeclId) (t : TypeExpr) :
    (t.resolveIn record?).Known fun d =>
      (t.resolveIn record?).record? = some d ∧ ∃ name, record? name = some d := by
  induction t with
  | array elem span ih => exact ih
  | named ident =>
    rw [resolveIn]
    split
    · rename_i ty hty
      unfold Ty.primitive? at hty
      split at hty <;> cases hty <;> trivial
    · split
      · exact ⟨rfl, _, ‹_›⟩
      · trivial

theorem Ty.Known.stored (h : ty.Known known) : ty.stored.Known known := by
  unfold Ty.stored
  split_ifs
  · trivial
  · exact h

theorem TypeExpr.known_meaning (h : ∀ name d, record? name = some d → known d) (t : TypeExpr) :
    (t.meaning record?).Known known := by
  induction t with
  | array elem span ih => exact Ty.Known.stored ih
  | named ident =>
    refine (known_record? record? _).mono fun d hd => ?_
    obtain ⟨-, name, hname⟩ := hd
    exact h name d hname

/-- The types that can be reached through the elements of arrays and the fields of records. -/
inductive Analysis.Leads (a : Analysis) (ty : Ty) : Ty → Prop where
  | refl : Leads a ty ty
  | elem {t : Ty} : Leads a ty (.array t) → Leads a ty t
  | field {d : DeclId} {name : String} {info : RecordInfo} {field : String × Ty} :
    Leads a ty (.record d name) → a.record? d = some info → field ∈ info.fields →
      Leads a ty field.2

/-- If the fields of all records are known, then so is all that a known type leads to. -/
theorem Analysis.Leads.allKnown {a : Analysis}
    (hfields : ∀ info ∈ a.records, ∀ field ∈ info.fields, field.2.Known known) {ty' : Ty}
    (h : a.Leads ty ty') (hty : ty.Known known) : ty'.Known known := by
  induction h with
  | refl => exact hty
  | elem _ ih => exact ih
  | field _ hinfo hfield _ => exact hfields _ (mem_of_find?_eq_some hinfo) _ hfield

/-- The fields that are noted of a record are known if the types are that can be written. -/
theorem withFields_known {typeOf : TypeExpr → Ty}
    (htype : ∀ t, (typeOf t).Known known) {items : List Item}
    (hinfo : ∀ field ∈ info.fields, field.2.Known known) :
    ∀ field ∈ (Item.withFields typeOf items info).fields, field.2.Known known := by
  have hdistinct {fields : List FieldDecl} {before : List (String × Ty)}
      (hbefore : ∀ field ∈ before, field.2.Known known) :
      ∀ field ∈ distinctFields typeOf before fields, field.2.Known known := by
    induction fields generalizing before with
    | nil => exact hbefore
    | cons field fields ih =>
      rw [distinctFields]
      split_ifs
      · exact ih hbefore
      · refine ih fun x hx => ?_
        rcases mem_append.mp hx with hx | hx
        · exact hbefore x hx
        · rw [mem_singleton.mp hx]
          exact htype _
  induction items generalizing info with
  | nil => exact hinfo
  | cons item items ih =>
    cases item with
    | record r =>
      rw [Item.withFields, foldl_cons]
      dsimp only
      split_ifs
      · exact ih (hdistinct fun field hfield => absurd hfield not_mem_nil)
      · exact ih hinfo
    | _ => exact ih hinfo

theorem fields_of_mem_recordInfos {unit index : Nat} {className : String} {items : List Item}
    (h : info ∈ Item.recordInfos unit className index items) : info.fields = [] := by
  induction items generalizing index with
  | nil => cases h
  | cons item items ih =>
    cases item with
    | record r =>
      rcases mem_cons.mp h with rfl | h
      · rfl
      · exact ih h
    | _ => exact ih h

/-! ## Records of a unit and its imports -/

section Importing

variable {units : List SourceUnit} {number : Nat} {unit unit' : SourceUnit} {a : Analysis}

theorem record?_of_import (ha : unit.analyze number (.publish units) = (unit', a)) {e : Export}
    (he : e ∈ (publish units).importsFor number) (hd : e.record? = some d) :
    (a.record? d).isSome := by
  obtain ⟨info, hinfo, rfl⟩ := Option.map_eq_some_iff.mp hd
  have hmem : info ∈ unit.recordInfos number (.publish units) :=
    mem_append_left _ (mem_filterMap.mpr ⟨e, he, hinfo⟩)
  rw [Analysis.record?, (SourceUnit.analyze_notes ha).1, find?_isSome]
  exact ⟨_, mem_map_of_mem hmem, decide_eq_true (withFields_decl _ _ info)⟩

theorem record?_of_name (ha : unit.analyze number (.publish units) = (unit', a)) {name : String}
    (h : (unit.nameLayers number (.publish units) []).record? name = some d) :
    (a.record? d).isSome := by
  unfold SourceUnit.nameLayers NameLayers.record? at h
  rw [append_nil, findSome?_cons, lookup_recordNames_eq] at h
  cases hown : (Publisher.of unit number).ownRecord? name with
  | some d' =>
    rw [hown] at h
    cases h
    obtain ⟨decl, hdecl, rfl, r, hitem, _⟩ := Publisher.ownRecord?_eq_some hown
    obtain ⟨offset, hindex, hoffset, _⟩ := mem_topDecls hdecl
    rw [Nat.zero_add] at hindex
    rw [hitem, ← hindex] at hoffset
    exact Option.isSome_iff_exists.mpr ⟨_, SourceUnit.record?_own ha hoffset⟩
  | none =>
    rw [hown, Option.map_none] at h
    simp only [findSome?_cons] at h
    cases himport : (Export.names ((publish units).importsFor number)).lookup name with
    | some r =>
      rw [himport] at h
      obtain rfl : r = some d := h
      obtain ⟨before, after, hnames, _⟩ := lookup_eq_some_iff.mp himport
      have hmem : (name, some d) ∈ Export.names ((publish units).importsFor number) := by
        rw [hnames]
        simp
      obtain ⟨e, he, heq⟩ := mem_map.mp hmem
      exact record?_of_import ha he (congrArg Prod.snd heq)
    | none =>
      rw [himport] at h
      cases hbuiltin : builtinNames.lookup name with
      | none =>
        rw [hbuiltin] at h
        cases h
      | some r =>
        rw [hbuiltin] at h
        obtain rfl : r = some d := h
        obtain ⟨before, after, hnames, _⟩ := lookup_eq_some_iff.mp hbuiltin
        have hmem : (name, some d) ∈ builtinNames := by
          rw [hnames]
          simp
        obtain ⟨b, _, heq⟩ := mem_map.mp hmem
        cases congrArg Prod.snd heq

section

variable (hunit : units[number]? = some unit)
  (ha : unit.analyze number (.publish units) = (unit', a))
include hunit ha

theorem record?_of_exported (hd : (publish units).HasRecord d) : (a.record? d).isSome := by
  obtain ⟨e, he, rfl, fields, hfields⟩ := hd
  by_cases hother : e.unit = number
  · -- the record is declared by the unit itself
    obtain ⟨⟨p, hp, rfl⟩, _⟩ := mem_publish.mp he
    obtain ⟨unit1, hunit1, hitem⟩ := Published.item_of_owned hp
    have hnumber : p.id.unit = number := hother
    rw [hnumber] at hunit1
    obtain rfl := Option.some.inj (hunit1.symm.trans hunit)
    rcases Published.kind_of_owned hp with ⟨f, hkind⟩ | ⟨r, hkind⟩
    · simp only [Published.entry, Published.signature, hkind] at hfields
      cases hfields
    · rw [hkind] at hitem
      have hown := SourceUnit.record?_own ha hitem
      rw [← hnumber] at hown
      exact Option.isSome_iff_exists.mpr ⟨_, hown⟩
  · refine record?_of_import ha (mem_importsFor.mpr ⟨he, hother⟩) ?_
    simp only [Export.record?, Export.recordInfo?, hfields]
    rfl

/-- The types of an export that mentions only exported records are known in every unit. -/
theorem known_of_export (hclosed : (publish units).Closed) {e : Export}
    (he : e ∈ (publish units).exports) (hty : ty ∈ e.signature.types) :
    ty.Known fun d => (a.record? d).isSome := by
  obtain ⟨⟨p, hp, rfl⟩, _⟩ := mem_publish.mp he
  rcases Published.mem_signature_types hty with rfl | ⟨t, rfl⟩
  · trivial
  · exact (t.known_record? _).mono fun d hd =>
      record?_of_exported hunit ha (hclosed _ he d ⟨_, hty, hd.1⟩)

/-- If every record that exports mention is exported, then the types of all fields are known. -/
theorem known_of_field (hclosed : (publish units).Closed) (hinfo : info ∈ a.records)
    {field : String × Ty} (hfield : field ∈ info.fields) :
    field.2.Known fun d => (a.record? d).isSome := by
  rw [(SourceUnit.analyze_notes ha).1] at hinfo
  obtain ⟨info0, hinfo0, rfl⟩ := mem_map.mp hinfo
  rcases mem_append.mp hinfo0 with himport | hown
  · obtain ⟨e, he, hrecord⟩ := mem_filterMap.mp himport
    obtain ⟨hdecl, hsignature⟩ := Export.decl_of_recordInfo? hrecord
    obtain ⟨hexported, hother⟩ := mem_importsFor.mp he
    rw [withFields_other] at hfield
    · refine known_of_export hunit ha hclosed hexported ?_
      rw [hsignature]
      exact mem_map_of_mem hfield
    · rw [hdecl, unit_of_mem_publish hexported]
      exact .inl hother
  · refine withFields_known (fun t => (TypeExpr.known_meaning ?_ t).stored) ?_ field hfield
    · exact fun name d hd => record?_of_name ha hd
    · rw [fields_of_mem_recordInfos hown]
      exact nofun

end

end Importing

/-! ## Closure -/

namespace ExportTable

/-- **What exports mention.** A record that an export mentions is exported, unless it is a record of
the exporting unit whose name belongs to another declaration. If no such record is mentioned, then
every unit knows all records that a value of an imported type can lead to, and all types on the way
have types that stand for them. -/
theorem publish_mentions (units : List SourceUnit) :
    (∀ e ∈ (publish units).exports, ∀ d, e.signature.Mentions d →
      (publish units).HasRecord d ∨ d.unit = e.unit ∧
        (∃ unit, units[d.unit]? = some unit ∧ (unit.recordAt? d.index).isSome) ∧
        ∀ p ∈ Published.owned units, p.id ≠ d) ∧
    ((publish units).Closed → ∀ (number : Nat) unit unit' a, units[number]? = some unit →
      unit.analyze number (publish units) = (unit', a) →
      ∀ e ∈ (publish units).importsFor number, ∀ ty ∈ e.signature.types, ∀ ty', a.Leads ty ty' →
        (∀ d name, ty' = .record d name → (a.record? d).isSome) ∧
        (ty'.containsError = false → (JvmType.ofTy? a.recordClass? ty').isSome)) := by
  refine ⟨fun e he d hd => hasRecord_or_hidden he hd, ?_⟩
  intro hclosed number unit unit' a hunit ha e he ty hty ty' hleads
  have hknown := hleads.allKnown (fun info hinfo field hfield =>
    known_of_field hunit ha hclosed hinfo hfield)
    (known_of_export hunit ha hclosed (mem_importsFor.mp he).1 hty)
  refine ⟨?_, hknown.ofTy?⟩
  rintro d name rfl
  exact hknown

end ExportTable

def emptyUnit : SourceUnit := ⟨"c", [], .nowhere⟩

/-- The export of a record and that of a function which makes such records. -/
def makerExports : List Export :=
  [⟨"R", 0, "a", ⟨0, 0⟩, .record [("x", .int)], .nowhere⟩,
    ⟨"make", 1, "b", ⟨1, 0⟩, .function "make" [.int] (.record ⟨0, 0⟩ "R"), .nowhere⟩]

theorem makerExports_closed {t : ExportTable} (h : t.exports = makerExports) : t.Closed := by
  cases t
  subst h
  rintro e he d ⟨ty, hty, hd⟩
  -- only the record of the first export is mentioned
  have hmentioned : ∀ e ∈ makerExports, ∀ ty ∈ e.signature.types,
      ty.record? = none ∨ ty.record? = some ⟨0, 0⟩ := by decide +kernel
  rcases hmentioned e he ty hty with hnone | hsome
  · cases hd.symm.trans hnone
  · cases hd.symm.trans hsome
    exact ⟨_, List.mem_cons_self, rfl, _, rfl⟩

theorem makerUnits_mentions :
    (ExportTable.publish (makerUnits ++ [emptyUnit])).Closed ∧
      (ExportTable.publish (makerUnits ++ [emptyUnit])).importsFor 2 = makerExports ∧
      ∀ ty, (emptyUnit.analyze 2 (.publish (makerUnits ++ [emptyUnit]))).2.Leads
          (.record ⟨0, 0⟩ "R") ty →
        (∀ d name, ty = .record d name →
          ((emptyUnit.analyze 2 (.publish (makerUnits ++ [emptyUnit]))).2.record? d).isSome) ∧
        (ty.containsError = false → (JvmType.ofTy? (emptyUnit.analyze 2
          (.publish (makerUnits ++ [emptyUnit]))).2.recordClass? ty).isSome) := by
  have hexports : (ExportTable.publish (makerUnits ++ [emptyUnit])).exports = makerExports := by
    decide +kernel
  have himports : (ExportTable.publish (makerUnits ++ [emptyUnit])).importsFor 2 =
    makerExports := by
    decide +kernel
  obtain ⟨-, hleads⟩ := ExportTable.publish_mentions (makerUnits ++ [emptyUnit])
  have hclosed := makerExports_closed hexports
  refine ⟨hclosed, himports, fun ty => ?_⟩
  let make : Export :=
    ⟨"make", 1, "b", ⟨1, 0⟩, .function "make" [.int] (.record ⟨0, 0⟩ "R"), .nowhere⟩
  have hmake : make ∈ (ExportTable.publish (makerUnits ++ [emptyUnit])).importsFor 2 := by
    rw [himports]
    exact List.mem_cons_of_mem _ List.mem_cons_self
  exact hleads hclosed 2 emptyUnit _ _ rfl Prod.mk.eta.symm make hmake _
    (List.mem_cons_of_mem _ List.mem_cons_self) ty

/-- Two units with a record of one name; the second has a function that makes such records. -/
def twiceDeclared : List SourceUnit :=
  [⟨"a", [.record (numberRecord "R" "x")], .nowhere⟩,
    ⟨"b", [.record (numberRecord "R" "y"), .function (emptyFunction "make" "int" "R")], .nowhere⟩,
    emptyUnit]

/-- The function is exported and its record is not, so that a third unit does not know it. -/
theorem twiceDeclared_not_closed : ¬ (ExportTable.publish twiceDeclared).Closed ∧
    ∃ e ∈ (ExportTable.publish twiceDeclared).importsFor 2, e.signature.Mentions ⟨1, 0⟩ ∧
      (emptyUnit.analyze 2 (.publish twiceDeclared)).2.record? ⟨1, 0⟩ = none := by
  let make : Export :=
    ⟨"make", 1, "b", ⟨1, 1⟩, .function "make" [.int] (.record ⟨1, 0⟩ "R"), .nowhere⟩
  have hmake : make ∈ (ExportTable.publish twiceDeclared).importsFor 2 := by decide +kernel
  have hmentions : make.signature.Mentions ⟨1, 0⟩ :=
    ⟨.record ⟨1, 0⟩ "R", List.mem_cons_of_mem _ List.mem_cons_self, rfl⟩
  refine ⟨fun hclosed => ?_, make, hmake, hmentions, by decide +kernel⟩
  have hnone : ∀ e ∈ (ExportTable.publish twiceDeclared).exports, e.decl ≠ ⟨1, 0⟩ := by
    decide +kernel
  obtain ⟨e, he, hdecl, _⟩ :=
    hclosed make (ExportTable.mem_importsFor.mp hmake).1 ⟨1, 0⟩ hmentions
  exact hnone e he hdecl

end StackCompiler

import StackCompiler.Proofs.UnitNames
import StackCompiler.Proofs.UnitSound

/-!
# Exports and analyses agree

What other units are told of a declaration is found out without any scopes, before units are
analysed. It is what the analysis of the unit itself finds out, as long as void is not written for
values, fields are not repeated and no function hides a record of another unit.

* **`ExportTable.publish_agrees`**: exports have the signatures that analyses give.
-/

namespace StackCompiler

open AnalysisState Published List ExportTable

variable {a : Analysis} {e : Export} {exports : ExportTable} {items : List Item}
  {index number : Nat} {before : List Item} {p : Published} {r : RecordDecl} {info : RecordInfo}
  {unit unit' : SourceUnit} {name : String} {typeOf : TypeExpr → Ty}

/-- What names stand for in a unit once its records are known, and some of its functions. -/
def SourceUnit.nameLayers (unit : SourceUnit) (number : Nat) (exports : ExportTable)
    (functions : List (String × Option DeclId)) : NameLayers :=
  [Item.recordNames number 0 unit.items ++ functions, Export.names (exports.importsFor number),
    builtinNames]

/-- The records of a unit and of its imports, before the fields of its own are known. -/
def SourceUnit.recordInfos (unit : SourceUnit) (number : Nat) (exports : ExportTable) :
    List RecordInfo :=
  (exports.importsFor number).filterMap Export.recordInfo? ++
    Item.recordInfos number (unitClassName unit.name) 0 unit.items

section

variable (h : unit.analyze number exports = (unit', a))
include h

/-- The steps of the analysis of a unit, once the names of other units are known. -/
theorem SourceUnit.analyze_steps :
    ∃ opened items1 recorded ids registered begun analyzed done closed,
      opened.Names [[], Export.names (exports.importsFor number), builtinNames] ∧
      (AnalysisState.start unit number).SameUnit opened ∧
      opened.records = (exports.importsFor number).filterMap Export.recordInfo? ∧
      declareRecords unit.items opened = (items1, recorded) ∧
      registerItems 0 items1 recorded = (ids, registered) ∧ recorded.Grows registered ∧
      analyzeItems .normal false ids items1 begun = (unit'.items, analyzed) ∧
      registered.Grows done ∧ closeCaptures done = ((), closed) ∧ a = closed.outcome unit.name := by
  obtain @⟨_, _, s3, _, _, _, _, _, _, _, _, _, _, _, hopen1, hbuiltins, hopen2, himports, hopen3,
    hrecords, hregister, hstate, hitems, hleave1, hleave2, hleave3, hclose, rfl⟩ :=
    SourceUnit.analyze_run h
  have hstart : (AnalysisState.start unit number).Names [] :=
    ⟨ScopeStack.empty_valid, fun scope h => (by cases h), .nil⟩
  obtain ⟨hnames1, hadds1⟩ := hstart.open hopen1
  obtain ⟨hnames2, hadds2⟩ := declareBuiltins_run hnames1 hbuiltins
  obtain ⟨hnames3, hadds3⟩ := hnames2.open hopen2
  obtain ⟨hnames4, hsame4, hrecords4⟩ := declareImports_run hnames3 himports
  obtain ⟨hnames5, hadds5⟩ := hnames4.open hopen3
  have hadds := (hadds1.trans hadds2).trans hadds3
  have hunit3 : s3.unitIndex = number := hadds.sameUnit.unitIndex
  rw [hunit3, nil_append, nil_append] at hnames5
  rw [hunit3, hadds.records] at hrecords4
  exact ⟨_, _, _, _, _, _, _, _, _, hnames5,
    (hadds.sameUnit.trans hsame4).trans hadds5.sameUnit, hadds5.records.trans hrecords4, hrecords,
    hregister, (registerItems_grows _ _).of_eq hregister, hitems,
    (setState_eq hstate).1.toGrows.trans (((analyzeItems_grows _ _ _ _).of_eq hitems).trans
      ((leaveScope_eq hleave1).1.trans ((leaveScope_eq hleave2).1.trans
        (leaveScope_eq hleave3).1)).toGrows), hclose, rfl⟩

/-- **What the analysis notes of the records and functions of a unit.** -/
theorem SourceUnit.analyze_notes :
    a.records = (unit.recordInfos number exports).map (Item.withFields
      (fun t => (t.meaning (unit.nameLayers number exports []).record?).stored)
      (Item.numbered number 0 unit.items)) ∧
    (∀ d ∈ topDecls reservedMethods 0 unit.items, ∀ f, d.item = .function f → ∃ f' id info,
      unit'.items[d.index]? = some (.function f') ∧ f'.head.id = some id ∧
      a.functions[id]? = some info ∧ info.Describes f.head ⟨number, d.index⟩ d.method
        (unit.nameLayers number exports (Item.functionNames (unit.items.take d.index)))) ∧
    ∀ (index : Nat) (r : RecordDecl), unit.items[index]? = some (.record r) →
      unit'.items[index]? = some (.record { r with decl := some ⟨number, index⟩ }) := by
  obtain ⟨s5, items1, s6, ids, s7, s8, s9, done, s', hnames5, hsame5, hrecords5, hrecordsRun,
    hregister, hregistered, hitems, hgrows, hclose, rfl⟩ := SourceUnit.analyze_steps h
  obtain ⟨-, hrecords', -, -, hfunctions', -⟩ := closeCaptures_eq hclose
  obtain ⟨layer, hlayer, hnames6, hsame6, rfl, hrecords6⟩ := declareRecords_run hnames5 hrecordsRun
  have hunit5 : s5.unitIndex = number := hsame5.unitIndex
  have hclass5 : s5.className = unitClassName unit.name := hsame5.className
  have hmethods6 : s6.methods = reservedMethods := (hsame5.trans hsame6).methods
  have hunit6 : s6.unitIndex = number := (hsame5.trans hsame6).unitIndex
  rw [nil_append, hunit5] at hlayer
  subst hlayer
  -- what comes after the names keeps what was noted
  have hgrows6 := hregistered.trans hgrows
  have hitems' := (analyzeItems_alike _ _ _ _).of_eq hitems
  refine ⟨?_, fun d hd f hf => ?_, fun index r hr => ?_⟩
  · show s'.records = _
    rw [hrecords', hgrows6.records, hrecords6, hrecords5, hunit5, hclass5]
    simp only [SourceUnit.nameLayers, append_nil]
    rfl
  · rw [← hmethods6] at hd
    have hdescribed := registerItems_run hnames6 hregister d
      (hunit5 ▸ mem_topDecls_numbered hd hf) f hf
    rw [hunit5] at hdescribed
    obtain ⟨j, id, info, hindex, hid, hinfo, hdescribes⟩ := hdescribed
    rw [Nat.zero_add] at hindex
    subst hindex
    obtain ⟨offset, hoffset, hitem, _⟩ := mem_topDecls hd
    rw [Nat.zero_add] at hoffset
    have hat : (Item.numbered s5.unitIndex 0 unit.items)[d.index]? = some (.function f) := by
      rw [getElem?_numbered, hoffset, hitem, hf]
      rfl
    obtain ⟨_, hf', halike⟩ := getElem?_of_forall₂ hitems'.1 hat
    obtain ⟨⟩ := halike
    refine ⟨_, id, { info with captures := done.captures.of id }, hf', hitems'.2 _ _ _ hf' hid,
      ?_, ?_⟩
    · show s'.functions[id]? = _
      rw [hfunctions', Array.getElem?_mapIdx, hgrows.functions _ _ hinfo]
      rfl
    · rw [hunit6, functionNames_numbered] at hdescribes
      exact ⟨hdescribes.decl, hdescribes.method, hdescribes.params, hdescribes.ret⟩
  · have hat : (Item.numbered s5.unitIndex 0 unit.items)[index]? = some (.record
        { r with decl := some ⟨number, index⟩ }) := by
      rw [getElem?_numbered, hr, hunit5, Nat.zero_add]
      rfl
    obtain ⟨_, hr', halike⟩ := getElem?_of_forall₂ hitems'.1 hat
    obtain ⟨⟩ := halike
    exact hr'

theorem SourceUnit.analyze_className : a.className = unitClassName unit.name := by
  obtain ⟨s5, _, s6, _, s7, _, _, done, s', hnames5, hsame5, -, hrecords, -, hregistered, -, hgrows,
    hclose, rfl⟩ := SourceUnit.analyze_steps h
  obtain ⟨-, -, -, hsame6, -, -⟩ := declareRecords_run hnames5 hrecords
  calc s'.className = done.className := (closeCaptures_eq hclose).2.2.2.1
    _ = s6.className := (hregistered.trans hgrows).unit.2
    _ = _ := (hsame5.trans hsame6).className

end

/-! ## Names of records -/

theorem lookup_recordNames (unit index : Nat) (taken : List String) (items : List Item)
    (name : String) : (Item.recordNames unit index items).lookup name =
      ((topDecls taken index items).find? fun d => match d.item with
        | .record _ => d.name.name == name
        | _ => false).map fun d => some ⟨unit, d.index⟩ := by
  induction items generalizing index taken with
  | nil => rfl
  | cons item items ih =>
    cases item with
    | function f => exact ih _ _
    | stmt stmt => exact ih _ _
    | record r =>
      rw [Item.recordNames, topDecls, find?_cons]
      by_cases hname : r.name.name = name
      · simp [hname]
      · have hne : (name == r.name.name) = false := by simpa using Ne.symm hname
        have hne' : (r.name.name == name) = false := by simpa using hname
        rw [lookup_cons, hne]
        simp only [hne']
        exact ih _ _

theorem lookup_recordNames_eq (unit : SourceUnit) (number : Nat) (name : String) :
    (Item.recordNames number 0 unit.items).lookup name =
      ((Publisher.of unit number).ownRecord? name).map some := by
  rw [lookup_recordNames _ _ reservedMethods]
  unfold Publisher.ownRecord?
  rw [Option.map_map]
  rfl

theorem lookup_functionNames (items : List Item) (name : String) :
    (Item.functionNames items).lookup name = none ∨
      (Item.functionNames items).lookup name = some none := by
  induction items with
  | nil => exact .inl rfl
  | cons item items ih =>
    cases item with
    | function f =>
      rw [Item.functionNames, lookup_cons]
      split
      · exact .inr rfl
      · exact ih
    | record | stmt => exact ih

/-! ## Types in exports and in analyses -/

def TypeExpr.names : TypeExpr → List String
  | .named ident => [ident.name]
  | .array elem _ => elem.names

/-- No function of a unit hides a record of another unit that the type mentions. -/
def TypeExpr.Sees (imports : List Export) (own : List (String × Option DeclId)) (t : TypeExpr) :
    Prop :=
  ∀ e ∈ imports, e.record?.isSome → e.name ∈ t.names → own.lookup e.name ≠ some none

namespace ExportTable

variable {units : List SourceUnit}

theorem mem_importsFor {t : ExportTable} :
    e ∈ t.importsFor number ↔ e ∈ t.exports ∧ e.unit ≠ number := by
  simp [importsFor]

/-- The exported record of a name is what the name stands for among imports. -/
theorem lookup_importsFor (he : e ∈ (publish units).exports) (hunit : e.unit ≠ number) :
    (Export.names ((publish units).importsFor number)).lookup e.name = some e.record? := by
  have hmem : e ∈ (publish units).importsFor number := mem_importsFor.mpr ⟨he, hunit⟩
  have hnodup : (((publish units).importsFor number).map Export.name).Nodup :=
    (exports_names_nodup units).sublist (filter_sublist.map _)
  generalize (publish units).importsFor number = imports at hmem hnodup
  induction imports with
  | nil => cases hmem
  | cons first imports ih =>
    rw [map_cons, nodup_cons] at hnodup
    rw [Export.names, map_cons, lookup_cons]
    rcases mem_cons.mp hmem with rfl | hmem
    · simp
    · have hne : (e.name == first.name) = false := by
        rw [beq_eq_false_iff_ne]
        intro heq
        exact hnodup.1 (heq ▸ mem_map_of_mem hmem)
      rw [hne]
      exact ih hmem hnodup.2

/-- **A record name stands for the same record in an export and in the analysis of its unit**,
unless it is withheld or hidden by a function. -/
theorem record?_eq_of_known (hp : p ∈ owned units)
    (hunit : units[p.publisher.unit]? = some unit) {d : DeclId}
    (hknown : p.known (owned units) name = some d) (hkept : d ∉ withheld (entries units))
    (hseen : ∀ e ∈ (publish units).importsFor p.publisher.unit, e.record?.isSome → e.name = name →
      (Item.recordNames p.publisher.unit 0 unit.items ++ Item.functionNames before).lookup e.name ≠
        some none) :
    (unit.nameLayers p.publisher.unit (publish units)
      (Item.functionNames before)).record? name = some d := by
  obtain ⟨unit', hunit', hpublisher⟩ := Publisher.mem_ofUnits.mp (of_mem_owned hp).1
  obtain rfl : unit' = unit := Option.some.inj (hunit'.symm.trans hunit)
  rw [known, Option.orElse_eq_orElse, Option.orElse_eq_or, Option.or_eq_some_iff] at hknown
  unfold SourceUnit.nameLayers NameLayers.record?
  rw [findSome?_cons, lookup_append, lookup_recordNames_eq, ← hpublisher]
  rcases hknown with hown | ⟨hnotOwn, hpublished⟩
  · rw [hown]
    rfl
  · obtain ⟨q, hq, rfl, rfl, r, hitem⟩ := publishedRecord?_eq_some hpublished
    -- a record of the unit itself would have been found before
    have hother : q.publisher.unit ≠ p.publisher.unit := by
      intro hsame
      obtain ⟨unit2, hunit2, hpublisher2⟩ := Publisher.mem_ofUnits.mp (of_mem_owned hq).1
      rw [hsame] at hunit2 hpublisher2
      obtain rfl : unit2 = unit' := Option.some.inj (hunit2.symm.trans hunit)
      have hdecl := (of_mem_owned hq).2
      rw [hpublisher2, ← hpublisher] at hdecl
      refine find?_eq_none.mp (Option.map_eq_none_iff.mp hnotOwn) q.decl hdecl ?_
      rw [hitem]
      exact beq_self_eq_true _
    have hexport : q.entry (owned units) ∈ (publish units).exports :=
      mem_publish.mpr ⟨⟨q, hq, rfl⟩, hkept⟩
    have hrecord : (q.entry (owned units)).record? = some q.id := by
      simp only [Export.record?, Export.recordInfo?, entry, signature, hitem]
      rfl
    -- a function of the unit with that name would hide the record
    have hfunction : (Item.functionNames before).lookup q.name = none := by
      refine (lookup_functionNames before q.name).resolve_right fun hsome => ?_
      refine hseen _ (mem_importsFor.mpr ⟨hexport, hother⟩) (by rw [hrecord]; rfl) rfl ?_
      show (_ ++ Item.functionNames before).lookup q.name = some none
      rw [lookup_append, lookup_recordNames_eq, ← hpublisher, hnotOwn, hsome]
      rfl
    have himport := lookup_importsFor hexport hother
    rw [hnotOwn, Option.map_none, Option.none_or, hfunction, findSome?_cons]
    rw [show (q.entry (owned units)).name = q.name from rfl] at himport
    rw [himport, hrecord]
    rfl

theorem resolveIn_eq_of_mem (hp : p ∈ owned units)
    (hunit : units[p.publisher.unit]? = some unit) {t : TypeExpr}
    (herror : (t.resolveIn (p.known (owned units))).containsError = false)
    (hkept : ∀ d, (t.resolveIn (p.known (owned units))).record? = some d →
      d ∉ withheld (entries units))
    (hseen : t.Sees ((publish units).importsFor p.publisher.unit)
      (Item.recordNames p.publisher.unit 0 unit.items ++ Item.functionNames before)) :
    t.resolveIn (unit.nameLayers p.publisher.unit (publish units)
      (Item.functionNames before)).record? = t.resolveIn (p.known (owned units)) := by
  induction t with
  | array elem span ih => exact congrArg Ty.array (ih herror hkept hseen)
  | named ident =>
    rw [TypeExpr.resolveIn] at herror hkept
    rw [TypeExpr.resolveIn, TypeExpr.resolveIn]
    cases hprimitive : Ty.primitive? ident.name with
    | some ty => rfl
    | none =>
      simp only [hprimitive] at herror hkept
      cases hknown : p.known (owned units) ident.name with
      | none =>
        rw [hknown] at herror
        cases herror
      | some d =>
        rw [hknown] at hkept
        have hsame := record?_eq_of_known hp hunit hknown (hkept d rfl)
          (fun e he hrecord heq => hseen e he hrecord (mem_singleton.mpr heq))
        rw [hsame]

end ExportTable

/-! ## Declarations in exports and in analyses -/

def Item.types : Item → List TypeExpr
  | .function f => f.head.params.map Param.ty ++ f.head.ret.toList
  | .record r => r.fields.map FieldDecl.ty
  | .stmt _ => []

/-- Void is the type of a parameter, of a field, or of the elements of an array. -/
def Item.storesVoid : Item → Bool
  | .function f => f.head.params.any (·.ty.hasVoid) || f.head.ret.any TypeExpr.hasVoidElem
  | .record r => r.fields.any (·.ty.hasVoid)
  | .stmt _ => false

def Item.fieldNames : Item → List String
  | .record r => r.fields.map (·.name.name)
  | _ => []

theorem distinctFields_eq {known : List (String × Ty)} {fields : List FieldDecl}
    (h : (known.map Prod.fst ++ fields.map (·.name.name)).Nodup) :
    distinctFields typeOf known fields =
      known ++ fields.map fun f => (f.name.name, typeOf f.ty) := by
  induction fields generalizing known with
  | nil => rw [distinctFields, map_nil, append_nil]
  | cons field fields ih =>
    have hnew : ¬ known.any (·.1 == field.name.name) = true := by
      intro hany
      obtain ⟨x, hx, heq⟩ := any_eq_true.mp hany
      rw [map_cons, nodup_append] at h
      exact h.2.2 _ (mem_map_of_mem hx) _ mem_cons_self (beq_iff_eq.mp heq)
    rw [distinctFields, if_neg hnew, ih (by simpa using h), append_assoc]
    rfl

/-! ### Records -/

theorem withFields_decl (typeOf : TypeExpr → Ty) (items : List Item) (info : RecordInfo) :
    (Item.withFields typeOf items info).decl = info.decl := by
  induction items generalizing info with
  | nil => rfl
  | cons item items ih =>
    rw [Item.withFields, foldl_cons]
    refine (ih _).trans ?_
    cases item with
    | record r => dsimp only; split_ifs <;> rfl
    | _ => rfl

/-- Records of other units and later ones keep the fields that are noted of them. -/
theorem withFields_other {unit : Nat} (h : info.decl.unit ≠ unit ∨ info.decl.index < index) :
    Item.withFields typeOf (Item.numbered unit index items) info = info := by
  induction items generalizing index with
  | nil => rfl
  | cons item items ih =>
    have hrest : Item.withFields typeOf (Item.numbered unit (index + 1) items) info = info :=
      ih (h.imp_right Nat.lt_succ_of_lt)
    cases item with
    | record r =>
      rw [Item.numbered, Item.withFields, foldl_cons]
      dsimp only
      rw [if_neg]
      · exact hrest
      · rintro heq
        rcases h with h | h
        · exact h (congrArg DeclId.unit (Option.some.inj heq))
        · exact Nat.ne_of_lt h (congrArg DeclId.index (Option.some.inj heq))
    | _ => exact hrest

theorem withFields_own {unit : Nat} (index : Nat) (hdecl : info.decl = ⟨unit, index + j⟩)
    (hr : items[j]? = some (.record r)) :
    Item.withFields typeOf (Item.numbered unit index items) info =
      { info with fields := distinctFields typeOf [] r.fields } := by
  induction items generalizing index j with
  | nil => cases hr
  | cons item items ih =>
    cases j with
    | zero =>
      cases hr
      rw [Item.numbered, Item.withFields, foldl_cons]
      dsimp only
      rw [Nat.add_zero] at hdecl
      rw [if_pos (congrArg some hdecl)]
      refine withFields_other (.inr ?_)
      show info.decl.index < index + 1
      rw [hdecl]
      exact Nat.lt_succ_self index
    | succ j =>
      have hrest := ih (index + 1) (j := j) (by rw [hdecl]; congr 1; omega) hr
      cases item with
      | record r' =>
        rw [Item.numbered, Item.withFields, foldl_cons]
        dsimp only
        rw [if_neg]
        · exact hrest
        · rw [hdecl]
          intro heq
          have hindex := congrArg DeclId.index (Option.some.inj heq)
          simp at hindex
      | _ => exact hrest

theorem find?_recordInfos (unit : Nat) (className : String) (index : Nat)
    (hr : items[j]? = some (.record r)) :
    (Item.recordInfos unit className index items).find? (·.decl = ⟨unit, index + j⟩) = some
      { name := r.name.name, className := recordClassName className r.name.name
        decl := ⟨unit, index + j⟩, fields := [], isExternal := false, span := r.span } := by
  induction items generalizing index j with
  | nil => cases hr
  | cons item items ih =>
    cases j with
    | zero =>
      cases hr
      rw [Item.recordInfos, find?_cons]
      simp
    | succ j =>
      have hrest := ih (index + 1) hr
      rw [show index + 1 + j = index + (j + 1) by omega] at hrest
      cases item with
      | record r' =>
        rw [Item.recordInfos, find?_cons]
        simp only [DeclId.mk.injEq, true_and]
        rw [decide_eq_false (by omega)]
        exact hrest
      | _ => exact hrest

theorem Export.decl_of_recordInfo? (h : e.recordInfo? = some info) :
    info.decl = e.decl ∧ e.signature = .record info.fields := by
  unfold recordInfo? at h
  split at h
  · cases h
  · rename_i fields hsignature
    cases h
    exact ⟨rfl, hsignature⟩

theorem SourceUnit.record?_own {units : List SourceUnit}
    (h : unit.analyze number (.publish units) = (unit', a))
    (hr : unit.items[index]? = some (.record r)) : a.record? ⟨number, index⟩ = some
      { name := r.name.name, className := recordClassName (unitClassName unit.name) r.name.name
        decl := ⟨number, index⟩
        fields := distinctFields
          (fun t => (t.meaning (unit.nameLayers number (.publish units) []).record?).stored) []
            r.fields
        isExternal := false, span := r.span } := by
  have hown := find?_recordInfos number (unitClassName unit.name) 0 hr
  rw [Nat.zero_add] at hown
  have himports : (((publish units).importsFor number).filterMap
      Export.recordInfo?).find? (·.decl = ⟨number, index⟩) = none := by
    refine find?_eq_none.mpr fun info hinfo hdecl => ?_
    obtain ⟨e, he, hinfo⟩ := mem_filterMap.mp hinfo
    obtain ⟨hmem, hunit⟩ := mem_importsFor.mp he
    have hdecl := of_decide_eq_true hdecl
    rw [(Export.decl_of_recordInfo? hinfo).1] at hdecl
    exact hunit (by rw [← unit_of_mem_publish hmem, hdecl])
  rw [Analysis.record?, (SourceUnit.analyze_notes h).1, find?_map]
  have hcomp : ((fun info : RecordInfo => decide (info.decl = ⟨number, index⟩)) ∘ Item.withFields
      (fun t => (t.meaning (unit.nameLayers number (.publish units) []).record?).stored)
      (Item.numbered number 0 unit.items)) = fun info => decide (info.decl = ⟨number, index⟩) := by
    funext info
    rw [Function.comp_apply, withFields_decl]
  rw [hcomp, SourceUnit.recordInfos, find?_append, himports, Option.none_or, hown,
    Option.map_some, withFields_own 0 (by rw [Nat.zero_add]) hr]

/-! ### Agreement -/

namespace ExportTable

variable {units : List SourceUnit} {number : Nat} {unit unit' : SourceUnit} {a : Analysis}

/-- An export of a declaration of a unit comes from the owner of its name. -/
theorem owner_of_decl (he : e ∈ (publish units).exports) (hdecl : e.decl = ⟨number, index⟩)
    (hunit : units[number]? = some unit) {item : Item} (hitem : unit.items[index]? = some item) :
    ∃ p ∈ owned units, e = p.entry (owned units) ∧ p.publisher = Publisher.of unit number ∧
      p.decl ∈ topDecls reservedMethods 0 unit.items ∧ p.decl.index = index ∧
      p.decl.item = item := by
  obtain ⟨⟨p, hp, rfl⟩, _⟩ := mem_publish.mp he
  have hid : p.id = ⟨number, index⟩ := hdecl
  have hnumber : p.publisher.unit = number := congrArg DeclId.unit hid
  obtain ⟨unit1, hunit1, hitem1⟩ := item_of_owned hp
  rw [hid] at hunit1 hitem1
  obtain rfl := Option.some.inj (hunit1.symm.trans hunit)
  obtain ⟨unit2, hunit2, hpublisher⟩ := Publisher.mem_ofUnits.mp (of_mem_owned hp).1
  rw [hnumber] at hunit2 hpublisher
  obtain rfl := Option.some.inj (hunit2.symm.trans hunit)
  have hmem := (of_mem_owned hp).2
  rw [hpublisher] at hmem
  exact ⟨p, hp, rfl, hpublisher, hmem, congrArg DeclId.index hid,
    Option.some.inj (hitem1.symm.trans hitem)⟩

/-- An exported declaration has the same types in its unit and in others. -/
theorem types_agree (hp : p ∈ owned units) (he : p.entry (owned units) ∈ (publish units).exports)
    (hpublisher : p.publisher = Publisher.of unit number) (hunit : units[number]? = some unit)
    {t : TypeExpr}
    (hty : t.resolveIn (p.known (owned units)) ∈ (p.signature (owned units)).types)
    (hseen : t.Sees ((publish units).importsFor number)
      (Item.recordNames number 0 unit.items ++ Item.functionNames before)) :
    t.resolveIn (unit.nameLayers number (publish units) (Item.functionNames before)).record? =
      t.resolveIn (p.known (owned units)) := by
  have hnumber : p.publisher.unit = number := by rw [hpublisher]; rfl
  obtain ⟨herror, hkept⟩ := whole_of_mem_publish he hty
  rw [← hnumber] at hunit hseen ⊢
  exact resolveIn_eq_of_mem hp hunit herror hkept hseen

theorem function_agrees (hunit : units[number]? = some unit) {f : FunctionDecl}
    (hitem : unit.items[index]? = some (.function f)) (hvoid : (Item.function f).storesVoid = false)
    (hseen : ∀ t ∈ (Item.function f).types, t.Sees ((publish units).importsFor number)
      (Item.recordNames number 0 unit.items ++ Item.functionNames (unit.items.take index)))
    (he : e ∈ (publish units).exports) (hdecl : e.decl = ⟨number, index⟩)
    {info : FunctionInfo} {method : String}
    (hmethod : ∀ d ∈ topDecls reservedMethods 0 unit.items, d.index = index → d.method = method)
    (hinfo : info.Describes f.head ⟨number, index⟩ method
      (unit.nameLayers number (publish units) (Item.functionNames (unit.items.take index)))) :
    e.signature = .function info.method info.params info.ret := by
  obtain ⟨p, hp, rfl, hpublisher, hmem, hindex, hf⟩ := owner_of_decl he hdecl hunit hitem
  obtain ⟨hparams, hret⟩ := Bool.or_eq_false_iff.mp hvoid
  have hsignature : p.signature (owned units) = .function p.decl.method
      (f.head.params.map (·.ty.resolveIn (p.known (owned units))))
      ((f.head.ret.map (·.resolveIn (p.known (owned units)))).getD .void) := by
    simp only [signature, hf]
    rfl
  have hagree {t : TypeExpr} (ht : t ∈ (Item.function f).types)
      (hty : t.resolveIn (p.known (owned units)) ∈ (p.signature (owned units)).types) :=
    types_agree hp he hpublisher hunit hty (hseen t ht)
  show p.signature _ = _
  rw [hsignature, hinfo.method, hmethod p.decl hmem hindex, hinfo.params, hinfo.ret]
  congr 1
  · refine map_congr_left fun param hparam => ?_
    have hplain : param.ty.hasVoid = false := by
      simpa using any_eq_false.mp hparams param hparam
    rw [TypeExpr.stored_meaning_eq hplain]
    refine (hagree (mem_append_left _ (mem_map_of_mem hparam)) ?_).symm
    rw [hsignature]
    exact mem_append_left _ (mem_map.mpr ⟨param, hparam, rfl⟩)
  · cases hr : f.head.ret with
    | none => rfl
    | some t =>
      rw [hr] at hret
      show t.resolveIn _ = t.meaning _
      rw [TypeExpr.meaning_eq hret]
      refine (hagree (mem_append_right _ (by rw [hr]; exact mem_singleton_self t)) ?_).symm
      rw [hsignature, hr]
      exact mem_append_right _ (mem_singleton_self _)

theorem record_agrees (hunit : units[number]? = some unit)
    (hitem : unit.items[index]? = some (.record r)) (hvoid : (Item.record r).storesVoid = false)
    (hfields : (Item.record r).fieldNames.Nodup)
    (hseen : ∀ t ∈ (Item.record r).types, t.Sees ((publish units).importsFor number)
      (Item.recordNames number 0 unit.items)) (he : e ∈ (publish units).exports)
        (hdecl : e.decl = ⟨number, index⟩) :
    e.signature = .record (distinctFields
      (fun t => (t.meaning (unit.nameLayers number (.publish units) []).record?).stored) []
      r.fields) := by
  obtain ⟨p, hp, rfl, hpublisher, _, _, hr⟩ := owner_of_decl he hdecl hunit hitem
  have hsignature : p.signature (owned units) = .record (r.fields.map fun f =>
      (f.name.name, f.ty.resolveIn (p.known (owned units)))) := by
    simp only [signature, hr]
    rfl
  show p.signature _ = _
  rw [hsignature, distinctFields_eq (by simpa [Item.fieldNames] using hfields), nil_append]
  refine congrArg Signature.record (map_congr_left fun field hfield => ?_)
  have hplain : field.ty.hasVoid = false := by
    simpa using any_eq_false.mp hvoid field hfield
  rw [TypeExpr.stored_meaning_eq hplain]
  refine congrArg (field.name.name, ·) ?_
  have hseen : field.ty.Sees ((publish units).importsFor number)
      (Item.recordNames number 0 unit.items ++ Item.functionNames []) := by
    rw [Item.functionNames, append_nil]
    exact hseen _ (mem_map_of_mem hfield)
  refine (types_agree hp he hpublisher hunit ?_ hseen).symm
  rw [hsignature]
  exact mem_map.mpr ⟨_, mem_map.mpr ⟨field, hfield, rfl⟩, rfl⟩

end ExportTable

/-- The signature that the analysis of a unit gives to the declaration at a position. -/
def Analysis.signatureAt? (a : Analysis) (unit : SourceUnit) (index : Nat) : Option Signature :=
  match unit.items[index]? with
  | some (.function f) => (f.head.id.bind (a.functions[·]?)).map fun info =>
    .function info.method info.params info.ret
  | some (.record r) => (r.decl.bind a.record?).map fun info => .record info.fields
  | _ => none

/-- The names of a unit that are known when the types of a declaration are read: all records, and
the functions before a function. -/
def SourceUnit.namesAt (unit : SourceUnit) (number index : Nat) :
    Item → List (String × Option DeclId)
  | .function _ =>
    Item.recordNames number 0 unit.items ++ Item.functionNames (unit.items.take index)
  | _ => Item.recordNames number 0 unit.items

/-- To other units, the types of the declaration never stand for something else: void is not stored,
fields have different names, and no record that is mentioned is hidden. -/
structure Item.Plainly (item : Item) (imports : List Export) (own : List (String × Option DeclId)) :
    Prop where
  void : item.storesVoid = false
  fields : item.fieldNames.Nodup
  names : ∀ t ∈ item.types, t.Sees imports own

namespace ExportTable

variable {units : List SourceUnit} {number index : Nat} {unit unit' : SourceUnit} {a : Analysis}
  {item : Item}

theorem topDecls_method {taken : List String} {k : Nat} {d d' : TopDecl}
    (hd : d ∈ topDecls taken k items) (hd' : d' ∈ topDecls taken k items)
    (hindex : d.index = d'.index) : d = d' := by
  induction items generalizing taken k with
  | nil => cases hd
  | cons item items ih =>
    have hlater {taken : List String} {x : TopDecl} (hx : x ∈ topDecls taken (k + 1) items) :
        k < x.index := by
      obtain ⟨offset, hoffset, _⟩ := mem_topDecls hx
      omega
    cases item with
    | function | record =>
      rcases mem_cons.mp hd with rfl | hd <;> rcases mem_cons.mp hd' with rfl | hd'
      · rfl
      · exact absurd hindex (Nat.ne_of_lt (hlater hd'))
      · exact absurd hindex.symm (Nat.ne_of_lt (hlater hd))
      · exact ih hd hd'
    | stmt stmt => exact ih hd hd'

/-- A declaration at a position has a signature by the analysis, which is that of its export. -/
theorem signature_eq (hunit : units[number]? = some unit)
    (ha : unit.analyze number (publish units) = (unit', a))
    (hitem : unit.items[index]? = some item) (hdecl : ∀ stmt, item ≠ .stmt stmt)
    (hplain : item.Plainly ((publish units).importsFor number) (unit.namesAt number index item)) :
    ∃ signature, a.signatureAt? unit' index = some signature ∧
      ∀ e ∈ (publish units).exports, e.decl = ⟨number, index⟩ → e.signature = signature := by
  obtain ⟨_, hfunctions, hrecords⟩ := SourceUnit.analyze_notes ha
  cases item with
  | stmt stmt => exact absurd rfl (hdecl stmt)
  | record r =>
    refine ⟨_, ?_, fun e he hdecl => record_agrees hunit hitem hplain.void
      hplain.fields hplain.names he hdecl⟩
    unfold Analysis.signatureAt?
    rw [hrecords index r hitem]
    simp only [Option.bind_some, SourceUnit.record?_own ha hitem, Option.map_some]
  | function f =>
    obtain ⟨d, hd, hindex, hf⟩ := exists_topDecl reservedMethods 0 hitem hdecl
    rw [Nat.zero_add] at hindex
    obtain ⟨f', id, info, hf', hid, hinfo, hdescribes⟩ := hfunctions d hd f hf
    rw [hindex] at hf' hdescribes
    refine ⟨.function info.method info.params info.ret, ?_, fun e he hdecl => ?_⟩
    · unfold Analysis.signatureAt?
      rw [hf']
      simp only [hid, Option.bind_some, hinfo, Option.map_some]
    · refine function_agrees hunit hitem hplain.void hplain.names he hdecl ?_ hdescribes
      intro d' hd' hindex'
      rw [topDecls_method hd' hd (hindex'.trans hindex.symm)]

/-- **Exports and analyses agree.** The analysis of a unit gives a signature to each declaration at
its top. If it has an error in it then the declaration is not exported, and if the declaration is
exported then with this signature. -/
theorem publish_agrees (hunit : units[number]? = some unit)
    (ha : unit.analyze number (publish units) = (unit', a))
    (hitem : unit.items[index]? = some item) (hdecl : ∀ stmt, item ≠ .stmt stmt)
    (hplain : item.Plainly ((publish units).importsFor number) (unit.namesAt number index item)) :
    ∃ signature, a.signatureAt? unit' index = some signature ∧
      ((∃ ty ∈ signature.types, ty.containsError = true) →
        ∀ e ∈ (publish units).exports, e.decl ≠ ⟨number, index⟩) ∧
      ∀ e ∈ (publish units).exports, e.decl = ⟨number, index⟩ → e.signature = signature := by
  obtain ⟨signature, hsignature, hagrees⟩ := signature_eq hunit ha hitem hdecl hplain
  refine ⟨signature, hsignature, ?_, hagrees⟩
  rintro ⟨ty, hty, herror⟩ e he heq
  rw [← hagrees e he heq] at hty
  rw [(whole_of_mem_publish he hty).1] at herror
  cases herror

end ExportTable

def numberRecord (name field : String) : RecordDecl :=
  ⟨⟨name, .nowhere⟩, [⟨⟨field, .nowhere⟩, .named ⟨"int", .nowhere⟩, .nowhere⟩], .nowhere, none⟩

/-- A function without statements, given the names of the types of its parameter and result. -/
def emptyFunction (name param ret : String) : FunctionDecl :=
  ⟨⟨⟨name, .nowhere⟩, [⟨⟨"x", .nowhere⟩, .named ⟨param, .nowhere⟩, .nowhere, none⟩],
    some (.named ⟨ret, .nowhere⟩), .nowhere, .nowhere, none⟩, []⟩

/-- A unit with a function that makes records of another unit. The function behind it hides the name
of the record. -/
def makerUnit : SourceUnit :=
  ⟨"b", [.function (emptyFunction "make" "int" "R"), .function (emptyFunction "R" "int" "int")],
    .nowhere⟩

/-- A unit with a record, and one with a function that makes such records. -/
def makerUnits : List SourceUnit :=
  [⟨"a", [.record (numberRecord "R" "x")], .nowhere⟩, makerUnit]

theorem makerUnits_agree :
    ((Item.function (emptyFunction "make" "int" "R")).Plainly
      ((ExportTable.publish makerUnits).importsFor 1)
      (makerUnit.namesAt 1 0 (.function (emptyFunction "make" "int" "R")))) ∧
    ∃ signature, (makerUnit.analyze 1 (.publish makerUnits)).2.signatureAt?
        (makerUnit.analyze 1 (.publish makerUnits)).1 0 = some signature ∧
      ((∃ ty ∈ signature.types, ty.containsError = true) →
        ∀ e ∈ (ExportTable.publish makerUnits).exports, e.decl ≠ ⟨1, 0⟩) ∧
      ∀ e ∈ (ExportTable.publish makerUnits).exports, e.decl = ⟨1, 0⟩ →
        e.signature = signature := by
  have hplain : (Item.function (emptyFunction "make" "int" "R")).Plainly
      ((ExportTable.publish makerUnits).importsFor 1)
      (makerUnit.namesAt 1 0 (.function (emptyFunction "make" "int" "R"))) :=
    ⟨by decide +kernel, List.nodup_nil, fun _ _ _ _ _ _ => nofun⟩
  have hunit : makerUnits[1]? = some makerUnit := rfl
  exact ⟨hplain, ExportTable.publish_agrees hunit Prod.mk.eta.symm rfl nofun hplain⟩

/-- A unit with a function that would take a value of type void. -/
def voidUnit : SourceUnit := ⟨"a", [.function (emptyFunction "f" "void" "void")], .nowhere⟩

/-- Void for a parameter is an error to the analysis, and yet the function is exported. -/
theorem voidUnit_exported :
    (voidUnit.analyze 0 (.publish [voidUnit])).2.signatureAt?
        (voidUnit.analyze 0 (.publish [voidUnit])).1 0 =
      some (.function "f" [.error] .void) ∧
    ∃ e ∈ (ExportTable.publish [voidUnit]).exports, e.decl = ⟨0, 0⟩ ∧
      e.signature = .function "f" [.void] .void := by
  refine ⟨by decide +kernel, ?_⟩
  exact ⟨⟨"f", 0, "a", ⟨0, 0⟩, .function "f" [.void] .void, .nowhere⟩, by decide +kernel, rfl, rfl⟩

end StackCompiler

import Mathlib.Data.List.DropRight
import Mathlib.Data.List.Nodup
import Mathlib.Data.List.Pairwise
import StackCompiler.Proofs.Adapted
import StackCompiler.Proofs.Agreement
import StackCompiler.Proofs.Loading
import StackCompiler.Proofs.UnitClasses

/-!
# Names of files

All files of a compilation go into one place. A file is named after a class, and classes of records
are named after the class of their unit and the record, with a dollar sign between. Units with one
class are not loaded together, but the class of a unit can have the name that another unit gives to
the class of a record.

* `UnitResult.Emits`, `compileUnit_emits`: the files of a unit;
* **`compile_fileNames_nodup_iff`**: files have different names unless the class of a unit is the
  class of a record.
-/

namespace StackCompiler

open AnalysisState Text List

variable {a : Analysis} {exports : ExportTable} {index : Nat} {unit : SourceUnit}

/-! ## Names of records -/

theorem token_of_identAt {node : NodeHead} {children : List ParseTree} {ident : Ident}
    (h : identAt node children index = .ok ident) :
    ∃ token, .leaf token ∈ children ∧ token.kind = .ident ident.name := by
  obtain ⟨token, htoken, h⟩ := Except.bind_eq_ok.mp h
  obtain ⟨child, hchild, htoken⟩ := Except.bind_eq_ok.mp htoken
  cases child with
  | node rule span children => cases htoken
  | leaf token' =>
    cases htoken
    refine ⟨token, childAt_mem hchild, ?_⟩
    split at h
    · rename_i name hname
      cases h
      exact hname
    · cases h

/-- **There is no dollar sign in the name of a record.** -/
theorem SourceUnit.parse_recordNames {name source : String}
    (h : SourceUnit.parse name source = .ok unit) {r : RecordDecl} (hr : .record r ∈ unit.items) :
    '$' ∉ r.name.name.toList := by
  obtain ⟨child, hitem, htokens⟩ := SourceUnit.parse_items h hr
  obtain ⟨span, trees, rfl, hrecord⟩ : ∃ span trees, child = .node .struct span trees ∧
      RecordDecl.ofChildren span trees = .ok r := by
    unfold Item.ofTree at hitem
    split at hitem
    · obtain ⟨_, _, hitem⟩ := Except.bind_eq_ok.mp hitem
      cases hitem
    · obtain ⟨_, hrecord, hitem⟩ := Except.bind_eq_ok.mp hitem
      cases hitem
      exact ⟨_, _, rfl, hrecord⟩
    · obtain ⟨_, _, hitem⟩ := Except.bind_eq_ok.mp hitem
      cases hitem
  obtain ⟨ident, hident, hrecord⟩ := Except.bind_eq_ok.mp hrecord
  obtain ⟨fields, -, hrecord⟩ := Except.bind_eq_ok.mp hrecord
  cases hrecord
  obtain ⟨token, htoken, hkind⟩ := token_of_identAt hident
  obtain ⟨hmem⟩ := htokens.inner (.leaf token) htoken
  have hleaf := tokenize_written hmem
  rw [hkind] at hleaf
  intro hdollar
  have hpart := hleaf nofun '$' hdollar
  revert hpart
  decide +kernel

theorem recordClassName_inj {c c' n n' : String} (hn : '$' ∉ n.toList) (hn' : '$' ∉ n'.toList)
    (h : recordClassName c n = recordClassName c' n') : c = c' ∧ n = n' := by
  have hlast (c n : String) (hn : '$' ∉ n.toList) :
      (recordClassName c n).toList.rtakeWhile (· ≠ '$') = n.toList := by
    unfold recordClassName List.rtakeWhile
    rw [String.toList_append, String.toList_append, reverse_append, takeWhile_append_of_pos]
    · simp
    · intro x hx
      rw [mem_reverse] at hx
      simpa using ne_of_mem_of_not_mem hx hn
  have hname : n = n' := by
    rw [← String.toList_inj, ← hlast c n hn, ← hlast c' n' hn', h]
  subst hname
  exact ⟨(String.append_left_inj "$").mp ((String.append_left_inj n).mp h), rfl⟩

theorem ne_recordClassName (c n : String) : c ≠ recordClassName c n := by
  intro h
  have hlength := congrArg (fun c => c.toList.length) h
  simp [recordClassName, String.toList_append] at hlength

/-! ## Records of a unit -/

theorem SourceUnit.analyze_recordNames {unit' : SourceUnit} {number : Nat}
    (h : unit.analyze number exports = (unit', a)) (hok : a.isOk = true) :
    ((Item.recordNames number 0 unit.items).map Prod.fst).Nodup := by
  obtain ⟨s5, _, s6, _, s7, _, _, done, s', hnames5, hsame5, -, hrecords, -, hregistered, -, hgrows,
    hclose, rfl⟩ := SourceUnit.analyze_steps h
  have hclean : s'.Clean := by simpa [Analysis.isOk, Clean, outcome] using hok
  have hs6 : s6.Clean :=
    (hregistered.trans hgrows).clean ((closeCaptures_eq hclose).2.2.2.2.2 hclean).1
  obtain ⟨named, s1, hnames, hrecords⟩ := Analyze.bind_eq.mp hrecords
  obtain ⟨_, s2, hfields, hrecords⟩ := Analyze.bind_eq.mp hrecords
  cases Analyze.pure_eq.mp hrecords
  have hs1 := ((@declareAllFields_keeps (fun _ => []) _).of_eq hfields hs6).1
  have hnodup := ((declareRecordNames_run hnames5 hnames).2.2.2.2 hs1).2 nodup_nil
  rwa [nil_append, hsame5.unitIndex] at hnodup

theorem mem_recordNames {unit : Nat} {items : List Item} {n : String}
    (h : n ∈ (Item.recordNames unit index items).map Prod.fst) :
    ∃ r, .record r ∈ items ∧ r.name.name = n := by
  induction items generalizing index with
  | nil => cases h
  | cons item items ih =>
    cases item with
    | record r =>
      rcases mem_cons.mp h with rfl | h
      · exact ⟨r, mem_cons_self, rfl⟩
      · obtain ⟨r, hr, hn⟩ := ih h
        exact ⟨r, mem_cons_of_mem _ hr, hn⟩
    | function _ | stmt _ =>
      obtain ⟨r, hr, hn⟩ := ih h
      exact ⟨r, mem_cons_of_mem _ hr, hn⟩

theorem withFields_class (typeOf : TypeExpr → Ty) (items : List Item) (info : RecordInfo) :
    (Item.withFields typeOf items info).className = info.className ∧
      (Item.withFields typeOf items info).isExternal = info.isExternal := by
  induction items generalizing info with
  | nil => exact ⟨rfl, rfl⟩
  | cons item items ih =>
    cases item with
    | record r =>
      rw [Item.withFields, foldl_cons]
      dsimp only
      split_ifs
      · exact ih _
      · exact ih _
    | function _ | stmt _ => exact ih info

theorem SourceUnit.analyze_recordClasses {unit' : SourceUnit} {number : Nat}
    (h : unit.analyze number exports = (unit', a)) : a.declaredRecords.map RecordInfo.className =
      ((Item.recordNames number 0 unit.items).map Prod.fst).map
        (recordClassName (unitClassName unit.name)) := by
  have hown (className : String) (index : Nat) (items : List Item) :
      ((Item.recordInfos number className index items).filter (!·.isExternal)).map
        RecordInfo.className =
      ((Item.recordNames number index items).map Prod.fst).map (recordClassName className) := by
    induction items generalizing index with
    | nil => rfl
    | cons item items ih =>
      cases item with
      | record r =>
        rw [Item.recordInfos, filter_cons_of_pos (by rfl), map_cons, ih]
        rfl
      | function _ | stmt _ => exact ih _
  have himported : ((exports.importsFor number).filterMap Export.recordInfo?).filter
      (!·.isExternal) = [] := by
    refine filter_eq_nil_iff.mpr fun info hinfo => ?_
    obtain ⟨e, -, he⟩ := mem_filterMap.mp hinfo
    unfold Export.recordInfo? at he
    split at he
    · cases he
    · cases he
      simp
  have hkept (typeOf : TypeExpr → Ty) (items : List Item) (infos : List RecordInfo) :
      ((infos.map (Item.withFields typeOf items)).filter (!·.isExternal)).map RecordInfo.className =
        (infos.filter (!·.isExternal)).map RecordInfo.className := by
    rw [filter_map, map_map]
    simp only [Function.comp_def, (withFields_class typeOf items _).1,
      (withFields_class typeOf items _).2]
  rw [Analysis.declaredRecords, (SourceUnit.analyze_notes h).1, hkept, SourceUnit.recordInfos,
    filter_append, himported, nil_append, hown]

/-! ## Files of a unit -/

def OutputFormat.extension : OutputFormat → String
  | .jasmin => ".j"
  | .json => ".json"

namespace UnitResult

def fileNames (r : UnitResult) : List String := r.artifacts.map Artifact.fileName

def className (r : UnitResult) : String := unitClassName r.input.name

def recordClasses (r : UnitResult) : List String :=
  (r.analysis.map fun a => a.declaredRecords.map RecordInfo.className).getD []

/-- A file for the class of each record and of the unit, and one for a listing if wanted. -/
structure Emits (options : CompileOptions) (r : UnitResult) : Prop where
  names : ∃ names : List String, names.Nodup ∧ (∀ n ∈ names, '$' ∉ n.toList) ∧
    r.recordClasses = names.map (recordClassName r.className)
  files : r.fileNames = (r.recordClasses ++ [r.className]).map (· ++ options.format.extension) ++
    if options.emitIr then [r.className ++ ".ir"] else []

end UnitResult

theorem Assembly.artifacts_fileNames (classes : List ClassFile) (format : OutputFormat) :
    ((⟨classes.toArray, .idle⟩ : Assembly).artifacts format).map Artifact.fileName =
      classes.map (·.header.name ++ format.extension) := by
  cases format <;>
    simp [Assembly.artifacts, assemblyFiles, models, Assembly.classes, draft?,
      ClassHeader.assemblyFile, OutputFormat.extension]

theorem Analysis.UnitClasses.names {source : String} {classes : List ClassFile}
    {methods : List Method} (h : a.UnitClasses source classes methods) :
    classes.map (·.header.name) = a.declaredRecords.map RecordInfo.className ++ [a.className] := by
  obtain ⟨records, unitClass, _, _, rfl, -, hrecords, -, hunit, -⟩ := h.split
  have hall : a.declaredRecords.map RecordInfo.className = records.map (·.header.name) := by
    rw [← forall₂_eq_eq_eq, forall₂_map_left_iff, forall₂_map_right_iff]
    exact hrecords.imp fun record c hc => by rw [hc.1]
  rw [map_append, hall, map_singleton, hunit.1]

theorem generate_fileNames {placed : Bool} {assembly : Assembly}
    (h : (generate unit a).assemble placed = (assembly, none)) (format : OutputFormat) :
    (assembly.artifacts format).map Artifact.fileName =
        (a.declaredRecords.map RecordInfo.className ++ [a.className]).map (· ++ format.extension) ∧
      a.SameButSlots (generate unit a).analysis := by
  obtain ⟨classes, rfl, hclasses, hsame⟩ := generate_assembled h
  rw [Assembly.artifacts_fileNames, ← hclasses.names, map_map]
  exact ⟨rfl, hsame⟩

theorem emitUnit_fileNames {a' : Analysis} {options : CompileOptions} {emitted : Emitted}
    (h : emitUnit unit a options = (a', .ok emitted)) : emitted.artifacts.map Artifact.fileName =
        (a.declaredRecords.map RecordInfo.className ++ [a.className]).map
          (· ++ options.format.extension) ++
        (if options.emitIr then [unitClassName unit.name ++ ".ir"] else []) ∧
      a.SameButSlots a' := by
  dsimp only [emitUnit] at h
  split at h
  · cases h
  · rename_i classes hclasses
    obtain ⟨hfiles, hsame⟩ := generate_fileNames hclasses options.format
    split_ifs at h with hir
    · split at h
      · cases h
      · rename_i listed hlisted
        cases h
        rw [map_append, hfiles, if_pos hir]
        exact ⟨rfl, hsame.trans (generate_fileNames hlisted options.format).2⟩
    · cases h
      rw [hfiles, if_neg hir, append_nil]
      exact ⟨rfl, hsame⟩

theorem compileUnit_emits {options : CompileOptions} {input : SourceInput}
    (hparse : SourceUnit.parse input.name input.text = .ok unit)
    (hne : (compileUnit exports options index input unit).artifacts ≠ []) :
    (compileUnit exports options index input unit).Emits options := by
  obtain ⟨⟨unit', a⟩, hanalyze⟩ : ∃ r, unit.analyze index exports = r := ⟨_, rfl⟩
  have hname : unit.name = input.name := SourceUnit.parse_name hparse
  have hname' : unit'.name = unit.name := congrArg (·.1.name) hanalyze.symm
  dsimp only [compileUnit] at hne ⊢
  rw [hanalyze] at hne ⊢
  dsimp only at hne ⊢
  split_ifs at hne ⊢ with hcond
  · cases hemit : emitUnit unit' a options with
    | mk a' result =>
      cases result with
      | error e =>
        rw [hemit] at hne
        exact absurd rfl hne
      | ok emitted =>
        obtain ⟨hfiles, hsame⟩ := emitUnit_fileNames hemit
        have hdeclared : a'.declaredRecords = a.declaredRecords := by
          rw [Analysis.declaredRecords, Analysis.declaredRecords, hsame.records]
        refine ⟨⟨_, SourceUnit.analyze_recordNames hanalyze (Bool.and_eq_true_iff.mp hcond).1,
          fun n hn => ?_, ?_⟩, ?_⟩
        · obtain ⟨r, hr, rfl⟩ := mem_recordNames hn
          exact SourceUnit.parse_recordNames hparse hr
        · show a'.declaredRecords.map _ = _
          rw [hdeclared, SourceUnit.analyze_recordClasses hanalyze, hname]
          rfl
        · show emitted.artifacts.map _ = (a'.declaredRecords.map _ ++ _).map _ ++ _
          rw [hfiles, hdeclared, SourceUnit.analyze_className hanalyze, hname', hname]
          rfl
  · exact absurd rfl hne

/-! ## All files -/

theorem extended_inj {c c' : String} (format : OutputFormat)
    (h : c ++ format.extension = c' ++ format.extension) : c = c' :=
  (String.append_left_inj _).mp h

theorem listing_ne_extended (c c' : String) (format : OutputFormat) :
    c ++ ".ir" ≠ c' ++ format.extension := by
  intro h
  have hlast := congrArg (fun s => s.toList.getLast?) h
  cases format <;> simp [OutputFormat.extension, String.toList_append] at hlast

namespace UnitResult

variable {options : CompileOptions} {r r' : UnitResult}

theorem mem_fileNames (h : r.Emits options) {file : String} : file ∈ r.fileNames ↔
    (∃ c, (c ∈ r.recordClasses ∨ c = r.className) ∧ file = c ++ options.format.extension) ∨
      options.emitIr = true ∧ file = r.className ++ ".ir" := by
  rw [h.files, mem_append, mem_map]
  simp only [mem_append, mem_singleton]
  constructor
  · rintro (⟨c, hc, rfl⟩ | hfile)
    · exact .inl ⟨c, hc, rfl⟩
    · split_ifs at hfile with hir
      · exact .inr ⟨hir, mem_singleton.mp hfile⟩
      · cases hfile
  · rintro (⟨c, hc, rfl⟩ | ⟨hir, rfl⟩)
    · exact .inl ⟨c, hc, rfl⟩
    · exact .inr (by rw [if_pos hir]; exact mem_singleton_self _)

theorem Emits.className_not_mem (h : r.Emits options) : r.className ∉ r.recordClasses := by
  obtain ⟨names, -, -, hclasses⟩ := h.names
  rw [hclasses, mem_map]
  rintro ⟨n, -, hn⟩
  exact ne_recordClassName _ _ hn.symm

theorem Emits.nodup (h : r.Emits options) : r.fileNames.Nodup := by
  obtain ⟨names, hnodup, hnames, hclasses⟩ := h.names
  have hall : (r.recordClasses ++ [r.className]).Nodup := by
    refine nodup_append.mpr ⟨?_, nodup_singleton _, ?_⟩
    · rw [hclasses]
      exact hnodup.map_on fun n hn n' hn' heq =>
        (recordClassName_inj (hnames n hn) (hnames n' hn') heq).2
    · rintro c hc _ hc' rfl
      rw [mem_singleton.mp hc'] at hc
      exact h.className_not_mem hc
  rw [h.files]
  refine nodup_append.mpr ⟨hall.map fun _ _ => extended_inj _, ?_, ?_⟩
  · split_ifs
    · exact nodup_singleton _
    · exact nodup_nil
  · rintro file hfile _ hfile' rfl
    obtain ⟨c, -, rfl⟩ := mem_map.mp hfile
    split_ifs at hfile'
    · exact listing_ne_extended _ _ _ (mem_singleton.mp hfile').symm
    · cases hfile'

/-- The files of units with different classes have different names, unless one has the class of a
record of the other. -/
theorem Emits.disjoint (h : r.Emits options) (h' : r'.Emits options)
    (hne : r.className ≠ r'.className) (hr : r.className ∉ r'.recordClasses)
    (hr' : r'.className ∉ r.recordClasses) : r.fileNames.Disjoint r'.fileNames := by
  obtain ⟨names, -, hnames, hclasses⟩ := h.names
  obtain ⟨names', -, hnames', hclasses'⟩ := h'.names
  have hrecords {c : String} (hc : c ∈ r.recordClasses) (hc' : c ∈ r'.recordClasses) : False := by
    rw [hclasses] at hc
    rw [hclasses'] at hc'
    obtain ⟨n, hn, rfl⟩ := mem_map.mp hc
    obtain ⟨n', hn', heq⟩ := mem_map.mp hc'
    exact hne (recordClassName_inj (hnames' n' hn') (hnames n hn) heq).1.symm
  intro file hfile hfile'
  rcases (mem_fileNames h).mp hfile with ⟨c, hc, rfl⟩ | ⟨-, rfl⟩ <;>
    rcases (mem_fileNames h').mp hfile' with ⟨c', hc', heq⟩ | ⟨-, heq⟩
  · obtain rfl := extended_inj _ heq
    rcases hc with hc | rfl <;> rcases hc' with hc' | hc'
    · exact hrecords hc hc'
    · exact hr' (hc' ▸ hc)
    · exact hr hc'
    · exact hne hc'
  · exact listing_ne_extended _ _ _ heq.symm
  · exact listing_ne_extended _ _ _ heq
  · exact hne ((String.append_left_inj _).mp heq)

end UnitResult

/-- Units that are loaded together have different classes and the files for these. -/
theorem compileLoaded_emits {l : Loader} {before : List SourceInput} (h : l.Holds before)
    (inputs : List SourceInput) (exports : ExportTable) (options : CompileOptions) (index : Nat) :
    (∀ r ∈ compileLoaded exports options index (inputs.zip (loadAll l inputs)), r.artifacts ≠ [] →
      r.Emits options ∧ ∀ input ∈ before, unitClassName input.name ≠ r.className) ∧
    (compileLoaded exports options index (inputs.zip (loadAll l inputs))).Pairwise fun r r' =>
      r.artifacts ≠ [] → r'.artifacts ≠ [] → r.className ≠ r'.className := by
  induction inputs generalizing l before index with
  | nil => exact ⟨nofun, .nil⟩
  | cons input rest ih =>
    cases he : input.loadError? before with
    | some e =>
      simp only [loadAll, h.add_error he, zip_cons_cons, compileLoaded]
      obtain ⟨hemits, hpairwise⟩ := ih h index
      refine ⟨forall_mem_cons.mpr ⟨fun hne => absurd rfl hne, hemits⟩,
        pairwise_cons.mpr ⟨fun _ _ hne => absurd rfl hne, hpairwise⟩⟩
    | none =>
      obtain ⟨unit, l', hadd, hparse, hl'⟩ := h.add_ok he
      simp only [loadAll, hadd, zip_cons_cons, compileLoaded]
      obtain ⟨hemits, hpairwise⟩ := ih hl' (index + 1)
      have hinput := (compileUnit_analysed exports options index input unit).1
      refine ⟨forall_mem_cons.mpr ⟨fun hne => ⟨compileUnit_emits hparse hne, ?_⟩,
        fun r hr hne => ?_⟩, pairwise_cons.mpr ⟨fun r hr _ hne => ?_, hpairwise⟩⟩
      · rw [UnitResult.className, hinput]
        exact SourceInput.class_ne_of_loadError? he
      · obtain ⟨hr, hbefore⟩ := hemits r hr hne
        exact ⟨hr, fun other hother => hbefore other (mem_append_left _ hother)⟩
      · rw [UnitResult.className, hinput]
        exact (hemits r hr hne).2 input (mem_append_right _ (mem_singleton_self _))

/-- **Files have different names exactly if no unit with files has the class of a record of another
one.** -/
theorem compile_fileNames_nodup_iff (inputs : List SourceInput) (options : CompileOptions) :
    ((compile inputs options).flatMap UnitResult.fileNames).Nodup ↔
      ∀ r ∈ compile inputs options, ∀ r' ∈ compile inputs options, r.artifacts ≠ [] →
        r'.artifacts ≠ [] → r.className ∉ r'.recordClasses := by
  obtain ⟨hemits, hclasses⟩ := compileLoaded_emits Loader.holds_empty inputs
    (.publish (loadedUnits (loadAll .empty inputs))) options 0
  change ∀ r ∈ compile inputs options, _ at hemits
  rw [List.nodup_flatMap]
  constructor
  · rintro ⟨-, hdisjoint⟩ r hr r' hr' hne hne' hmem
    have hr₁ := (hemits r hr hne).1
    have hr₂ := (hemits r' hr' hne').1
    have hother : r ≠ r' := by
      rintro rfl
      exact hr₁.className_not_mem hmem
    have hsymm : Std.Symm (Function.onFun List.Disjoint UnitResult.fileNames) :=
      ⟨fun _ _ h _ hx hx' => h hx' hx⟩
    exact hdisjoint.forall hr hr' hother
      ((UnitResult.mem_fileNames hr₁).mpr (.inl ⟨r.className, .inr rfl, rfl⟩))
      ((UnitResult.mem_fileNames hr₂).mpr (.inl ⟨r.className, .inl hmem, rfl⟩))
  · intro h
    refine ⟨fun r hr => ?_, hclasses.imp_of_mem fun {r r'} hr hr' hne => ?_⟩
    · by_cases hfiles : r.artifacts = []
      · rw [UnitResult.fileNames, hfiles]
        exact List.nodup_nil
      · exact (hemits r hr hfiles).1.nodup
    · show r.fileNames.Disjoint r'.fileNames
      by_cases hfiles : r.artifacts = []
      · rw [UnitResult.fileNames, hfiles]
        exact List.disjoint_nil_left _
      by_cases hfiles' : r'.artifacts = []
      · rw [show r'.fileNames = [] by rw [UnitResult.fileNames, hfiles', List.map_nil]]
        exact List.disjoint_nil_right _
      · exact (hemits r hr hfiles).1.disjoint (hemits r' hr' hfiles').1 (hne hfiles hfiles')
          (h r hr r' hr' hfiles hfiles') (h r' hr' r hr hfiles' hfiles)

/-- A unit with a record, and a unit with the class of that record. -/
def sharedClass : List SourceInput :=
  [⟨"a", none, "struct R \x7b x: int \x7d"⟩, ⟨"a$R", none, "print(1);"⟩]

theorem sharedClass_clobbers :
    ¬ ((compile sharedClass ⟨.jasmin, false, false⟩).flatMap UnitResult.fileNames).Nodup := by
  decide +kernel

/-- A unit that declares a record and fails, one with the class of that record, and one that uses
it. -/
def maskedRecord : List SourceInput :=
  [⟨"a", none, "struct R \x7b x: int \x7d val y: int = true;"⟩, ⟨"a$R", none, "print(1);"⟩,
    ⟨"b", none, "val r = R(1);"⟩]

/-- The files of each unit, and whether a piece of text stands in them. -/
def filesWith (piece : String) (inputs : List SourceInput) : List (List (String × Bool)) :=
  (compile inputs ⟨.jasmin, false, false⟩).map fun result =>
    result.artifacts.map fun file =>
      (file.fileName, file.contents.toList.tails.any piece.toList.isPrefixOf)

/-- The class that is called has no constructor. -/
theorem maskedRecord_unlinked :
    filesWith "invokespecial a$R/<init>(I)V" maskedRecord =
      [[], [("a$R.j", false)], [("b.j", true)]] ∧
    filesWith ".method public <init>" maskedRecord =
      [[], [("a$R.j", false)], [("b.j", false)]] := by
  decide +kernel

end StackCompiler

import StackCompiler.Proofs.Agreement
import StackCompiler.Proofs.Reanalysis
import StackCompiler.Proofs.TypeSafety

/-!
# Complete annotation

If the analysis finds nothing wrong with a unit, then no note is missing, and what the notes say
fits together: in code that is never reached, in callees and in what is assigned to as well.

* `SourceUnit.analyzeAlone_records`: records have the numbers that the analysis knows them by;
* **`Accepted.all_annotated`**: all expressions and declarations of an accepted unit are annotated.
-/

namespace StackCompiler

theorem Item.Alike.eq_record {item : Item} {decl : RecordDecl}
    (h : Item.Alike item (.record decl)) : item = .record decl := by
  cases h
  rfl

theorem SourceUnit.analyzeAlone_records {unit unit' : SourceUnit} {a : Analysis} {decl : RecordDecl}
    (h : unit.analyzeAlone = (unit', a)) (hdecl : .record decl ∈ unit'.items) :
    (Declaration.record decl).Annotated a := by
  obtain ⟨s, items, _, _, _, _, _, _, _, hnames, hsame, -, hrecords, -, -, hitems, -⟩ :=
    SourceUnit.analyze_steps h
  obtain ⟨-, -, -, -, rfl, -⟩ := declareRecords_run hnames hrecords
  obtain ⟨index, hlt, hindex⟩ := List.mem_iff_getElem.mp hdecl
  -- the item has been a record before, with the number of its position
  obtain ⟨hlength, halike⟩ := List.forall₂_iff_get.mp ((analyzeItems_alike _ _ _ _).of_eq hitems).1
  have hitem := halike index (hlength ▸ hlt) hlt
  rw [List.get_eq_getElem, List.get_eq_getElem, hindex] at hitem
  have hbefore : (Item.numbered s.unitIndex 0 unit.items)[index]? = some (.record decl) := by
    rw [List.getElem?_eq_getElem (hlength ▸ hlt)]
    exact congrArg some hitem.eq_record
  rw [getElem?_numbered, show s.unitIndex = 0 from hsame.unitIndex, Nat.zero_add] at hbefore
  obtain ⟨item, hread, heq⟩ := Option.map_eq_some_iff.mp hbefore
  cases item with
  | record record =>
    cases heq
    have halone : unit.analyze 0 (.publish []) = _ := h
    exact ⟨_, _, rfl, SourceUnit.record?_own halone hread, rfl⟩
  | _ => cases heq

theorem Item.mem_stmts_cases {items : List Item} {item : Item} (h : item ∈ items) :
    (∃ decl, item = .record decl) ∨ ∃ stmt ∈ Item.stmts items, item.exprs = stmt.exprs ∧
      item.declarations = stmt.declarations := by
  cases item with
  | record decl => exact .inl ⟨decl, rfl⟩
  | function f =>
    refine .inr ⟨.function f.head f.body, List.mem_filterMap.mpr ⟨.function f, h, rfl⟩, ?_, rfl⟩
    rw [Stmt.exprs]
    rfl
  | stmt stmt => exact .inr ⟨stmt, List.mem_filterMap.mpr ⟨.stmt stmt, h, rfl⟩, rfl, rfl⟩

/-- **Nothing is missing from the notes of a unit with nothing wrong in it.** Every expression has
a type without errors, every name is bound to a symbol of that name, every call is resolved and gets
arguments of the types of the parameters, every field has its position, what is widened can be, and
every declaration has its number. -/
theorem Accepted.all_annotated {name source : String} {unit : SourceUnit} {a : Analysis}
    (h : Accepted name source unit a) :
    (∀ e ∈ unit.exprs, e.Annotated a) ∧ ∀ d ∈ unit.declarations, d.Annotated a := by
  have hsound := h.sound
  obtain ⟨read, hread, hanalyzed⟩ := h.analyzed
  constructor
  · intro e he
    obtain ⟨item, hitem, he⟩ := List.mem_flatMap.mp he
    obtain ⟨decl, rfl⟩ | ⟨stmt, hstmt, heq, -⟩ := Item.mem_stmts_cases hitem
    · cases he
    · exact (hsound.annotated.1 e (Stmt.mem_exprsAll.mpr ⟨stmt, hstmt, heq ▸ he⟩)).toAnnotated
  · intro d hd
    obtain ⟨item, hitem, hd⟩ := List.mem_flatMap.mp hd
    obtain ⟨decl, rfl⟩ | ⟨stmt, hstmt, -, heq⟩ := Item.mem_stmts_cases hitem
    · rw [List.mem_singleton.mp hd]
      exact SourceUnit.analyzeAlone_records hanalyzed hitem
    · exact hsound.annotated.2 d (Stmt.mem_declarationsAll.mpr ⟨stmt, hstmt, heq ▸ hd⟩)

/-- A unit with a widening, code that is never reached, and the least number. -/
def leastSource : String :=
  "struct P \x7bx: int\x7d
function f(p: P) -> long \x7b
return p.x + 1L;
p.x = -2147483648;
\x7d
f(P(2));"

/-- All of its expressions and declarations are annotated. -/
theorem least_annotated : ∃ unit a, Accepted "least" leastSource unit a ∧
    (unit.exprs.length = 13 ∧ unit.declarations.length = 3) ∧
    (∀ e ∈ unit.exprs, e.Annotated a) ∧ ∀ d ∈ unit.declarations, d.Annotated a := by
  obtain ⟨unit, a, h, hlength⟩ := exists_accepted (show isAccepted "least" leastSource
    (fun unit _ => unit.exprs.length == 13 && unit.declarations.length == 3) = true by
      decide +kernel)
  obtain ⟨hexprs, hdeclarations⟩ := Bool.and_eq_true_iff.mp hlength
  exact ⟨unit, a, h, ⟨eq_of_beq hexprs, eq_of_beq hdeclarations⟩, Accepted.all_annotated h⟩

end StackCompiler

import StackCompiler.Ast.OfParseTree
import StackCompiler.Proofs.ScopeNames

/-!
# Errors inside of array types

What has been reported goes with every value, but an array of it goes with none. So one wrong name
in an array type is reported twice: by itself, and where a value is checked against the type.

* **`expectType_array`**: a value is reported if an array of what has been reported is expected.
-/

namespace StackCompiler

variable {e : Expr} {found elem : Ty}

/-- An array of what has been reported goes with nothing that is right. -/
theorem Ty.coercibleTo_array (hfound : found.containsError = false)
    (helem : elem.containsError = true) : found.coercibleTo (.array elem) = false := by
  have hne : (found == .array elem) = false := beq_eq_false_iff_ne.mpr fun he => by
    subst he
    cases hfound.symm.trans helem
  rw [coercibleTo, hne]
  cases found with
  | error => cases hfound
  | _ => rfl

/-- **A wrong name inside of an array type is reported once more with each value.** -/
theorem expectType_array (hty : e.ty? = some found) (hfound : found.containsError = false)
    (helem : elem.containsError = true) (construct : Construct) (s : AnalysisState) :
    (expectType e (.array elem) construct s).2.diagnostics = s.diagnostics ++
      [⟨.typeMismatch, "expected `" ++ (Ty.array elem).text ++ "`, found `" ++ found.text ++ "`",
        e.span, construct⟩] := by
  rw [expectType, hty, Option.getD_some, Ty.coercibleTo_array hfound helem]
  rfl

/-- The kinds of what is wrong with a text that can be read. -/
def wrongKinds (source : String) : Option (List DiagnosticKind) :=
  (SourceUnit.parse "t" source).toOption.map fun unit =>
    (unit.analyzeAlone.2.diagnostics.filter Diagnostic.isError).map Diagnostic.kind

/-- Nothing is wrong with a text, and one name of a type is written differently. -/
theorem oneUnknownName_cascades : wrongKinds "val x: int[] = [1];" = some [] ∧
    wrongKinds "val x: foo[] = [1];" = some [.unresolvedName, .typeMismatch] := by
  decide +kernel

end StackCompiler

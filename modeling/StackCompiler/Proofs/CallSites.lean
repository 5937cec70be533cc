import StackCompiler.Proofs.StackSafety
import StackCompiler.Proofs.StackTypes

/-!
# What methods refer to

The instructions of a method refer to what its unit knows. A nested function is handed the variables
that it captures after its arguments, and all methods agree on their order: whoever calls the
function pushes them right before the call, one after the other.

* **`generateMethod_linked`**, **`generateConstructor_linked`**: so do all methods.
-/

namespace StackCompiler

variable {a : Analysis} {m : Method}

/-- Instructions refer to what the unit knows. Right before a function is called, its captured
variables are pushed, in the order in which its method takes them. -/
structure Method.Linked (a : Analysis) (m : Method) : Prop where
  refers : ∀ (pos : Nat) i, m.body.code[pos]? = some i → a.Refers (m.subjectAt pos) i
  pushed : ∀ pos id, m.subjectAt pos = some (.function id) → ∃ info, a.functions[id]? = some info ∧
    info.captures.length ≤ pos ∧ ∀ (j : Nat) x, info.captures[j]? = some x →
      ∃ i, m.body.code[pos - info.captures.length + j]? = some i ∧ a.PushedBy x i ∧
        m.subjectAt (pos - info.captures.length + j) = some (.symbol x)

theorem Analysis.PushedBy.cases {x : SymbolId} {i : Instruction} (h : a.PushedBy x i) :
    ∃ symbol, a.symbols[x]? = some symbol ∧
      (symbol.isGlobal = true ∧ (∃ field, i = .getStatic field) ∨
        symbol.isGlobal = false ∧ ∃ kind slot, i = .load kind slot) := by
  obtain ⟨f, hf, hload⟩ := h
  obtain ⟨symbol', hx', hload⟩ := Frame.loadInstruction_eq_ok.mp hload
  obtain ⟨symbol, hx, hsame⟩ := hf.symbol_of hx'
  refine ⟨symbol, hx, ?_⟩
  rw [← hsame.isGlobal]
  obtain ⟨hg, ref, -, rfl⟩ | ⟨hg, kind, -, slot, -, rfl⟩ := hload
  · exact .inl ⟨hg, ref, rfl⟩
  · exact .inr ⟨hg, kind, slot, rfl⟩

theorem Analysis.PushedBy.target? {x : SymbolId} {i : Instruction} (h : a.PushedBy x i) :
    i.target? = none := by
  obtain ⟨_, -, ⟨-, _, rfl⟩ | ⟨-, _, _, rfl⟩⟩ := h.cases <;> rfl

/-- The method is what a buffer has become. -/
structure Method.Finishes (m : Method) (complete : CodeBuffer) : Prop where
  leads : ∃ limit, (CodeBuffer.start limit).Leads complete
  code : complete.Finishes m.body.code
  subjects : m.subjects = complete.subjects.toList

theorem finishMethod_finishes {origin : MethodOrigin} {header : MethodHeader} {ret : Option Kind}
    {b : CodeBuffer} {slots : SlotAllocator} (h : finishMethod origin header ret b slots = .ok m)
    {limit : Option Nat} (hb : (CodeBuffer.start limit).Leads b) : m.Finishes b := by
  unfold finishMethod at h
  split at h
  · cases h
  rename_i code maxStack hfinish
  dsimp only at h
  split at h
  · cases h
  cases h
  exact ⟨⟨limit, hb⟩, (CodeBuffer.finish_eq_ok.mp hfinish).2, rfl⟩

/-- Placing labels changes neither what is referred to nor what is pushed before calls. -/
theorem Method.Finishes.linked {b : CodeBuffer} (h : m.Finishes b) (hb : b.Linked a) :
    m.Linked a := by
  have hfin := h.code
  have hsubject (pos : Nat) (x : Subject) : m.subjectAt pos = some x ↔
      b.subjects[pos]? = some (some x) := by
    rw [Method.subjectAt, h.subjects, Array.getElem?_toList, Option.join_eq_some_iff]
  refine ⟨fun pos i' hi' => ?_, fun pos id hid => ?_⟩
  · have hpos : pos < b.code.size := hfin.size ▸ (Array.getElem?_eq_some_iff.mp hi').1
    have hpos' : pos < b.subjects.size := hb.subjects ▸ hpos
    have hrefers := hb.refers pos _ _ (Array.getElem?_eq_getElem hpos)
      (Array.getElem?_eq_getElem hpos')
    obtain ⟨i, hplaces, hi⟩ := hfin.places pos _ (Array.getElem?_eq_getElem hpos)
    cases hi'.symm.trans hi
    have hx : m.subjectAt pos = b.subjects[pos] := by
      rw [Method.subjectAt, h.subjects, Array.getElem?_toList, Array.getElem?_eq_getElem hpos']
      rfl
    rw [hx]
    cases hplaces with
    | jump => exact hrefers.retarget _
    | other => exact hrefers
  obtain ⟨info, hinfo, hle, hpushed⟩ := hb.pushed pos id ((hsubject pos _).mp hid)
  refine ⟨info, hinfo, hle, fun j x hx => ?_⟩
  obtain ⟨i, hi, hby, hx'⟩ := hpushed j x hx
  obtain ⟨i', hplaces, hcode⟩ := hfin.places _ i hi
  refine ⟨i, ?_, hby, (hsubject _ _).mpr hx'⟩
  cases hplaces with
  | jump target => cases hby.target?.symm.trans target
  | other => exact hcode

/-- **The method of a function refers to what is known, with captured variables in order.** -/
theorem generateMethod_linked {id : FnId} {params : List Param} {body : List Stmt} {s s' : GenState}
    (ha : a.SameButSlots s.analysis) (h : generateMethod id params body s = .ok m s') :
    m.Linked a := by
  obtain ⟨hrun, hcalls, _, _, -, -, hfinish⟩ := generateMethod_run ha h
  exact (finishMethod_finishes hfinish hrun.code).linked hcalls

/-- **A constructor refers to what is known.** -/
theorem generateConstructor_linked {limit : Option Nat} {record : RecordInfo}
    {fields : List (String × JvmType)} (hfields : a.HasFields record.className fields)
    (h : generateConstructor limit record fields = .ok m) : m.Linked a := by
  unfold generateConstructor at h
  obtain ⟨⟨slots, code⟩, hcode, hfinish⟩ := Except.bind_eq_ok.mp h
  have hbuilt := constructorCode_built limit hfields
  exact (finishMethod_finishes hfinish (hbuilt.runs .leads hcode)).linked
    (hbuilt.linked hcode (CodeBuffer.start_linked a limit))

end StackCompiler

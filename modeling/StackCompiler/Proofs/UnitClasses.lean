import StackCompiler.Compilation
import StackCompiler.Proofs.StackSafety

/-!
# The classes of a unit

What is handed on for a unit describes whole classes: one for each of its records, and one for the
unit itself.

* **`generate_classes`**: the classes that are described for a unit.
-/

namespace StackCompiler

open List

variable {a : Assembly} {header : MethodHeader} {unit : SourceUnit} {assembly : Assembly}
  {placed : Bool}

/-! ## Descriptions of classes -/

def Member.requests : Member → List Request
  | .field f => [.addField f]
  | .method m => m.requests

def ClassFile.requests (c : ClassFile) : List Request :=
  .beginClass c.header :: (c.members.toList.flatMap Member.requests ++ [.endClass])

namespace Assembly

variable {placed : Bool} {done : Array ClassFile} {draft : ClassFile} {a' : Assembly}

theorem acceptAll_cons_eq_ok {request : Request} {rest : List Request} :
    acceptAll placed a (request :: rest) = .ok () a' ↔
      ∃ a1, a.accept placed request = .ok a1 ∧ acceptAll placed a1 rest = .ok () a' := by
  rw [acceptAll]
  cases a.accept placed request with
  | error e => simp
  | ok a1 => simp

theorem acceptAll_append_eq_ok {first rest : List Request} :
    acceptAll placed a (first ++ rest) = .ok () a' ↔
      ∃ a1, acceptAll placed a first = .ok () a1 ∧ acceptAll placed a1 rest = .ok () a' := by
  induction first generalizing a with
  | nil => simp [acceptAll]
  | cons request first ih =>
    simp only [cons_append, acceptAll_cons_eq_ok, ih]
    constructor
    · rintro ⟨a1, h1, a2, h2, h3⟩
      exact ⟨a2, ⟨a1, h1, h2⟩, h3⟩
    · rintro ⟨a2, ⟨a1, h1, h2⟩, h3⟩
      exact ⟨a1, h1, a2, h2, h3⟩

theorem acceptAll_code {code : Array Instruction} {is : List Instruction}
    (h : acceptAll placed ⟨done, .inMethod draft header code⟩ (is.map .emit) =
      .ok () a) : a = ⟨done, .inMethod draft header (code ++ is.toArray)⟩ := by
  induction is generalizing code with
  | nil =>
    cases h
    rw [Array.append_empty]
  | cons i is ih =>
    obtain ⟨a1, hfirst, hrest⟩ := acceptAll_cons_eq_ok.mp h
    have ha1 : a1 = ⟨done, .inMethod draft header (code.push i)⟩ := by
      simp only [accept] at hfirst
      split at hfirst
      · cases hfirst
      · cases hfirst
        rfl
    subst ha1
    rw [ih hrest]
    simp

theorem acceptAll_member {m : Member}
    (h : acceptAll placed ⟨done, .inClass draft⟩ m.requests = .ok () a) :
    a = ⟨done, .inClass ⟨draft.header, draft.members.push m⟩⟩ := by
  cases m with
  | field field =>
    cases h
    rfl
  | method method =>
    obtain ⟨a1, hbegin, h⟩ := acceptAll_cons_eq_ok.mp h
    cases hbegin
    obtain ⟨a2, hcode, hend⟩ := acceptAll_append_eq_ok.mp h
    have ha2 := acceptAll_code hcode
    subst ha2
    cases hend
    simp

theorem acceptAll_members {ms : List Member}
    (h : acceptAll placed ⟨done, .inClass draft⟩ (ms.flatMap Member.requests) = .ok () a) :
    a = ⟨done, .inClass ⟨draft.header, draft.members ++ ms.toArray⟩⟩ := by
  induction ms generalizing draft with
  | nil =>
    cases h
    simp
  | cons m ms ih =>
    obtain ⟨a1, hfirst, hrest⟩ := acceptAll_append_eq_ok.mp h
    have ha1 := acceptAll_member hfirst
    subst ha1
    rw [ih hrest]
    simp

/-- **Classes that are described and accepted are complete, and in the order of description.** -/
theorem acceptAll_classes {classes : List ClassFile}
    (h : acceptAll placed ⟨done, .idle⟩ (classes.flatMap ClassFile.requests) = .ok () a) :
    a = ⟨done ++ classes.toArray, .idle⟩ := by
  induction classes generalizing done with
  | nil =>
    cases h
    simp
  | cons c classes ih =>
    obtain ⟨a1, hfirst, hrest⟩ := acceptAll_append_eq_ok.mp h
    obtain ⟨a2, hbegin, hfirst⟩ := acceptAll_cons_eq_ok.mp hfirst
    cases hbegin
    obtain ⟨a3, hmembers, hend⟩ := acceptAll_append_eq_ok.mp hfirst
    have ha3 := acceptAll_members hmembers
    subst ha3
    cases hend
    rw [ih hrest]
    simp

end Assembly

/-! ## What steps add -/

/-- The requests and methods that a step adds to those before it have a property. -/
def Generate.Adds {α : Type} (a : Analysis) (m : Generate α)
    (Q : α → List Request → List Method → Prop) : Prop :=
  ∀ ⦃s x s'⦄, a.SameButSlots s.analysis → m s = .ok x s' → a.SameButSlots s'.analysis ∧
    ∃ requests methods, s'.requests.toList = s.requests.toList ++ requests ∧
      s'.methods.toList = s.methods.toList ++ methods ∧ Q x requests methods

namespace Generate.Adds

variable {α β : Type} {a : Analysis} {Q : α → List Request → List Method → Prop}
  {R : β → List Request → List Method → Prop} {f : α → Generate β} {m : Generate α}

theorem bind (hm : Adds a m Q) (hf : ∀ x requests methods, Q x requests methods →
      Adds a (f x) fun y requests' methods' => R y (requests ++ requests') (methods ++ methods')) :
    Adds a (m >>= f) R := by
  intro s y s' hs h
  obtain ⟨x, s1, hx, h⟩ := Generate.bind_eq_ok.mp h
  obtain ⟨hs1, rs, ms, hrs, hms, hq⟩ := hm hs hx
  obtain ⟨hs', rs', ms', hrs', hms', hr⟩ := hf x rs ms hq hs1 h
  exact ⟨hs', rs ++ rs', ms ++ ms', by rw [hrs', hrs, append_assoc],
    by rw [hms', hms, append_assoc], hr⟩

theorem quiet (h : ∀ ⦃s x s'⦄, a.SameButSlots s.analysis → m s = .ok x s' →
      a.SameButSlots s'.analysis ∧ s'.requests = s.requests ∧ s'.methods = s.methods ∧ Q x [] []) :
    Adds a m Q := by
  intro s x s' hs hx
  obtain ⟨hs', hrs, hms, hq⟩ := h hs hx
  exact ⟨hs', [], [], by rw [hrs, append_nil], by rw [hms, append_nil], hq⟩

theorem pure {x : α} (h : Q x [] []) : Adds a (pure x) Q := quiet fun s y s' hs hy => by
  obtain ⟨rfl, rfl⟩ := Generate.pure_eq_ok.mp hy
  exact ⟨hs, rfl, rfl, h⟩

theorem getThen {f : GenState → Generate β}
    (hf : ∀ s, a.SameButSlots s.analysis → Adds a (f s) R) : Adds a (do f (← get)) R := by
  intro s y s' hs h
  obtain ⟨s1, s2, hget, h⟩ := Generate.bind_eq_ok.mp h
  obtain ⟨rfl, rfl⟩ := Generate.get_eq_ok.mp hget
  exact hf s2 hs hs h

theorem computeThen {x : Except GenerateError α} (hf : ∀ y, x = .ok y → Adds a (f y) R) :
    Adds a (do f (← Generate.compute x)) R := by
  intro s y s' hs h
  obtain ⟨z, s1, hz, hrest⟩ := Generate.bind_eq_ok.mp h
  obtain ⟨hx, rfl⟩ := Generate.compute_eq_ok.mp hz
  exact hf z hx hs hrest

/-- One step for each thing in a list: what they add is put together. -/
theorem forM {γ δ : Type} {f : γ → Generate Unit} {P : γ → δ → Prop}
    {r : δ → List Request} {m : δ → List Method} (xs : List γ)
    (hf : ∀ x ∈ xs, Adds a (f x) fun _ rs ms => ∃ y, P x y ∧ rs = r y ∧ ms = m y) :
    Adds a (xs.forM f) fun _ rs ms => ∃ ys, List.Forall₂ P xs ys ∧ rs = ys.flatMap r ∧
      ms = ys.flatMap m := by
  induction xs with
  | nil => exact .pure ⟨[], .nil, rfl, rfl⟩
  | cons x xs ih =>
    obtain ⟨hx, hxs⟩ := forall_mem_cons.mp hf
    refine hx.bind fun _ rs ms hfirst => ?_
    obtain ⟨y, hy, rfl, rfl⟩ := hfirst
    intro s u s' hs h
    obtain ⟨hs', rs, ms, hrs, hms, ys, hys, rfl, rfl⟩ := ih hxs hs h
    exact ⟨hs', _, _, hrs, hms, y :: ys, .cons hy hys, rfl, rfl⟩

end Generate.Adds

section

variable (a : Analysis)

theorem send_adds (r : Request) :
    Generate.Adds a (send r) fun _ requests methods => requests = [r] ∧ methods = [] := by
  intro s _ s' hs h
  cases h
  exact ⟨hs, [r], [], by simp, by simp, rfl, rfl⟩

theorem sendMethod_adds (m : Method) : Generate.Adds a (sendMethod m) fun _ requests methods =>
    requests = m.body.requests ∧ methods = [m] := by
  intro s _ s' hs h
  cases h
  exact ⟨hs, m.body.requests, [m], by simp, by simp, rfl, rfl⟩

/-! ## Records -/

/-- The fields of a record with the types that they have in its class. -/
def Analysis.FieldTypes (fields : List (String × Ty)) (types : List (String × JvmType)) : Prop :=
  List.Forall₂ (fun field t => t.1 = field.1 ∧ a.jvmType field.2 = .ok t.2) fields types

/-- The member of a class for a field of a record. -/
def recordField (t : String × JvmType) : Member := .field ⟨t.1, t.2, false⟩

/-- The class of a record has its fields and one constructor, which takes a value for each of them.
-/
def Analysis.RecordClass (source : String) (record : RecordInfo) (c : ClassFile) : Prop :=
  c.header = ⟨record.className, objectClass, source⟩ ∧ ∃ types init,
    a.FieldTypes record.fields types ∧ init.header = ⟨"<init>", types.map Prod.snd, .void, false⟩ ∧
    c.members.toList = types.map recordField ++ [.method init]

theorem sendFields_adds (fields : List (String × Ty)) :
    Generate.Adds a (sendFields fields) fun types requests methods => a.FieldTypes fields types ∧
      requests = (types.map recordField).flatMap Member.requests ∧ methods = [] := by
  induction fields with
  | nil => exact .pure ⟨.nil, rfl, rfl⟩
  | cons field fields ih =>
    refine .getThen fun s hs => .computeThen fun t ht => (send_adds a _).bind ?_
    rintro _ _ _ ⟨rfl, rfl⟩
    refine ih.bind ?_
    rintro types _ _ ⟨htypes, rfl, rfl⟩
    exact .pure ⟨.cons ⟨rfl, hs.jvmType field.2 ▸ ht⟩
      htypes, by simp [recordField, Member.requests], rfl⟩

theorem finishMethod_eq_ok {origin : MethodOrigin} {ret : Option Kind} {buffer : CodeBuffer}
    {slots : SlotAllocator} {m : Method} (h : finishMethod origin header ret buffer slots = .ok m) :
    m.origin = origin ∧ m.body.header = header := by
  unfold finishMethod at h
  split at h
  · cases h
  · dsimp only at h
    split at h
    · cases h
    · cases h
      exact ⟨rfl, rfl⟩

theorem generateRecord_adds (source : String) (record : RecordInfo) :
    Generate.Adds a (generateRecord source record) fun _ requests methods => ∃ p :
      ClassFile × Method, (a.RecordClass source record p.1 ∧ p.2.origin = .record record.decl) ∧
        requests = p.1.requests ∧ methods = [p.2] := by
  refine (send_adds a _).bind ?_
  rintro _ _ _ ⟨rfl, rfl⟩
  refine (sendFields_adds a _).bind ?_
  rintro types _ _ ⟨htypes, rfl, rfl⟩
  refine .getThen fun s hs => .computeThen fun init hinit => (sendMethod_adds a init).bind ?_
  rintro _ _ _ ⟨rfl, rfl⟩
  obtain ⟨⟨slots, code⟩, -, hfinish⟩ := Except.bind_eq_ok.mp hinit
  obtain ⟨horigin, hheader⟩ := finishMethod_eq_ok hfinish
  intro t _ t' ht h
  obtain ⟨ht', _, _, hrs, hms, rfl, rfl⟩ := send_adds a .endClass ht h
  refine ⟨ht', _, _, hrs, hms,
    (⟨⟨record.className, objectClass, source⟩,
      (types.map recordField ++ [Member.method init.body]).toArray⟩,
      init), ⟨⟨rfl, types, init.body, htypes, hheader, rfl⟩, horigin⟩, ?_, rfl⟩
  simp [ClassFile.requests, Member.requests]

/-! ## Methods of functions -/

/-- The method is that of a function, with the head that the function has. -/
def Analysis.FunctionMethod (id : FnId) (m : Method) : Prop :=
  m.origin = .function id ∧ methodHeader a id = .ok m.body.header

theorem Analysis.SameButSlots.methodHeader {a a' : Analysis} (h : a.SameButSlots a') (id : FnId) :
    methodHeader a' id = methodHeader a id := by
  unfold StackCompiler.methodHeader
  rw [h.methodRef]

theorem generateMethod_adds (id : FnId) (params : List Param) (body : List Stmt) :
    Generate.Adds a (generateMethod id params body) fun m requests methods =>
      a.FunctionMethod id m ∧ requests = [] ∧ methods = [] := by
  refine .quiet fun s m s' hs h => ?_
  obtain ⟨hrun, -, info, header, -, hheader, hfinish⟩ := generateMethod_run hs h
  have hs' := hs.trans hrun.analysis
  obtain ⟨horigin, rfl⟩ := finishMethod_eq_ok hfinish
  exact ⟨hs', hrun.requests, hrun.methods, ⟨horigin, hs'.methodHeader id ▸ hheader⟩, rfl, rfl⟩

theorem generateFunction_adds (f : FunctionDecl) :
    Generate.Adds a (generateFunction f) fun _ requests methods => ∃ m : Method,
      (∃ id, f.head.id = some id ∧ a.FunctionMethod id m) ∧ requests = m.body.requests ∧
        methods = [m] := by
  unfold generateFunction
  split
  · intro s _ s' _ h
    exact absurd h Generate.throw_ne_ok
  · rename_i id hid
    refine (generateMethod_adds a _ _ _).bind ?_
    rintro m _ _ ⟨hm, rfl, rfl⟩
    intro s _ s' hs h
    obtain ⟨hs', _, _, hrs, hms, rfl, rfl⟩ := sendMethod_adds a m hs h
    exact ⟨hs', _, _, hrs, hms, m, ⟨id, hid, hm⟩, rfl, rfl⟩

theorem nextPending_adds : Generate.Adds a nextPending fun _ requests methods =>
    requests = [] ∧ methods = [] := by
  refine .quiet fun s f s' hs h => ?_
  simp only [nextPending, Generate.bind_eq_ok, Generate.get_eq_ok] at h
  obtain ⟨t, _, ⟨ht, rfl⟩, h⟩ := h
  subst ht
  cases hp : t.pending with
  | nil =>
    rw [hp] at h
    cases h
    exact ⟨hs, rfl, rfl, rfl, rfl⟩
  | cons f rest =>
    rw [hp] at h
    cases h
    exact ⟨hs, rfl, rfl, rfl, rfl⟩

def Analysis.FunctionMethods (requests : List Request) (methods : List Method) : Prop :=
  requests = methods.flatMap (·.body.requests) ∧ ∀ m ∈ methods, ∃ id, a.FunctionMethod id m

theorem Analysis.FunctionMethods.append {a : Analysis} {rs rs' : List Request}
    {ms ms' : List Method} (h : a.FunctionMethods rs ms) (h' : a.FunctionMethods rs' ms') :
    a.FunctionMethods (rs ++ rs') (ms ++ ms') := by
  refine ⟨?_, forall_mem_append.mpr ⟨h.2, h'.2⟩⟩
  rw [h.1, h'.1, flatMap_append]

theorem Analysis.FunctionMethods.single {a : Analysis} {m : Method} {id : FnId}
    (h : a.FunctionMethod id m) : a.FunctionMethods m.body.requests [m] :=
  ⟨by simp, by simpa using ⟨id, h⟩⟩

theorem generatePending_adds (fuel : Nat) :
    Generate.Adds a (generatePending fuel) fun _ => a.FunctionMethods := by
  induction fuel with
  | zero => exact .pure ⟨rfl, by simp⟩
  | succ fuel ih =>
    refine (nextPending_adds a).bind ?_
    rintro f _ _ ⟨rfl, rfl⟩
    cases f with
    | none => exact .pure ⟨rfl, by simp⟩
    | some f =>
      refine (generateFunction_adds a f).bind ?_
      rintro _ _ _ ⟨m, ⟨id, -, hm⟩, rfl, rfl⟩
      intro s _ s' hs h
      obtain ⟨hs', rs, ms, hrs, hms, hrest⟩ := ih hs h
      exact ⟨hs', rs, ms, hrs, hms, (Analysis.FunctionMethods.single hm).append hrest⟩

/-! ## Units -/

/-- The member of the class of a unit for a global variable. -/
def Analysis.GlobalMember (id : SymbolId) (member : Member) : Prop :=
  ∃ symbol field, a.symbols[id]? = some symbol ∧ a.globalField symbol = .ok field ∧
    member = .field ⟨field.name, field.ty, true⟩

/-- The class of a unit has a field for each global variable, and the given methods. -/
def Analysis.UnitClass (source : String) (methods : List Method) (c : ClassFile) : Prop :=
  c.header = ⟨a.className, objectClass, source⟩ ∧ ∃ fields,
    List.Forall₂ a.GlobalMember a.globals fields ∧
    c.members.toList = fields ++ methods.map (.method ·.body)

theorem sendGlobal_adds (id : SymbolId) :
    Generate.Adds a (sendGlobal id) fun _ requests methods => ∃ member, a.GlobalMember id member ∧
      requests = member.requests ∧ methods = [] := by
  refine .getThen fun s hs => ?_
  intro t _ t' ht h
  simp only [Generate.symbol, Generate.bind_eq_ok, Generate.get_eq_ok, Generate.compute_eq_ok] at h
  obtain ⟨symbol, _, ⟨_, _, ⟨rfl, rfl⟩, hsymbol, rfl⟩, field, _, ⟨hfield, rfl⟩, h⟩ := h
  obtain ⟨ht', _, _, hrs, hms, rfl, rfl⟩ := send_adds a _ ht h
  obtain ⟨symbol0, hsymbol0, hsame⟩ := ht.symbol_of (Analysis.symbol_eq_ok.mp hsymbol)
  exact ⟨ht', _, _, hrs, hms, _, ⟨symbol0, field, hsymbol0, hs.globalField hsame ▸ hfield, rfl⟩,
    rfl, rfl⟩

/-- The classes that are described for a unit, and the methods in them. -/
structure Analysis.UnitClasses (source : String) (classes : List ClassFile)
    (methods : List Method) : Prop where
  split : ∃ records unitClass constructors functions, classes = records ++ [unitClass] ∧
    methods = constructors ++ functions ∧
    List.Forall₂ (a.RecordClass source) a.declaredRecords records ∧
    (∀ m ∈ constructors, ∃ decl, m.origin = .record decl) ∧
    a.UnitClass source functions unitClass ∧
    ∀ m ∈ functions, ∃ id, a.FunctionMethod id m

theorem generateUnit_adds (unit : SourceUnit) :
    Generate.Adds a (generateUnit unit) fun _ requests methods => ∃ classes,
      requests = classes.flatMap ClassFile.requests ∧ a.UnitClasses unit.name classes methods := by
  refine .getThen fun s hs => ?_
  have hdeclared : s.analysis.declaredRecords = a.declaredRecords := by
    rw [Analysis.declaredRecords, Analysis.declaredRecords, hs.records]
  rw [hdeclared]
  refine (Generate.Adds.forM (r := fun p : ClassFile × Method => p.1.requests)
    (m := fun p => [p.2]) _ fun record _ => generateRecord_adds a unit.name record).bind ?_
  rintro _ _ _ ⟨records, hrecords, rfl, rfl⟩
  refine .getThen fun s hs => (send_adds a _).bind ?_
  rintro _ _ _ ⟨rfl, rfl⟩
  rw [hs.className]
  refine .getThen fun s hs => ?_
  rw [hs.globals]
  refine (Generate.Adds.forM (r := Member.requests) (m := fun _ => []) _
    fun id _ => sendGlobal_adds a id).bind ?_
  rintro _ _ _ ⟨fields, hfields, rfl, rfl⟩
  refine (generateMethod_adds a _ _ _).bind ?_
  rintro main _ _ ⟨hmain, rfl, rfl⟩
  refine (sendMethod_adds a main).bind ?_
  rintro _ _ _ ⟨rfl, rfl⟩
  refine (Generate.Adds.forM (r := fun m : Method => m.body.requests)
    (m := fun m => [m]) _ fun f _ => generateFunction_adds a f).bind ?_
  rintro _ _ _ ⟨functions, hfunctions, rfl, rfl⟩
  refine (generatePending_adds a _).bind ?_
  rintro _ rs pending ⟨rfl, hpending⟩
  intro t _ t' ht h
  obtain ⟨ht', _, _, hrs, hms, rfl, rfl⟩ := send_adds a .endClass ht h
  refine ⟨ht', _, _, hrs, hms, records.map Prod.fst ++ [⟨⟨a.className, objectClass, unit.name⟩,
    (fields ++ (main :: (functions ++ pending)).map (Member.method ·.body)).toArray⟩], ?_, ?_⟩
  · simp [ClassFile.requests, Member.requests, flatMap_map]
  · refine ⟨records.map Prod.fst, _, records.map Prod.snd, main :: (functions ++ pending), rfl, ?_,
      ?_, ?_, ⟨rfl, fields, hfields, rfl⟩, ?_⟩
    · simp [← map_eq_flatMap]
    · exact forall₂_map_right_iff.mpr (hrecords.imp fun _ _ h => h.1)
    · intro m hm
      obtain ⟨p, hp, rfl⟩ := mem_map.mp hm
      obtain ⟨record, -, hrecord⟩ := exists_of_forall₂ hrecords hp
      exact ⟨_, hrecord.2⟩
    · refine forall_mem_cons.mpr ⟨⟨_, hmain⟩, forall_mem_append.mpr ⟨?_, hpending⟩⟩
      intro m hm
      obtain ⟨f, -, id, -, hid⟩ := exists_of_forall₂ hfunctions hm
      exact ⟨id, hid⟩

end

/-- **The requests for a unit describe whole classes**, one for each record and one for itself. -/
theorem generate_classes {a : Analysis} (h : (generate unit a).error = none) :
    ∃ classes, (generate unit a).requests = classes.flatMap ClassFile.requests ∧
      a.UnitClasses unit.name classes (generate unit a).methods ∧
      a.SameButSlots (generate unit a).analysis := by
  unfold generate generateUpTo at h ⊢
  split_ifs at h ⊢
  split at h
  · rename_i s hs
    obtain ⟨hsame, rs, ms, hrs, hms, classes, rfl, hclasses⟩ :=
      generateUnit_adds a unit (Analysis.SameButSlots.refl a) hs
    exact ⟨classes, hrs, hms ▸ hclasses, hsame⟩
  · cases h

theorem Generated.assemble_accepted {g : Generated} (h : g.assemble placed = (assembly, none)) :
    g.error = none ∧ Assembly.acceptAll placed .empty g.requests = .ok () assembly := by
  unfold Generated.assemble at h
  cases haccept : Assembly.acceptAll placed .empty g.requests with
  | error e a' =>
    rw [haccept] at h
    cases h
  | ok u a' =>
    simp only [haccept, Prod.mk.injEq, Option.map_eq_none_iff] at h
    obtain ⟨rfl, herror⟩ := h
    exact ⟨herror, rfl⟩

/-- **The classes that files are made of**: one for each record, and one for the unit itself. -/
theorem generate_assembled {a : Analysis}
    (h : (generate unit a).assemble placed = (assembly, none)) :
    ∃ classes, assembly = ⟨classes.toArray, .idle⟩ ∧
      a.UnitClasses unit.name classes (generate unit a).methods ∧
      a.SameButSlots (generate unit a).analysis := by
  obtain ⟨herror, haccept⟩ := Generated.assemble_accepted h
  obtain ⟨classes, hrequests, hclasses⟩ := generate_classes herror
  rw [hrequests] at haccept
  have hall := Assembly.acceptAll_classes haccept
  rw [Array.empty_append] at hall
  exact ⟨classes, hall, hclasses⟩

end StackCompiler

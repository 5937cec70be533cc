import Mathlib.Tactic.SplitIfs
import StackCompiler.Codegen.Statements
import StackCompiler.Proofs.StackPaths

/-!
# Types on paths through code

The check of a method tells kinds of values apart. Here paths carry more: the type of every value on
the operand stack, and for every word of the frame what was last written to it.
-/

namespace StackCompiler

open Option

variable {e : Entry} {w w' : Words}

/-- Types on the operand stack, the top first. -/
abbrev TypeStack := List JvmType

namespace JvmType

/-- The type as the operand stack tells it apart: truth values are numbers there. -/
def onStack : JvmType → JvmType
  | boolean => int
  | other => other

/-- What a result of the type leaves on the operand stack. -/
def values (t : JvmType) : TypeStack := if t = void then [] else [t.onStack]

/-- A value of the first type can be taken for the second: they are the same, or that is any object.
-/
def StandsFor (found named : JvmType) : Prop :=
  found.onStack = named.onStack ∨ named = anyObject ∧ found.kind? = some .reference

instance (found named : JvmType) : Decidable (found.StandsFor named) :=
  inferInstanceAs (Decidable (_ ∨ _))

@[simp] theorem kind?_onStack (t : JvmType) : t.onStack.kind? = t.kind? := by cases t <;> rfl

@[simp] theorem onStack_onStack (t : JvmType) : t.onStack.onStack = t.onStack := by cases t <;> rfl

theorem StandsFor.refl (t : JvmType) : t.StandsFor t := .inl rfl

theorem onStack_standsFor (t : JvmType) : t.onStack.StandsFor t := .inl (onStack_onStack t)

theorem StandsFor.kind? {found named : JvmType} (h : found.StandsFor named) :
    found.kind? = named.kind? := by
  rcases h with h | ⟨rfl, h⟩
  · rw [← kind?_onStack, h, kind?_onStack]
  · exact h

end JvmType

def Kind.number? : Kind → Option JvmType
  | int => some .int
  | long => some .long
  | float => some .float
  | double => some .double
  | reference => none

theorem Kind.kind?_of_number? {k : Kind} {t : JvmType} (h : k.number? = some t) :
    t.kind? = some k := by
  cases k <;> cases h <;> rfl

def TypeStack.kinds (stack : TypeStack) : KindStack := stack.filterMap JvmType.kind?

theorem JvmType.kinds_values (t : JvmType) : TypeStack.kinds t.values = t.kind?.toList := by
  cases t <;> rfl

theorem TypeStack.kinds_append (xs ys : TypeStack) :
    TypeStack.kinds (xs ++ ys) = TypeStack.kinds xs ++ TypeStack.kinds ys :=
  List.filterMap_append

/-! ## What instructions do to types -/

/-- Takes values that stand for the given types off a stack. -/
def takeTypes : List JvmType → TypeStack → Option TypeStack
  | [], stack => some stack
  | _ :: _, [] => none
  | named :: rest, found :: stack => if found.StandsFor named then takeTypes rest stack else none

/-- What is known of the variables of a method and of its result. -/
structure MethodTypes where
  variable_ : Subject → Option JvmType
  slot : Subject → Option Nat
  result : JvmType

/-- The types after an instruction, if it gets the operands that it names. -/
def Instruction.retype (m : MethodTypes) (x : Option Subject) (stack : TypeStack) :
    Instruction → Option TypeStack
  | .iconst _ => some (.int :: stack)
  | .lconst _ => some (.long :: stack)
  | .fconst _ => some (.float :: stack)
  | .dconst _ => some (.double :: stack)
  | .sconst _ => some (.string :: stack)
  | .load kind _ => (x.bind m.variable_).bind fun t =>
      if t.kind? = some kind then some (t.onStack :: stack) else none
  | .store kind _ => (x.bind m.variable_).bind fun t =>
      if t.kind? = some kind then takeTypes [t] stack else none
  | .iinc _ _ => (x.bind m.variable_).bind fun t => if t.onStack = .int then some stack else none
  | .newArray elem => (takeTypes [.int] stack).map (.array elem :: ·)
  | .arrayLoad elem =>
    match stack with
    | index :: .array t :: rest =>
      if index.StandsFor .int ∧ ArrayElem.ofType? t = some elem then some (t.onStack :: rest)
      else none
    | _ => none
  | .arrayStore elem =>
    match stack with
    | value :: index :: .array t :: rest =>
      if value.onStack = t.onStack ∧ index.StandsFor .int ∧ ArrayElem.ofType? t = some elem then
        some rest
      else none
    | _ => none
  | .arrayLength =>
    match stack with
    | .array _ :: rest => some (.int :: rest)
    | _ => none
  | .pop kind =>
    match stack with
    | t :: rest => if t.kind? = some kind then some rest else none
    | [] => none
  | .dup =>
    match stack with
    | t :: rest => if t.kind? = some .reference then some (t :: t :: rest) else none
    | [] => none
  | .arith kind _ => kind.number?.bind fun t => (takeTypes [t, t] stack).map (t :: ·)
  | .neg kind => kind.number?.bind fun t => (takeTypes [t] stack).map (t :: ·)
  | .convert source target =>
    if source = target then none
    else source.number?.bind fun t => target.number?.bind fun u =>
      (takeTypes [t] stack).map (u :: ·)
  | .compare op => op.operand.number?.bind fun t => (takeTypes [t, t] stack).map (.int :: ·)
  | .branchZero _ _ => takeTypes [.int] stack
  | .branchInt _ _ => takeTypes [.int, .int] stack
  | .branchRef cond _ =>
    if cond = .eq ∨ cond = .ne then takeTypes [.anyObject, .anyObject] stack else none
  | .goto _ => some stack
  | .ret none => if m.result = .void then some stack else none
  | .ret (some kind) => if m.result.kind? = some kind then takeTypes [m.result] stack else none
  | .new className => some (.object className :: stack)
  | .getStatic field => some (field.ty.values ++ stack)
  | .putStatic field => takeTypes [field.ty] stack
  | .getField field => (takeTypes [.object field.owner] stack).map (field.ty.values ++ ·)
  | .putField field => takeTypes [field.ty, .object field.owner] stack
  | .invokeStatic method => (takeTypes method.params.reverse stack).map (method.ret.values ++ ·)
  | .invokeVirtual method | .invokeSpecial method =>
    (takeTypes (method.params.reverse ++ [.object method.owner]) stack).map
      (method.ret.values ++ ·)

/-- The machine has the instruction: it computes with numbers, converts between different kinds, and
compares references for being the same. -/
def Instruction.Legal : Instruction → Prop
  | .arith kind _ | .neg kind => kind ≠ .reference
  | .convert source target => source ≠ .reference ∧ target ≠ .reference ∧ source ≠ target
  | .branchRef cond _ => cond = .eq ∨ cond = .ne
  | _ => True

section Retype

variable {m : MethodTypes} {x : Option Subject} {i : Instruction} {stack after : TypeStack}

theorem retype_retarget (t : Target) : (i.retarget t).retype m x stack = i.retype m x stack := by
  cases i <;> rfl

theorem takeTypes_kinds {ts : List JvmType} {rest : TypeStack}
    (h : takeTypes ts stack = some rest) :
    TypeStack.kinds stack = ts.filterMap JvmType.kind? ++ TypeStack.kinds rest := by
  induction ts generalizing stack with
  | nil =>
    cases h
    rfl
  | cons named ts ih =>
    cases stack with
    | nil => cases h
    | cons found stack =>
      rw [takeTypes] at h
      split_ifs at h with hf
      have hih := ih h
      rw [TypeStack.kinds, List.filterMap_cons, List.filterMap_cons, hf.kind?, ← TypeStack.kinds,
        hih]
      cases named.kind? <;> rfl

/-- **What an instruction does to types it does to their kinds.** -/
theorem retype_kinds (h : i.retype m x stack = some after) :
    ∃ rest, TypeStack.kinds stack = i.effect.pops.reverse ++ rest ∧
      TypeStack.kinds after = i.effect.pushes.reverse ++ rest := by
  have hpush {t : JvmType} {kind : Kind} (hk : t.kind? = some kind) (st : TypeStack) :
      TypeStack.kinds (t :: st) = kind :: TypeStack.kinds st := List.filterMap_cons_some hk
  have hone {t : JvmType} {rest : TypeStack} (ht : takeTypes [t] stack = some rest) :
      TypeStack.kinds stack = t.kind?.toList ++ TypeStack.kinds rest := by
    rw [takeTypes_kinds ht]
    cases hk : t.kind? <;> simp [hk]
  have hnumber {kind : Kind} {t : JvmType} (hn : kind.number? = some t) := Kind.kind?_of_number? hn
  have hvalues (t : JvmType) (st : TypeStack) :
      TypeStack.kinds (t.values ++ st) = t.kind?.toList.reverse ++ TypeStack.kinds st := by
    rw [TypeStack.kinds_append, t.kinds_values]
    cases t.kind? <;> rfl
  cases i with
  | iconst | lconst | fconst | dconst | sconst | new =>
    cases h
    exact ⟨_, rfl, hpush rfl _⟩
  | goto => cases h; exact ⟨_, rfl, rfl⟩
  | load kind slot =>
    obtain ⟨t, -, ht⟩ := bind_eq_some_iff.mp h
    split_ifs at ht with hk
    cases ht
    exact ⟨_, rfl, hpush (by rwa [JvmType.kind?_onStack]) _⟩
  | store kind slot =>
    obtain ⟨t, -, ht⟩ := bind_eq_some_iff.mp h
    split_ifs at ht with hk
    refine ⟨_, ?_, rfl⟩
    rw [hone ht, hk]
    rfl
  | iinc slot delta =>
    obtain ⟨t, -, ht⟩ := bind_eq_some_iff.mp h
    split_ifs at ht
    cases ht
    exact ⟨_, rfl, rfl⟩
  | newArray elem =>
    obtain ⟨rest, ht, rfl⟩ := map_eq_some_iff.mp h
    exact ⟨_, hone ht, hpush rfl _⟩
  | arrayLoad elem =>
    simp only [Instruction.retype] at h
    split at h
    · rename_i index t rest
      split_ifs at h with hc
      cases h
      have helem : t.kind? = some elem.kind := by
        cases t <;> cases hc.2 <;> rfl
      exact ⟨TypeStack.kinds rest, by rw [hpush hc.1.kind?, hpush rfl]; rfl,
        hpush (by rwa [JvmType.kind?_onStack]) _⟩
    · cases h
  | arrayStore elem =>
    simp only [Instruction.retype] at h
    split at h
    · rename_i value index t rest
      split_ifs at h with hc
      cases h
      have helem : t.kind? = some elem.kind := by
        cases t <;> cases hc.2.2 <;> rfl
      have hvalue : value.kind? = some elem.kind := by
        rw [← JvmType.kind?_onStack, hc.1, JvmType.kind?_onStack, helem]
      exact ⟨_, by rw [hpush hvalue, hpush hc.2.1.kind?, hpush rfl]; rfl, rfl⟩
    · cases h
  | arrayLength =>
    simp only [Instruction.retype] at h
    split at h
    · cases h
      exact ⟨_, hpush rfl _, hpush rfl _⟩
    · cases h
  | pop kind =>
    simp only [Instruction.retype] at h
    split at h
    · split_ifs at h with hk
      cases h
      exact ⟨_, hpush hk _, rfl⟩
    · cases h
  | dup =>
    simp only [Instruction.retype] at h
    split at h
    · rename_i t rest
      split_ifs at h with hk
      cases h
      exact ⟨TypeStack.kinds rest, hpush hk _, by rw [hpush hk, hpush hk]; rfl⟩
    · cases h
  | arith kind op =>
    obtain ⟨t, hn, ht⟩ := bind_eq_some_iff.mp h
    obtain ⟨rest, htake, rfl⟩ := map_eq_some_iff.mp ht
    refine ⟨TypeStack.kinds rest, ?_, hpush (hnumber hn) _⟩
    rw [takeTypes_kinds htake]
    simp [hnumber hn, Instruction.effect]
  | neg kind =>
    obtain ⟨t, hn, ht⟩ := bind_eq_some_iff.mp h
    obtain ⟨rest, htake, rfl⟩ := map_eq_some_iff.mp ht
    refine ⟨TypeStack.kinds rest, ?_, hpush (hnumber hn) _⟩
    rw [hone htake, hnumber hn]
    rfl
  | convert source target =>
    simp only [Instruction.retype] at h
    split_ifs at h
    obtain ⟨t, hs, h⟩ := bind_eq_some_iff.mp h
    obtain ⟨u, hu, h⟩ := bind_eq_some_iff.mp h
    obtain ⟨rest, ht, rfl⟩ := map_eq_some_iff.mp h
    refine ⟨TypeStack.kinds rest, ?_, hpush (hnumber hu) _⟩
    rw [hone ht, hnumber hs]
    rfl
  | compare op =>
    obtain ⟨t, hn, ht⟩ := bind_eq_some_iff.mp h
    obtain ⟨rest, htake, rfl⟩ := map_eq_some_iff.mp ht
    refine ⟨TypeStack.kinds rest, ?_, hpush rfl _⟩
    rw [takeTypes_kinds htake]
    simp [hnumber hn, Instruction.effect]
  | branchZero cond target => exact ⟨_, hone h, rfl⟩
  | branchInt cond target => exact ⟨_, takeTypes_kinds h, rfl⟩
  | branchRef cond target =>
    simp only [Instruction.retype] at h
    split_ifs at h
    exact ⟨_, takeTypes_kinds h, rfl⟩
  | ret kind =>
    cases kind with
    | none =>
      simp only [Instruction.retype] at h
      split_ifs at h
      cases h
      exact ⟨_, rfl, rfl⟩
    | some kind =>
      simp only [Instruction.retype] at h
      split_ifs at h with hk
      refine ⟨_, ?_, rfl⟩
      rw [hone h, hk]
      rfl
  | getStatic field =>
    cases h
    exact ⟨_, rfl, hvalues _ _⟩
  | putStatic field =>
    refine ⟨TypeStack.kinds after, (hone h).trans ?_, rfl⟩
    cases hk : field.ty.kind? <;> simp [Instruction.effect, hk]
  | getField field =>
    obtain ⟨rest, ht, rfl⟩ := map_eq_some_iff.mp h
    exact ⟨_, hone ht, hvalues _ _⟩
  | putField field =>
    refine ⟨TypeStack.kinds after, (takeTypes_kinds h).trans ?_, rfl⟩
    have hobject : (JvmType.object field.owner).kind? = some .reference := rfl
    cases hk : field.ty.kind? <;> simp [Instruction.effect, hk, hobject]
  | invokeStatic method =>
    obtain ⟨rest, ht, rfl⟩ := map_eq_some_iff.mp h
    refine ⟨TypeStack.kinds rest, ?_, hvalues _ _⟩
    rw [takeTypes_kinds ht, List.filterMap_reverse]
    rfl
  | invokeVirtual method | invokeSpecial method =>
    obtain ⟨rest, ht, rfl⟩ := map_eq_some_iff.mp h
    refine ⟨TypeStack.kinds rest, ?_, hvalues _ _⟩
    rw [takeTypes_kinds ht, List.filterMap_append, List.filterMap_reverse]
    simp [Instruction.effect, MethodRef.argKinds, JvmType.kind?]

/-- An instruction that gets its operands is one that the machine has. -/
theorem legal_of_retype (h : i.retype m x stack = some after) : i.Legal := by
  have hne {kind : Kind} {t : JvmType} (hn : kind.number? = some t) : kind ≠ .reference := by
    rintro rfl
    cases hn
  cases i with
  | arith kind op =>
    obtain ⟨t, hn, -⟩ := bind_eq_some_iff.mp h
    exact hne hn
  | neg kind =>
    obtain ⟨t, hn, -⟩ := bind_eq_some_iff.mp h
    exact hne hn
  | convert source target =>
    simp only [Instruction.retype] at h
    split_ifs at h with hst
    obtain ⟨t, hs, h⟩ := bind_eq_some_iff.mp h
    obtain ⟨u, hu, -⟩ := bind_eq_some_iff.mp h
    exact ⟨hne hs, hne hu, hst⟩
  | branchRef cond target =>
    simp only [Instruction.retype] at h
    split_ifs at h with hc
    exact hc
  | _ => trivial

end Retype

/-! ## What was written to a frame -/

/-- A value in a frame: what it is the value of, its kind and its slot. -/
structure Entry where
  subject : Option Subject
  kind : Kind
  slot : Nat
deriving DecidableEq

def Entry.Covers (e : Entry) (word : Nat) : Prop := e.slot ≤ word ∧ word < e.slot + e.kind.words

instance (e : Entry) (word : Nat) : Decidable (e.Covers word) := inferInstanceAs (Decidable (_ ∧ _))

/-- The value is where callers put it, if it is one that they hand over. -/
def Entry.AtHome (e : Entry) (types : MethodTypes) : Prop :=
  ∀ x n, e.subject = some x → types.slot x = some n → e.slot = n

/-- What was last written to each word of a frame. -/
abbrev Words := Nat → Option Entry

namespace Words

def write (w : Words) (e : Entry) : Words := fun n => if e.Covers n then some e else w n

/-- All words of a value are the last that was written to them. -/
def Holds (w : Words) (e : Entry) : Prop := ∀ n, e.Covers n → w n = some e

/-- Whatever one frame is known to hold, the other does. -/
def Within (w w' : Words) : Prop := ∀ n e, w n = some e → w' n = some e

theorem Within.refl (w : Words) : w.Within w := fun _ _ h => h

theorem Within.trans {w'' : Words} (h : w.Within w') (h' : w'.Within w'') : w.Within w'' :=
  fun n e he => h' n e (h n e he)

theorem Within.write (h : w.Within w') (e : Entry) : (w.write e).Within (w'.write e) := by
  intro n e' hn
  unfold Words.write at hn ⊢
  split_ifs at hn ⊢
  · exact hn
  · exact h n e' hn

theorem Holds.mono (hw : w.Within w') (h : w.Holds e) : w'.Holds e := fun n hn => hw n e (h n hn)

theorem Holds.first (h : w.Holds e) : w e.slot = some e :=
  h e.slot ⟨Nat.le_refl _, Nat.lt_add_of_pos_right (by cases e.kind <;> decide)⟩

theorem write_holds (w : Words) (e : Entry) : (w.write e).Holds e := fun _ hn => if_pos hn

theorem Holds.write_eq (h : w.Holds e) : w.write e = w := by
  funext n
  unfold Words.write
  split_ifs with hn
  · exact (h n hn).symm
  · rfl

theorem Holds.write {e' : Entry} (h : w.Holds e) (hslot : e.slot + e.kind.words ≤ e'.slot) :
    (w.write e').Holds e := by
  intro n hn
  unfold Words.write
  rw [if_neg, h n hn]
  intro hn'
  have hlt := hn.2
  have hle := hn'.1
  omega

end Words

def Instruction.reads (x : Option Subject) : Instruction → Option Entry
  | .load kind slot => some ⟨x, kind, slot⟩
  | .iinc slot _ => some ⟨x, .int, slot⟩
  | _ => none

def Instruction.writes (x : Option Subject) : Instruction → Option Entry
  | .store kind slot => some ⟨x, kind, slot⟩
  | .iinc slot _ => some ⟨x, .int, slot⟩
  | _ => none

/-- What was last written to each word, after an instruction. -/
def Words.after (w : Words) (x : Option Subject) (i : Instruction) : Words :=
  match i.writes x with
  | some e => w.write e
  | none => w

theorem Words.Within.after (h : w.Within w') (x : Option Subject) (i : Instruction) :
    (w.after x i).Within (w'.after x i) := by
  unfold Words.after
  split
  · exact h.write _
  · exact h

/-! ## Paths -/

def Method.subjectAt (m : Method) (pos : Nat) : Option Subject := (m.subjects[pos]?).join

/-- One step along a path that carries types: the instruction gets the operands that it names. -/
inductive TypeStep (types : MethodTypes) (m : Method) : Nat × TypeStack → Nat × TypeStack → Prop
  | step {pos next : Nat} {i : Instruction} {stack after : TypeStack}
      (at_pos : m.body.code[pos]? = some i)
      (typed : i.retype types (m.subjectAt pos) stack = some after) (goes : i.GoesTo pos next) :
      TypeStep types m (pos, stack) (next, after)

/-- A path from the first instruction and an empty stack gets to a position with such types. -/
def Method.TypeReaches (types : MethodTypes) (m : Method) (pos : Nat) (stack : TypeStack) : Prop :=
  Relation.ReflTransGen (TypeStep types m) (0, []) (pos, stack)

/-- One step along a path that carries what was written to the frame. -/
inductive WordStep (m : Method) : Nat × Words → Nat × Words → Prop
  | step {pos next : Nat} {i : Instruction} {words : Words} (at_pos : m.body.code[pos]? = some i)
      (goes : i.GoesTo pos next) :
      WordStep m (pos, words) (next, words.after (m.subjectAt pos) i)

/-- A path from the first instruction and the frame at entry gets to a position with a frame. -/
def Method.WordReaches (m : Method) (entry : Words) (pos : Nat) (words : Words) : Prop :=
  Relation.ReflTransGen (WordStep m) (0, entry) (pos, words)

end StackCompiler

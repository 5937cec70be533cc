import StackCompiler.Proofs.TypedFunction

/-!
# Typed constructors

The constructor of a record finds the new record in its first slot and a value for each field behind
it. It is typed, unless there are too many fields.

* **`generateConstructor_typed`**: the constructor of a record is typed.
-/

namespace StackCompiler

open CodeBuffer Emit List

variable {fields : List (String × JvmType)}

/-- The field as callers of a constructor hand it over. -/
def fieldArgument (field : String × JvmType) : Option (Subject × Kind) :=
  field.2.kind?.map (.field field.1, ·)

/-- What callers of a constructor hand over: the new record and a value for each field. -/
def handedFields (fields : List (String × JvmType)) : List Entry :=
  Entry.row 0 ((.self, .reference) :: fields.filterMap fieldArgument)

/-- What is known of the variables of a constructor. -/
def constructorTypes (className : String) (fields : List (String × JvmType)) : MethodTypes where
  variable_
    | .self => some (.object className)
    | .field name => fields.lookup name
    | .symbol _ | .bound _ | .function _ => none
  slot := rowSlot (handedFields fields)
  result := .void

section

variable {S : Setting} {E : GenerateError → Prop} {frame : Nat} {className : String} {w : Words}
  {b : CodeBuffer} {T : Shaping}

theorem storeField_takes (hE : S.MayOverflow E)
    (hself : S.types.variable_ .self = some (.object className))
    (hselfWord : w.Holds ⟨some .self, .reference, 0⟩)
    (hselfFrame : 0 + Kind.reference.words ≤ frame)
    (hhomes : ∀ n e, w n = some e → e.AtHome S.types) {name : String} {ty : JvmType} {kind : Kind}
    (hty : S.types.variable_ (.field name) = some ty) (hkind : ty.kind? = some kind) {slot : Nat}
    (hword : w.Holds ⟨some (.field name), kind, slot⟩) (hslot : slot + kind.words ≤ frame) :
    Takes S frame E (do
      Emit.about .self (.load .reference 0)
      Emit.about (.field name) (.load kind slot)
      Emit.instruction (.putField ⟨className, name, ty⟩)) ⟨[], w⟩ ⟨[], w⟩ := by
  refine (load_takes hE hself rfl hselfWord hhomes hselfFrame []).then_
    ((load_takes hE hty hkind hword hhomes hslot _).then_ (.plain hE ?_ rfl rfl rfl rfl trivial))
  simp only [Instruction.retype, takeTypes, if_pos ty.onStack_standsFor,
    if_pos (JvmType.onStack_standsFor (.object className))]

theorem storeFields_typed (hE : Refuses S.limit E)
    (hself : S.types.variable_ .self = some (.object className))
    (hselfWord : w.Holds ⟨some .self, .reference, 0⟩)
    (hselfFrame : 0 + Kind.reference.words ≤ frame)
    (hhomes : ∀ n e, w n = some e → e.AtHome S.types)
    (htypes : ∀ field ∈ fields, S.types.variable_ (.field field.1) = some field.2 ∧
      field.2.kind?.isSome) {slots : SlotAllocator} (hlimit : slots.limit = S.limit)
    (hmax : slots.max = slots.next)
    (hwords : ∀ e ∈ Entry.row slots.next (fields.filterMap fieldArgument), w.Holds e)
    (hframe : slots.next + rowWords (fields.filterMap fieldArgument) ≤ frame)
    (h : b.Shaped S frame T) (hcur : ∀ c, T.at_ b.code.size = some c → c = ⟨[], w⟩) :
    Wp E (storeFields className slots fields) b fun slots' b' =>
      slots'.max = slots.next + rowWords (fields.filterMap fieldArgument) ∧
      ∃ T', Gains S frame (fun _ => False) b T ⟨[], w⟩ b' T' := by
  induction fields generalizing slots b T with
  | nil => exact .pure ⟨hmax, T, .refl h hcur⟩
  | cons field fields ih =>
    obtain ⟨name, ty⟩ := field
    obtain ⟨⟨hty, hkind⟩, htypes⟩ := forall_mem_cons.mp htypes
    obtain ⟨kind, hkind⟩ := Option.isSome_iff_exists.mp hkind
    have harg : fieldArgument (name, ty) = some (.field name, kind) := by
      rw [fieldArgument, hkind]
      rfl
    rw [filterMap_cons_some harg] at hwords hframe ⊢
    rw [rowWords_cons] at hframe ⊢
    obtain ⟨hword, hwords⟩ := forall_mem_cons.mp hwords
    rw [storeFields]
    simp only [hkind]
    by_cases hex : exceeds slots.limit (slots.next + kind.words) = true
    · rw [SlotAllocator.allocate, if_pos hex]
      exact .of_error rfl (hE.exhausted (isSome_of_exceeds (hlimit ▸ hex)))
    · rw [SlotAllocator.allocate, if_neg hex]
      have hpiece := storeField_takes hE.overflow hself hselfWord hselfFrame hhomes hty hkind hword
        (by have hframe : slots.next + (kind.words + _) ≤ frame := hframe; omega)
      have hstep : Wp E ((do
          Emit.about .self (.load .reference 0)
          Emit.about (.field name) (.load kind slots.next)
          Emit.instruction (.putField ⟨className, name, ty⟩)) >>= fun _ =>
            storeFields className (GenState.grown slots kind) fields) b fun slots' b' =>
          slots'.max = slots.next + (kind.words + rowWords (fields.filterMap fieldArgument)) ∧
          ∃ T', Gains S frame (fun _ => False) b T ⟨[], w⟩ b' T' := by
        refine (hpiece h hcur).bind ?_
        rintro _ b1 ⟨T1, h1⟩
        refine (@ih b1 T1 htypes (GenState.grown slots kind) hlimit ?_ hwords ?_ h1.shaped
          h1.cur).imp ?_
        · show Nat.max slots.max (slots.next + kind.words) = slots.next + kind.words
          rw [hmax]
          exact Nat.max_eq_right (Nat.le_add_right _ _)
        · exact Nat.le_trans (Nat.le_of_eq (Nat.add_assoc ..)) hframe
        · rintro slots' b' ⟨hmax', T', h'⟩
          exact ⟨hmax'.trans (Nat.add_assoc ..), T', h1.trans h'⟩
      simp only [bind_assoc] at hstep
      exact hstep

theorem lookup_of_mem {α : Type} {fields : List (String × α)} (h : (fields.map Prod.fst).Nodup)
    {field : String × α} (hfield : field ∈ fields) : fields.lookup field.1 = some field.2 := by
  induction fields with
  | nil => cases hfield
  | cons first fields ih =>
    obtain ⟨hnot, hrest⟩ := nodup_cons.mp h
    rcases mem_cons.mp hfield with rfl | hfield
    · rw [lookup_cons, beq_self_eq_true]
    · have hne : field.1 ≠ first.1 := fun he => hnot (he ▸ mem_map_of_mem hfield)
      rw [lookup_cons, beq_false_of_ne hne]
      exact ih hrest hfield

theorem fieldArguments_nodup (h : (fields.map Prod.fst).Nodup) :
    (((.self, .reference) :: fields.filterMap fieldArgument).map Prod.fst).Nodup := by
  have hsub : ((fields.filterMap fieldArgument).map Prod.fst).Sublist
      ((fields.map Prod.fst).map Subject.field) := by
    rw [map_filterMap]
    induction fields with
    | nil => exact .slnil
    | cons field fields ih =>
      have ih := ih (nodup_cons.mp h).2
      cases hk : field.2.kind? with
      | none =>
        rw [filterMap_cons_none (by rw [fieldArgument, hk]; rfl)]
        exact .cons _ ih
      | some kind =>
        rw [filterMap_cons_some (b := .field field.1) (by rw [fieldArgument, hk]; rfl)]
        exact .cons_cons _ ih
  refine nodup_cons.mpr ⟨fun hself => ?_, hsub.nodup (h.map fun _ _ he => Subject.field.inj he)⟩
  obtain ⟨_, -, hfield⟩ := mem_map.mp (hsub.subset hself)
  cases hfield

def constructorSetting (limit : Option Nat) (className : String)
    (fields : List (String × JvmType)) : Setting :=
  ⟨constructorTypes className fields, limit, 0, 0, ⟨[], .of (handedFields fields)⟩⟩

section

variable {limit : Option Nat} (hE : Refuses limit E) (hroom : exceeds limit 2 = false)
  (hnames : (fields.map Prod.fst).Nodup) (hkinds : ∀ field ∈ fields, field.2.kind?.isSome)
include hE hroom hnames hkinds

theorem constructorCode_typed :
    Wp E (constructorCode limit className fields) (.start limit) fun slots b =>
      ∃ T, b.Shaped (constructorSetting limit className fields) slots.max T ∧
        T.at_ b.code.size = none ∧ ∀ l < b.labels.size, (b.labelAt l).isSome := by
  generalize hS : constructorSetting limit className fields = S
  generalize hw : Words.of (handedFields fields) = w
  generalize hframe : 1 + rowWords (fields.filterMap fieldArgument) = frame
  have hlimit : S.limit = limit := hS ▸ rfl
  have hrefuses : Refuses S.limit E := hlimit ▸ hE
  have hholds {e : Entry} (he : e ∈ handedFields fields) : w.Holds e := hw ▸ of_row_holds he
  have hhomes (n : Nat) (e : Entry) (he : w n = some e) : e.AtHome S.types := by
    subst hw hS
    intro x m hx hm
    exact Option.some.inj ((rowSlot_eq (fieldArguments_nodup hnames)
      (of_eq_some he).1 hx).symm.trans hm)
  have hself : S.types.variable_ .self = some (.object className) := hS ▸ rfl
  have hselfWord : w.Holds ⟨some .self, .reference, 0⟩ := hholds mem_cons_self
  have hselfFrame : 0 + Kind.reference.words ≤ frame := by
    show 1 ≤ frame
    omega
  have hstart : (CodeBuffer.start limit).Shaped S frame (.start ⟨[], w⟩) := by
    subst hS hw
    exact start_shaped hroom rfl rfl rfl frame (.refl _)
  have hinit : Takes S frame E (do
      Emit.about .self (.load .reference 0)
      Emit.instruction (.invokeSpecial ⟨objectClass, "<init>", [], .void⟩)) ⟨[], w⟩ ⟨[], w⟩ := by
    refine (load_takes hrefuses.overflow hself rfl hselfWord hhomes hselfFrame []).then_
      (.plain hrefuses.overflow ?_ rfl rfl rfl rfl trivial)
    show (takeTypes ([] ++ [.object objectClass]) [(JvmType.object className).onStack]).map _ = _
    rw [nil_append, takeTypes, if_pos (.inr ⟨rfl, rfl⟩)]
    rfl
  have hcode : Wp E (do
      (do
        Emit.about .self (.load .reference 0)
        Emit.instruction (.invokeSpecial ⟨objectClass, "<init>", [], .void⟩))
      let slots ← storeFields className (.start limit 1) fields
      Emit.instruction (.ret none)
      return slots) (.start limit) fun slots b => ∃ T, b.Shaped S slots.max T ∧
        T.at_ b.code.size = none ∧ ∀ l < b.labels.size, (b.labelAt l).isSome := by
    refine (hinit hstart fun c hc => (Option.some.inj hc).symm).bind ?_
    rintro _ b1 ⟨T1, h1⟩
    refine (storeFields_typed hrefuses hself hselfWord hselfFrame hhomes (fun field hfield => ?_)
      hlimit.symm rfl (fun e he => hholds (mem_cons_of_mem _ he)) (Nat.le_of_eq hframe)
      h1.shaped h1.cur).bind ?_
    · subst hS
      exact ⟨lookup_of_mem hnames hfield, hkinds field hfield⟩
    rintro slots b2 ⟨hmax, T2, h2⟩
    have hret : Shape.Accepts S.types frame none (.ret none) ⟨[], w⟩ ⟨[], w⟩ := by
      subst hS
      exact .plain rfl rfl rfl trivial
    refine (emit_wp hrefuses.overflow h2.shaped h2.cur hret fun l hl => by cases hl).bind ?_
    rintro _ b3 ⟨T3, h3, -, hcur3⟩
    refine .pure ⟨T3, ?_, hcur3.trans (Option.bind_fun_none _), fun l hl => ?_⟩
    · rw [hmax, show (SlotAllocator.start limit 1).next = 1 from rfl, hframe]
      exact h3.shaped
    · have he := (h1.trans h2).extends_
      exact (he.trans (h3.extends_.mono he.size fun l _ hl => by cases hl.2)).placed l
        (Nat.zero_le _) hl
  simp only [bind_assoc] at hcode
  exact hcode

/-- **The constructor of a record is typed**, unless there are too many fields. -/
theorem generateConstructor_typed {record : RecordInfo} :
    (∃ m, generateConstructor limit record fields = .ok m ∧ m.origin = .record record.decl ∧
      m.body.header = ⟨"<init>", fields.map Prod.snd, .void, false⟩ ∧
      m.Typed (constructorTypes record.className fields) (.of (handedFields fields))) ∨
    ∃ e, generateConstructor limit record fields = .error e ∧ E e := by
  have hcode : Wp E (constructorCode limit record.className fields) _ _ :=
    constructorCode_typed hE hroom hnames hkinds
  unfold generateConstructor
  unfold Wp at hcode
  split at hcode
  · rename_i slots b hrun
    obtain ⟨T, h, hcur, hplaced⟩ := hcode
    simp only [StateT.run, hrun]
    rcases finishMethod_typed h rfl rfl rfl hcur hplaced (.record record.decl)
      ⟨"<init>", fields.map Prod.snd, .void, false⟩ rfl with ⟨m, hm, hrest⟩ | ⟨hexceeds, herror⟩
    · exact .inl ⟨m, hm, hrest⟩
    · exact .inr ⟨_, herror, hE.tooLong (isSome_of_exceeds hexceeds) _⟩
  · rename_i e hrun
    simp only [StateT.run, hrun]
    exact .inr ⟨e, rfl, hcode⟩

end

end

end StackCompiler

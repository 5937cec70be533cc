import Mathlib.Data.List.Forall2
import StackCompiler.Analysis.Statements
import StackCompiler.Proofs.Trees

/-!
# Typed syntax trees

What the notes of an analysed tree say, if nothing is wrong with the unit: every expression has the
type of its note, its operands fit together, and it refers only to what can be seen from its place.
-/

namespace StackCompiler

variable {e : Expr} {note : Note} {source target ty : Ty} {v v' : View}

/-- What an expression may refer to. -/
structure View where
  symbol : SymbolId → Option Symbol
  signature : FnId → Option (List Ty × Ty)
  record : DeclId → Option RecordInfo
  sees : SymbolId → Prop
  calls : FnId → Prop

namespace View

def Value (v : View) : Ty → Prop
  | .int | .long | .float | .double | .bool | .string => True
  | .array elem => v.Value elem
  | .record decl _ => (v.record decl).isSome
  | .void | .function .. | .error => False

/-- Variables, parameters and fields have values, and functions have values or no result. -/
structure Proper (v : View) : Prop where
  symbol : ∀ id s, v.symbol id = some s → s.kind.isStorage = true → v.Value s.ty
  params : ∀ id params ret, v.signature id = some (params, ret) → ∀ ty ∈ params, v.Value ty
  ret : ∀ id params ret, v.signature id = some (params, ret) → ret = .void ∨ v.Value ret
  fields : ∀ decl info, v.record decl = some info → ∀ field ∈ info.fields, v.Value field.2
  decl : ∀ decl info, v.record decl = some info → info.decl = decl

/-- All that can be seen in one view can be seen in the other, where it means the same. -/
structure Within (v v' : View) : Prop where
  symbol : v'.symbol = v.symbol
  signature : v'.signature = v.signature
  record : v'.record = v.record
  sees : ∀ id, v.sees id → v'.sees id
  calls : ∀ id, v.calls id → v'.calls id

theorem Value.ne_error (h : v.Value ty) : ty ≠ .error := by
  rintro rfl
  exact h

theorem Value.mono (h : ∀ decl, (v.record decl).isSome → (v'.record decl).isSome) :
    ∀ {ty : Ty}, v.Value ty → v'.Value ty
  | .array elem, hv => @Value.mono h elem hv
  | .record decl _, hv => h decl hv
  | .int, _ | .long, _ | .float, _ | .double, _ | .bool, _ | .string, _ => trivial
  | .void, hv | .function .., hv | .error, hv => hv.elim

theorem Value.congr (h : v'.record = v.record) (hv : v.Value ty) : v'.Value ty :=
  hv.mono fun _ hd => h ▸ hd

theorem Proper.congr (hs : v'.symbol = v.symbol) (hf : v'.signature = v.signature)
    (hr : v'.record = v.record) (h : v.Proper) : v'.Proper :=
  ⟨fun id x hx hk => (h.symbol id x (hs ▸ hx) hk).congr hr,
    fun id ps r hsig ty hty => (h.params id ps r (hf ▸ hsig) ty hty).congr hr,
    fun id ps r hsig => (h.ret id ps r (hf ▸ hsig)).imp_right (Value.congr hr),
    fun d info hd f hm => (h.fields d info (hr ▸ hd) f hm).congr hr,
    fun d info hd => h.decl d info (hr ▸ hd)⟩

end View

/-! ## Expressions -/

/-- A value of the type of a note is widened to another type, or it stays as it is. -/
def Note.Widens (note : Note) (source target : Ty) : Prop :=
  note.ty = some source ∧
    (note.coercion = none ∧ target = source ∨
      note.coercion = some target ∧ source.widensTo target = true)

/-- The literal has the type, and its value fits in it. -/
def Literal.HasTy : Literal → Ty → Prop
  | .int value, ty => ty = .int ∧ 0 ≤ value ∧ value ≤ maxInt
  | .long _, ty => ty = .long
  | .float _, ty => ty = .float
  | .double _, ty => ty = .double
  | .bool _, ty => ty = .bool
  | .string _, ty => ty = .string

/-- The one number that is in range only with a minus before it. -/
def Expr.IsLeastInt (e : Expr) : Prop :=
  ∃ note, e = .literal note (.int (maxInt + 1)) ∧ note.ty = some .int ∧ note.coercion = none

/-- A value of the first type can be converted to the second by writing so. -/
def Ty.Casts (source target : Ty) : Prop :=
  source.isNumeric = true ∧ target.isNumeric = true ∨ source = target

mutual

/-- An expression has a type, before widening. -/
def Expr.HasTy (v : View) : Expr → Ty → Prop
  | .literal _ value, ty => value.HasTy ty
  | .name _ ref, ty => ∃ binding symbol, ref.binding = some binding ∧
      v.symbol binding.symbol = some symbol ∧ symbol.kind.isStorage = true ∧ symbol.ty = ty ∧
      v.sees binding.symbol
  | .binary _ op left right, ty => ∃ operand, binarySignature? op operand operand =
      some ⟨operand, ty⟩ ∧ (∃ source, left.note.Widens source operand ∧ left.HasTy v source) ∧
      (∃ source, right.note.Widens source operand ∧ right.HasTy v source)
  | .unary _ .not operand, ty =>
    ty = .bool ∧ ∃ source, operand.note.Widens source .bool ∧ operand.HasTy v source
  | .unary _ .neg operand, ty => ty.isNumeric = true ∧
      ((∃ source, operand.note.Widens source ty ∧ operand.HasTy v source) ∨
        ty = .int ∧ operand.IsLeastInt)
  | .call _ _ args (some (.function id)), ty => ∃ params, v.signature id = some (params, ty) ∧
      v.calls id ∧ Expr.HaveTys v args params
  | .call _ _ args (some (.constructor decl)), ty => ∃ info, v.record decl = some info ∧
      ty = info.recordType ∧ Expr.HaveTys v args info.fieldTypes
  | .call _ _ args (some (.builtin builtin)), ty => ∃ argTy, v.Value argTy ∧
      builtin.accepts argTy = true ∧ ty = builtin.result ∧ Expr.HaveTys v args [argTy]
  | .call _ _ _ none, _ => False
  | .field _ base _ position?, ty => ∃ decl name info position field,
      v.record decl = some info ∧ position? = some position ∧
      info.fields[position]? = some (field, ty) ∧
      ∃ source, base.note.Widens source (.record decl name) ∧ base.HasTy v source
  | .index _ base position, ty =>
    (∃ source, base.note.Widens source (.array ty) ∧ base.HasTy v source) ∧
      ∃ source, position.note.Widens source .int ∧ position.HasTy v source
  | .array _ elems, ty => ∃ elem, ty = .array elem ∧ v.Value elem ∧
      Expr.HaveTys v elems (List.replicate elems.length elem)
  | .newArray _ _ length, ty => ∃ elem, ty = .array elem ∧ v.Value elem ∧
      ∃ source, length.note.Widens source .int ∧ length.HasTy v source
  | .cast _ operand _, ty => v.Value ty ∧ ∃ operandTy, operandTy.Casts ty ∧
      ∃ source, operand.note.Widens source operandTy ∧ operand.HasTy v source

def Expr.HaveTys (v : View) : List Expr → List Ty → Prop
  | [], [] => True
  | e :: es, ty :: tys => (∃ source, e.note.Widens source ty ∧ e.HasTy v source) ∧
      Expr.HaveTys v es tys
  | _, _ => False

end

/-- An expression has a type, after widening. -/
def Expr.Typed (v : View) (e : Expr) (ty : Ty) : Prop :=
  ∃ source, e.note.Widens source ty ∧ e.HasTy v source

theorem Expr.haveTys_iff {es : List Expr} {tys : List Ty} :
    Expr.HaveTys v es tys ↔ List.Forall₂ (Expr.Typed v) es tys := by
  induction es generalizing tys with
  | nil => cases tys <;> simp [Expr.HaveTys]
  | cons e es ih =>
    cases tys with
    | nil => simp [Expr.HaveTys]
    | cons ty tys =>
      rw [Expr.HaveTys, List.forall₂_cons, ih]
      rfl

theorem Expr.HasTy.mono (hv : v.Within v') (h : e.HasTy v ty) : e.HasTy v' ty := by
  have htys {es : List Expr} (hes : ∀ e ∈ es, ∀ ty, e.HasTy v ty → e.HasTy v' ty)
      {tys : List Ty} (h : Expr.HaveTys v es tys) : Expr.HaveTys v' es tys := by
    induction es generalizing tys with
    | nil => cases tys <;> exact h
    | cons e es ih =>
      cases tys with
      | nil => exact h
      | cons ty tys =>
        obtain ⟨⟨source, hw, he⟩, hrest⟩ := h
        exact ⟨⟨source, hw, hes e List.mem_cons_self _ he⟩,
          ih (fun e' he' => hes e' (List.mem_cons_of_mem _ he')) hrest⟩
  induction e generalizing ty with
  | literal note value => exact h
  | name note ref =>
    obtain ⟨binding, symbol, hb, hs, hk, hty, hsees⟩ := h
    exact ⟨binding, symbol, hb, by rw [hv.symbol, hs], hk, hty, hv.sees _ hsees⟩
  | binary note op left right ihl ihr =>
    obtain ⟨operand, hop, ⟨sl, hwl, hl⟩, ⟨sr, hwr, hr⟩⟩ := h
    exact ⟨operand, hop, ⟨sl, hwl, ihl hl⟩, ⟨sr, hwr, ihr hr⟩⟩
  | unary note op operand ih =>
    cases op with
    | not =>
      obtain ⟨rfl, source, hw, ho⟩ := h
      exact ⟨rfl, source, hw, ih ho⟩
    | neg =>
      obtain ⟨hn, ⟨source, hw, ho⟩ | hleast⟩ := h
      · exact ⟨hn, .inl ⟨source, hw, ih ho⟩⟩
      · exact ⟨hn, .inr hleast⟩
  | call note callee args target _ ih =>
    have hargs {tys : List Ty} (h : Expr.HaveTys v args tys) : Expr.HaveTys v' args tys :=
      htys (fun e he ty h => ih e he h) h
    cases target with
    | none => exact h
    | some target =>
      cases target with
      | function id =>
        obtain ⟨params, hsig, hcalls, h⟩ := h
        exact ⟨params, by rw [hv.signature, hsig], hv.calls _ hcalls, hargs h⟩
      | constructor decl =>
        obtain ⟨info, hrecord, rfl, h⟩ := h
        exact ⟨info, by rw [hv.record, hrecord], rfl, hargs h⟩
      | builtin builtin =>
        obtain ⟨argTy, hvalue, haccepts, rfl, h⟩ := h
        exact ⟨argTy, hvalue.congr hv.record, haccepts, rfl, hargs h⟩
  | field note base field index ih =>
    obtain ⟨decl, name, info, position, fieldName, hrecord, hpos, hfield, source, hw, hb⟩ := h
    exact ⟨decl, name, info, position, fieldName, by rw [hv.record, hrecord], hpos, hfield, source,
      hw, ih hb⟩
  | index note base index ihb ihi =>
    obtain ⟨⟨sb, hwb, hb⟩, ⟨si, hwi, hi⟩⟩ := h
    exact ⟨⟨sb, hwb, ihb hb⟩, ⟨si, hwi, ihi hi⟩⟩
  | array note elems ih =>
    obtain ⟨elem, rfl, hvalue, h⟩ := h
    exact ⟨elem, rfl, hvalue.congr hv.record, htys (fun e he ty h => ih e he h) h⟩
  | newArray note elem length ih =>
    obtain ⟨elemTy, rfl, hvalue, source, hw, hl⟩ := h
    exact ⟨elemTy, rfl, hvalue.congr hv.record, source, hw, ih hl⟩
  | cast note operand target ih =>
    obtain ⟨hvalue, operandTy, hcast, source, hw, ho⟩ := h
    exact ⟨hvalue.congr hv.record, operandTy, hcast, source, hw, ih ho⟩

theorem Expr.Typed.mono (hv : v.Within v') (h : e.Typed v ty) : e.Typed v' ty := by
  obtain ⟨source, hw, he⟩ := h
  exact ⟨source, hw, he.mono hv⟩

/-! ## Types of typed expressions -/

theorem join?_self {a b c : Ty} (h : a.join? b = some c) :
    c.isNumeric = true ∧ c.join? c = some c ∧ a.coercibleTo c = true ∧ b.coercibleTo c = true ∧
      a.isNumeric = true ∧ b.isNumeric = true := by
  unfold Ty.join? at h
  split_ifs at h with hn
  have hmem := List.mem_of_find?_eq_some h
  have hp := List.find?_some h
  simp only [Bool.and_eq_true] at hn hp
  refine ⟨?_, ?_, hp.1, hp.2, hn.1, hn.2⟩ <;>
  · simp only [List.mem_cons, List.not_mem_nil, or_false] at hmem
    rcases hmem with rfl | rfl | rfl | rfl <;> rfl

/-- A row of the operator table is a row for operands that have been brought to one type. -/
theorem binarySignature?_self {op : BinOp} {left right : Ty} {row : OpSignature}
    (h : binarySignature? op left right = some row) :
    binarySignature? op row.operand row.operand = some row ∧
      left.coercibleTo row.operand = true ∧ right.coercibleTo row.operand = true := by
  have hjoin {result : Ty → Ty} (h : (left.join? right).map (fun t => ⟨t, result t⟩) = some row) :
      row.operand.isNumeric = true ∧
        (row.operand.join? row.operand).map (fun t => ⟨t, result t⟩) = some row ∧
        left.coercibleTo row.operand = true ∧ right.coercibleTo row.operand = true := by
    obtain ⟨t, ht, rfl⟩ := Option.map_eq_some_iff.mp h
    obtain ⟨hn, hself, hl, hr, _⟩ := join?_self ht
    exact ⟨hn, by rw [hself]; rfl, hl, hr⟩
  have hrefl (t : Ty) : t.coercibleTo t = true := by simp [Ty.coercibleTo]
  cases op with
  | add =>
    simp only [binarySignature?] at h ⊢
    split_ifs at h with hs
    · cases h
      obtain ⟨rfl, rfl⟩ := hs
      exact ⟨rfl, rfl, rfl⟩
    · obtain ⟨hn, hrow, hl, hr⟩ := hjoin h
      refine ⟨?_, hl, hr⟩
      rw [if_neg, hrow]
      rintro ⟨hs, _⟩
      rw [hs] at hn
      cases hn
  | sub | mul | div | rem | lt | le | gt | ge =>
    obtain ⟨_, hrow, hl, hr⟩ := hjoin h
    exact ⟨hrow, hl, hr⟩
  | eq | ne =>
    simp only [binarySignature?] at h ⊢
    split at h
    · rename_i t ht
      cases h
      obtain ⟨_, hself, hl, hr, _⟩ := join?_self ht
      rw [hself]
      exact ⟨rfl, hl, hr⟩
    · rename_i hnone
      split_ifs at h with hs
      cases h
      obtain ⟨rfl, hs⟩ := hs
      rw [hnone]
      exact ⟨by simp [hs], hrefl _, hrefl _⟩
  | and | or =>
    simp only [binarySignature?] at h ⊢
    split_ifs at h with hs
    cases h
    obtain ⟨rfl, rfl⟩ := hs
    exact ⟨rfl, rfl, rfl⟩

theorem value_of_isNumeric (h : ty.isNumeric = true) : v.Value ty := by
  cases ty with
  | int | long | float | double => trivial
  | _ => cases h

theorem isNumeric_of_widensTo (h : source.widensTo target = true) : target.isNumeric = true := by
  unfold Ty.widensTo at h
  split at h
  · rfl
  · rfl
  · rfl
  · cases h

theorem binarySignature?_value {op : BinOp} {operand : Ty}
    (h : binarySignature? op operand operand = some ⟨operand, ty⟩) : v.Value ty := by
  have hjoin (r : Ty → Ty) (hv : ∀ t : Ty, t.isNumeric = true → v.Value (r t))
      (h : (operand.join? operand).map (fun t => (⟨t, r t⟩ : OpSignature)) =
        some ⟨operand, ty⟩) : v.Value ty := by
    obtain ⟨t, ht, hrow⟩ := Option.map_eq_some_iff.mp h
    cases hrow
    exact hv _ (join?_self ht).1
  cases op with
  | add =>
    simp only [binarySignature?] at h
    split_ifs at h
    · cases h
      trivial
    · exact hjoin (fun t => t) (fun _ => value_of_isNumeric) h
  | sub | mul | div | rem => exact hjoin (fun t => t) (fun _ => value_of_isNumeric) h
  | lt | le | gt | ge => exact hjoin (fun _ => .bool) (fun _ _ => trivial) h
  | eq | ne =>
    simp only [binarySignature?] at h
    split at h
    · cases h
      trivial
    · split_ifs at h
      cases h
      trivial
  | and | or =>
    simp only [binarySignature?] at h
    split_ifs at h
    cases h
    trivial

/-- **A typed expression has a value, or it is a call without a result.** -/
theorem Expr.HasTy.value_or_void (hp : v.Proper) (h : e.HasTy v ty) : ty = .void ∨ v.Value ty := by
  induction e generalizing ty with
  | literal note value =>
    cases value with
    | int => exact .inr (by rw [h.1]; trivial)
    | _ => exact .inr (by rw [show ty = _ from h]; trivial)
  | name note ref =>
    obtain ⟨binding, symbol, _, hs, hk, rfl, _⟩ := h
    exact .inr (hp.symbol _ _ hs hk)
  | binary note op left right =>
    obtain ⟨operand, hop, _⟩ := h
    exact .inr (binarySignature?_value hop)
  | unary note op operand =>
    cases op with
    | not => exact .inr (by rw [h.1]; trivial)
    | neg => exact .inr (value_of_isNumeric h.1)
  | call note callee args target =>
    cases target with
    | none => exact h.elim
    | some target =>
      cases target with
      | function id =>
        obtain ⟨params, hsig, _⟩ := h
        exact hp.ret _ _ _ hsig
      | constructor decl =>
        obtain ⟨info, hrecord, rfl, _⟩ := h
        refine .inr ?_
        show (v.record info.decl).isSome
        rw [hp.decl _ _ hrecord, hrecord]
        rfl
      | builtin builtin =>
        obtain ⟨_, _, _, rfl, _⟩ := h
        cases builtin
        · exact .inl rfl
        · exact .inr trivial
        · exact .inr trivial
  | field note base field index =>
    obtain ⟨_, _, info, position, _, hrecord, _, hfield, _⟩ := h
    exact .inr (hp.fields _ _ hrecord _ (List.mem_of_getElem? hfield))
  | index note base index ihb =>
    obtain ⟨⟨source, hw, hb⟩, _⟩ := h
    obtain ⟨-, ⟨-, rfl⟩ | ⟨-, hw⟩⟩ := hw
    · rcases ihb hb with hvoid | hvalue
      · cases hvoid
      · exact .inr hvalue
    · cases isNumeric_of_widensTo hw
  | array note elems =>
    obtain ⟨elem, rfl, hvalue, _⟩ := h
    exact .inr hvalue
  | newArray note elem length =>
    obtain ⟨elemTy, rfl, hvalue, _⟩ := h
    exact .inr hvalue
  | cast note operand target => exact .inr h.1

theorem Expr.Typed.value_or_void (hp : v.Proper) (h : e.Typed v ty) : ty = .void ∨ v.Value ty := by
  obtain ⟨source, ⟨-, ⟨-, rfl⟩ | ⟨-, hw⟩⟩, he⟩ := h
  · exact he.value_or_void hp
  · exact .inr (value_of_isNumeric (isNumeric_of_widensTo hw))

theorem Expr.HasTy.index_value (hp : v.Proper) {base position : Expr}
    (h : (Expr.index note base position).HasTy v ty) : v.Value ty :=
  (Expr.Typed.value_or_void hp h.1).resolve_left (by simp)

theorem Expr.HasTy.field_value (hp : v.Proper) {base : Expr} {field : Ident} {position : Option Nat}
    (h : (Expr.field note base field position).HasTy v ty) : v.Value ty := by
  obtain ⟨_, _, info, position, _, hrecord, _, hfield, _⟩ := h
  exact hp.fields _ _ hrecord _ (List.mem_of_getElem? hfield)

theorem Note.Widens.resultTy? (h : note.Widens source target) : note.resultTy? = some target := by
  obtain ⟨hty, ⟨hc, rfl⟩ | ⟨hc, _⟩⟩ := h
  · simp [Note.resultTy?, hty, hc]
  · simp [Note.resultTy?, hc]

theorem Expr.Typed.resultTy? (h : e.Typed v ty) : e.resultTy? = some ty := by
  obtain ⟨source, hw, _⟩ := h
  exact hw.resultTy?

theorem Note.Widens.eq_of_not_numeric (h : note.Widens source target)
    (hn : target.isNumeric = false) :
    source = target ∧ note.ty = some target ∧ note.coercion = none := by
  obtain ⟨hty, ⟨hc, rfl⟩ | ⟨_, hw⟩⟩ := h
  · exact ⟨rfl, hty, hc⟩
  · rw [isNumeric_of_widensTo hw] at hn
    cases hn

end StackCompiler

import StackCompiler.Proofs.CallSites
import StackCompiler.Proofs.FrameMachine

/-!
# Regions of methods

The code of a part of a method stands between the positions at which its writing begins and ends,
whatever is written after it.

* **`Method.Finishes.spells`**, **`Method.Finishes.spares`**: what has been appended to a buffer
  stands in the method, and writes to the frame there what it did in the buffer.
-/

namespace StackCompiler

variable {b b' b'' complete : CodeBuffer} {W : Subject → Prop} {m : Method} {i : Instruction}
  {x : Option Subject}

/-- Instructions, each with what it is about. -/
abbrev Code := List (Option Subject × Instruction)

variable {news news' : Code}

namespace CodeBuffer

/-- Instructions have been appended. -/
structure Appends (news : Code) (b b' : CodeBuffer) : Prop where
  code : b'.code = b.code ++ (news.map Prod.snd).toArray
  subjects : b'.subjects = b.subjects ++ (news.map Prod.fst).toArray

theorem Appends.trans (h : Appends news b b') (h' : Appends news' b' b'') :
    Appends (news ++ news') b b'' :=
  ⟨by simp [h'.code, h.code], by simp [h'.subjects, h.subjects]⟩

theorem Appends.size (h : Appends news b b') : b'.code.size = b.code.size + news.length := by
  simp [h.code]

theorem Emits.appends (h : Emits x i b b') :
    Appends (if b.reachable then [(x, i)] else []) b b' := by
  cases h with
  | dropped hr | appended hr => rw [hr]; exact ⟨by simp, by simp⟩

theorem Binds.appends {label : LabelId} (h : Binds label b b') : Appends [] b b' := by
  cases h with
  | onPath | byJumps | outOfReach => exact ⟨by simp, by simp⟩

theorem Leads.appends (h : b.Leads b') : ∃ news, Appends news b b' := by
  induction h with
  | refl => exact ⟨[], by simp, by simp⟩
  | tail _ hstep ih =>
    obtain ⟨news, h⟩ := ih
    cases hstep with
    | newLabel => exact ⟨news, h.code, h.subjects⟩
    | bind label hbind => exact ⟨_, h.trans (bind_eq_ok.mp hbind).appends⟩
    | emit x i hemit => exact ⟨_, h.trans (emit_eq_ok.mp hemit).appends⟩

theorem Leads.size_le (h : b.Leads b') : b.code.size ≤ b'.code.size := by
  obtain ⟨news, happends⟩ := h.appends
  rw [happends.size]
  exact Nat.le_add_right _ _

/-- What has been appended writes to the frame only for what is given. -/
def Sets (W : Subject → Prop) (b b' : CodeBuffer) : Prop :=
  ∃ news, Appends news b b' ∧ ∀ y i, (some y, i) ∈ news → i.writes (some y) = none ∨ W y

end CodeBuffer

open CodeBuffer

/-- The instructions are appended where control gets to, and nothing elsewhere. -/
def Emit.Spells (news : Code) (write : Emit Unit) : Prop :=
  ∀ ⦃b b' : CodeBuffer⦄, write b = .ok ((), b') →
    b.Leads b' ∧ Appends (if b.reachable then news else []) b b'

theorem Emit.spells_one (x : Option Subject) (i : Instruction) :
    Spells [(x, i)] (Emit.ofWrite (emitAbout x i)) := by
  intro b b' h
  have hemit := Emit.ofWrite_eq_ok.mp h
  exact ⟨.single (.emit x i hemit), (emit_eq_ok.mp hemit).appends⟩

theorem Emit.Spells.cons {write : Emit Unit} (h : Spells news write) (hi : i.isTerminal = false) :
    Spells ((x, i) :: news) (do Emit.ofWrite (emitAbout x i); write) := by
  intro b b'' hrun
  obtain ⟨_, b', h1, h2⟩ := Emit.bind_eq_ok.mp hrun
  have hemits : Emits x i b b' := emit_eq_ok.mp (Emit.ofWrite_eq_ok.mp h1)
  have hreachable : b'.reachable = b.reachable := by
    cases hemits with
    | dropped => rfl
    | appended hr => rw [hr, hi]; rfl
  refine ⟨(Emit.spells_one x i h1).1.trans (h h2).1, ?_⟩
  have happends := hemits.appends.trans (h h2).2
  rw [hreachable] at happends
  cases hr : b.reachable <;> rw [hr] at happends <;> exact happends

/-! ## Finished methods -/

def Instruction.placed (complete : CodeBuffer) (i : Instruction) : Instruction :=
  match i.target? with
  | some (.label label) => i.retarget (.index ((complete.labelAt label).getD 0))
  | _ => i

theorem CodeBuffer.Places.eq {j : Instruction} (h : Places b i j) : j = i.placed b := by
  unfold Instruction.placed
  cases h with
  | jump ht hq => simp only [ht, hq, Option.getD_some]
  | other hno =>
    split
    · exact absurd ‹_› (hno _)
    · rfl

theorem Instruction.writes_subject {e : Entry} (h : i.writes x = some e) : e.subject = x := by
  cases i <;> cases h <;> rfl

theorem Instruction.writes_placed (x : Option Subject) : (i.placed b).writes x = i.writes x := by
  unfold placed
  split
  · cases i <;> rfl
  · rfl

/-- The instructions stand in the method from a position on. -/
def Method.Spells (m : Method) (pos : Nat) (news : Code) : Prop :=
  ∀ (k : Nat) x i, news[k]? = some (x, i) →
    m.body.code[pos + k]? = some i ∧ m.subjectAt (pos + k) = x

namespace Method.Finishes

/-- **What has been appended stands in the method**, with jumps to where their labels are. -/
theorem spells (hm : m.Finishes complete) (h : Appends news b b') (hlater : b'.Leads complete) :
    m.Spells b.code.size (news.map fun c => (c.1, c.2.placed complete)) := by
  obtain ⟨limit, hleads⟩ := hm.leads
  obtain ⟨all, hall⟩ := hleads.appends
  obtain ⟨news', h'⟩ := hlater.appends
  have hwhole := h.trans h'
  have hsize : b.subjects.size = b.code.size := by
    have hcode := congrArg Array.size (hall.code.symm.trans hwhole.code)
    have hsubjects := congrArg Array.size (hall.subjects.symm.trans hwhole.subjects)
    simp [start] at hcode hsubjects
    omega
  intro k _ _ hk
  rw [List.getElem?_map, Option.map_eq_some_iff] at hk
  obtain ⟨⟨x, i⟩, hk, ⟨⟩⟩ := hk
  have hget : (news ++ news')[k]? = some (x, i) := by
    rw [List.getElem?_append_left (List.getElem?_eq_some_iff.mp hk).1, hk]
  obtain ⟨j, hj, hat⟩ := hm.code.places (b.code.size + k) i (by
    rw [hwhole.code, Array.getElem?_append_right (Nat.le_add_right _ _), Nat.add_sub_cancel_left,
      List.getElem?_toArray, List.getElem?_map, hget]
    rfl)
  refine ⟨hj.eq ▸ hat, ?_⟩
  rw [Method.subjectAt, hm.subjects, hwhole.subjects, Array.getElem?_toList, ← hsize,
    Array.getElem?_append_right (Nat.le_add_right _ _), Nat.add_sub_cancel_left,
    List.getElem?_toArray, List.getElem?_map, hget]
  rfl

/-- **A region of the method writes to the frame only what its code was given.** -/
theorem spares (hm : m.Finishes complete) (h : b.Sets W b') (hlater : b'.Leads complete)
    {y : Subject} (hy : ¬ W y) : m.Spares b.code.size b'.code.size y := by
  obtain ⟨news, happends, hW⟩ := h
  intro pos i e hlo hhi hi he hey
  have hsize := happends.size
  obtain ⟨⟨x, i'⟩, hk⟩ : ∃ c, news[pos - b.code.size]? = some c :=
    ⟨_, List.getElem?_eq_getElem (show pos - b.code.size < news.length by omega)⟩
  obtain ⟨hat, hx⟩ := hm.spells happends hlater _ x (i'.placed complete)
    (by rw [List.getElem?_map, hk]; rfl)
  rw [Nat.add_sub_cancel' hlo] at hat hx
  cases hat.symm.trans hi
  rw [hx, Instruction.writes_placed] at he
  cases (Instruction.writes_subject he).symm.trans hey
  cases ((hW y i' (List.mem_of_getElem? hk)).resolve_right hy).symm.trans he

end Method.Finishes

end StackCompiler

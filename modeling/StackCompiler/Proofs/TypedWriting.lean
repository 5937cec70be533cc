import StackCompiler.Proofs.TypedBuffer

/-!
# Writing typed code

Pieces of code that lead from one shape to another, and pieces that jump. A piece may be written
where control does not get; then nothing is written, and control does not get behind it either.

* **`Emit.materialize_takes`**: truth values.
-/

namespace StackCompiler

variable {k m : Emit Unit} {i : Instruction} {l : LabelId} {J : LabelId → Prop} {s s' : Shape}

/-! ## Outcomes of writing -/

/-- After a piece of code is written, `Q` holds; an error on the way is one of `E`. -/
def Emit.Wp {α : Type} (E : GenerateError → Prop) (m : Emit α) (b : CodeBuffer)
    (Q : α → CodeBuffer → Prop) : Prop :=
  match m b with
  | .ok (a, b') => Q a b'
  | .error e => E e

namespace Emit.Wp

variable {α β : Type} {E : GenerateError → Prop} {b : CodeBuffer} {Q : α → CodeBuffer → Prop}

theorem of_ok {m : Emit α} {a : α} {b' : CodeBuffer} (h : m b = .ok (a, b')) (hQ : Q a b') :
    Wp E m b Q := by
  rw [Wp, h]
  exact hQ

theorem of_error {m : Emit α} {e : GenerateError} (h : m b = .error e) (he : E e) : Wp E m b Q := by
  rw [Wp, h]
  exact he

theorem pure {a : α} (h : Q a b) : Wp E (pure a) b Q := h

theorem imp {m : Emit α} {P Q : α → CodeBuffer → Prop} (h : Wp E m b P)
    (hPQ : ∀ a b', P a b' → Q a b') : Wp E m b Q := by
  unfold Wp at h ⊢
  split at h
  · exact hPQ _ _ h
  · exact h

theorem bind {m : Emit α} {f : α → Emit β} {P : α → CodeBuffer → Prop}
    {Q : β → CodeBuffer → Prop} (h : Wp E m b P)
    (hf : ∀ a b', P a b' → Wp E (f a) b' Q) : Wp E (m >>= f) b Q := by
  unfold Wp at h
  split at h
  · rename_i a b' hm
    have hf := hf a b' h
    have heq : (m >>= f) b = f a b' := by
      show (m b >>= fun p => f p.1 p.2) = _
      rw [hm]
      rfl
    rwa [Wp, heq]
  · rename_i e hm
    refine of_error (e := e) ?_ h
    show (m b >>= fun p => f p.1 p.2) = _
    rw [hm]
    rfl

theorem lift {x : Except GenerateError α} {a : α} (hx : x = .ok a) (h : Q a b) :
    Wp E (liftM x : Emit α) b Q := by
  subst hx
  exact h

theorem liftThen {x : Except GenerateError α} {k : α → Emit β} {Q : β → CodeBuffer → Prop} {a : α}
    (hx : x = .ok a) (h : Wp E (k a) b Q) : Wp E (do let a ← x; k a) b Q :=
  (lift (Q := fun a' b' => a' = a ∧ b' = b) hx ⟨rfl, rfl⟩).bind fun _ _ ⟨ha, hb⟩ => by
    subst ha hb
    exact h

theorem ok {m : Emit α} {a : α} {b' : CodeBuffer} (h : Wp E m b Q) (hm : m b = .ok (a, b')) :
    Q a b' := by
  rwa [Wp, hm] at h

end Emit.Wp

open CodeBuffer

/-! ## Single steps -/

section

variable {S : Setting} {frame : Nat} {E : GenerateError → Prop} {b b' : CodeBuffer} {T T' : Shaping}

theorem Emit.emit_dead (h : b.Shaped S frame T) (hcur : T.at_ b.code.size = none)
    (x : Option Subject) (i : Instruction) : ofWrite (emitAbout x i) b = .ok ((), b) := by
  have hr : b.reachable = false := by rw [h.reach, hcur]; rfl
  rw [ofWrite_eq_ok]
  exact emit_of_not_reachable hr x i

theorem CodeBuffer.Notes.at_other {labels : Array LabelState} (h : Notes i b labels)
    (hl : i.target? ≠ some (.label l)) : labels[l]? = b.labels[l]? := by
  cases h with
  | other _ => rfl
  | @jump target _ ht _ _ =>
    rw [Array.getElem?_setIfInBounds, if_neg]
    rintro rfl
    exact hl ht

/-- What a piece of code leaves, which may jump to labels of a set: it ends with a shape, and
control gets behind it only from its start. -/
structure CodeBuffer.Ends (S : Setting) (frame : Nat) (J : LabelId → Prop) (b : CodeBuffer)
    (T : Shaping) (s : Shape) (b' : CodeBuffer) (T' : Shaping) : Prop where
  shaped : b'.Shaped S frame T'
  extends_ : Extends b.labels.size (fun l => (T.at_ b.code.size).isSome ∧ J l) b T b' T'
  cur : ∀ c, T'.at_ b'.code.size = some c → c = s
  dead : T.at_ b.code.size = none → T'.at_ b'.code.size = none

theorem CodeBuffer.Ends.alive (h : Ends S frame J b T s b' T')
    (hlive : (T'.at_ b'.code.size).isSome) : (T.at_ b.code.size).isSome := by
  cases hc : T.at_ b.code.size with
  | some c => rfl
  | none =>
    rw [h.dead hc] at hlive
    cases hlive

theorem CodeBuffer.Ends.not_noted (h : Ends S frame J b T s b' T') (hd : T.at_ b.code.size = none)
    (hl : l < b.labels.size) (hno : ¬ b.Noted l) : ¬ b'.Noted l := by
  unfold Noted
  rwa [h.extends_.same l hl (by rw [hd]; simp)]

/-- What a piece of code leaves in which control does not get lost. -/
structure CodeBuffer.Gains (S : Setting) (frame : Nat) (J : LabelId → Prop) (b : CodeBuffer)
    (T : Shaping) (s : Shape) (b' : CodeBuffer) (T' : Shaping) : Prop
    extends Ends S frame J b T s b' T' where
  live : (T.at_ b.code.size).isSome → (T'.at_ b'.code.size).isSome ∨ ∃ l, J l ∧ b'.Noted l

namespace CodeBuffer.Gains

theorem refl (h : b.Shaped S frame T) (hcur : ∀ c, T.at_ b.code.size = some c → c = s) :
    Gains S frame J b T s b T :=
  ⟨⟨h, .refl b T _ _, hcur, fun hd => hd⟩, .inl⟩

theorem trans {b1 : CodeBuffer} {T1 : Shaping} (h : Gains S frame J b T s b1 T1)
    (h' : Gains S frame J b1 T1 s' b' T') : Gains S frame J b T s' b' T' := by
  refine ⟨⟨h'.shaped, h.extends_.trans (h'.extends_.mono h.extends_.size fun _ _ hl =>
    ⟨h.alive hl.1, hl.2⟩), h'.cur, fun hd => h'.dead (h.dead hd)⟩, fun hlive => ?_⟩
  rcases h.live hlive with hlive | ⟨l, hl, hnoted⟩
  · exact h'.live hlive
  · exact .inr ⟨l, hl, h'.extends_.noted hnoted.lt hnoted⟩

theorem mono {J' : LabelId → Prop} (h : Gains S frame J b T s b' T') (hJ : ∀ l, J l → J' l) :
    Gains S frame J' b T s b' T' :=
  ⟨⟨h.shaped, h.extends_.mono (Nat.le_refl _) fun l _ hl => ⟨hl.1, hJ l hl.2⟩, h.cur, h.dead⟩,
    fun hlive => (h.live hlive).imp_right fun hl => hl.imp fun l => And.imp_left (hJ l)⟩

end CodeBuffer.Gains

/-- Code may be refused that is too long for a limit. -/
abbrev Setting.MayOverflow (S : Setting) (E : GenerateError → Prop) : Prop :=
  S.limit.isSome → E (.buffer .overflow)

theorem Emit.emit_wp (hE : S.MayOverflow E) (h : b.Shaped S frame T)
    (hcur : ∀ c, T.at_ b.code.size = some c → c = s) {x : Option Subject}
    (ha : Shape.Accepts S.types frame x i s s')
    (ht : ∀ t, i.target? = some t → ∃ l, t = .label l ∧
      ((T.at_ b.code.size).isSome → b.Open S T l s')) :
    Wp E (ofWrite (emitAbout x i)) b fun _ b' => ∃ T',
      Ends S frame (fun l => i.target? = some (.label l)) b T s' b' T' ∧
      ((T.at_ b.code.size).isSome → ∀ l, i.target? = some (.label l) → b'.Noted l) ∧
      T'.at_ b'.code.size = (T.at_ b.code.size).bind fun _ => nextShape i s' := by
  cases hc : T.at_ b.code.size with
  | none =>
    refine Wp.of_ok (emit_dead h hc x i) ⟨T, ⟨h, .refl b T _ _, fun c hc' => ?_,
      fun _ => hc⟩, ?_, hc⟩
    · cases hc.symm.trans hc'
    · rintro ⟨⟩
  | some c =>
    obtain rfl := hcur c hc
    have hlive : (T.at_ b.code.size).isSome := by rw [hc]; rfl
    rcases h.emit hc ha fun t hi => (ht t hi).imp fun l hl => ⟨hl.1, hl.2 hlive⟩ with
      ⟨b', hb', hlimit⟩ | ⟨b', labels, hb', hnotes, hlabels, hcode, -, h'⟩
    · refine Wp.of_error ?_ (hE hlimit)
      rw [ofWrite, hb']
    · have hsize : b'.labels.size = b.labels.size := hlabels ▸ hnotes.size
      have hend : (T.set (b.code.size + 1) (nextShape i s')).at_ b'.code.size = nextShape i s' := by
        rw [hcode, Array.size_push, Shaping.set_at]
      refine Wp.of_ok (ofWrite_eq_ok.mpr hb') ⟨_, ⟨h', ⟨⟨(emit_eq_ok.mp hb').keeps, by omega,
        fun _ _ => rfl, fun l _ state hstate => hlabels ▸ hnotes.of_some hstate, fun l _ hl => ?_⟩,
        fun l hle hlt => absurd hlt (by omega)⟩, fun c hc' => ?_, fun hd => ?_⟩,
          fun _ l hl => ?_, hend⟩
      · rw [hlabels]
        exact hnotes.at_other fun hi => hl ⟨hlive, hi⟩
      · rw [hend, nextShape] at hc'
        split at hc'
        · cases hc'
        · exact (Option.some.inj hc').symm
      · cases hc.symm.trans hd
      · have hlast : b'.code[b.code.size]? = some i := by rw [hcode]; simp
        obtain ⟨_, _, _, _, _, htarget⟩ := h'.code b.code.size i h.first hlast
        obtain ⟨l', hl', -, hnoted, -⟩ := htarget _ hl
        cases hl'
        exact hnoted

/-- A label that is made and is to be placed, with a shape. -/
def CodeBuffer.Waits (S : Setting) (b : CodeBuffer) (T : Shaping) (l : LabelId)
    (s : Shape) : Prop :=
  S.label ≤ l ∧ (∃ state, b.labels[l]? = some state ∧ state.position = none) ∧ T.label l = s

theorem CodeBuffer.Waits.open (h : b.Waits S T l s) (hle : s.Le s') : b.Open S T l s' := by
  obtain ⟨hown, ⟨state, hstate, hfree⟩, rfl⟩ := h
  exact ⟨hown, ⟨state, hstate, .inl hfree⟩, hle⟩

theorem CodeBuffer.Waits.lt (h : b.Waits S T l s) : l < b.labels.size := (h.open (.refl s)).lt

theorem CodeBuffer.Waits.grows (h : b.Waits S T l s) (he : Grows b.labels.size J b T b' T') :
    b'.Waits S T' l s := by
  have hlt := h.lt
  obtain ⟨hown, ⟨state, hstate, hfree⟩, rfl⟩ := h
  obtain ⟨state', hstate', hp, -⟩ := he.kept l hlt state hstate
  exact ⟨hown, ⟨state', hstate', hp.trans hfree⟩, he.shapes l hlt⟩

theorem CodeBuffer.Waits.extends (h : b.Waits S T l s) (he : Extends b.labels.size J b T b' T') :
    b'.Waits S T' l s :=
  h.grows he.toGrows

theorem CodeBuffer.Grows.not_noted {n : Nat} (he : Grows n J b T b' T') (hl : l < n)
    (h : ¬ b.Noted l) (hJ : ¬ J l) : ¬ b'.Noted l := by
  unfold Noted
  rw [he.same l hl hJ]
  exact h

/-- What making a label with a shape leaves. -/
structure CodeBuffer.Fresh (S : Setting) (frame : Nat) (b : CodeBuffer) (T : Shaping) (s : Shape)
    (b' : CodeBuffer) (T' : Shaping) : Prop where
  shaped : b'.Shaped S frame T'
  keeps : b.Keeps b'
  code : b'.code = b.code
  shapes : T'.at_ = T.at_
  old : ∀ l < b.labels.size, b'.labels[l]? = b.labels[l]? ∧ T'.label l = T.label l
  size : b'.labels.size = b.labels.size + 1
  waits : b'.Waits S T' b.labels.size s
  unnoted : ¬ b'.Noted b.labels.size
  extends_ : ∀ {n : Nat} {J : LabelId → Prop} {b2 : CodeBuffer} {T2 : Shaping},
    n ≤ b.labels.size → (b2.labelAt b.labels.size).isSome → Extends n J b' T' b2 T2 →
      Extends n J b T b2 T2

namespace CodeBuffer.Fresh

variable {s : Shape}

section

variable (h : Fresh S frame b T s b' T')
include h

theorem cur : T'.at_ b'.code.size = T.at_ b.code.size := by
  rw [h.shapes, h.code]

theorem waits_old (hl : b.Waits S T l s') : b'.Waits S T' l s' := by
  have hlt := hl.lt
  obtain ⟨hown, hstate, hshape⟩ := hl
  exact ⟨hown, by rwa [(h.old l hlt).1], (h.old l hlt).2.trans hshape⟩

theorem open_old (hl : b.Open S T l s') : b'.Open S T' l s' := by
  have hlt := hl.lt
  obtain ⟨hown, hstate, hle⟩ := hl
  exact ⟨hown, by rwa [(h.old l hlt).1], (h.old l hlt).2 ▸ hle⟩

theorem noted_old (hl : l < b.labels.size) : b'.Noted l ↔ b.Noted l := by
  unfold Noted
  rw [(h.old l hl).1]

theorem grows {n : Nat} (hn : n ≤ b.labels.size) : Grows n J b T b' T' := by
  have hlt {l : LabelId} (hl : l < n) : l < b.labels.size := Nat.lt_of_lt_of_le hl hn
  have hsize := h.size
  refine ⟨h.keeps, by omega, fun l hl => (h.old l hl).2, fun l hl state hstate => ?_,
    fun l hl _ => (h.old l (hlt hl)).1⟩
  exact ⟨state, by rw [(h.old l (hlt hl)).1, hstate], rfl, fun hd => hd⟩

end

end CodeBuffer.Fresh

theorem Emit.newLabel_wp (h : b.Shaped S frame T) (s : Shape) :
    Wp E Emit.newLabel b fun l b' => l = b.labels.size ∧ ∃ T', Fresh S frame b T s b' T' := by
  have hat : (b.labels.push ⟨none, none⟩)[b.labels.size]? = some ⟨none, none⟩ := by simp
  have hshape {l : LabelId} (hl : l < b.labels.size) :
      Function.update T.label b.labels.size s l = T.label l :=
    Function.update_of_ne (Nat.ne_of_lt hl) ..
  refine Wp.of_ok rfl ⟨rfl, _, h.newLabel s, (Step.newLabel b).keeps, rfl, rfl,
    fun l hl => ⟨?_, hshape hl⟩, by simp,
    ⟨h.label, ⟨_, hat, rfl⟩, Function.update_self ..⟩, ?_, fun hn hplaced he => ?_⟩
  · rw [Array.getElem?_push, if_neg (Nat.ne_of_lt hl)]
  · rintro ⟨state, hstate, hd⟩
    rw [hat] at hstate
    cases hstate
    cases hd
  · exact he.fresh hn rfl (Step.newLabel b).keeps (fun l hl => hshape hl) hplaced

/-- What placing a label with a shape leaves. -/
structure CodeBuffer.Placed (S : Setting) (frame : Nat) (b : CodeBuffer) (T : Shaping) (l : LabelId)
    (s : Shape) (b' : CodeBuffer) (T' : Shaping) : Prop where
  shaped : b'.Shaped S frame T'
  code : b'.code = b.code
  size : b'.labels.size = b.labels.size
  placed : (b'.labelAt l).isSome
  others : ∀ other, other ≠ l → b'.labels[other]? = b.labels[other]?
  shapes : T'.label = T.label
  extends_ : ∀ {n : Nat} {J : LabelId → Prop}, n ≤ l → Extends n J b T b' T'
  noted : b'.Noted l ↔ (T'.at_ b'.code.size).isSome
  live : (T.at_ b.code.size).isSome ∨ b.Noted l → T'.at_ b'.code.size = some s
  dead : T.at_ b.code.size = none → ¬ b.Noted l → T'.at_ b'.code.size = none

namespace CodeBuffer.Placed

variable {l other : LabelId} {s s' : Shape}

section

variable (h : Placed S frame b T l s b' T')
include h

theorem waits_other (hne : other ≠ l) (ho : b.Waits S T other s') : b'.Waits S T' other s' := by
  obtain ⟨hown, hstate, hshape⟩ := ho
  exact ⟨hown, by rwa [h.others other hne], by rwa [h.shapes]⟩

theorem open_other (hne : other ≠ l) (ho : b.Open S T other s') : b'.Open S T' other s' := by
  obtain ⟨hown, hstate, hle⟩ := ho
  exact ⟨hown, by rwa [h.others other hne], by rwa [h.shapes]⟩

theorem open_self (hl : b.Waits S T l s) (hlive : (T'.at_ b'.code.size).isSome) :
    b'.Open S T' l s := by
  obtain ⟨state, hstate, hd⟩ := h.noted.mpr hlive
  refine ⟨hl.1, ⟨state, hstate, .inr hd⟩, ?_⟩
  rw [h.shapes, hl.2.2]
  exact .refl s

theorem cur_eq {c : Shape} (hc : T'.at_ b'.code.size = some c) : c = s := by
  by_cases hlive : (T.at_ b.code.size).isSome ∨ b.Noted l
  · rw [h.live hlive] at hc
    exact (Option.some.inj hc).symm
  · obtain ⟨hdead, hno⟩ := not_or.mp hlive
    rw [h.dead (by simpa using hdead) hno] at hc
    cases hc

theorem noted_other (hne : other ≠ l) : b'.Noted other ↔ b.Noted other := by
  unfold Noted
  rw [h.others other hne]

end

end CodeBuffer.Placed

theorem Emit.bind_wp (h : b.Shaped S frame T) (hl : b.Waits S T l s)
    (hs : ∀ c, T.at_ b.code.size = some c → s.Le c) :
    Wp E (Emit.bind l) b fun _ b' => ∃ T', Placed S frame b T l s b' T' := by
  have hlt := hl.lt
  obtain ⟨hown, ⟨state, hstate, hfree⟩, rfl⟩ := hl
  obtain ⟨b', depth, hb', hplacing, hdepth, h'⟩ := h.bind hstate hfree hown hs
  have hnoted : b.Noted l ↔ state.depth.isSome := by
    refine ⟨?_, fun hd => ⟨state, hstate, hd⟩⟩
    rintro ⟨st, hst, hd⟩
    cases hst.symm.trans hstate
    exact hd
  have hend : (T.set b.code.size (b.endShape T l state)).at_ b'.code.size =
      b.endShape T l state := by rw [hplacing.code, Shaping.set_at]
  have hne {n : Nat} (other : LabelId) (hother : other < n) (hn : n ≤ l) : other ≠ l :=
    Nat.ne_of_lt (Nat.lt_of_lt_of_le hother hn)
  refine Wp.of_ok (ofWrite_eq_ok.mpr hb') ⟨_, h', hplacing.code, hplacing.size,
    by rw [hplacing.labelAt hlt]; rfl, fun other hne => hplacing.at_other hne, rfl,
    fun hn => ?_, ?_, fun hlive => ?_, fun hcur hno => ?_⟩
  · refine ⟨⟨(CodeBuffer.bind_eq_ok.mp hb').keeps, Nat.le_of_eq hplacing.size.symm, fun _ _ => rfl,
      fun other hother st hst => ?_, fun other hother _ => hplacing.at_other (hne other hother hn)⟩,
      fun other hle hlt' => ?_⟩
    · exact ⟨st, by rw [hplacing.at_other (hne other hother hn), hst], rfl, fun hd => hd⟩
    · rw [hplacing.size] at hlt'
      omega
  · rw [hend, ← hdepth, Noted, hplacing.at_self hlt]
    simp
  · rw [hend, endShape, if_pos]
    rcases hlive with hlive | hlive
    · rw [h.reach, hlive]
      rfl
    · rw [hnoted.mp hlive, Bool.or_true]
  · rw [hend, endShape, if_neg]
    rw [h.reach, hcur]
    simpa [hnoted] using hno

end

/-! ## Pieces -/

section

variable (S : Setting) (frame : Nat) (E : GenerateError → Prop)

/-- A piece of code that leads from one shape to another. -/
def Emit.Takes (m : Emit Unit) (s s' : Shape) : Prop :=
  ∀ ⦃b T⦄, b.Shaped S frame T → (∀ c, T.at_ b.code.size = some c → c = s) →
    Wp E m b fun _ b' => ∃ T', Gains S frame (fun _ => False) b T s' b' T'

/-- A piece of code that may jump to a label and leads back to the shape from which it starts. -/
def Emit.Jumps (m : Emit Unit) (l : LabelId) (s : Shape) : Prop :=
  ∀ ⦃b T⦄, b.Shaped S frame T → (∀ c, T.at_ b.code.size = some c → c = s) →
    ((T.at_ b.code.size).isSome → b.Open S T l s) →
    Wp E m b fun _ b' => ∃ T', Gains S frame (fun l' => l' = l) b T s b' T'

end

namespace Emit

variable {S : Setting} {frame : Nat} {E : GenerateError → Prop} {s s1 s' : Shape} {l : LabelId}

namespace Takes

theorem then_ (hm : Takes S frame E m s s1) (hk : Takes S frame E k s1 s') :
    Takes S frame E (do m; k) s s' := by
  intro b T h hcur
  refine (hm h hcur).bind fun _ b1 ⟨T1, h1⟩ => ?_
  exact (hk h1.shaped h1.cur).imp fun _ b2 h2 => h2.imp fun _ => h1.trans

theorem pure (s : Shape) : Takes S frame E (pure ()) s s :=
  fun _ T h hcur => Wp.pure ⟨T, .refl h hcur⟩

theorem liftThen {α : Type} {x : Except GenerateError α} {k : α → Emit Unit} {a : α}
    (hx : x = .ok a) (hk : Takes S frame E (k a) s s') :
    Takes S frame E (do let a ← x; k a) s s' :=
  fun _ _ h hcur => Wp.liftThen hx (hk h hcur)

theorem liftError {α : Type} {x : Except GenerateError α} {k : α → Emit Unit} {e : GenerateError}
    (hx : x = .error e) (he : E e) : Takes S frame E (do let a ← x; k a) s s' := by
  subst hx
  exact fun _ _ _ _ => Wp.of_error rfl he

theorem emit (hE : S.MayOverflow E) {x : Option Subject}
    (ha : Shape.Accepts S.types frame x i s s') (ht : i.target? = none)
    (hterm : i.isTerminal = false) : Takes S frame E (ofWrite (emitAbout x i)) s s' := by
  intro b T h hcur
  refine (emit_wp hE h hcur ha (by simp [ht])).imp fun _ b' ⟨T', h', _, hcur'⟩ => ⟨T', ?_⟩
  refine Gains.mono ⟨h', fun hlive => .inl ?_⟩ (by simp [ht])
  obtain ⟨c, hc⟩ := Option.isSome_iff_exists.mp hlive
  rw [hcur', nextShape, hterm, hc]
  rfl

end Takes

namespace Jumps

theorem pure (l : LabelId) (s : Shape) : Jumps S frame E (pure ()) l s :=
  fun _ T h hcur _ => Wp.pure ⟨T, .refl h hcur⟩

theorem emit (hE : S.MayOverflow E)
    (ha : Shape.Accepts S.types frame none i s s') (ht : i.target? = some (.label l)) :
    ∀ ⦃b T⦄, b.Shaped S frame T → (∀ c, T.at_ b.code.size = some c → c = s) →
      ((T.at_ b.code.size).isSome → b.Open S T l s') →
      Wp E (Emit.instruction i) b fun _ b' => ∃ T', Gains S frame (fun l' => l' = l) b T s' b' T' ∧
        (i.isTerminal = true → T'.at_ b'.code.size = none) := by
  intro b T h hcur hopen
  refine (emit_wp hE h hcur ha fun t ht' => ⟨l, Option.some.inj (ht'.symm.trans ht), hopen⟩).imp
    fun _ b' ⟨T', h', hnoted, hcur'⟩ => ⟨T', Gains.mono ⟨h', fun hlive => ?_⟩ fun l' hl' => ?_,
      fun hterm => ?_⟩
  · exact .inr ⟨l, ht, hnoted hlive l ht⟩
  · cases ht.symm.trans hl'
    rfl
  · rw [hcur', nextShape, hterm]
    simp

theorem goto (hE : S.MayOverflow E) (l : LabelId) (s : Shape) : Jumps S frame E (Emit.jump l) l s :=
  fun _ _ h hcur hopen => (emit (i := .goto (.label l)) hE (.plain rfl rfl rfl trivial) rfl h hcur
    hopen).imp fun _ _ h' => h'.imp fun _ => And.left

theorem branch (hE : S.MayOverflow E) (hm : Takes S frame E m s s1)
    (ha : Shape.Accepts S.types frame none i s1 s) (ht : i.target? = some (.label l)) :
    Jumps S frame E (do m; Emit.instruction i) l s := by
  intro b T h hcur hopen
  refine (hm h hcur).bind fun _ b1 ⟨T1, h1⟩ => ?_
  refine (emit hE ha ht h1.shaped h1.cur fun hlive =>
    (hopen (h1.alive hlive)).extends h1.extends_).imp fun _ b2 h2 => h2.imp fun _ h2 => ?_
  exact (h1.mono fun _ => False.elim).trans h2.1

end Jumps

/-! ## Truth values and jumps -/

def pushInt (s : Shape) : Shape := ⟨.int :: s.stack, s.words⟩

theorem iconst_accepts (types : MethodTypes) (frame : Nat) (value : Int32) (s : Shape) :
    Shape.Accepts types frame none (.iconst value) s (pushInt s) :=
  .plain rfl rfl rfl trivial

/-- **A truth value is made from jumps.** -/
theorem materialize_takes (hE : S.MayOverflow E)
    {jump : LabelId → Bool → Emit Unit} (hjump : ∀ l, Jumps S frame E (jump l false) l s) :
    Takes S frame E (materialize jump) s (pushInt s) := by
  have hconst (value : Int32) : Takes S frame E (Emit.instruction (.iconst value)) s (pushInt s) :=
    .emit hE (iconst_accepts _ _ value s) rfl rfl
  intro b T h hcur
  refine (newLabel_wp h s).bind fun _ b1 ⟨hn, T1, hf1⟩ => ?_
  subst hn
  refine (newLabel_wp hf1.shaped (pushInt s)).bind fun _ b2 ⟨hn, T2, hf2⟩ => ?_
  subst hn
  have hcur2 : T2.at_ b2.code.size = T.at_ b.code.size := hf2.cur.trans hf1.cur
  have hfalse := hf2.waits_old hf1.waits
  have hdone := hf2.waits
  refine (hjump _ hf2.shaped (by rwa [hcur2]) fun _ => hfalse.open (.refl s)).bind
    fun _ b3 ⟨T3, h3⟩ => ?_
  refine (hconst 1 h3.shaped h3.cur).bind fun _ b4 ⟨T4, h4⟩ => ?_
  have hfalse4 := (hfalse.extends h3.extends_).extends h4.extends_
  have hdone4 := (hdone.extends h3.extends_).extends h4.extends_
  refine (Jumps.emit (i := .goto (.label b1.labels.size)) hE (.plain rfl rfl rfl trivial) rfl
    h4.shaped h4.cur fun _ => hdone4.open (.refl _)).bind fun _ b5 ⟨T5, h5, hcur5⟩ => ?_
  have hcur5 := hcur5 rfl
  refine (bind_wp h5.shaped (hfalse4.extends h5.extends_) (by rw [hcur5]; nofun)).bind
    fun _ b6 ⟨T6, hp6⟩ => ?_
  refine (hconst 0 hp6.shaped fun c hc => hp6.cur_eq hc).bind fun _ b7 ⟨T7, h7⟩ => ?_
  have hne : b1.labels.size ≠ b.labels.size := by rw [hf1.size]; omega
  have hdone6 := hp6.waits_other hne (hdone4.extends h5.extends_)
  refine (bind_wp h7.shaped (hdone6.extends h7.extends_) fun c hc => ?_).imp fun _ b8
    ⟨T8, hp8⟩ => ?_
  · rw [h7.cur c hc]
    exact .refl _
  refine ⟨T8, ⟨hp8.shaped, ?_, fun c hc => hp8.cur_eq hc, fun hd => ?_⟩, fun hlive => .inl ?_⟩
  · have hs1 := hf1.size
    have hs2 := hf2.size
    have hs3 := h3.extends_.size
    have hs4 := h4.extends_.size
    have hs5 := h5.extends_.size
    have hs6 := hp6.size
    have hs7 := h7.extends_.size
    have hchain : Extends b.labels.size (fun l => (T.at_ b.code.size).isSome ∧ False) b2 T2 b8 T8 :=
      ((((h3.extends_.mono (by omega) fun l hl h => absurd h.2 (Nat.ne_of_lt hl)).trans
        (h4.extends_.mono (by omega) fun _ _ h => h.2.elim)).trans
        (h5.extends_.mono (by omega) fun l hl h => absurd h.2 (Nat.ne_of_lt (by omega)))).trans
        (hp6.extends_ (Nat.le_refl _))).trans
        ((h7.extends_.mono (by omega) fun _ _ h => h.2.elim).trans (hp8.extends_ (by omega)))
    have hplaced : (b8.labelAt b.labels.size).isSome := by
      obtain ⟨pos, hpos⟩ := Option.isSome_iff_exists.mp hp6.placed
      have hkeeps := h7.extends_.keeps.trans
        (hp8.extends_ (n := 0) (J := fun _ => False) (Nat.zero_le _)).keeps
      rw [hkeeps.labels _ _ hpos]
      rfl
    exact hf1.extends_ (Nat.le_refl _) hplaced (hf2.extends_ (by omega) hp8.placed hchain)
  · -- where control does not get, nothing jumps to the labels
    have hd2 := hcur2.trans hd
    have hd3 := h3.dead hd2
    have hd4 := h4.dead hd3
    have hno5 {l : LabelId} (hlt : l < b2.labels.size) (hno : ¬ b2.Noted l) : ¬ b5.Noted l :=
      have hlt3 := Nat.lt_of_lt_of_le hlt h3.extends_.size
      h5.not_noted hd4 (Nat.lt_of_lt_of_le hlt3 h4.extends_.size)
        (h4.not_noted hd3 hlt3 (h3.not_noted hd2 hlt hno))
    have hd6 := hp6.dead hcur5 (hno5 hfalse.lt (mt (hf2.noted_old hf1.waits.lt).mp hf1.unnoted))
    refine hp8.dead (h7.dead hd6) (h7.not_noted hd6 hdone6.lt ?_)
    exact mt (hp6.noted_other hne).mp (hno5 hdone.lt hf2.unnoted)
  · rcases h3.live (hcur2 ▸ hlive) with hlive3 | ⟨_, rfl, hnoted⟩
    · -- control gets to the end behind the first constant
      obtain ⟨l, rfl, hnoted⟩ := (h5.live ((h4.live hlive3).resolve_right (by simp))).resolve_left
        (by rw [hcur5]; simp)
      rw [hp8.live (.inr (h7.extends_.noted hdone6.lt ((hp6.noted_other hne).mpr hnoted)))]
      rfl
    · -- control gets to the second constant
      have hnoted5 := h5.extends_.noted hfalse4.lt
        (h4.extends_.noted (hfalse.extends h3.extends_).lt hnoted)
      have hlive6 : (T6.at_ b6.code.size).isSome := by rw [hp6.live (.inr hnoted5)]; rfl
      rw [hp8.live (.inl ((h7.live hlive6).resolve_right (by simp)))]
      rfl

/-! ## Jumps of logical operators -/

theorem Jumps.then_ (hm : Jumps S frame E m l s) (hk : Jumps S frame E k l s) :
    Jumps S frame E (do m; k) l s := by
  intro b T h hcur hopen
  refine (hm h hcur hopen).bind fun _ b1 ⟨T1, h1⟩ => ?_
  exact (hk h1.shaped h1.cur fun hlive => (hopen (h1.alive hlive)).extends h1.extends_).imp
    fun _ b2 h2 => h2.imp fun _ => h1.trans

theorem Jumps.skip {m : LabelId → Emit Unit} (hm : ∀ l, Jumps S frame E (m l) l s)
    (hk : Jumps S frame E k l s) :
    Jumps S frame E (do let skip ← Emit.newLabel; m skip; k; Emit.bind skip) l s := by
  intro b T h hcur hopen
  refine (newLabel_wp h s).bind fun _ b1 ⟨hn, T1, hf1⟩ => ?_
  subst hn
  refine (hm _ hf1.shaped (by rwa [hf1.cur]) fun _ => hf1.waits.open (.refl s)).bind
    fun _ b2 ⟨T2, h2⟩ => ?_
  have hsome (hlive : (T2.at_ b2.code.size).isSome) : (T.at_ b.code.size).isSome :=
    hf1.cur ▸ h2.alive hlive
  refine (hk h2.shaped h2.cur fun hlive => (hf1.open_old (hopen (hsome hlive))).extends
    h2.extends_).bind fun _ b3 ⟨T3, h3⟩ => ?_
  have hwaits2 := hf1.waits.extends h2.extends_
  refine (bind_wp h3.shaped (hwaits2.extends h3.extends_) fun c hc => ?_).imp
    fun _ b4 ⟨T4, hp4⟩ => ?_
  · rw [h3.cur c hc]
    exact .refl s
  have hs1 := hf1.size
  have hs2 := h2.extends_.size
  refine ⟨T4, ⟨hp4.shaped, ?_, fun c hc => hp4.cur_eq hc, fun hd => ?_⟩, fun hlive => ?_⟩
  · exact hf1.extends_ (Nat.le_refl _) hp4.placed (((h2.extends_.mono (by omega) fun l' hl' h =>
      absurd h.2 (Nat.ne_of_lt hl')).trans (h3.extends_.mono (by omega) fun l' _ h =>
      ⟨hsome h.1, h.2⟩)).trans (hp4.extends_ (Nat.le_refl _)))
  · have hd1 := hf1.cur.trans hd
    exact hp4.dead (h3.dead (h2.dead hd1)) (h3.not_noted (h2.dead hd1) hwaits2.lt
      (h2.not_noted hd1 hf1.waits.lt hf1.unnoted))
  · rcases h2.live (hf1.cur ▸ hlive) with hlive2 | ⟨_, rfl, hnoted⟩
    · rcases h3.live hlive2 with hlive3 | ⟨_, rfl, hnoted⟩
      · exact .inl (by rw [hp4.live (.inl hlive3)]; rfl)
      · have hne : _ ≠ b.labels.size := Nat.ne_of_lt (hopen hlive).lt
        exact .inr ⟨_, rfl, (hp4.noted_other hne).mpr hnoted⟩
    · exact .inl (by rw [hp4.live (.inr (h3.extends_.noted hwaits2.lt hnoted))]; rfl)

end Emit

end StackCompiler

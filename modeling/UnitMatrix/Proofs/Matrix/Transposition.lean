import UnitMatrix.Proofs.Grid.Loops
import UnitMatrix.Proofs.Units.Grading

/-! Transposed matrices. Transposing twice changes nothing, and the transpose of a product is the
product of the transposes in the opposite order: the same lists, for products of index types do not
depend on their order, and the same numbers, for every cell is the same sum of the same terms in the
same order. So either product is accepted if the other one is, and overflows if the other one does. -/

namespace UnitMatrix

section Floats

open Float.Model Float.Model.UnpackedFloat

theorem sign_mul_comm (s t : Sign) : s * t = t * s := by
  cases s <;> cases t <;> rfl

theorem unpacked_mul_comm (spec : Format) (x y : UnpackedFloat) :
    UnpackedFloat.mul spec x y = UnpackedFloat.mul spec y x := by
  cases x <;> cases y
  case finite.finite s m e _ s' m' e' _ =>
    show roundWithAccuracy spec (s * s') (m * m') (e + e') .exact =
      roundWithAccuracy spec (s' * s) (m' * m) (e' + e) .exact
    rw [sign_mul_comm, Nat.mul_comm, Int.add_comm]
  all_goals first
    | rfl
    | exact congrArg zero (sign_mul_comm ..)
    | exact congrArg infinity (sign_mul_comm ..)

end Floats

theorem Raw.mul_comm : (k : Raw) → (x y : k.Carrier) → Arithmetic.mul x y = Arithmetic.mul y x
  | .double, x, y => congrArg (fun p => Except.ok (Float.ofModel (.pack p)))
      (unpacked_mul_comm .binary64 x.toModel.unpack y.toModel.unpack)
  | .single, x, y => congrArg (fun p => Except.ok (Float32.ofModel (.pack p)))
      (unpacked_mul_comm .binary32 x.toModel.unpack y.toModel.unpack)
  | .signed, x, y => congrArg (Ranged.checked .multiply) (Int.mul_comm x.val y.val)
  | .byte, x, y => congrArg (Ranged.checked .multiply) (Int.mul_comm x.val y.val)

theorem pointwise?_comm (as bs : IndexList) :
    as.pointwise? Index.mul? bs = bs.pointwise? Index.mul? as := by
  induction as generalizing bs with
  | nil => cases bs <;> rfl
  | cons a as ih =>
    cases bs with
    | nil => rfl
    | cons b bs => rw [IndexList.pointwise?, IndexList.pointwise?, Index.mul?_comm, ih]

theorem mulEach?_eq_leftMulEach? (as : IndexList) (k : Index) :
    as.mulEach? k = as.leftMulEach? k :=
  congrArg (as.mapM ·) (funext fun a => a.mul?_comm k)

namespace Frame

/-- Both factors give the terms of the contraction, and each gives one list of the product. -/
theorem mul?_transpose (f g : Frame) :
    g.transpose.mul? f.transpose = (f.mul? g).map transpose := by
  simp only [mul?, contraction?, transpose, pointwise?_comm g.rows f.columns,
    mulEach?_eq_leftMulEach?]
  cases (f.columns.pointwise? Index.mul? g.rows).bind IndexList.common? with
  | none => rfl
  | some t =>
    cases f.columns.head? with
    | none => cases g.rows.head? <;> rfl
    | some c =>
      cases g.rows.head? with
      | none => rfl
      | some r =>
        simp only [Option.bind_eq_bind, Option.bind_some]
        cases f.rows.leftMulEach? c <;> cases g.columns.leftMulEach? r <;> rfl

end Frame

namespace Matrix

variable {k : Raw} {a b p : Matrix k}

theorem transpose_transpose (m : Matrix k) : m.transpose.transpose = m := by
  simp only [transpose, Backend.transpose_eq, Grid.transpose_transpose]
  rfl

def Factors (a b : Matrix k) : Prop :=
  a.backend = b.backend ∧ a.WhenFixed (a.storage.columns = b.storage.rows) ∧
    (a.frame.mul? b.frame).isSome

theorem factors_transpose : b.transpose.Factors a.transpose ↔ a.Factors b := by
  simp only [Factors, WhenFixed, transpose, Backend.transpose_eq, Frame.mul?_transpose,
    Option.isSome_map, Grid.rows_transpose, Grid.columns_transpose]
  constructor <;>
  · rintro ⟨hb, hs, hf⟩
    exact ⟨hb.symm, fun h => (hs (hb.trans h)).symm, hf⟩

theorem mul_of_factors (h : a.Factors b) : ∃ f, a.frame.mul? b.frame = some f ∧
    a.mul b = match a.backend.mul a.storage b.storage with
      | .ok g => .ok ⟨a.backend, f, g⟩
      | .error e => .error (.fault e) := by
  obtain ⟨f, hf⟩ := Option.isSome_iff_exists.1 h.2.2
  refine ⟨f, hf, ?_⟩
  rw [mul, require, if_pos ⟨h.1, h.2.1⟩, hf]
  cases a.backend.mul a.storage b.storage <;> rfl

theorem mul_eq_illTyped_iff : a.mul b = .error .illTyped ↔ ¬ a.Factors b := by
  constructor
  · intro h hfactors
    obtain ⟨f, -, hmul⟩ := mul_of_factors hfactors
    rw [hmul] at h
    split at h <;> cases h
  · intro h
    unfold mul
    by_cases hlike : a.backend = b.backend ∧ a.WhenFixed (a.storage.columns = b.storage.rows)
    · have hf : a.frame.mul? b.frame = none := by
        rw [← Option.not_isSome_iff_eq_none]
        exact fun hf => h ⟨hlike.1, hlike.2, hf⟩
      rw [require, if_pos hlike, hf]
      rfl
    · rw [require, if_neg hlike]
      rfl

theorem mul_eq_ok_iff : a.mul b = .ok p ↔ a.Factors b ∧ p.backend = a.backend ∧
    a.frame.mul? b.frame = some p.frame ∧ a.backend.mul a.storage b.storage = .ok p.storage := by
  by_cases h : a.Factors b
  · obtain ⟨f, hf, hmul⟩ := mul_of_factors h
    rw [hmul, hf]
    cases a.backend.mul a.storage b.storage with
    | error e => simp
    | ok g =>
      obtain ⟨_, _, _⟩ := p
      simp [h, eq_comm]
  · rw [mul_eq_illTyped_iff.2 h]
    simp [h]

/-- Products over storage of a fixed shape stop for overflows and nothing else. -/
theorem of_mul_error {e : Failure} (ha : a.backend = .fixed) (h : a.mul b = .error e) :
    e = .illTyped ∨ ∃ operation, e = .fault (.overflow operation) := by
  by_cases hfactors : a.Factors b
  · obtain ⟨f, -, hmul⟩ := mul_of_factors hfactors
    have hfault := Grid.Extent.mulKnown k.ensures_add k.ensures_mul ⟨rfl, rfl⟩
      (⟨(hfactors.2.1 ha).symm, rfl⟩ : b.storage.Extent a.storage.columns b.storage.columns)
    rw [hmul, ha, Backend.mul] at h
    cases hg : a.storage.mulKnown b.storage with
    | ok g =>
      rw [hg] at h
      cases h
    | error fault =>
      rw [hg] at h hfault
      obtain ⟨operation, rfl⟩ := hfault
      cases h
      exact .inr ⟨operation, rfl⟩
  · rw [mul_eq_illTyped_iff.2 hfactors] at h
    cases h
    exact .inl rfl

theorem mul_transpose_eq_ok_iff (ha : a.backend = .fixed) :
    b.transpose.mul a.transpose = .ok p.transpose ↔ a.mul b = .ok p := by
  rw [mul_eq_ok_iff, mul_eq_ok_iff, factors_transpose]
  refine and_congr_right fun hfactors => ?_
  have hb : b.transpose.backend = a.backend := hfactors.1.symm
  have hframe : b.transpose.frame.mul? a.transpose.frame = some p.transpose.frame ↔
      a.frame.mul? b.frame = some p.frame := by
    show b.frame.transpose.mul? a.frame.transpose = some p.frame.transpose ↔ _
    rw [Frame.mul?_transpose]
    cases a.frame.mul? b.frame with
    | none => simp
    | some f =>
      obtain ⟨_, _⟩ := f
      obtain ⟨_, ⟨_, _⟩, _⟩ := p
      simp [Frame.transpose, and_comm]
  rw [hb, ha, hframe, storage_transpose, storage_transpose, storage_transpose]
  exact and_congr_right fun _ => and_congr_right fun _ =>
    Grid.mulKnown_transpose k.mul_comm (hfactors.2.1 ha)

theorem mul_transpose_eq_illTyped_iff :
    b.transpose.mul a.transpose = .error .illTyped ↔ a.mul b = .error .illTyped := by
  rw [mul_eq_illTyped_iff, mul_eq_illTyped_iff, factors_transpose]

def Overflows (a b : Matrix k) : Prop :=
  ∃ operation, a.mul b = .error (.fault (.overflow operation))

theorem Overflows.factors (h : a.Overflows b) : a.Factors b := by
  obtain ⟨operation, h⟩ := h
  by_contra hfactors
  rw [mul_eq_illTyped_iff.2 hfactors] at h
  cases h

theorem Overflows.transpose (ha : a.backend = .fixed) (h : a.Overflows b) :
    b.transpose.Overflows a.transpose := by
  have hb : b.transpose.backend = .fixed := h.factors.1.symm.trans ha
  obtain ⟨operation, h⟩ := h
  cases hmul : b.transpose.mul a.transpose with
  | ok q =>
    rw [← q.transpose_transpose, mul_transpose_eq_ok_iff ha, h] at hmul
    cases hmul
  | error e =>
    rcases of_mul_error hb hmul with rfl | he
    · rw [mul_transpose_eq_illTyped_iff, h] at hmul
      cases hmul
    · obtain ⟨operation', rfl⟩ := he
      exact ⟨operation', hmul⟩

theorem overflows_transpose_iff (ha : a.backend = .fixed) :
    b.transpose.Overflows a.transpose ↔ a.Overflows b := by
  refine ⟨fun h => ?_, .transpose ha⟩
  have hb : b.transpose.backend = .fixed := (factors_transpose.1 h.factors).1.symm.trans ha
  have hback := Overflows.transpose hb h
  rwa [transpose_transpose, transpose_transpose] at hback

/-- Transposition over storage of a fixed shape is an involution, exchanges the two parts of every
position, and reverses products: a product is accepted if the reversed product of the transposes is,
these two are the transposes of each other, lists and numbers alike, and they overflow together. -/
theorem transpose_reverses_mul (a b : Matrix k) (ha : a.backend = .fixed) :
    a.transpose.transpose = a ∧
    (∀ i j, a.transpose.storage.get? i j = a.storage.get? j i) ∧
    (a.mul b = .error .illTyped ↔ b.transpose.mul a.transpose = .error .illTyped) ∧
    (∀ p, a.mul b = .ok p ↔ b.transpose.mul a.transpose = .ok p.transpose) ∧
    ((∃ operation, a.mul b = .error (.fault (.overflow operation))) ↔
      ∃ operation, b.transpose.mul a.transpose = .error (.fault (.overflow operation))) :=
  ⟨a.transpose_transpose, fun i j => by rw [storage_transpose, Grid.get?_transpose],
    mul_transpose_eq_illTyped_iff.symm, fun _ => (mul_transpose_eq_ok_iff ha).symm,
    (overflows_transpose_iff ha).symm⟩

/-- Bytes, in a product that stays in range and in one that does not. -/
theorem transpose_reverses_mul_of_bytes :
    let byte (n : Int) (h : 0 ≤ n ∧ n ≤ 255) : Raw.Carrier .byte := ⟨n, h.1, h.2⟩
    let a : Matrix .byte := ⟨.fixed, ⟨[.identity], [.quantity 1 0, .quantity 1 1]⟩,
      ⟨2, [[byte 1 (by decide), byte 2 (by decide)]], by decide⟩⟩
    let b : Matrix .byte := ⟨.fixed, ⟨[.quantity 0 0, .quantity 0 (-1)], [.identity, .quantity 1 0]⟩,
      ⟨2, [[byte 3 (by decide), byte 4 (by decide)], [byte 5 (by decide), byte 6 (by decide)]],
        by decide⟩⟩
    let c : Matrix .byte := ⟨.fixed, ⟨[.quantity 0 0, .quantity 0 (-1)], [.identity]⟩,
      ⟨1, [[byte 200 (by decide)], [byte 100 (by decide)]], by decide⟩⟩
    a.backend = .fixed ∧
      (∃ p : Matrix .byte, a.mul b = .ok p ∧ b.transpose.mul a.transpose = .ok p.transpose) ∧
      ∃ operation, c.transpose.mul a.transpose = .error (.fault (.overflow operation)) := by
  intro byte a b c
  obtain ⟨-, -, -, hok, -⟩ := transpose_reverses_mul a b rfl
  obtain ⟨-, -, -, -, hoverflow⟩ := transpose_reverses_mul a c rfl
  exact ⟨rfl, ⟨_, rfl, (hok _).1 rfl⟩, hoverflow.1 ⟨_, rfl⟩⟩

end Matrix

end UnitMatrix

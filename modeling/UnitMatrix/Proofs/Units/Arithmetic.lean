import UnitMatrix.Proofs.Units.Products

/-! The laws of index arithmetic as a whole. Products form a commutative monoid as far as they are
defined. How far that is depends on the precision of the factors and on the exponents of quantities,
so of two groupings of one product often only one is defined; where both are, they agree. Dimensions
add up in products and are subtracted in quotients, and exponents that are signed bytes stay signed
bytes. Lists follow position by position. -/

namespace UnitMatrix

/-- A partial operation that is a commutative monoid wherever it is defined. Both orders of two
operands are defined together, both groupings of three need not be. -/
structure IsPartialCommMonoid (op : Index → Index → Option Index) (e : Index) : Prop where
  comm : ∀ a b, op a b = op b a
  neutral : ∀ a, op e a = some a ∧ op a e = some a
  regroup : ∀ a b c, Agree ((op a b).bind fun ab => op ab c) ((op b c).bind fun bc => op a bc)

/-- Two quantities give a quantity whose exponents are at most 16 in size, and operands with signed
bytes as exponents give a result with signed bytes. -/
structure IsBounded (op : Index → Index → Option Index) : Prop where
  within : ∀ l t l' t' c, op (.quantity l t) (.quantity l' t') = some c → c.Within 16
  valid : ∀ a b c, a.Valid → b.Valid → op a b = some c → c.Valid

/-- `each` is `op` at every position. It is defined if and only if `op` is defined everywhere in the
list, and its results are as many as the list has entries and come in the same order. -/
structure IsEach (op : Index → Option Index) (each : IndexList → Option IndexList) : Prop where
  isSome_iff : ∀ as, (each as).isSome ↔ ∀ a ∈ as, (op a).isSome
  length_eq : ∀ as bs, each as = some bs → bs.length = as.length
  getElem?_eq : ∀ as bs, each as = some bs → ∀ i : Nat, bs[i]? = as[i]?.bind op

theorem isEach_mapM (op : Index → Option Index) : IsEach op (List.mapM op) where
  isSome_iff _ := isSome_mapM_iff
  length_eq _ _ h := (mapM_eq_some h).1
  getElem?_eq _ _ h := (mapM_eq_some h).2

namespace Index

/-- Single precision goes with itself alone, and the identity goes with everything. -/
def SamePrecision (a b : Index) : Prop :=
  a = .identity ∨ b = .identity ∨ (a = .single ↔ b = .single)

def Combines : Index → Index → Prop
  | .quantity l t, .quantity l' t' => Combinable l t ∧ Combinable l' t'
  | _, _ => True

variable {a b c q : Index} {l t l' t' : Int}

/-- As an index type is determined by its grade, so is a partial result, where it is defined. -/
theorem eq_some_iff_grade {o : Option Index} {p : Prop} {g : Grade} (hp : o.isSome ↔ p)
    (hg : ∀ d, o = some d → d.grade = g) : o = some c ↔ p ∧ c.grade = g := by
  constructor
  · intro h
    exact ⟨hp.1 (Option.isSome_of_eq_some h), hg c h⟩
  · rintro ⟨h, hc⟩
    obtain ⟨d, hd⟩ := Option.isSome_iff_exists.1 (hp.2 h)
    rw [hd, grade_injective (hc.trans (hg d hd).symm)]

theorem isSome_mul?_iff : (a.mul? b).isSome ↔ a.SamePrecision b ∧ a.Combines b := by
  cases a <;> cases b <;> simp [mul?, SamePrecision, Combines]

theorem mul?_eq_some_iff : a.mul? b = some c ↔
    (a.SamePrecision b ∧ a.Combines b) ∧ c.grade = a.grade + b.grade :=
  eq_some_iff_grade isSome_mul?_iff fun _ => grade_of_mul?

theorem identity_div? (b : Index) : div? .identity b = (b.div? b).bind (·.div? b) := by
  cases b with
  | quantity l t => by_cases h : Combinable l t <;> simp [div?, ratio?, h]
  | _ => rfl

/-- By its detour over `b / b` the identity divides as a plain number does. -/
theorem identity_div?_quantity (l t : Int) :
    div? .identity (.quantity l t) = div? .double (.quantity l t) := by
  have h0 : Combinable 0 0 := by decide
  by_cases h : Combinable l t <;> simp [div?, ratio?, h, h0]

/-- A divisor that is a quantity has to combine with itself, whatever it divides. -/
theorem isSome_div?_iff :
    (a.div? b).isSome ↔ a.SamePrecision b ∧ a.Combines b ∧ b.Combines b := by
  cases a <;> cases b
  case identity.quantity l t =>
    rw [identity_div?_quantity]
    simp [div?, ratio?, SamePrecision, Combines]
  all_goals simp [div?, ratio?, SamePrecision, Combines]

theorem div?_eq_some_iff : a.div? b = some c ↔
    (a.SamePrecision b ∧ a.Combines b ∧ b.Combines b) ∧ c.grade = a.grade + b.grade.inverse :=
  eq_some_iff_grade isSome_div?_iff fun _ => grade_of_div?

theorem isPartialCommMonoid_mul? : IsPartialCommMonoid mul? .identity where
  comm := mul?_comm
  neutral a := ⟨rfl, by rw [mul?_comm]; rfl⟩
  regroup a b c := by
    intro s t hs ht
    obtain ⟨ab, hab, hs⟩ := Option.bind_eq_some_iff.1 hs
    obtain ⟨bc, hbc, ht⟩ := Option.bind_eq_some_iff.1 ht
    exact mul?_regroup hab hs hbc ht

/-- The exponent 16 combines with nothing, so it matters where to begin. -/
example :
    let a : Index := .quantity 8 0
    let b : Index := .quantity (-8) 0
    (a.mul? a).bind (·.mul? b) = none ∧ (a.mul? b).bind a.mul? = some a := by
  decide

theorem dimension_of_div?_mul? (hq : a.div? b = some q) (hc : q.mul? b = some c) :
    c.dimension = a.dimension := by
  rw [dimension_of_mul? hc, dimension_of_div? hq, sub_add_cancel]

theorem Within.valid (h : a.Within 16) : a.Valid := by
  cases a with
  | quantity l t =>
    simp only [Within, Valid] at *
    omega
  | _ => trivial

/-- Where exponents are checked before a quantity is formed. -/
theorem within_of_guard {p : Prop} [Decidable p]
    (h : (if p then some (quantity l t) else none) = some c) (hp : p → (quantity l t).Within 16) :
    c.Within 16 := by
  obtain ⟨hguard, h⟩ := Option.ite_none_right_eq_some.1 h
  cases h
  exact hp hguard

theorem within_of_mul? (h : mul? (.quantity l t) (.quantity l' t') = some c) : c.Within 16 := by
  refine within_of_guard h fun hcombinable => ?_
  simp only [Combinable, Within] at *
  omega

theorem within_of_div? (h : div? (.quantity l t) (.quantity l' t') = some c) : c.Within 16 := by
  refine within_of_guard h fun hcombinable => ?_
  simp only [Combinable, Within] at *
  omega

theorem within_of_double_div? (h : div? .double (.quantity l t) = some c) : c.Within 16 := by
  refine within_of_guard h fun hcombinable => ?_
  simp only [Combinable, Within] at *
  omega

theorem isBounded_mul? : IsBounded mul? where
  within _ _ _ _ _ := within_of_mul?
  valid a b c ha hb h := by
    cases a <;> cases b
    case quantity.quantity => exact (within_of_mul? h).valid
    all_goals cases h
    all_goals assumption

theorem isBounded_div? : IsBounded div? where
  within _ _ _ _ _ := within_of_div?
  valid a b c ha hb h := by
    cases a <;> cases b
    case quantity.quantity => exact (within_of_div? h).valid
    case double.quantity => exact (within_of_double_div? h).valid
    case identity.quantity l t =>
      rw [identity_div?_quantity] at h
      exact (within_of_double_div? h).valid
    all_goals cases h
    all_goals assumption

/-- The laws of products and quotients of index types, and of lists of them. Products form a partial
commutative monoid with the identity as neutral element. Products and quotients are defined exactly
where precision and exponents allow it. Dimensions of a product add up and those of a quotient are
subtracted, for the identity over `b` as well, which is `(b / b) / b`, and a quotient times its
divisor has the dimension of the dividend again. Exponents never leave signed bytes. The four ways
to combine an index with a list go position by position. -/
theorem arithmetic_graded :
    IsPartialCommMonoid mul? .identity ∧
    (∀ a b c : Index, a.mul? b = some c ↔
      (a.SamePrecision b ∧ a.Combines b) ∧ c.grade = a.grade + b.grade) ∧
    (∀ a b c : Index, a.div? b = some c ↔
      (a.SamePrecision b ∧ a.Combines b ∧ b.Combines b) ∧ c.grade = a.grade + b.grade.inverse) ∧
    (∀ a b c : Index, a.mul? b = some c → c.dimension = a.dimension + b.dimension) ∧
    (∀ a b c : Index, a.div? b = some c → c.dimension = a.dimension - b.dimension) ∧
    (∀ b : Index, div? .identity b = (b.div? b).bind (·.div? b)) ∧
    (∀ a b q c : Index, a.div? b = some q → q.mul? b = some c → c.dimension = a.dimension) ∧
    IsBounded mul? ∧ IsBounded div? ∧
    ∀ k : Index, IsEach (·.mul? k) (·.mulEach? k) ∧ IsEach k.mul? (IndexList.leftMulEach? k) ∧
      IsEach (·.div? k) (·.divEach? k) ∧ IsEach k.div? (IndexList.leftDivEach? k) :=
  ⟨isPartialCommMonoid_mul?, fun _ _ _ => mul?_eq_some_iff, fun _ _ _ => div?_eq_some_iff,
    fun _ _ _ => dimension_of_mul?, fun _ _ _ => dimension_of_div?, identity_div?,
    fun _ _ _ _ => dimension_of_div?_mul?, isBounded_mul?, isBounded_div?, fun k =>
      ⟨isEach_mapM (·.mul? k), isEach_mapM k.mul?, isEach_mapM (·.div? k), isEach_mapM k.div?⟩⟩

/-- Exponents at the ends of the range: the quotient combines with nothing any more, while products
can be formed in either grouping. A velocity comes back from its quotient by a time. -/
theorem arithmetic_graded_of_extremes :
    let a : Index := .quantity 8 (-8)
    let b : Index := .quantity (-8) 8
    let velocity : Index := .quantity 1 (-1)
    let time : Index := .quantity 0 1
    (∃ q, a.div? b = some q ∧ q.dimension = (16, -16) ∧ q.Within 16 ∧ q.Valid ∧ q.mul? b = none) ∧
    (∃ s, (a.mul? b).bind (·.mul? a) = some s ∧ (b.mul? a).bind a.mul? = some s) ∧
    (∃ q c, velocity.div? time = some q ∧ q.mul? time = some c ∧
      c.dimension = velocity.dimension) ∧
    ∃ bs, IndexList.leftMulEach? a [.identity, .double, b] = some bs ∧ bs.length = 3 ∧
      bs[2]? = a.mul? b := by
  intro a b velocity time
  obtain ⟨hmonoid, -, -, -, hdiv, -, hback, -, hbounded, heach⟩ := arithmetic_graded
  refine ⟨?_, ?_, ?_, ?_⟩
  · have hq : a.div? b = some (.quantity 16 (-16)) := by decide
    exact ⟨_, hq, hdiv a b _ hq, hbounded.within _ _ _ _ _ hq,
      hbounded.valid a b _ (by decide) (by decide) hq, by decide⟩
  · obtain ⟨s, hs⟩ := Option.isSome_iff_exists.1
      (show ((a.mul? b).bind (·.mul? a)).isSome by decide)
    obtain ⟨t, ht⟩ := Option.isSome_iff_exists.1 (show ((b.mul? a).bind a.mul?).isSome by decide)
    exact ⟨s, hs, hmonoid.regroup a b a s t hs ht ▸ ht⟩
  · have hq : velocity.div? time = some (.quantity 1 (-2)) := by decide
    have hc : mul? (.quantity 1 (-2)) time = some velocity := by decide
    exact ⟨_, _, hq, hc, hback velocity time _ _ hq hc⟩
  · obtain ⟨-, hleft, -, -⟩ := heach a
    obtain ⟨bs, hbs⟩ := Option.isSome_iff_exists.1
      ((hleft.isSome_iff [.identity, .double, b]).2 (by decide))
    exact ⟨bs, hbs, hleft.length_eq _ bs hbs, hleft.getElem?_eq _ bs hbs 2⟩

end Index

end UnitMatrix

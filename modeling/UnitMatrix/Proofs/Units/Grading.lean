import Mathlib.Algebra.Group.Int.Defs
import Mathlib.Algebra.Group.Prod
import UnitMatrix.Index

/-! Index types are graded. A grade is a level and a dimension; a product has the higher of two
levels and the sum of two dimensions, a quotient the higher level and the difference. Grades form a
commutative monoid, and an index type is determined by its grade, so two ways to build an element
have one type as soon as they use the same factors, in whatever order. -/

namespace UnitMatrix

@[ext]
structure Grade where
  level : Nat
  dimension : Int × Int

namespace Grade

instance : Add Grade := ⟨fun g h => ⟨max g.level h.level, g.dimension + h.dimension⟩⟩

instance : Zero Grade := ⟨⟨0, (0, 0)⟩⟩

@[simp] theorem level_add (g h : Grade) : (g + h).level = max g.level h.level := rfl

@[simp] theorem dimension_add (g h : Grade) : (g + h).dimension = g.dimension + h.dimension := rfl

@[simp] theorem level_zero : (0 : Grade).level = 0 := rfl

@[simp] theorem dimension_zero : (0 : Grade).dimension = (0, 0) := rfl

instance : AddCommMonoid Grade where
  add_assoc a b c := Grade.ext (Nat.max_assoc ..) (add_assoc ..)
  zero_add a := Grade.ext (by simp) (by simp)
  add_zero a := Grade.ext (by simp) (by simp)
  add_comm a b := Grade.ext (Nat.max_comm ..) (add_comm ..)
  nsmul := nsmulRec

def inverse (g : Grade) : Grade := ⟨g.level, -g.dimension⟩

@[simp] theorem level_inverse (g : Grade) : g.inverse.level = g.level := rfl

@[simp] theorem dimension_inverse (g : Grade) : g.inverse.dimension = -g.dimension := rfl

end Grade

namespace Index

/-- The identity lies below plain numbers, and doubles lie below quantities. Nothing else combines
with single precision, so its level may stand above them all. -/
def grade : Index → Grade
  | .identity => 0
  | .double => ⟨1, (0, 0)⟩
  | .quantity length time => ⟨2, (length, time)⟩
  | .single => ⟨3, (0, 0)⟩

theorem dimension_grade (a : Index) : a.grade.dimension = a.dimension := by
  cases a <;> rfl

theorem grade_injective {a b : Index} (h : a.grade = b.grade) : a = b := by
  cases a <;> cases b <;> simp_all [grade, Grade.ext_iff]

theorem mul?_comm (a b : Index) : a.mul? b = b.mul? a := by
  cases a <;> cases b <;> simp [mul?, and_comm, Int.add_comm]

theorem grade_of_mul? {a b c : Index} (h : a.mul? b = some c) : c.grade = a.grade + b.grade := by
  cases a <;> cases b
  case quantity.quantity =>
    obtain ⟨-, h⟩ := Option.ite_none_right_eq_some.1 h
    cases h
    rfl
  all_goals cases h
  all_goals ext <;> simp [grade]

/-- Both groupings of a product have the grades of the same factors. -/
theorem mul?_regroup {a b c ab bc s t : Index} (hab : a.mul? b = some ab) (hs : ab.mul? c = some s)
    (hbc : b.mul? c = some bc) (ht : a.mul? bc = some t) : s = t := by
  apply grade_injective
  calc s.grade = a.grade + b.grade + c.grade := by rw [grade_of_mul? hs, grade_of_mul? hab]
    _ = a.grade + (b.grade + c.grade) := add_assoc ..
    _ = t.grade := by rw [grade_of_mul? ht, grade_of_mul? hbc]

theorem grade_of_ratio? {a b c : Index} (h : a.ratio? b = some c) :
    c.grade = a.grade + b.grade.inverse := by
  cases a <;> cases b
  case quantity.quantity =>
    obtain ⟨-, h⟩ := Option.ite_none_right_eq_some.1 h
    cases h
    ext <;> simp [grade, sub_eq_add_neg]
  case double.quantity =>
    obtain ⟨-, h⟩ := Option.ite_none_right_eq_some.1 h
    cases h
    ext <;> simp [grade]
  all_goals cases h
  all_goals ext <;> simp [grade]

/-- The inverse of `b` comes about as `(b / b) / b`, and `b / b` has the level of `b` and no
dimension. -/
theorem grade_of_div? {a b c : Index} (h : a.div? b = some c) :
    c.grade = a.grade + b.grade.inverse := by
  by_cases ha : a = .identity
  · subst ha
    obtain ⟨u, hu, hc⟩ := Option.bind_eq_some_iff.1 h
    rw [grade_of_ratio? hc, grade_of_ratio? hu]
    ext <;> simp [grade]
  · have hr : a.div? b = a.ratio? b := by cases a <;> simp_all [div?]
    exact grade_of_ratio? (hr ▸ h)

theorem dimension_of_mul? {a b c : Index} (h : a.mul? b = some c) :
    c.dimension = a.dimension + b.dimension := by
  simp only [← dimension_grade, grade_of_mul? h, Grade.dimension_add]

theorem dimension_of_div? {a b c : Index} (h : a.div? b = some c) :
    c.dimension = a.dimension - b.dimension := by
  simp only [← dimension_grade, grade_of_div? h, Grade.dimension_add, Grade.dimension_inverse,
    sub_eq_add_neg]

end Index

end UnitMatrix

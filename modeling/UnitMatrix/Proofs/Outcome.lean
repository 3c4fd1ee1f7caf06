import UnitMatrix.Failure

/-! What a computation that can fail ends with. Either it returns a value, or it stops with an
error, and something is known in both cases. Such facts are put together along the computation: for
two steps in a row, for a walk through a list, and for the checks that stand at the start of an
operation. -/

namespace UnitMatrix

theorem exists_of_bind_ok {ε α β : Type} {x : Except ε α} {f : α → Except ε β} {b : β}
    (h : x >>= f = .ok b) : ∃ a, x = .ok a ∧ f a = .ok b := by
  cases x with
  | ok a => exact ⟨a, rfl, h⟩
  | error e => cases h

theorem ok_bind {ε α β : Type} (a : α) (f : α → Except ε β) : (Except.ok a >>= f) = f a := rfl

theorem bind_eq_ok_iff {ε α β : Type} {x : Except ε α} {f : α → Except ε β} {b : β} :
    x >>= f = .ok b ↔ ∃ a, x = .ok a ∧ f a = .ok b :=
  ⟨exists_of_bind_ok, fun ⟨_, ha, hb⟩ => by rw [ha]; exact hb⟩

theorem exists_of_mapM_ok {ε α β : Type} {f : α → Except ε β} {xs : List α} {ys : List β}
    (h : xs.mapM f = .ok ys) {i : Nat} {x : α} (hx : xs[i]? = some x) :
    ∃ y, ys[i]? = some y ∧ f x = .ok y := by
  induction xs generalizing ys i with
  | nil => cases hx
  | cons x' xs ih =>
    rw [List.mapM_cons] at h
    obtain ⟨y, hy, h⟩ := exists_of_bind_ok h
    obtain ⟨zs, hzs, h⟩ := exists_of_bind_ok h
    cases h
    cases i with
    | zero =>
      cases hx
      exact ⟨y, rfl, hy⟩
    | succ i => exact ih hzs hx

theorem mapM_eq_ok_map {ε α β : Type} {f : α → Except ε β} {g : α → β} {xs : List α}
    (h : ∀ x ∈ xs, f x = .ok (g x)) : xs.mapM f = .ok (xs.map g) := by
  induction xs with
  | nil => rfl
  | cons x xs ih =>
    rw [List.mapM_cons, h x (by simp), ih fun y hy => h y (by simp [hy])]
    rfl

theorem foldlM_eq_ok_foldl {ε α σ : Type} {f : σ → α → Except ε σ} {g : σ → α → σ} {xs : List α}
    (h : ∀ s, ∀ x ∈ xs, f s x = .ok (g s x)) (s : σ) : xs.foldlM f s = .ok (xs.foldl g s) := by
  induction xs generalizing s with
  | nil => rfl
  | cons x xs ih =>
    rw [List.foldlM_cons, h s x (by simp)]
    exact ih (fun s y hy => h s y (by simp [hy])) (g s x)

theorem of_require_ok {α : Type} {p : Prop} [Decidable p] {f : Unit → Outcome α} {a : α}
    (h : require p >>= f = .ok a) : p ∧ f () = .ok a := by
  by_cases hp : p
  · rw [require, if_pos hp] at h
    exact ⟨hp, h⟩
  · rw [require, if_neg hp] at h
    cases h

theorem exists_of_demand_ok {α β : Type} {o : Option α} {f : α → Outcome β} {b : β}
    (h : demand o >>= f = .ok b) : ∃ a, o = some a ∧ f a = .ok b := by
  cases o with
  | some a => exact ⟨a, rfl, h⟩
  | none => cases h

theorem require_bind_eq_ok_iff {α : Type} {p : Prop} [Decidable p] {f : Unit → Outcome α} {a : α} :
    require p >>= f = .ok a ↔ p ∧ f () = .ok a :=
  ⟨of_require_ok, fun ⟨hp, hf⟩ => by rw [require, if_pos hp]; exact hf⟩

theorem demand_bind_eq_ok_iff {α β : Type} {o : Option α} {f : α → Outcome β} {b : β} :
    demand o >>= f = .ok b ↔ ∃ a, o = some a ∧ f a = .ok b :=
  ⟨exists_of_demand_ok, fun ⟨_, ha, hf⟩ => by rw [ha]; exact hf⟩

theorem of_lift_ok {α : Type} {x : Except Fault α} {a : α} (h : (x : Outcome α) = .ok a) :
    x = .ok a := by
  cases x with
  | ok a => cases h; rfl
  | error e => cases h

/-- `x` returns a value of which `post` holds, or stops with an error of which `allowed` holds. -/
def Ensures {ε α : Type} (x : Except ε α) (post : α → Prop) (allowed : ε → Prop) : Prop :=
  match x with
  | .ok a => post a
  | .error e => allowed e

namespace Ensures

variable {ε α β : Type} {P : α → Prop} {Q : β → Prop} {E : ε → Prop}

theorem mono {x : Except ε α} {P' : α → Prop} {E' : ε → Prop} (h : Ensures x P E)
    (hP : ∀ a, P a → P' a) (hE : ∀ e, E e → E' e) : Ensures x P' E' := by
  cases x with
  | ok a => exact hP a h
  | error e => exact hE e h

theorem exists_ok {x : Except ε α} (h : Ensures x P fun _ => False) : ∃ a, x = .ok a ∧ P a := by
  cases x with
  | ok a => exact ⟨a, rfl, h⟩
  | error e => exact h.elim

theorem any (x : Except ε α) : Ensures x (fun _ => True) fun _ => True := by
  cases x <;> trivial

theorem bind {x : Except ε α} {f : α → Except ε β} (hx : Ensures x P E)
    (hf : ∀ a, P a → Ensures (f a) Q E) : Ensures (x >>= f) Q E := by
  cases x with
  | ok a => exact hf a hx
  | error e => exact hx

theorem map {x : Except ε α} {f : α → β} (hx : Ensures x (fun a => Q (f a)) E) :
    Ensures (x.map f) Q E := by
  cases x with
  | ok a => exact hx
  | error e => exact hx

theorem mapError {ε' : Type} {x : Except ε α} {f : ε → ε'} {E' : ε' → Prop}
    (hx : Ensures x P fun e => E' (f e)) : Ensures (x.mapError f) P E' := by
  cases x with
  | ok a => exact hx
  | error e => exact hx

theorem foldlM {step : α → β → Except ε α} {xs : List β}
    (hstep : ∀ a, ∀ b ∈ xs, P a → Ensures (step a b) P E) {a : α} (ha : P a) :
    Ensures (xs.foldlM step a) P E := by
  induction xs generalizing a with
  | nil => exact ha
  | cons b xs ih =>
    rw [List.foldlM_cons]
    exact (hstep a b (by simp) ha).bind fun a' ha' =>
      ih (fun a'' b' hb' => hstep a'' b' (by simp [hb'])) ha'

theorem mapM {f : α → Except ε β} {xs : List α} (hf : ∀ a ∈ xs, Ensures (f a) Q E) :
    Ensures (xs.mapM f) (fun ys => ys.length = xs.length ∧ ∀ y ∈ ys, Q y) E := by
  induction xs with
  | nil => exact ⟨rfl, by simp⟩
  | cons x xs ih =>
    rw [List.mapM_cons]
    refine (hf x (by simp)).bind fun y hy => ?_
    refine (ih fun a ha => hf a (by simp [ha])).bind fun ys hys => ?_
    exact ⟨by simp [hys.1], by simpa [hy] using hys.2⟩

variable {O : Failure → Prop}

theorem require {p : Prop} [Decidable p] {f : Unit → Outcome β} (ht : O .illTyped)
    (hf : p → Ensures (f ()) Q O) : Ensures (require p >>= f) Q O := by
  by_cases hp : p
  · rw [UnitMatrix.require, if_pos hp]
    exact hf hp
  · rw [UnitMatrix.require, if_neg hp]
    exact ht

theorem demand {o : Option α} {f : α → Outcome β} (ht : O .illTyped)
    (hf : ∀ a, o = some a → Ensures (f a) Q O) : Ensures (demand o >>= f) Q O := by
  cases o with
  | none => exact ht
  | some a => exact hf a rfl

theorem lift {x : Except Fault α} (h : Ensures x P fun e => O (.fault e)) :
    Ensures (x : Outcome α) P O := by
  cases x with
  | ok a => exact h
  | error e => exact h

end Ensures

end UnitMatrix

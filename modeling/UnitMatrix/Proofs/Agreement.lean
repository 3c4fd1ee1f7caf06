import UnitMatrix.Proofs.Grid.Extent

/-! Two computations side by side. They end in the same way, or in both an integer leaves its range;
and where the types keep the first one from having a result, nothing is said about the second. Such
facts are put together along the two computations, step against step. -/

namespace UnitMatrix

section Concur

variable {α : Type}

/-- Both computations end in the same way, or integers leave their range in both. -/
def Concur (x y : Except Fault α) : Prop :=
  x = y ∨ ∃ e e', x = .error e ∧ y = .error e' ∧ e.IsOverflow ∧ e'.IsOverflow

theorem concur_of_ok_iff {x y : Except Fault α} {P Q : α → Prop} (h : ∀ a, x = .ok a ↔ y = .ok a)
    (hx : Ensures x P Fault.IsOverflow) (hy : Ensures y Q Fault.IsOverflow) : Concur x y := by
  cases x with
  | ok a => exact .inl ((h a).1 rfl).symm
  | error e =>
    cases y with
    | ok a => exact .inl ((h a).2 rfl)
    | error e' => exact .inr ⟨e, e', rfl, rfl, hx, hy⟩

end Concur

/-- The types of storage of a fixed shape keep the computation from having a result: they reject it,
or a shape is asked for that is not the one of the type. -/
def Failure.Refuses (e : Failure) : Prop := e = .illTyped ∨ e = .fault .fixedShape

def Failure.Alike (e e' : Failure) : Prop :=
  e = e' ∨ ∃ f f' : Fault, e = .fault f ∧ e' = .fault f' ∧ f.IsOverflow ∧ f'.IsOverflow

section Follows

variable {α β γ δ : Type}

/-- If no types keep `x` from having a result, `y` ends as `x` does: `φ` takes the result of the one
to the result of the other. -/
def Follows (φ : α → β) (x : Outcome α) (y : Outcome β) : Prop :=
  match x with
  | .ok a => y = .ok (φ a)
  | .error e => e.Refuses ∨ ∃ e', y = .error e' ∧ e.Alike e'

namespace Follows

variable {φ : α → β} {ψ : γ → δ} {x : Outcome α} {y : Outcome β}

theorem map_self (x : Outcome α) : Follows φ x (x.map φ) := by
  cases x with
  | ok a => rfl
  | error e => exact .inr ⟨e, rfl, .inl rfl⟩

theorem of_eq (h : y = x.map φ) : Follows φ x y := h ▸ map_self x

theorem same (x : Outcome α) : Follows id x x := of_eq (by cases x <;> rfl)

theorem fail (e : Failure) : Follows φ (.error e) (.error e) := map_self _

theorem refuse (o : Outcome β) : Follows φ (.error .illTyped) o := .inl (.inl rfl)

theorem ite {p : Prop} [Decidable p] {x' : Outcome α} {y' : Outcome β} (h : p → Follows φ x y)
    (h' : ¬ p → Follows φ x' y') : Follows φ (if p then x else x') (if p then y else y') := by
  split
  next hp => exact h hp
  next hp => exact h' hp

theorem bind {f : α → Outcome γ} {g : β → Outcome δ} (h : Follows φ x y)
    (hf : ∀ a, Follows ψ (f a) (g (φ a))) : Follows ψ (x >>= f) (y >>= g) := by
  cases x with
  | ok a =>
    have h : y = .ok (φ a) := h
    subst h
    exact hf a
  | error e =>
    refine h.imp_right ?_
    rintro ⟨e', rfl, he⟩
    exact ⟨e', rfl, he⟩

theorem map {f : α → γ} {g : β → δ} (h : Follows φ x y) (hf : ∀ a, g (φ a) = ψ (f a)) :
    Follows ψ (x.map f) (y.map g) := by
  cases x with
  | ok a =>
    have h : y = .ok (φ a) := h
    subst h
    exact congrArg Except.ok (hf a)
  | error e =>
    refine h.imp_right ?_
    rintro ⟨e', rfl, he⟩
    exact ⟨e', rfl, he⟩

/-- What only the types of a fixed shape check. -/
theorem check {p : Prop} [Decidable p] {f : Unit → Outcome γ} {o : Outcome δ}
    (hf : p → Follows ψ (f ()) o) : Follows ψ (require p >>= f) o := by
  by_cases hp : p
  · rw [require, if_pos hp]
    exact hf hp
  · rw [require, if_neg hp]
    exact .refuse o

theorem require {p q : Prop} [Decidable p] [Decidable q] {f : Unit → Outcome γ}
    {g : Unit → Outcome δ} (hpq : p → q) (hf : p → Follows ψ (f ()) (g ())) :
    Follows ψ (require p >>= f) (require q >>= g) := by
  refine .check fun hp => ?_
  rw [UnitMatrix.require, if_pos (hpq hp)]
  exact hf hp

theorem demand {o : Option α} {o' : Option β} {f : α → Outcome γ} {g : β → Outcome δ}
    (ho : ∀ a, o = some a → ∃ b, o' = some b ∧ Follows ψ (f a) (g b)) :
    Follows ψ (demand o >>= f) (demand o' >>= g) := by
  cases o with
  | none => exact .refuse _
  | some a =>
    obtain ⟨b, rfl, h⟩ := ho a rfl
    exact h

/-- Failures are renamed, and only such as are none of these stay what they were. -/
theorem mapError {r : Failure → Failure} (h : Follows φ x y)
    (hr : ∀ e, e.Refuses → (r e).Refuses) (hr' : ∀ f : Fault, r (.fault f) = .fault f) :
    Follows φ (x.mapError r) (y.mapError r) := by
  cases x with
  | ok a =>
    have h : y = .ok (φ a) := h
    subst h
    rfl
  | error e =>
    rcases h with he | ⟨e', rfl, he⟩
    · exact .inl (hr e he)
    · refine .inr ⟨r e', rfl, ?_⟩
      rcases he with rfl | ⟨f, f', rfl, rfl, hf, hf'⟩
      · exact .inl rfl
      · exact .inr ⟨f, f', hr' f, hr' f', hf, hf'⟩

theorem lift {x y : Except Fault α} (h : Concur x y) :
    Follows id (x : Outcome α) (y : Outcome α) := by
  rcases h with rfl | ⟨e, e', rfl, rfl, he, he'⟩
  · exact same _
  · exact .inr ⟨_, rfl, .inr ⟨e, e', rfl, rfl, he, he'⟩⟩

/-- The same numbers first, then something around them. -/
theorem compute {x y : Except Fault α} (h : Concur x y) {f : α → γ} {g : α → δ}
    (hf : ∀ a, g a = ψ (f a)) :
    Follows ψ ((x : Outcome α) >>= fun a => .ok (f a)) ((y : Outcome α) >>= fun a => .ok (g a)) :=
  (lift h).bind fun a => congrArg Except.ok (hf a)

theorem foldlM {f : α → γ → Outcome α} {g : β → γ → Outcome β} {xs : List γ}
    (hstep : ∀ a c, Follows φ (f a c) (g (φ a) c)) (a : α) :
    Follows φ (xs.foldlM f a) (xs.foldlM g (φ a)) := by
  induction xs generalizing a with
  | nil => rfl
  | cons c cs ih => exact (hstep a c).bind ih

end Follows

end Follows

theorem foldlM_map_comm {ε α β γ : Type} {φ : α → β} {f : α → γ → Except ε α}
    {g : β → γ → Except ε β} (h : ∀ a c, g (φ a) c = (f a c).map φ) (xs : List γ) (a : α) :
    xs.foldlM g (φ a) = (xs.foldlM f a).map φ := by
  induction xs generalizing a with
  | nil => rfl
  | cons c cs ih =>
    rw [List.foldlM_cons, List.foldlM_cons, h]
    cases f a c with
    | ok b => exact ih b
    | error e => rfl

theorem lift_map {α β : Type} {φ : α → β} (x : Except Fault α) :
    ((x.map φ : Except Fault β) : Outcome β) = (x : Outcome α).map φ := by
  cases x <;> rfl

theorem map_lift_eq_ok_iff {α β : Type} {φ : α → β} {x : Except Fault α} {b : β} :
    (x : Outcome α).map φ = .ok b ↔ ∃ a, x = .ok a ∧ b = φ a := by
  cases x with
  | ok a =>
    refine ⟨fun h => ⟨a, rfl, (Except.ok.inj h).symm⟩, ?_⟩
    rintro ⟨a', ha, rfl⟩
    cases ha
    rfl
  | error e => exact ⟨fun h => (nomatch h), fun ⟨a, ha, _⟩ => (nomatch ha)⟩

/-- A walk over storage, seen from the matrix around it. -/
theorem foldlM_lift_map {α β γ : Type} {φ : α → β} {f : α → γ → Except Fault α}
    {g : β → γ → Outcome β} (h : ∀ a c, g (φ a) c = (f a c : Outcome α).map φ) (xs : List γ) (a : α) :
    xs.foldlM g (φ a) = ((xs.foldlM f a : Except Fault α) : Outcome α).map φ := by
  rw [foldlM_map_comm (f := fun a c => (f a c : Outcome α)) h]
  congr 1
  induction xs generalizing a with
  | nil => rfl
  | cons c cs ih =>
    rw [List.foldlM_cons, List.foldlM_cons]
    cases f a c with
    | ok b => exact ih b
    | error e => rfl

end UnitMatrix

import UnitMatrix.Number.Reading
import Mathlib.Algebra.Group.Nat.Defs
import Mathlib.Data.List.DropRight
import Mathlib.Data.List.TakeDrop
import Mathlib.Order.Basic

/-! Decimal digits and the numbers they stand for. Zeros in front of digits change nothing and zeros
behind them are factors of ten. -/

namespace UnitMatrix

open NumberStyle (zeros)

theorem digitsValue_eq (ds : List Char) : digitsValue ds = Nat.ofDigitChars 10 ds 0 :=
  Nat.ofDigitChars_eq_foldl.symm

theorem digitsValue_toDigits (n : Nat) : digitsValue (Nat.toDigits 10 n) = n :=
  (digitsValue_eq _).trans Nat.ofDigitChars_ten_toDigits

theorem digitsValue_append (ds es : List Char) :
    digitsValue (ds ++ es) = digitsValue ds * 10 ^ es.length + digitsValue es := by
  rw [digitsValue_eq, Nat.ofDigitChars_append, Nat.ofDigitChars_eq_ofDigitChars_zero, Nat.mul_comm]
  simp [digitsValue_eq]

theorem digitsValue_zeros (z : Nat) : digitsValue (zeros z) = 0 := by
  simp [digitsValue_eq, zeros, Nat.ofDigitChars_replicate_zero]

theorem digitsValue_append_zeros (ds : List Char) (z : Nat) :
    digitsValue (ds ++ zeros z) = digitsValue ds * 10 ^ z := by
  rw [digitsValue_append, digitsValue_zeros, Nat.add_zero, zeros, List.length_replicate]

theorem digitsValue_zeros_append (ds : List Char) (z : Nat) :
    digitsValue (zeros z ++ ds) = digitsValue ds := by
  rw [digitsValue_append, digitsValue_zeros, Nat.zero_mul, Nat.zero_add]

theorem isDigit_of_mem_zeros {z : Nat} {c : Char} (h : c ∈ zeros z) : c.isDigit = true := by
  rw [(List.mem_replicate.1 h).2]
  rfl

theorem isDigit_of_mem_toDigits {n : Nat} {c : Char} (h : c ∈ Nat.toDigits 10 n) :
    c.isDigit = true :=
  Nat.isDigit_of_mem_toDigits (by decide) (by decide) h

theorem exists_zeros_after (ds : List Char) :
    ∃ z, ds = (ds.reverse.dropWhile (· = '0')).reverse ++ zeros z := by
  have hzeros : ds.rtakeWhile (· = '0') = zeros (ds.rtakeWhile (· = '0')).length :=
    List.eq_replicate_of_mem fun c hc => by simpa using List.mem_rtakeWhile_imp hc
  have hsplit : ds.rdropWhile (· = '0') ++ ds.rtakeWhile (· = '0') = ds :=
    List.rdropWhile_append_rtakeWhile
  rw [hzeros] at hsplit
  exact ⟨_, hsplit.symm⟩

theorem exists_zeros_before (ds : List Char) : ∃ z, ds = zeros z ++ ds.dropWhile (· = '0') := by
  have hzeros : ds.takeWhile (· = '0') = zeros (ds.takeWhile (· = '0')).length :=
    List.eq_replicate_of_mem fun c hc => by simpa using List.mem_takeWhile_imp hc
  have hsplit : ds.takeWhile (· = '0') ++ ds.dropWhile (· = '0') = ds :=
    List.takeWhile_append_dropWhile
  rw [hzeros] at hsplit
  exact ⟨_, hsplit.symm⟩

theorem toDigits_mul_pow {d : Nat} (hd : 0 < d) (z : Nat) :
    Nat.toDigits 10 (d * 10 ^ z) = Nat.toDigits 10 d ++ zeros z := by
  induction z with
  | zero => simp [zeros]
  | succ z ih =>
    have hpos : 0 < d * 10 ^ z := Nat.mul_pos hd (Nat.pow_pos (by decide))
    rw [Nat.pow_succ, ← Nat.mul_assoc, Nat.toDigits_of_base_le (by decide) (by omega),
      Nat.mul_div_cancel _ (by decide), Nat.mul_mod_left, ih, zeros, zeros, List.replicate_succ',
      List.append_assoc]
    rfl

theorem length_toDigits_mono {m n : Nat} (h : m ≤ n) :
    (Nat.toDigits 10 m).length ≤ (Nat.toDigits 10 n).length := by
  rw [Nat.length_toDigits_le_iff (by decide) Nat.length_toDigits_pos]
  exact h.trans_lt ((Nat.length_toDigits_le_iff (by decide) Nat.length_toDigits_pos).1 le_rfl)

theorem head?_toDigits {n : Nat} (hn : 0 < n) : (Nat.toDigits 10 n).head? ≠ some '0' := by
  induction n using Nat.strongRecOn with
  | ind n ih =>
    by_cases h : n < 10
    · rw [Nat.toDigits_of_lt_base h]
      simp [hn.ne']
    · rw [Nat.toDigits_of_base_le (by decide) (by omega),
        List.head?_append_of_ne_nil _ Nat.toDigits_ne_nil]
      exact ih _ (by omega) (by omega)

theorem span_isDigit {ds rest : List Char} (hds : ∀ c ∈ ds, c.isDigit = true)
    (hrest : ∀ c ∈ rest.head?, c.isDigit = false) : (ds ++ rest).span Char.isDigit = (ds, rest) := by
  rw [List.span_eq_takeWhile_dropWhile, List.takeWhile_append_of_pos hds,
    List.dropWhile_append_of_pos hds]
  cases rest with
  | nil => simp
  | cons c rest => simp [hrest c rfl]

theorem splitSign_eq {ds : List Char} (h : ∀ c ∈ ds.head?, c ≠ '-' ∧ c ≠ '+') :
    splitSign ds = (false, ds) := by
  unfold splitSign
  split
  next => exact absurd rfl (h '-' rfl).1
  next => exact absurd rfl (h '+' rfl).2
  next => rfl

end UnitMatrix

import UnitMatrix.Proofs.Number.Nearness

/-! Multiples of a power of ten and multiples of a power of two. They are equal, or three roundings of
doubles apart, as long as the second factor has few bits: the ratio of the two powers has no better
approximation by a fraction with so small a denominator. For each power of ten that singles have, two
neighbouring fractions show this, or the ratio is itself a fraction of few bits. A single fraction is
too close, and is named. -/

namespace UnitMatrix

/-- Nothing lies between two neighbouring fractions but what has a denominator no smaller than the sum
of theirs. -/
theorem le_or_le_of_adjacent {p q p' q' n d : Nat} (hadjacent : p' * q = p * q' + 1) (hd : d < q + q') :
    n * q ≤ p * d ∨ p' * d ≤ n * q' := by
  by_contra! h
  have hsum : q' * (p * d + 1) + q * (n * q' + 1) ≤ q' * (n * q) + q * (p' * d) :=
    Nat.add_le_add (Nat.mul_le_mul_left _ h.1) (Nat.mul_le_mul_left _ h.2)
  have hcross : q * (p' * d) = (p * q' + 1) * d := by
    rw [← hadjacent]
    ring
  rw [hcross] at hsum
  linarith

namespace Binary

/-- Equal, or so many roundings apart that these do not make up for it. -/
def Apart (f : Binary) (k : Nat) (a b : ℚ) : Prop :=
  a = b ∨ a < f.kept ^ k * b ∨ b < f.kept ^ k * a

variable {f : Binary} {k : Nat} {a b c : ℚ}

theorem Apart.mul_right (h : f.Apart k a b) (hc : 0 < c) : f.Apart k (a * c) (b * c) := by
  refine h.imp (fun heq => by rw [heq]) (Or.imp (fun hlt => ?_) fun hlt => ?_)
  · rw [← mul_assoc]
    exact mul_lt_mul_of_pos_right hlt hc
  · rw [← mul_assoc]
    exact mul_lt_mul_of_pos_right hlt hc

theorem Apart.symm (h : f.Apart k a b) : f.Apart k b a :=
  h.elim (fun heq => .inl heq.symm) fun h => .inr h.symm

theorem Apart.lt_kept_mul (h : f.Apart k a b) (ha : 0 ≤ a) (hle : a ≤ b) (hne : a ≠ b) :
    a < f.kept ^ k * b := by
  rcases h with heq | hlt | hgt
  · exact absurd heq hne
  · exact hlt
  · have hkept : f.kept ^ k * a ≤ a := mul_le_of_le_one_left ha (pow_le_one₀ kept_nonneg kept_le_one)
    exact absurd hle (not_le_of_gt (hgt.trans_le hkept))

theorem lt_kept_mul_iff {x y : Nat} :
    (x : ℚ) < binary64.kept ^ 3 * y ↔ x * 2 ^ 159 < (2 ^ 53 - 1) ^ 3 * y := by
  have hkept : binary64.kept ^ 3 = (((2 ^ 53 - 1) ^ 3 : Nat) : ℚ) / (2 ^ 159 : Nat) := by
    norm_num [kept, binary64]
  rw [hkept, div_mul_eq_mul_div, lt_div_iff₀ (by positivity)]
  exact_mod_cast Iff.rfl

section Ratio

variable {a b p q n d : Nat}

/-- A fraction that is clearly below `b / a`, and so is what lies below it. -/
theorem lt_of_le_below (h : p * a * 2 ^ 159 < (2 ^ 53 - 1) ^ 3 * (q * b)) (hd : 0 < d)
    (hle : n * q ≤ p * d) : ((n * a : Nat) : ℚ) < binary64.kept ^ 3 * (d * b : Nat) := by
  rw [lt_kept_mul_iff]
  have hscaled := Nat.mul_le_mul_right (a * 2 ^ 159) hle
  have hstrict := Nat.mul_lt_mul_of_pos_right h hd
  refine Nat.lt_of_mul_lt_mul_left (a := q) ?_
  linarith

theorem lt_of_above_le (h : q * b * 2 ^ 159 < (2 ^ 53 - 1) ^ 3 * (p * a)) (hd : 0 < d)
    (hle : p * d ≤ n * q) : ((d * b : Nat) : ℚ) < binary64.kept ^ 3 * (n * a : Nat) := by
  rw [lt_kept_mul_iff]
  have hscaled := Nat.mul_le_mul_right (a * (2 ^ 53 - 1) ^ 3) hle
  have hstrict := Nat.mul_lt_mul_of_pos_right h hd
  refine Nat.lt_of_mul_lt_mul_left (a := q) ?_
  linarith

/-- What has no denominator beyond this is compared. -/
def limit : Nat := 2 ^ 25 + 2

/-- Neighbouring fractions on both sides of `b / a`, and neither of them close to it. -/
def Brackets (a b : Nat) (x : (Nat × Nat) × (Nat × Nat)) : Prop :=
  x.2.1 * x.1.2 = x.1.1 * x.2.2 + 1 ∧ limit < x.1.2 + x.2.2 ∧
    x.1.1 * a * 2 ^ 159 < (2 ^ 53 - 1) ^ 3 * (x.1.2 * b) ∧
      x.2.2 * b * 2 ^ 159 < (2 ^ 53 - 1) ^ 3 * (x.2.1 * a)

instance (a b : Nat) (x : (Nat × Nat) × (Nat × Nat)) : Decidable (Brackets a b x) :=
  inferInstanceAs (Decidable (_ ∧ _ ∧ _ ∧ _))

theorem Brackets.apart {x : (Nat × Nat) × (Nat × Nat)} (h : Brackets a b x) (hd : 0 < d)
    (hd' : d ≤ limit) : binary64.Apart 3 (n * a : Nat) (d * b : Nat) := by
  obtain ⟨hadjacent, hwide, hbelow, habove⟩ := h
  rcases le_or_le_of_adjacent (n := n) hadjacent (hd'.trans_lt hwide) with hle | hle
  · exact .inr (.inl (lt_of_le_below hbelow hd hle))
  · exact .inr (.inr (lt_of_above_le habove hd hle))

/-- The neighbours are found between zero and infinity, a mediant at a time. -/
def bracket (a b : Nat) : Nat → Nat × Nat → Nat × Nat → (Nat × Nat) × (Nat × Nat)
  | 0, low, high => (low, high)
  | fuel + 1, low, high =>
    if limit < low.2 + high.2 then (low, high)
    else
      let mediant := (low.1 + high.1, low.2 + high.2)
      if mediant.1 * a < mediant.2 * b then bracket a b fuel mediant high
      else bracket a b fuel low mediant

/-- A ratio that is a fraction of few bits itself is hit, or missed by as much as its denominator
allows. -/
theorem apart_of_gcd (h : 4 * limit * b ≤ 2 ^ 53 * a.gcd b) (hb : 0 < b) (hd : d ≤ limit) :
    binary64.Apart 3 (n * a : Nat) (d * b : Nat) := by
  have hgcd : 0 < a.gcd b := Nat.gcd_pos_of_pos_right _ hb
  have hbound : 4 * (d * b) ≤ 2 ^ 53 * a.gcd b :=
    le_trans (by rw [← Nat.mul_assoc]; gcongr) h
  obtain ⟨i, hi⟩ : a.gcd b ∣ n * a := Dvd.dvd.mul_left (Nat.gcd_dvd_left a b) n
  obtain ⟨j, hj⟩ : a.gcd b ∣ d * b := Dvd.dvd.mul_left (Nat.gcd_dvd_right a b) d
  rw [hj] at hbound
  rw [hi, hj]
  generalize a.gcd b = g at *
  have hj4 : 4 * j ≤ 2 ^ 53 := by
    refine Nat.le_of_mul_le_mul_left (c := g) ?_ hgcd
    linarith
  unfold Apart
  rw [lt_kept_mul_iff, lt_kept_mul_iff, Nat.mul_assoc, Nat.mul_assoc, Nat.mul_left_comm _ g,
    Nat.mul_left_comm _ g, Nat.mul_lt_mul_left hgcd, Nat.mul_lt_mul_left hgcd]
  rcases Nat.lt_trichotomy i j with hlt | rfl | hgt
  · right
    left
    omega
  · exact .inl rfl
  · right
    right
    omega

end Ratio

/-- A power of ten in units of singles is the ratio of these. -/
def powerNum (e : Int) : Nat := 10 ^ e.toNat * 2 ^ binary32.unitExponent

def powerDen (e : Int) : Nat := 10 ^ (-e).toNat

/-- The largest power of two below it. -/
def powerLog (e : Int) : Nat := (powerNum e / powerDen e).log2

/-- Why multiples of a power of ten, twice, and multiples of that power of two are apart. -/
def Certified (e : Int) : Prop :=
  let a := 2 * powerNum e
  let b := 2 ^ powerLog e * powerDen e
  4 * limit * b ≤ 2 ^ 53 * a.gcd b ∨ Brackets a b (bracket a b 2000 (0, 1) (1, 0))

instance (e : Int) : Decidable (Certified e) := inferInstanceAs (Decidable (_ ∨ _))

theorem certified : ∀ i : Nat, i < 83 → (i : Int) - 44 = -32 ∨ Certified (i - 44) := by
  decide +kernel

/-- One fraction is close to the ratio for `10 ^ -32`. -/
theorem apart_or_eq {a b n d : Nat} (ha : a = 2 * powerNum (-32))
    (hb : b = 2 ^ powerLog (-32) * powerDen (-32)) (hd : 0 < d) (hd' : d ≤ limit) :
    binary64.Apart 3 (n * a : Nat) (d * b : Nat) ∨ n = 7038531 := by
  have hbelow : 9610261 * a * 2 ^ 159 < (2 ^ 53 - 1) ^ 3 * (31187080 * b) := by
    rw [ha, hb]
    decide
  have habove : 14495598 * b * 2 ^ 159 < (2 ^ 53 - 1) ^ 3 * (4466801 * a) := by
    rw [ha, hb]
    decide
  have hsmall : d ≤ 33554434 := hd'
  have hfirst : n * 31187080 ≤ 9610261 * d ∨ 7038531 * d ≤ n * 22841339 :=
    le_or_le_of_adjacent (by norm_num) (by omega)
  have hsecond : n * 22841339 ≤ 7038531 * d ∨ 4466801 * d ≤ n * 14495598 :=
    le_or_le_of_adjacent (by norm_num) (by omega)
  rcases hfirst with hle | hle
  · exact .inl (.inr (.inl (lt_of_le_below hbelow hd hle)))
  · rcases hsecond with hle' | hle'
    · -- the fraction is in lowest terms, and twice its denominator is too much
      have heq : n * 22841339 = 7038531 * d := hle'.antisymm hle
      obtain ⟨c, rfl⟩ : 22841339 ∣ d :=
        (show Nat.Coprime 22841339 7038531 by decide).dvd_of_dvd_mul_left
          ⟨n, by rw [← heq, Nat.mul_comm]⟩
      obtain rfl : c = 1 := by omega
      exact .inr (Nat.eq_of_mul_eq_mul_right (by norm_num) heq)
    · exact .inl (.inr (.inr (lt_of_above_le habove hd hle')))

theorem decimal_eq_power (n : Nat) (e : Int) :
    binary32.decimal n e = n * powerNum e / powerDen e := by
  rw [decimal_eq_div, powerNum, powerDen, Nat.mul_assoc]
  push_cast
  rfl

theorem powerDen_pos (e : Int) : 0 < powerDen e := Nat.pow_pos (by decide)

/-- A decimal whose last place is not finer than a power of two, and the halves of multiples of that. -/
theorem apart_of_two_pow_le {n d t : Nat} {e : Int} (he : e ≤ 38) (ht : 2 ^ t ≤ binary32.decimal 1 e)
    (hd : 0 < d) (hd' : d ≤ limit) :
    binary64.Apart 3 (2 * binary32.decimal n e) (d * 2 ^ t) ∨ e = -32 ∧ n = 7038531 := by
  have hden : (0 : ℚ) < powerDen e := by exact_mod_cast powerDen_pos e
  have hlow : -44 ≤ e := by
    by_contra hlt
    have hmono := decimal_mono (f := binary32) (le_refl 1) (show e ≤ -45 by omega)
    have hone : binary32.decimal 1 (-45) < 1 := by
      norm_num [decimal, binary32, unitExponent]
    have hpow : (1 : ℚ) ≤ 2 ^ t := one_le_pow₀ (by norm_num)
    linarith
  have hlog : t ≤ powerLog e := by
    rw [decimal_eq_power, Nat.cast_one, one_mul, le_div_iff₀ hden] at ht
    have hquotient : 2 ^ t ≤ powerNum e / powerDen e := by
      rw [Nat.le_div_iff_mul_le (powerDen_pos e)]
      exact_mod_cast ht
    rw [powerLog, ← Nat.log2_two_pow (n := t)]
    exact log2_mono hquotient
  obtain ⟨j, hj⟩ := Nat.exists_eq_add_of_le hlog
  -- the last place is taken for the power of two that is just below it
  have hscale : (0 : ℚ) < 1 / (2 ^ j * powerDen e) := by positivity
  have hdecimal : ((n * 2 ^ j * (2 * powerNum e) : Nat) : ℚ) * (1 / (2 ^ j * powerDen e)) =
      2 * binary32.decimal n e := by
    rw [decimal_eq_power]
    push_cast
    field_simp
  have hhalf : ((d * (2 ^ powerLog e * powerDen e) : Nat) : ℚ) * (1 / (2 ^ j * powerDen e)) =
      d * 2 ^ t := by
    rw [hj]
    push_cast
    field_simp
    ring
  rw [← hdecimal, ← hhalf]
  obtain ⟨i, hi⟩ : ∃ i : Nat, (i : Int) - 44 = e := ⟨(e + 44).toNat, by omega⟩
  rcases certified i (by omega) with he' | hcertified
  · rw [hi] at he'
    subst he'
    refine (apart_or_eq rfl rfl hd hd').imp (fun h => h.mul_right hscale) fun h => ⟨rfl, ?_⟩
    cases j with
    | zero => simpa using h
    | succ j =>
      rw [Nat.pow_succ, ← Nat.mul_assoc] at h
      omega
  · rw [hi] at hcertified
    refine .inl (Apart.mul_right ?_ hscale)
    rcases hcertified with hgcd | hbrackets
    · exact apart_of_gcd hgcd (Nat.mul_pos (Nat.two_pow_pos _) (powerDen_pos e)) hd'
    · exact hbrackets.apart hd hd'

/-- No power of ten is just below a power of two. -/
theorem spaced : ∀ i : Nat, i < 83 → let e : Int := i - 44
    2 ^ powerLog e * powerDen e ≤ powerNum e ∧
      powerNum e * 2 ^ 20 + 2 ^ (powerLog e + 1) * powerDen e ≤
        2 ^ 20 * (2 ^ (powerLog e + 1) * powerDen e) := by
  decide +kernel

theorem decimal_one_le_of_lt {e : Int} {t : Nat} (he : e ≤ 38) (ht : binary32.decimal 1 e < 2 ^ t) :
    binary32.decimal 1 e ≤ (1 - 1 / 2 ^ 20) * 2 ^ t := by
  by_cases hlow : -44 ≤ e
  · obtain ⟨i, rfl⟩ : ∃ i : Nat, e = i - 44 := ⟨(e + 44).toNat, by omega⟩
    obtain ⟨hbelow, habove⟩ := spaced i (by omega)
    generalize (i : Int) - 44 = e at *
    have hden : (0 : ℚ) < powerDen e := by exact_mod_cast powerDen_pos e
    rw [decimal_eq_power, Nat.cast_one, one_mul] at ht ⊢
    have hlog : powerLog e < t := by
      rw [div_lt_iff₀ hden] at ht
      have hnat : powerNum e < 2 ^ t * powerDen e := by exact_mod_cast ht
      exact (Nat.pow_lt_pow_iff_right (by decide)).1 (Nat.lt_of_mul_lt_mul_right (hbelow.trans_lt hnat))
    have hpow : (2 : ℚ) ^ (powerLog e + 1) ≤ 2 ^ t := pow_le_pow_right₀ (by norm_num) hlog
    have hratio : (powerNum e * 2 ^ 20 + 2 ^ (powerLog e + 1) * powerDen e : ℚ) ≤
        2 ^ 20 * (2 ^ (powerLog e + 1) * powerDen e) := by
      exact_mod_cast habove
    rw [div_le_iff₀ hden]
    have hscaled := mul_le_mul_of_nonneg_right hpow hden.le
    linarith
  · have hmono := decimal_mono (f := binary32) (le_refl 1) (show e ≤ -45 by omega)
    have hsmall : binary32.decimal 1 (-45) ≤ 1 - 1 / 2 ^ 20 := by
      norm_num [decimal, binary32, unitExponent]
    have hpow : (1 : ℚ) ≤ 2 ^ t := one_le_pow₀ (by norm_num)
    have hshare : (0 : ℚ) ≤ 1 - 1 / 2 ^ 20 := by norm_num
    exact (hmono.trans hsmall).trans (le_mul_of_one_le_right hshare hpow)

end Binary

end UnitMatrix

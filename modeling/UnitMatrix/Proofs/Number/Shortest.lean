import UnitMatrix.Proofs.Number.Rounding

/-! The shortest digits read back as the magnitude that they are written for. Every candidate is tried
before it is taken, and where none is taken the whole expansion is. Either way the digits are few
enough for a reader that counts no more of them than a midpoint has. -/

namespace UnitMatrix

open NumberStyle (zeros)

namespace Decimal

variable {f : Binary}

def nearest (f : Binary) (d : Decimal) : Nat :=
  f.ofDecimal (digitsValue d.digits) (d.point - d.digits.length)

structure Normal (d : Decimal) : Prop where
  isDigit : ∀ c ∈ d.digits, c.isDigit = true
  ne_nil : d.digits ≠ []
  eq_zero : d.digits.head? = some '0' → d = ⟨['0'], 1⟩

theorem exists_zeros_ofScaled (n : Nat) (e : Int) :
    ∃ z, Nat.toDigits 10 n = (ofScaled n e).digits ++ zeros z ∧
      (ofScaled n e).point - (ofScaled n e).digits.length = e + z := by
  obtain ⟨z, hz⟩ := exists_zeros_after (Nat.toDigits 10 n)
  refine ⟨z, hz, ?_⟩
  have hlength := congrArg List.length hz
  rw [List.length_append, zeros, List.length_replicate] at hlength
  simp only [ofScaled]
  omega

theorem nearest_ofScaled (n : Nat) (e : Int) : (ofScaled n e).nearest f = f.ofDecimal n e := by
  obtain ⟨z, hdigits, hpoint⟩ := exists_zeros_ofScaled n e
  have hvalue : n = digitsValue (ofScaled n e).digits * 10 ^ z := by
    rw [← digitsValue_append_zeros, ← hdigits, digitsValue_toDigits]
  rw [nearest, hpoint, ← Binary.ofDecimal_mul_pow, ← hvalue]

theorem normal_ofScaled {n : Nat} (hn : 0 < n) (e : Int) : (ofScaled n e).Normal := by
  obtain ⟨z, hdigits, -⟩ := exists_zeros_ofScaled n e
  have hne : (ofScaled n e).digits ≠ [] := fun h => by
    have hvalue := digitsValue_toDigits n
    rw [hdigits, h, List.nil_append, digitsValue_zeros] at hvalue
    omega
  refine ⟨fun c hc => isDigit_of_mem_toDigits (n := n) ?_, hne, fun h => absurd ?_ (head?_toDigits hn)⟩
  · rw [hdigits]
    exact List.mem_append_left _ hc
  · rw [hdigits, List.head?_append_of_ne_nil _ hne, h]

theorem length_ofScaled_le (n : Nat) (e : Int) :
    (ofScaled n e).digits.length ≤ (Nat.toDigits 10 n).length := by
  obtain ⟨z, hdigits, -⟩ := exists_zeros_ofScaled n e
  rw [hdigits, List.length_append]
  omega

theorem digits_ofScaled_mul_pow {n : Nat} (hn : 0 < n) (z : Nat) (e : Int) :
    (ofScaled (n * 10 ^ z) e).digits = (ofScaled n e).digits := by
  simp only [ofScaled, toDigits_mul_pow hn, zeros, List.reverse_append, List.reverse_replicate]
  rw [List.dropWhile_append_of_pos]
  intro c hc
  simp [(List.mem_replicate.1 hc).2]

end Decimal

namespace Binary

variable {f : Binary} {m : Nat} {tie : Tie}

/-- What is taken is one of the two neighbours, and it reads back. -/
theorem of_nearestDecimal? {exact dropped : Nat} {d : Decimal}
    (h : f.nearestDecimal? tie m exact dropped = some d) :
    ∃ n, n ≤ exact / 10 ^ dropped + 1 ∧ f.ofDecimal n (dropped - f.unitExponent) = m ∧
      d = .ofScaled n (dropped - f.unitExponent) := by
  unfold nearestDecimal? at h
  simp only [Nat.pow_eq, beq_iff_eq] at h
  grind

/-- Digits that a reader counts all of. -/
def FewDigits (f : Binary) (length : Nat) : Prop :=
  length ≤ f.precision ∨ length ≤ f.midpointDigits

theorem FewDigits.mono {l l' : Nat} (h : f.FewDigits l) (hl : l' ≤ l) : f.FewDigits l' :=
  h.imp hl.trans hl.trans

/-- But for zeros at its end, the expansion of a magnitude has no more digits than a midpoint. -/
theorem exists_expansion (hf : 4 ≤ f.precision) (hm : m < f.infinity) :
    ∃ w z, f.expansion m = w * 10 ^ z ∧ w ≤ 2 ^ (f.precision + 1) * 5 ^ (f.unitExponent + 1) := by
  obtain ⟨s, t, hunits, hs, ht⟩ := exists_significand (by omega) hm
  have hunit := two_mul_unitExponent (by omega) (exponentBits_pos hm)
  have hbound : 2 ^ f.precision * 5 ^ f.unitExponent ≤
      2 ^ (f.precision + 1) * 5 ^ (f.unitExponent + 1) :=
    Nat.mul_le_mul (Nat.pow_le_pow_right (by decide) (by omega))
      (Nat.pow_le_pow_right (by decide) (by omega))
  -- each two pairs up with a five, and the tens made of them are the zeros at the end
  rw [expansion, hunits, Nat.pow_eq]
  by_cases hle : t ≤ f.unitExponent
  · obtain ⟨r, hr⟩ := Nat.exists_eq_add_of_le hle
    refine ⟨s * 5 ^ r, t, ?_, le_trans (Nat.mul_le_mul hs.le ?_) hbound⟩
    · rw [hr, show (10 : Nat) = 2 * 5 from rfl, Nat.mul_pow]
      ring
    · exact Nat.pow_le_pow_right (by decide) (by omega)
  · obtain ⟨r, hr⟩ := Nat.exists_eq_add_of_le (Nat.le_of_not_le hle)
    refine ⟨s * 2 ^ r, f.unitExponent, ?_, le_trans (Nat.mul_le_mul hs.le ?_) hbound⟩
    · rw [hr, show (10 : Nat) = 2 * 5 from rfl, Nat.mul_pow]
      ring
    · exact (Nat.pow_le_pow_right (by decide) (by omega)).trans (Nat.pow_le_pow_left (by decide) _)

/-- The neighbours of an expansion that is cut after some digits have no more digits, the zeros at
their end left out. -/
theorem length_ofScaled_neighbour {exact count n : Nat} (hcount : 0 < count) (e : Int)
    (h : n ≤ exact / 10 ^ ((Nat.toDigits 10 exact).length - count) + 1) :
    (Decimal.ofScaled n e).digits.length ≤ count := by
  have hexact : exact < 10 ^ (Nat.toDigits 10 exact).length :=
    (Nat.length_toDigits_le_iff (by decide) Nat.length_toDigits_pos).1 le_rfl
  have hcut : exact / 10 ^ ((Nat.toDigits 10 exact).length - count) < 10 ^ count := by
    rw [Nat.div_lt_iff_lt_mul (Nat.pow_pos (by decide)), ← Nat.pow_add]
    exact hexact.trans_le (Nat.pow_le_pow_right (by decide) (by omega))
  rcases Nat.lt_or_ge n (10 ^ count) with hlt | hge
  · exact (Decimal.length_ofScaled_le n e).trans
      ((Nat.length_toDigits_le_iff (by decide) hcount).2 hlt)
  · -- the upper neighbour of nines is a one with zeros
    have hpow : n = 1 * 10 ^ count := by omega
    rw [hpow, Decimal.digits_ofScaled_mul_pow (by decide)]
    exact (Decimal.length_ofScaled_le 1 e).trans hcount

theorem ofDecimal_zero (e : Int) : f.ofDecimal 0 e = 0 := by
  simp [ofDecimal]

theorem pos_of_ofDecimal {d : Nat} {e : Int} (h : 0 < f.ofDecimal d e) : 0 < d := by
  refine Nat.pos_of_ne_zero fun h0 => ?_
  rw [h0, ofDecimal_zero] at h
  exact absurd h (Nat.lt_irrefl 0)

/-- Whatever is taken is a scaled number that reads back, without too many digits. -/
theorem exists_scaled_eq_shortest (tie : Tie) (hf : 4 ≤ f.precision) (hm : m < f.infinity)
    (hpos : 0 < m) : ∃ n e, f.shortest tie m = .ofScaled n e ∧ f.ofDecimal n e = m ∧ 0 < n ∧
      f.FewDigits (Decimal.ofScaled n e).digits.length := by
  have hne {n : Nat} {e : Int} (h : f.ofDecimal n e = m) : 0 < n :=
    pos_of_ofDecimal (hpos.trans_eq h.symm)
  unfold shortest
  dsimp only
  cases hfound : (List.range f.precision).findSome? fun n => f.nearestDecimal? tie m (f.expansion m)
      ((Nat.toDigits 10 (f.expansion m)).length - (n + 1)) with
  | some d =>
    obtain ⟨count, hcount, htaken⟩ := List.exists_of_findSome?_eq_some hfound
    obtain ⟨n, hn, hreads, rfl⟩ := of_nearestDecimal? htaken
    refine ⟨n, _, rfl, hreads, hne hreads, .inl ?_⟩
    exact (length_ofScaled_neighbour (Nat.succ_pos count) _ hn).trans (List.mem_range.1 hcount)
  | none =>
    have hreads := ofDecimal_expansion hf hm
    refine ⟨_, _, rfl, hreads, hne hreads, .inr ?_⟩
    obtain ⟨w, z, hw, hle⟩ := exists_expansion hf hm
    have hwpos : 0 < w := Nat.pos_of_ne_zero fun h0 => by
      simp [hw, h0, ofDecimal_zero, hpos.ne] at hreads
    rw [hw, Decimal.digits_ofScaled_mul_pow hwpos]
    exact (Decimal.length_ofScaled_le w _).trans (length_toDigits_mono hle)

def written (f : Binary) (tie : Tie) (m : Nat) : Decimal :=
  if m = 0 then ⟨['0'], 1⟩ else f.shortest tie m

theorem nearest_written (tie : Tie) (hf : 4 ≤ f.precision) (hm : m < f.infinity) :
    (f.written tie m).nearest f = m := by
  unfold written
  split
  next h0 => exact h0 ▸ ofDecimal_zero _
  next h0 =>
    obtain ⟨n, e, heq, hreads, -⟩ := exists_scaled_eq_shortest tie hf hm (Nat.pos_of_ne_zero h0)
    rw [heq, Decimal.nearest_ofScaled, hreads]

theorem normal_written (tie : Tie) (hf : 4 ≤ f.precision) (hm : m < f.infinity) :
    (f.written tie m).Normal := by
  unfold written
  split
  next => exact ⟨by simp, by simp, fun _ => rfl⟩
  next h0 =>
    obtain ⟨n, e, heq, -, hn, -⟩ := exists_scaled_eq_shortest tie hf hm (Nat.pos_of_ne_zero h0)
    exact heq ▸ Decimal.normal_ofScaled hn e

theorem fewDigits_written (tie : Tie) (hf : 4 ≤ f.precision) (hm : m < f.infinity) :
    f.FewDigits (f.written tie m).digits.length := by
  unfold written
  split
  next => exact .inl (by simp; omega)
  next h0 =>
    obtain ⟨n, e, heq, -, -, hfew⟩ := exists_scaled_eq_shortest tie hf hm (Nat.pos_of_ne_zero h0)
    exact heq ▸ hfew

end Binary

end UnitMatrix

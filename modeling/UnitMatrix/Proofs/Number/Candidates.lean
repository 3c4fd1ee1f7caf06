import UnitMatrix.Proofs.Number.Midpoints
import UnitMatrix.Proofs.Number.Shortest

/-! The decimals that are tried for a magnitude. Of the two neighbours with a given last place the
nearer one comes first. With enough digits it always reads back, so the digits that are written are
few. -/

namespace UnitMatrix

namespace Binary

variable {f : Binary} {m n n' : Nat} {e : Int} {tie : Tie}

/-- Of two decimals with the last place `10 ^ e` that the magnitude lies between, `n` is the nearer
one. -/
structure Neighbours (f : Binary) (m : Nat) (e : Int) (n n' : Nat) : Prop where
  near : 2 * |f.decimal n e - f.units m| ≤ f.decimal 1 e
  between : |f.decimal n e - f.units m| + |f.decimal n' e - f.units m| = f.decimal 1 e

/-- A decimal in units of the last place of the whole expansion. -/
theorem decimal_place (d dropped : Nat) : f.decimal d (dropped - f.unitExponent) =
    d * 10 ^ dropped * f.decimal 1 (-f.unitExponent) := by
  have hshift := decimal_mul_pow (f := f) d dropped (-f.unitExponent)
  rw [decimal_eq_mul, neg_add_eq_sub] at hshift
  rw [← hshift]
  push_cast
  rfl

theorem neighbours_of_expansion {a rest dropped : Nat} (h : f.expansion m = a * 10 ^ dropped + rest)
    (hrest : rest < 10 ^ dropped) :
    (2 * rest ≤ 10 ^ dropped → f.Neighbours m (dropped - f.unitExponent) a (a + 1)) ∧
      (10 ^ dropped ≤ 2 * rest → f.Neighbours m (dropped - f.unitExponent) (a + 1) a) := by
  have hpos := decimal_one_pos (f := f) (-f.unitExponent)
  have hunits : (f.units m : ℚ) = (a * 10 ^ dropped + rest) * f.decimal 1 (-f.unitExponent) := by
    rw [← decimal_expansion, decimal_eq_mul, h]
    push_cast
    rfl
  have hbelow : |f.decimal a (dropped - f.unitExponent) - f.units m| =
      rest * f.decimal 1 (-f.unitExponent) := by
    rw [decimal_place, hunits, abs_sub_comm, abs_of_nonneg (by nlinarith [hpos, Nat.cast_nonneg (α := ℚ) rest])]
    ring
  have hrest' : (rest : ℚ) ≤ 10 ^ dropped := by exact_mod_cast hrest.le
  have habove : |f.decimal (a + 1) (dropped - f.unitExponent) - f.units m| =
      (10 ^ dropped - rest) * f.decimal 1 (-f.unitExponent) := by
    rw [decimal_place, hunits, abs_of_nonneg]
    · push_cast
      ring
    · push_cast
      nlinarith
  have hone := decimal_place (f := f) 1 dropped
  rw [Nat.cast_one, one_mul] at hone
  constructor
  · intro hlow
    have hlow' : (2 * rest : ℚ) ≤ 10 ^ dropped := by exact_mod_cast hlow
    exact ⟨by rw [hbelow, hone]; nlinarith, by rw [hbelow, habove, hone]; ring⟩
  · intro hhigh
    have hhigh' : (10 ^ dropped : ℚ) ≤ 2 * rest := by exact_mod_cast hhigh
    exact ⟨by rw [habove, hone]; nlinarith, by rw [hbelow, habove, hone]; ring⟩

theorem nearestDecimal?_cases (tie : Tie) (m dropped : Nat) : ∃ n n',
    f.Neighbours m (dropped - f.unitExponent) n n' ∧
      f.nearestDecimal? tie m (f.expansion m) dropped =
        if f.ofDecimal n (dropped - f.unitExponent) = m then
          some (.ofScaled n (dropped - f.unitExponent))
        else if f.ofDecimal n' (dropped - f.unitExponent) = m then
          some (.ofScaled n' (dropped - f.unitExponent))
        else none := by
  have hrest := Nat.mod_lt (f.expansion m) (show 0 < 10 ^ dropped from Nat.pow_pos (by decide))
  obtain ⟨hbelow, habove⟩ :=
    neighbours_of_expansion (Nat.div_add_mod' (f.expansion m) (10 ^ dropped)).symm hrest
  unfold nearestDecimal?
  simp only [Nat.pow_eq, beq_iff_eq]
  rcases Nat.lt_trichotomy (2 * (f.expansion m % 10 ^ dropped)) (10 ^ dropped) with hlt | heq | hgt
  · rw [if_pos hlt]
    exact ⟨_, _, hbelow hlt.le, rfl⟩
  · -- half way between, either of them is a nearest one
    rw [if_neg heq.not_lt, if_neg heq.not_gt]
    cases tie with
    | up => exact ⟨_, _, habove heq.ge, rfl⟩
    | even =>
      dsimp only
      split
      next => exact ⟨_, _, habove heq.ge, rfl⟩
      next => exact ⟨_, _, hbelow heq.le, rfl⟩
  · rw [if_neg hgt.not_gt, if_pos hgt]
    exact ⟨_, _, habove hgt.le, rfl⟩

/-- So many digits behind the first tell all magnitudes apart. -/
structure Suffices (f : Binary) (count : Nat) : Prop where
  two_pow_lt : 2 ^ f.precision < 10 ^ count
  lt_precision : count < f.precision
  le_five_pow : 10 ^ (count + 1) ≤ 5 ^ f.unitExponent

theorem suffices_sixteen : binary64.Suffices 16 := ⟨by decide, by decide, by decide +kernel⟩

theorem suffices_eight : binary32.Suffices 8 := ⟨by decide, by decide, by decide⟩

/-- What is written for a magnitude: the nearer neighbour, or the other one where the nearer one does
not read back. -/
structure Chosen (f : Binary) (m : Nat) (n : Nat) (e : Int) : Prop where
  reads : f.ofDecimal n e = m
  nearest : ∃ n', f.Neighbours m e n n' ∨ f.Neighbours m e n' n ∧ f.ofDecimal n' e ≠ m

theorem chosen_of_nearestDecimal? {dropped : Nat} {d : Decimal}
    (h : f.nearestDecimal? tie m (f.expansion m) dropped = some d) :
    ∃ n e, f.Chosen m n e ∧ d = .ofScaled n e := by
  obtain ⟨n, n', hneighbours, heq⟩ := nearestDecimal?_cases (f := f) tie m dropped
  rw [heq] at h
  split at h
  next hreads =>
    cases h
    exact ⟨n, _, ⟨hreads, n', .inl hneighbours⟩, rfl⟩
  next hfirst =>
    split at h
    next hreads =>
      cases h
      exact ⟨n', _, ⟨hreads, n, .inr ⟨hneighbours, hfirst⟩⟩, rfl⟩
    next => cases h

theorem expansion_pos (hf : 1 ≤ f.precision) (hm : m < f.infinity) (hpos : 0 < m) :
    5 ^ f.unitExponent ≤ f.expansion m := by
  have hunits : 0 < f.units m := by
    by_contra h0
    have h := nearest_units_one hf hm
    rw [Nat.eq_zero_of_not_pos h0, ← units_zero (f := f), nearest_units_one hf (by omega)] at h
    omega
  exact Nat.le_mul_of_pos_left _ hunits

/-- The nearer neighbour with enough digits reads back. -/
theorem isSome_nearestDecimal? {count : Nat} (hcount : f.Suffices count) (hf : 4 ≤ f.precision)
    (hbits : 2 ≤ f.exponentBits) (tie : Tie) (hm : m < f.infinity) (hpos : 0 < m) :
    (f.nearestDecimal? tie m (f.expansion m)
      ((Nat.toDigits 10 (f.expansion m)).length - (count + 1))).isSome = true := by
  obtain ⟨dropped, hdropped⟩ :
      ∃ dropped, dropped = (Nat.toDigits 10 (f.expansion m)).length - (count + 1) := ⟨_, rfl⟩
  have hexpansion := expansion_pos (by omega) hm hpos
  have hlong : count + 1 < (Nat.toDigits 10 (f.expansion m)).length := by
    by_contra hshort
    have := (Nat.length_toDigits_le_iff (b := 10) (by decide) (Nat.succ_pos count)).1
      (Nat.le_of_not_lt hshort)
    have := hcount.le_five_pow
    omega
  have hplace : f.decimal 1 (dropped - f.unitExponent) * 10 ^ count ≤ f.units m := by
    have hdigits := pow_length_le ((Nat.pow_pos (by decide)).trans_le hexpansion)
    rw [show (Nat.toDigits 10 (f.expansion m)).length - 1 = count + dropped by omega] at hdigits
    have hdigits' : (10 ^ count * 10 ^ dropped : ℚ) ≤ f.expansion m := by
      rw [← pow_add]
      exact_mod_cast hdigits
    calc f.decimal 1 (dropped - f.unitExponent) * 10 ^ count
        = 10 ^ count * 10 ^ dropped * f.decimal 1 (-f.unitExponent) := by
          rw [decimal_place, Nat.cast_one]
          ring
      _ ≤ f.expansion m * f.decimal 1 (-f.unitExponent) := by
        gcongr
        exact (decimal_one_pos _).le
      _ = f.units m := by rw [← decimal_eq_mul, decimal_expansion]
  rw [← hdropped]
  obtain ⟨n, n', hneighbours, heq⟩ := nearestDecimal?_cases (f := f) tie m dropped
  have hreads : f.ofDecimal n (dropped - f.unitExponent) = m := by
    rw [ofDecimal_eq_rounded hf hbits]
    refine rounded_eq_of_abs_lt (by omega) hm (decimal_nonneg _ _) ?_
    have hpow : (2 : ℚ) ^ f.precision < 10 ^ count := by exact_mod_cast hcount.two_pow_lt
    calc |f.decimal n (dropped - f.unitExponent) - f.units m| * 2 ^ (f.precision + 1)
        = 2 * |f.decimal n (dropped - f.unitExponent) - f.units m| * 2 ^ f.precision := by ring
      _ ≤ f.decimal 1 (dropped - f.unitExponent) * 2 ^ f.precision := by
        gcongr
        exact hneighbours.near
      _ < f.decimal 1 (dropped - f.unitExponent) * 10 ^ count := by
        gcongr
        exact decimal_one_pos _
      _ ≤ f.units m := hplace
  rw [heq, if_pos hreads]
  rfl

/-- What is written for a magnitude is chosen from two neighbours and has few digits. -/
theorem exists_chosen_eq_shortest {count : Nat} (hcount : f.Suffices count) (hf : 4 ≤ f.precision)
    (hbits : 2 ≤ f.exponentBits) (tie : Tie) (hm : m < f.infinity) (hpos : 0 < m) :
    ∃ n e, f.Chosen m n e ∧ f.shortest tie m = .ofScaled n e ∧
      (f.shortest tie m).digits.length ≤ count + 1 := by
  obtain ⟨length, hlength⟩ : ∃ length, length = (Nat.toDigits 10 (f.expansion m)).length := ⟨_, rfl⟩
  have hsome := isSome_nearestDecimal? hcount hf hbits tie hm hpos
  rw [← hlength] at hsome
  unfold shortest
  simp only [← hlength]
  cases hfound : (List.range f.precision).findSome? fun n =>
      f.nearestDecimal? tie m (f.expansion m) (length - (n + 1)) with
  | none =>
    rw [List.findSome?_eq_none_iff] at hfound
    rw [hfound count (List.mem_range.2 hcount.lt_precision)] at hsome
    cases hsome
  | some d =>
    obtain ⟨taken, k, rest, hrange, htaken, hbefore⟩ := List.findSome?_eq_some_iff.1 hfound
    obtain ⟨n, e, hchosen, rfl⟩ := chosen_of_nearestDecimal? htaken
    refine ⟨n, e, hchosen, rfl, ?_⟩
    have hk : k ≤ count := by
      by_contra hlt
      have hindex : taken.length = k := by
        have hget := congrArg (·[taken.length]?) hrange
        simp only [List.getElem?_append_right le_rfl, Nat.sub_self,
          List.getElem?_cons_zero, List.getElem?_eq_some_iff, List.getElem_range] at hget
        exact hget.2
      have hcount' : count ∈ taken := by
        have hget := congrArg (·[count]?) hrange
        simp only [List.getElem?_append_left (show count < taken.length by omega),
          List.getElem?_range hcount.lt_precision] at hget
        exact List.mem_of_getElem? hget.symm
      rw [hbefore count hcount'] at hsome
      cases hsome
    obtain ⟨n', hn', -, heq⟩ := of_nearestDecimal? htaken
    rw [hlength] at hn'
    rw [heq]
    exact (length_ofScaled_neighbour (Nat.succ_pos k) _ hn').trans (Nat.succ_le_succ hk)

end Binary

end UnitMatrix

import UnitMatrix.Proofs.Number.Shortest

/-! A written number in its parts: digits, digits after a point, and an exponent. In each way of
writing a number, the parts taken together mean what its digits mean. -/

namespace UnitMatrix

open NumberStyle (zeros)

structure Layout where
  whole : List Char
  fraction : List Char
  exponent? : Option Int

namespace Layout

variable {f : Binary} {d : Decimal}

def fractionText (ds : List Char) : List Char :=
  if ds = [] then [] else '.' :: ds

def exponentSign (signsExponent : Bool) (e : Int) : List Char :=
  if e < 0 then ['-'] else if signsExponent then ['+'] else []

def exponentText (signsExponent : Bool) : Option Int → List Char
  | none => []
  | some e => 'e' :: (exponentSign signsExponent e ++ Nat.toDigits 10 e.natAbs)

def text (signsExponent : Bool) (l : Layout) : List Char :=
  l.whole ++ (fractionText l.fraction ++ exponentText signsExponent l.exponent?)

def nearest (f : Binary) (l : Layout) : Nat :=
  f.ofDecimal (digitsValue (l.whole ++ l.fraction)) (l.exponent?.getD 0 - l.fraction.length)

structure Normal (l : Layout) : Prop where
  isDigit : ∀ c ∈ l.whole ++ l.fraction, c.isDigit = true
  ne_nil : l.whole ≠ []
  eq_zero : l.whole.head? = some '0' → l.whole = ['0']

def positional (keepsPoint : Bool) (d : Decimal) : Layout :=
  if d.point ≤ 0 then ⟨['0'], zeros (-d.point).toNat ++ d.digits, none⟩
  else if d.digits.length ≤ d.point then
    ⟨d.digits ++ zeros (d.point.toNat - d.digits.length), if keepsPoint then ['0'] else [], none⟩
  else ⟨d.digits.take d.point.toNat, d.digits.drop d.point.toNat, none⟩

def scientific (d : Decimal) : Layout :=
  ⟨d.digits.take 1, d.digits.drop 1, some (d.point - 1)⟩

theorem text_positional (hd : d.Normal) (keepsPoint signsExponent : Bool) :
    (positional keepsPoint d).text signsExponent = NumberStyle.positionalText keepsPoint d := by
  have hne := hd.ne_nil
  unfold positional NumberStyle.positionalText
  split
  next => simp [text, fractionText, exponentText, hne]
  next =>
    split
    next => cases keepsPoint <;> simp [text, fractionText, exponentText]
    next hlength =>
      have hrest : d.digits.drop d.point.toNat ≠ [] := by
        rw [Ne, List.drop_eq_nil_iff]
        omega
      simp [text, fractionText, exponentText, hrest]

theorem text_scientific (signsExponent : Bool) :
    (scientific d).text signsExponent = NumberStyle.scientificText signsExponent d := by
  have hrest : d.digits.drop 1 = [] ↔ d.digits.length ≤ 1 := List.drop_eq_nil_iff
  simp only [scientific, text, fractionText, NumberStyle.scientificText, hrest, List.append_assoc]
  rfl

theorem normal_split (hd : d.Normal) {n : Nat} (hn : 0 < n) (e? : Option Int) :
    Normal ⟨d.digits.take n, d.digits.drop n, e?⟩ := by
  have hhead : (d.digits.take n).head? = d.digits.head? := by
    rw [List.head?_take, if_neg hn.ne']
  refine ⟨fun c hc => hd.isDigit c ?_, ?_, fun h => ?_⟩
  · rwa [List.take_append_drop] at hc
  · simp [hn.ne', hd.ne_nil]
  · dsimp only at h ⊢
    rw [hd.eq_zero (hhead ▸ h)]
    exact List.take_of_length_le hn

theorem exists_zeros_of_keepsPoint (keepsPoint : Bool) :
    ∃ k, (if keepsPoint then ['0'] else []) = zeros k := by
  cases keepsPoint with
  | false => exact ⟨0, rfl⟩
  | true => exact ⟨1, rfl⟩

theorem normal_positional (hd : d.Normal) (keepsPoint : Bool) :
    (positional keepsPoint d).Normal := by
  unfold positional
  split
  next =>
    refine ⟨fun c hc => ?_, by simp, fun _ => rfl⟩
    rcases List.mem_append.1 hc with hc | hc
    · rw [List.mem_singleton.1 hc]
      rfl
    · exact (List.mem_append.1 hc).elim isDigit_of_mem_zeros (hd.isDigit c)
  next hpoint =>
    split
    next =>
      refine ⟨fun c hc => ?_, by simp [hd.ne_nil], fun h => ?_⟩
      · rcases List.mem_append.1 hc with hc | hc
        · exact (List.mem_append.1 hc).elim (hd.isDigit c) isDigit_of_mem_zeros
        · obtain ⟨k, hk⟩ := exists_zeros_of_keepsPoint keepsPoint
          exact isDigit_of_mem_zeros (hk ▸ hc)
      · dsimp only at h ⊢
        rw [List.head?_append_of_ne_nil _ hd.ne_nil] at h
        rw [hd.eq_zero h]
        rfl
    next => exact normal_split hd (by omega) none

theorem fraction_positional_ne_nil (hd : d.Normal) : (positional true d).fraction ≠ [] := by
  unfold positional
  split
  next => simp [hd.ne_nil]
  next =>
    split
    next => simp
    next =>
      rw [Ne, List.drop_eq_nil_iff]
      omega

theorem normal_scientific (hd : d.Normal) : (scientific d).Normal :=
  normal_split hd Nat.one_pos _

/-- The parts mean what the digits mean, with some zeros behind them. -/
def Shifts (l : Layout) (d : Decimal) : Prop :=
  ∃ k : Nat, digitsValue (l.whole ++ l.fraction) = digitsValue d.digits * 10 ^ k ∧
    d.point - d.digits.length = l.exponent?.getD 0 - l.fraction.length + k

theorem shifts_positional (keepsPoint : Bool) : (positional keepsPoint d).Shifts d := by
  unfold positional
  split
  next hpoint =>
    have hvalue : digitsValue (['0'] ++ (zeros (-d.point).toNat ++ d.digits)) =
        digitsValue d.digits := by
      rw [← List.append_assoc]
      exact digitsValue_zeros_append _ ((-d.point).toNat + 1)
    refine ⟨0, by rw [hvalue, Nat.pow_zero, Nat.mul_one], ?_⟩
    simp [zeros]
    omega
  next hpoint =>
    split
    next hlength =>
      obtain ⟨k, hk⟩ := exists_zeros_of_keepsPoint keepsPoint
      refine ⟨d.point.toNat - d.digits.length + k, ?_, ?_⟩
      · rw [hk, List.append_assoc, zeros, zeros, List.replicate_append_replicate]
        exact digitsValue_append_zeros _ _
      · simp [hk, zeros]
        omega
    next hlength =>
      refine ⟨0, by rw [List.take_append_drop, Nat.pow_zero, Nat.mul_one], ?_⟩
      simp
      omega

theorem shifts_scientific (hd : d.Normal) : (scientific d).Shifts d := by
  have hlength := List.length_pos_iff.2 hd.ne_nil
  refine ⟨0, ?_, ?_⟩
  · rw [scientific, List.take_append_drop, Nat.pow_zero, Nat.mul_one]
  · simp [scientific]
    omega

theorem Shifts.nearest_eq {l : Layout} (h : l.Shifts d) : l.nearest f = d.nearest f := by
  obtain ⟨k, hvalue, hexponent⟩ := h
  rw [nearest, Decimal.nearest, hvalue, hexponent, Binary.ofDecimal_mul_pow]

def ofMagnitude (s : NumberStyle) (f : Binary) (m : Nat) : Layout :=
  let d := f.written s.tie m
  if s.isPositional d then positional s.keepsPoint d else scientific d

variable {s : NumberStyle} {m : Nat}

theorem text_ofMagnitude (hf : 4 ≤ f.precision) (hm : m < f.infinity) :
    (ofMagnitude s f m).text s.signsExponent = s.magnitudeText f m := by
  have hd := Binary.normal_written s.tie hf hm
  show _ = if s.isPositional (f.written s.tie m) then
      NumberStyle.positionalText s.keepsPoint (f.written s.tie m)
    else NumberStyle.scientificText s.signsExponent (f.written s.tie m)
  unfold ofMagnitude
  dsimp only
  split
  next => exact text_positional hd _ _
  next => exact text_scientific _

theorem normal_ofMagnitude (hf : 4 ≤ f.precision) (hm : m < f.infinity) :
    (ofMagnitude s f m).Normal := by
  have hd := Binary.normal_written s.tie hf hm
  unfold ofMagnitude
  dsimp only
  split
  next => exact normal_positional hd _
  next => exact normal_scientific hd

theorem shifts_ofMagnitude (hf : 4 ≤ f.precision) (hm : m < f.infinity) :
    (ofMagnitude s f m).Shifts (f.written s.tie m) := by
  have hd := Binary.normal_written s.tie hf hm
  unfold ofMagnitude
  dsimp only
  split
  next => exact shifts_positional _
  next => exact shifts_scientific hd

theorem nearest_ofMagnitude (hf : 4 ≤ f.precision) (hm : m < f.infinity) :
    (ofMagnitude s f m).nearest f = m :=
  (shifts_ofMagnitude hf hm).nearest_eq.trans (Binary.nearest_written s.tie hf hm)

end Layout

end UnitMatrix

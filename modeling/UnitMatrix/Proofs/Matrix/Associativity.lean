import UnitMatrix.Proofs.Grid.Product
import UnitMatrix.Proofs.Units.Products

/-! Products of three matrices. The lists of the result depend on which product is formed first, its
elements do not; and where numbers are whole, neither does the storage, provided that no sum on the
way leaves the range. -/

namespace UnitMatrix

/-- Kinds of whole numbers compute exactly or not at all. -/
theorem Raw.exists_exact {k : Raw} (hk : k = .signed ∨ k = .byte) :
    ∃ val : k.Carrier → Int, Exact val := by
  rcases hk with rfl | rfl
  · exact ⟨Ranged.val, Ranged.exact (by decide)⟩
  · exact ⟨Ranged.val, Ranged.exact (by decide)⟩

namespace Matrix

variable {k : Raw} {a b c p : Matrix k}

theorem of_mul_ok (h : a.mul b = .ok p) :
    (a.backend = b.backend ∧ a.WhenFixed (a.storage.columns = b.storage.rows)) ∧
      a.frame.mul? b.frame = some p.frame ∧ a.backend.mul a.storage b.storage = .ok p.storage ∧
        p.backend = a.backend := by
  obtain ⟨hlike, h⟩ := of_require_ok h
  obtain ⟨frame, hframe, h⟩ := exists_of_demand_ok h
  obtain ⟨storage, hstorage, h⟩ := exists_of_bind_ok h
  cases h
  exact ⟨hlike, hframe, of_lift_ok hstorage, rfl⟩

theorem mulKnown_of_mul_ok (ha : a.backend = .fixed) (h : a.mul b = .ok p) :
    a.storage.columns = b.storage.rows ∧ a.storage.mulKnown b.storage = .ok p.storage ∧
      b.backend = .fixed ∧ p.backend = .fixed := by
  obtain ⟨⟨hback, hinner⟩, -, hstorage, hp⟩ := of_mul_ok h
  rw [ha] at hstorage
  exact ⟨hinner ha, hstorage, hback.symm.trans ha, hp.trans ha⟩

/-- The product of three matrices has the same elements whichever product is formed first, and over
storage of whole numbers of a fixed shape the same numbers. -/
theorem mul_regroup (a b c : Matrix k) :
    (∀ ab bc l r : Frame, a.frame.mul? b.frame = some ab → ab.mul? c.frame = some l →
      b.frame.mul? c.frame = some bc → a.frame.mul? bc = some r → l.grid?.isSome → r.grid?.isSome →
        l.Compatible r) ∧
    (a.backend = .fixed → k = .signed ∨ k = .byte → ∀ ab bc l r : Matrix k, a.mul b = .ok ab →
      ab.mul c = .ok l → b.mul c = .ok bc → a.mul bc = .ok r → l.storage = r.storage) := by
  constructor
  · intro ab bc l r hab hl hbc hr
    exact Frame.compatible_of_triple hab hl hbc hr
  · intro ha hk ab bc l r hab hl hbc hr
    obtain ⟨val, hval⟩ := Raw.exists_exact hk
    obtain ⟨hinner, hab, hb, habf⟩ := mulKnown_of_mul_ok ha hab
    obtain ⟨hinner', hbc, -, -⟩ := mulKnown_of_mul_ok hb hbc
    obtain ⟨-, hl, -, -⟩ := mulKnown_of_mul_ok habf hl
    obtain ⟨-, hr, -, -⟩ := mulKnown_of_mul_ok ha hr
    exact Grid.eq_of_mulKnown_mulKnown hval hinner hinner' hab hl hbc hr

/-- Bytes, and lists for which the two results differ: square metres against square metres, and
metres against cubic metres. -/
theorem mul_regroup_of_bytes :
    let byte (n : Int) (h : 0 ≤ n ∧ n ≤ 255) : Raw.Carrier .byte := ⟨n, h.1, h.2⟩
    let a : Matrix .byte := ⟨.fixed, ⟨[.identity], [.quantity 1 0, .quantity 1 1]⟩,
      ⟨2, [[byte 1 (by decide), byte 2 (by decide)]], by decide⟩⟩
    let b : Matrix .byte := ⟨.fixed, ⟨[.quantity 0 0, .quantity 0 (-1)], [.quantity 1 0, .quantity 3 0]⟩,
      ⟨2, [[byte 3 (by decide), byte 4 (by decide)], [byte 5 (by decide), byte 6 (by decide)]],
        by decide⟩⟩
    let c : Matrix .byte := ⟨.fixed, ⟨[.quantity 2 0, .quantity 0 0], [.identity]⟩,
      ⟨1, [[byte 7 (by decide)], [byte 8 (by decide)]], by decide⟩⟩
    ∃ ab bc l r : Matrix .byte, a.mul b = .ok ab ∧ ab.mul c = .ok l ∧ b.mul c = .ok bc ∧
      a.mul bc = .ok r ∧ l.frame ≠ r.frame ∧ l.frame.Compatible r.frame ∧ l.storage = r.storage := by
  intro byte a b c
  refine ⟨_, _, _, _, rfl, rfl, rfl, rfl, by decide, ?_, ?_⟩
  · exact (mul_regroup a b c).1 _ _ _ _ rfl rfl rfl rfl rfl rfl
  · exact (mul_regroup a b c).2 rfl (.inr rfl) _ _ _ _ rfl rfl rfl rfl

end Matrix

end UnitMatrix

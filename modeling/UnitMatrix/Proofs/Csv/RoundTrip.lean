import UnitMatrix.Csv.Reader
import UnitMatrix.Csv.Writer
import UnitMatrix.Proofs.Csv.Framing
import UnitMatrix.Proofs.Matrix.RawRows
import UnitMatrix.Proofs.Number.ReadBack

/-! A matrix is read back from its comma separated text, whatever its numbers are. Numbers are written
with few characters, none of which is blank or separates anything, so the fields that are found are the
numbers that were written. -/

namespace UnitMatrix

def NumberChar (c : Char) : Prop :=
  c.isDigit = true ∨ c ∈ ['.', 'e', '-', '+', 'N', 'a', 'i', 'n', 'f']

namespace Layout

variable {l : Layout} {c : Char}

theorem numberChar_exponentText {signsExponent : Bool} {e? : Option Int}
    (h : c ∈ exponentText signsExponent e?) : NumberChar c := by
  rcases e? with - | e
  · cases h
  · -- the letter, the sign and the digits of the exponent
    simp only [exponentText, exponentSign, List.mem_cons, List.mem_append] at h
    rcases h with rfl | h | h
    · exact .inr (by decide)
    · split at h
      · rw [List.mem_singleton.1 h]
        exact .inr (by decide)
      · cases signsExponent with
        | true =>
          rw [List.mem_singleton.1 h]
          exact .inr (by decide)
        | false => cases h
    · exact .inl (isDigit_of_mem_toDigits h)

theorem numberChar_text (hl : l.Normal) {signsExponent : Bool} (h : c ∈ l.text signsExponent) :
    NumberChar c := by
  simp only [text, fractionText, List.mem_append] at h
  rcases h with h | h | h
  · exact .inl (hl.isDigit c (List.mem_append_left _ h))
  · split at h
    · cases h
    · rcases List.mem_cons.1 h with rfl | h
      · exact .inr (by decide)
      · exact .inl (hl.isDigit c (List.mem_append_right _ h))
  · exact numberChar_exponentText h

end Layout

theorem numberChar_sign {negative : Bool} {c : Char} (h : c ∈ if negative then ['-'] else []) :
    NumberChar c := by
  cases negative with
  | true => exact .inr (by simp_all)
  | false => cases h

theorem NumberStyle.numberChar_text {f : Binary} (hf : 4 ≤ f.precision) (s : NumberStyle)
    (bits : Nat) {c : Char} (h : c ∈ s.text f bits) : NumberChar c := by
  unfold NumberStyle.text at h
  split at h
  · exact .inr ((by decide : ['N', 'a', 'N'] ⊆ ['.', 'e', '-', '+', 'N', 'a', 'i', 'n', 'f']) h)
  · rcases List.mem_append.1 h with h | h
    · exact numberChar_sign h
    · split at h
      next hfinite =>
        have hm := of_decide_eq_true hfinite
        rw [← Layout.text_ofMagnitude hf hm] at h
        exact Layout.numberChar_text (Layout.normal_ofMagnitude hf hm) h
      next =>
        exact .inr ((by decide : ['i', 'n', 'f'] ⊆ ['.', 'e', '-', '+', 'N', 'a', 'i', 'n', 'f']) h)

theorem Raw.numberChar_text (style : Binary → NumberStyle) (k : Raw) (x : k.Carrier) {c : Char}
    (h : c ∈ k.text style x) : NumberChar c := by
  have hinteger : ∀ n : Int, c ∈ Raw.text.integerText n → NumberChar c := by
    intro n h
    rcases List.mem_append.1 h with h | h
    · split at h
      · rw [List.mem_singleton.1 h]
        exact .inr (by decide)
      · cases h
    · exact .inl (isDigit_of_mem_toDigits h)
  cases k with
  | double => exact NumberStyle.numberChar_text (by decide) _ _ h
  | single => exact NumberStyle.numberChar_text (by decide) _ _ h
  | signed => exact hinteger _ h
  | byte => exact hinteger _ h

theorem Raw.text_ne_nil (style : Binary → NumberStyle) (k : Raw) (x : k.Carrier) :
    k.text style x ≠ [] := by
  intro h
  -- the text is read back, and no kind reads a number from nothing
  have hread := Raw.read_text style k x
  rw [h] at hread
  cases k <;> cases hread

namespace NumberChar

variable {c : Char}

theorem bounds (h : NumberChar c) : 43 ≤ c.toNat ∧ c.toNat < 128 ∧ c.toNat ≠ 44 := by
  rcases h with h | h
  · have := Char.isDigit_iff_toNat.1 h
    simp at this
    omega
  · simp only [List.mem_cons, List.not_mem_nil, or_false] at h
    rcases h with rfl | rfl | rfl | rfl | rfl | rfl | rfl | rfl | rfl <;> decide

theorem encode (h : NumberChar c) : String.utf8EncodeChar c = [c.val.toUInt8] := by
  apply String.utf8EncodeChar_eq_singleton
  have hle : c.val ≤ 127 := UInt32.le_iff_toNat_le.2 (Nat.le_of_lt_succ h.bounds.2.1)
  simp [Char.utf8Size, hle]

theorem toNat_toUInt8 (h : NumberChar c) : c.val.toUInt8.toNat = c.toNat := by
  have hlt : c.val.toNat < 128 := h.bounds.2.1
  rw [UInt32.toNat_toUInt8, Nat.mod_eq_of_lt (by omega)]
  rfl

theorem plainByte (h : NumberChar c) : Csv.PlainByte c.val.toUInt8 := by
  have hb := h.toNat_toUInt8
  have hbounds := h.bounds
  generalize c.val.toUInt8 = b at hb
  refine ⟨UInt8.lt_iff_toNat_lt.2 (hb ▸ hbounds.2.1), ?_, ?_, ?_⟩
  · rintro rfl
    exact hbounds.2.2 hb.symm
  · rintro rfl
    exact absurd hbounds.1 (hb ▸ by decide)
  · simp only [Csv.isLineEnd, Bool.or_eq_false_iff, beq_eq_false_iff_ne]
    constructor <;> rintro rfl <;> exact absurd hbounds.1 (hb ▸ by decide)

theorem isBlankByte (h : NumberChar c) : Csv.isBlankByte c.val.toUInt8 = false := by
  have hb := h.toNat_toUInt8
  have hbounds := h.bounds
  generalize c.val.toUInt8 = b at hb
  simp only [Csv.isBlankByte, Bool.or_eq_false_iff, beq_eq_false_iff_ne]
  refine ⟨⟨⟨⟨?_, ?_⟩, ?_⟩, ?_⟩, ?_⟩ <;> rintro rfl <;> exact absurd hbounds.1 (hb ▸ by decide)

theorem isBlank (h : NumberChar c) : UnitMatrix.isBlank c = false := by
  have hbounds := h.bounds
  unfold UnitMatrix.isBlank
  simp
  omega

end NumberChar

theorem trimBoth_eq {α : Type} {p : α → Bool} {xs : List α} (h : ∀ x ∈ xs, p x = false) :
    trimBoth p xs = xs := by
  have hdrop : ∀ ys : List α, (∀ y ∈ ys, p y = false) → ys.dropWhile p = ys := by
    intro ys hys
    rcases ys with - | ⟨y, ys⟩
    · rfl
    · exact List.dropWhile_cons_of_neg (by simp [hys y])
  rw [trimBoth, hdrop xs h, hdrop _ (by simpa using h), List.reverse_reverse]

theorem Utf8.encode_eq {text : List Char} (h : ∀ c ∈ text, NumberChar c) :
    Utf8.encode text = text.map fun c => c.val.toUInt8 := by
  induction text with
  | nil => rfl
  | cons c text ih =>
    simp only [List.forall_mem_cons] at h
    rw [encode, List.flatMap_cons, h.1.encode, ← encode, ih h.2]
    rfl

theorem Utf8.decode_encode {text : List Char} (h : ∀ c ∈ text, NumberChar c) :
    Utf8.decode (Utf8.encode text) = .ok text := by
  have hfrom : ∀ valid, decodeFrom valid (Utf8.encode text) = .ok text := by
    rw [encode_eq h]
    induction text with
    | nil => exact fun _ => rfl
    | cons c text ih =>
      simp only [List.forall_mem_cons] at h
      intro valid
      rw [List.map_cons]
      unfold decodeFrom
      rw [if_pos h.1.plainByte.1, ih h.2, h.1.toNat_toUInt8, Char.ofNat_toNat]
      rfl
  exact hfrom 0

namespace Csv

variable {k : Raw}

def fieldOf (k : Raw) (x : k.Carrier) : List UInt8 := Utf8.encode (numberText k x)

theorem numberChar_numberText (x : k.Carrier) : ∀ c ∈ numberText k x, NumberChar c := fun _ =>
  Raw.numberChar_text style k x

theorem plainField_fieldOf (x : k.Carrier) : PlainField (fieldOf k x) := by
  have hchars := numberChar_numberText x
  rw [fieldOf, Utf8.encode_eq hchars]
  refine ⟨fun h => Raw.text_ne_nil style k x (List.map_eq_nil_iff.1 h), fun b hb => ?_⟩
  obtain ⟨c, hc, rfl⟩ := List.mem_map.1 hb
  exact (hchars c hc).plainByte

theorem encode_rowText (row : List k.Carrier) :
    Utf8.encode (rowText k row) = lineOf (row.map (fieldOf k)) := by
  induction row with
  | nil => rfl
  | cons x row ih =>
    rcases row with - | ⟨y, row⟩
    · simp [rowText, Utf8.encode, lineOf, fieldOf]
      rfl
    · simp [rowText, Utf8.encode, lineOf, fieldOf] at ih ⊢
      rw [ih]
      rfl

/-- A walk through a list in which no element depends on its index. -/
theorem mapM_zipIdx {ε α β : Type} {f : α × Nat → Except ε β} {xs : List α} {ys : List β}
    (h : List.Forall₂ (fun x y => ∀ n, f (x, n) = .ok y) xs ys) (n : Nat) :
    (xs.zipIdx n).mapM f = .ok ys := by
  induction h generalizing n with
  | nil => rfl
  | cons hx _ ih =>
    rw [List.zipIdx_cons, List.mapM_cons, hx, ih]
    rfl

theorem eachField_eq {α β ε : Type} {f : α → Except ε β} {xs : List α} {ys : List β}
    (h : List.Forall₂ (fun x y => f x = .ok y) xs ys) (toCause : ε → Cause) (record : Nat)
    (start : Position) : eachField f toCause record start xs = .ok ys :=
  mapM_zipIdx (h.imp fun x y hxy _ => by simp [hxy, Except.mapError]) 0

/-- A field is decoded to the text that it was encoded from. -/
theorem decode_fieldOf (x : k.Carrier) :
    Utf8.decode (trimBoth isBlankByte (fieldOf k x)) = .ok (numberText k x) := by
  have hchars := numberChar_numberText x
  rw [trimBoth_eq]
  · exact Utf8.decode_encode hchars
  · rw [fieldOf, Utf8.encode_eq hchars]
    simp only [List.forall_mem_map]
    exact fun c hc => (hchars c hc).isBlankByte

theorem read_numberText (x : k.Carrier) : k.read (trimBlank (numberText k x)) = .ok x := by
  rw [trimBlank, trimBoth_eq fun c hc => (numberChar_numberText x c hc).isBlank]
  exact Raw.read_text style k x

theorem readRecord_fields {r : Record} {row : List k.Carrier} (h : r.fields = row.map (fieldOf k))
    (number : Nat) : readRecord k number r = .ok row := by
  have htexts : List.Forall₂ (fun field text => Utf8.decode field = .ok text)
      (r.fields.map (trimBoth isBlankByte)) (row.map (numberText k)) := by
    rw [h, List.forall₂_map_left_iff, List.forall₂_map_left_iff, List.forall₂_map_right_iff,
      List.forall₂_same]
    exact fun x _ => decode_fieldOf x
  have hnumbers : List.Forall₂ (fun text x => k.read text = .ok x)
      ((row.map (numberText k)).map trimBlank) row := by
    rw [List.forall₂_map_left_iff, List.forall₂_map_left_iff, List.forall₂_same]
    exact fun x _ => read_numberText x
  unfold readRecord
  rw [eachField_eq htexts]
  exact eachField_eq hnumbers _ _ _

theorem readRows_text {rows : List (List k.Carrier)} (hne : ∀ row ∈ rows, row ≠ []) :
    readRows k (Utf8.encode (text k rows)) = .ok rows := by
  have hlines : Utf8.encode (text k rows) = (rows.map (·.map (fieldOf k))).flatMap lineOf := by
    rw [List.flatMap_map, ← funext encode_rowText, text, Utf8.encode, List.flatMap_assoc]
    rfl
  have hfields : (records (Utf8.encode (text k rows))).map Record.fields =
      rows.map (·.map (fieldOf k)) := by
    rw [hlines]
    exact map_fields_records (by simpa using hne) (by simp [plainField_fieldOf])
  rw [← List.forall₂_eq_eq_eq, List.forall₂_map_left_iff, List.forall₂_map_right_iff] at hfields
  exact mapM_zipIdx (hfields.imp fun r row h => readRecord_fields h) 0

end Csv

namespace Matrix

variable {k : Raw} {m : Matrix k}

/-- A matrix in storage of the extent of its lists has a comma separated text, and from the bytes of
this text the same matrix is made again. -/
theorem ofCsv_toCsv (hm : m.Fits) :
    ∃ text, m.toCsv = .ok text ∧ m.type.ofCsv (Utf8.encode text) = .ok m := by
  have hrows : m.storage.entries ≠ [] := by
    rw [← List.length_pos_iff]
    exact lt_of_lt_of_eq hm.listed.1.1 hm.extent.1.symm
  have hcolumns : ∀ row ∈ m.storage.entries, row ≠ [] := fun row hrow => by
    rw [← List.length_pos_iff, m.storage.rectangular row hrow, hm.extent.2]
    exact hm.listed.2.1
  refine ⟨Csv.text k m.storage.entries, by rw [toCsv, rawRows_eq hm]; rfl, ?_⟩
  have hread : Csv.readRows m.type.raw (Utf8.encode (Csv.text k m.storage.entries)) =
      .ok m.storage.entries := Csv.readRows_text hcolumns
  unfold MatrixType.ofCsv
  rw [hread]
  split
  next h => cases h
  next h => exact absurd (Except.ok.inj h) hrows
  next h =>
    cases h
    exact ofRawRows_entries hm

end Matrix

end UnitMatrix

import UnitMatrix.Csv.Record

/-! The records of a text in which every field is plain: not empty, and without commas, quotes and line
ends. Reading it field by field and line by line finds the fields that it was put together from. -/

namespace UnitMatrix

namespace Csv

def PlainByte (b : UInt8) : Prop := b < 0x80 ∧ b ≠ comma ∧ b ≠ quote ∧ isLineEnd b = false

structure PlainField (bs : List UInt8) : Prop where
  ne_nil : bs ≠ []
  plain : ∀ b ∈ bs, PlainByte b

def lineOf : List (List UInt8) → List UInt8
  | [] => [lineFeed]
  | [f] => f ++ [lineFeed]
  | f :: fs => f ++ comma :: lineOf fs

variable {s : Scanner} {p : Position}

def Scanner.Open (s : Scanner) : Prop := s.mode = .between ∨ s.mode = .opening ∨ s.mode = .plain

theorem Scanner.step_plain (h : s.Open) (after : Position) {b : UInt8} (hb : PlainByte b) :
    s.step after b = (none, s.push .plain b) := by
  obtain ⟨-, hcomma, hquote, hend⟩ := hb
  rcases h with h | h | h <;> simp [step, unquoted, h, hcomma, hquote, hend]

theorem scan_plain (h : s.Open) {bs : List UInt8} (hbs : PlainField bs) (rest : List UInt8) :
    ∃ p', scan s p (bs ++ rest) =
      scan { s with field := bs.reverse ++ s.field, mode := .plain } p' rest := by
  obtain ⟨hne, hplain⟩ := hbs
  induction bs generalizing s p with
  | nil => exact absurd rfl hne
  | cons b bs ih =>
    have hstep := Scanner.step_plain h (p.after b) (hplain b List.mem_cons_self)
    rw [List.cons_append, scan, hstep]
    rcases bs with - | ⟨b', bs⟩
    · exact ⟨_, rfl⟩
    · obtain ⟨p', hp'⟩ := ih (s := s.push .plain b) (p := p.after b) (.inr (.inr rfl)) (by simp)
        fun c hc => hplain c (List.mem_cons_of_mem _ hc)
      refine ⟨p', ?_⟩
      simp only [hp']
      simp [Scanner.push]

/-- A line is a record of its fields, after those that the scanner already has. -/
theorem scan_lineOf (h : s.mode = .between ∨ s.mode = .opening) (hfield : s.field = [])
    {fs : List (List UInt8)} (hne : fs ≠ []) (hfs : ∀ f ∈ fs, PlainField f) (rest : List UInt8) :
    ∃ r p', scan s p (lineOf fs ++ rest) = r :: scan (.fresh p') p' rest ∧
      r.fields = s.fields.reverse ++ fs := by
  have hopen : s.Open := h.imp_right .inl
  induction fs generalizing s p with
  | nil => exact absurd rfl hne
  | cons f fs ih =>
    have hf := hfs f List.mem_cons_self
    rcases fs with - | ⟨f', fs⟩
    · obtain ⟨p', hp'⟩ := scan_plain (p := p) hopen hf (lineFeed :: rest)
      refine ⟨⟨s.start, s.fields.reverse ++ [f]⟩, p'.after lineFeed, ?_, rfl⟩
      rw [lineOf, List.append_assoc, List.singleton_append, hp', scan]
      simp [Scanner.step, Scanner.unquoted, Scanner.record, hfield,
        show lineFeed ≠ comma by decide, show isLineEnd lineFeed = true by decide]
    · obtain ⟨p', hp'⟩ := scan_plain (p := p) hopen hf (comma :: (lineOf (f' :: fs) ++ rest))
      -- behind the comma the scanner has one field more and begins the next one
      let next : Scanner := ⟨s.start, f :: s.fields, [], .opening⟩
      obtain ⟨r, p'', hr, hfields⟩ := ih (s := next) (p := p'.after comma) (.inr rfl) rfl (by simp)
        (fun g hg => hfs g (List.mem_cons_of_mem _ hg)) (.inr (.inl rfl))
      refine ⟨r, p'', ?_, by simpa [next] using hfields⟩
      show scan s p ((f ++ comma :: lineOf (f' :: fs)) ++ rest) = _
      rw [List.append_assoc, List.cons_append, hp', ← hr, scan]
      simp [Scanner.step, Scanner.unquoted, Scanner.endField, hfield, next]

theorem map_fields_scan (p : Position) {rows : List (List (List UInt8))}
    (hne : ∀ fs ∈ rows, fs ≠ []) (hrows : ∀ fs ∈ rows, ∀ f ∈ fs, PlainField f) :
    (scan (.fresh p) p (rows.flatMap lineOf)).map Record.fields = rows := by
  induction rows generalizing p with
  | nil => rfl
  | cons fs rows ih =>
    obtain ⟨r, p', hr, hfields⟩ := scan_lineOf (s := .fresh p) (p := p) (.inl rfl) rfl
      (hne fs List.mem_cons_self) (hrows fs List.mem_cons_self) (rows.flatMap lineOf)
    rw [List.flatMap_cons, hr, List.map_cons, hfields, ih]
    · rfl
    · exact fun gs hgs => hne gs (List.mem_cons_of_mem _ hgs)
    · exact fun gs hgs => hrows gs (List.mem_cons_of_mem _ hgs)

/-- Plain lines do not begin with a byte order mark. -/
theorem map_fields_records {rows : List (List (List UInt8))} (hne : ∀ fs ∈ rows, fs ≠ [])
    (hrows : ∀ fs ∈ rows, ∀ f ∈ fs, PlainField f) :
    (records (rows.flatMap lineOf)).map Record.fields = rows := by
  have hmark : ∀ bytes, rows.flatMap lineOf ≠ 0xEF :: bytes := by
    intro bytes h
    rcases rows with - | ⟨fs, rows⟩
    · cases h
    · obtain ⟨f, fs, rfl⟩ := List.exists_cons_of_ne_nil (hne fs List.mem_cons_self)
      have hf := hrows _ List.mem_cons_self f List.mem_cons_self
      obtain ⟨b, bs, rfl⟩ := List.exists_cons_of_ne_nil hf.ne_nil
      have hascii := (hf.plain b List.mem_cons_self).1
      have hhead : b = 0xEF := by
        rcases fs with - | ⟨f', fs⟩ <;> exact (List.cons.inj h).1
      rw [hhead] at hascii
      exact absurd hascii (by decide)
  unfold records
  dsimp only
  split
  next h => exact absurd h (hmark _)
  next => exact map_fields_scan _ hne hrows

end Csv

end UnitMatrix

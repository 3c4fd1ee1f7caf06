import Mathlib.Tactic.IntervalCases
import UnitMatrix.Proofs.Number.Digits
import UnitMatrix.Proofs.Outcome
import UnitMatrix.Symbol

/-! Symbols of units, read again. A reader looks for the letter of a unit, above the stroke and below
it, and takes the raised digits behind it for its power; the powers below the stroke count as negative.
So no two units have the same symbol, and a number in front of the symbol is no hindrance. A power has
a symbol unless it is the one that cannot be negated, and only if it goes below the stroke. -/

namespace UnitMatrix

theorem takeWhile_append_eq {α : Type} {p : α → Bool} {xs rest : List α}
    (hxs : ∀ x ∈ xs, p x = true) (hrest : ∀ x ∈ rest.head?, p x = false) :
    (xs ++ rest).takeWhile p = xs := by
  have hstop : rest.takeWhile p = [] := by
    cases rest with
    | nil => rfl
    | cons x rest => exact List.takeWhile_cons_of_neg (by simp [hrest x rfl])
  rw [List.takeWhile_append_of_pos hxs, hstop, List.append_nil]

/-- No power has to be negated that has no negation. -/
def Index.Printable : Index → Prop
  | .quantity length time => ¬ (length = -128 ∧ 0 ≤ time) ∧ ¬ (time = -128 ∧ 0 ≤ length)
  | _ => True

instance : (e : Index) → Decidable e.Printable
  | .identity => isTrue trivial
  | .double => isTrue trivial
  | .single => isTrue trivial
  | .quantity _ _ => inferInstanceAs (Decidable (_ ∧ _))

namespace Symbol

def marks : List Char := ['⁻', '⁰', '¹', '²', '³', '⁴', '⁵', '⁶', '⁷', '⁸', '⁹']

def plainDigit (c : Char) : Char :=
  match c with
  | '⁰' => '0'
  | '¹' => '1'
  | '²' => '2'
  | '³' => '3'
  | '⁴' => '4'
  | '⁵' => '5'
  | '⁶' => '6'
  | '⁷' => '7'
  | '⁸' => '8'
  | '⁹' => '9'
  | c => c

def readPower (text : List Char) : Int :=
  if text = [] then 1
  else if text.head? = some '⁻' then -digitsValue (text.tail.map plainDigit)
  else digitsValue (text.map plainDigit)

/-- The power behind the first such letter, and zero without one. -/
def powerAt (name : Char) (text : List Char) : Int :=
  match text.dropWhile (· ≠ name) with
  | [] => 0
  | _ :: rest => readPower (rest.takeWhile (· ∈ marks))

def aboveStroke (text : List Char) : List Char := text.takeWhile (· ≠ '/')

def belowStroke (text : List Char) : List Char := text.dropWhile (· ≠ '/')

def readPowers (text : List Char) : Int × Int :=
  (powerAt 'm' (aboveStroke text) - powerAt 'm' (belowStroke text),
    powerAt 's' (aboveStroke text) - powerAt 's' (belowStroke text))

variable {name c : Char} {power length time : Int} {text rest : List Char}

theorem mem_digits (h : c.isDigit = true) :
    c ∈ ['0', '1', '2', '3', '4', '5', '6', '7', '8', '9'] := by
  have hbounds : 48 ≤ c.toNat ∧ c.toNat ≤ 57 := by simpa using Char.isDigit_iff_toNat.1 h
  rw [← Char.ofNat_toNat c]
  obtain ⟨h48, h57⟩ := hbounds
  generalize c.toNat = n at h48 h57
  interval_cases n <;> decide

theorem plainDigit_superscriptDigit (h : c.isDigit = true) :
    plainDigit (superscriptDigit c) = c := by
  have hall : ∀ c ∈ ['0', '1', '2', '3', '4', '5', '6', '7', '8', '9'],
      plainDigit (superscriptDigit c) = c := by simp [superscriptDigit, plainDigit]
  exact hall c (mem_digits h)

theorem superscriptDigit_mem (h : c.isDigit = true) :
    superscriptDigit c ∈ marks ∧ superscriptDigit c ≠ '⁻' := by
  have hall : ∀ c ∈ ['0', '1', '2', '3', '4', '5', '6', '7', '8', '9'],
      superscriptDigit c ∈ marks ∧ superscriptDigit c ≠ '⁻' := by simp [superscriptDigit, marks]
  exact hall c (mem_digits h)

def raised (n : Nat) : List Char := (Nat.toDigits 10 n).map superscriptDigit

theorem digitsValue_raised (n : Nat) : digitsValue ((raised n).map plainDigit) = n := by
  rw [raised, List.map_map, List.map_congr_left (g := id), List.map_id, digitsValue_toDigits]
  exact fun c hc => plainDigit_superscriptDigit (isDigit_of_mem_toDigits hc)

theorem mem_raised {n : Nat} (h : c ∈ raised n) : c ∈ marks ∧ c ≠ '⁻' := by
  obtain ⟨d, hd, rfl⟩ := List.mem_map.1 h
  exact superscriptDigit_mem (isDigit_of_mem_toDigits hd)

theorem raised_ne_nil (n : Nat) : raised n ≠ [] := by
  simp [raised]

theorem superscript_eq (power : Int) :
    superscript power = (if power < 0 then ['⁻'] else []) ++ raised power.natAbs := rfl

theorem mem_marks_of_mem_superscript (h : c ∈ superscript power) : c ∈ marks := by
  rw [superscript_eq] at h
  rcases List.mem_append.1 h with h | h
  · split at h
    · rw [List.mem_singleton.1 h]
      decide
    · cases h
  · exact (mem_raised h).1

theorem readPower_superscript (power : Int) : readPower (superscript power) = power := by
  rcases Int.lt_or_le power 0 with h | h
  · simp only [superscript_eq, if_pos h, List.cons_append, List.nil_append, readPower, List.head?_cons,
      List.tail_cons, reduceCtorEq, if_false, if_true, digitsValue_raised]
    omega
  · have hdigit : (raised power.natAbs).head? ≠ some '⁻' := fun hhead =>
      (mem_raised (List.mem_of_head? hhead)).2 rfl
    rw [superscript_eq, if_neg (Int.not_lt.2 h), List.nil_append, readPower,
      if_neg (raised_ne_nil _), if_neg hdigit, digitsValue_raised]
    omega

theorem mem_powerOf (h : c ∈ powerOf name power) : c = name ∨ c ∈ marks := by
  rw [powerOf] at h
  split at h
  · exact .inl (List.mem_singleton.1 h)
  · rcases List.mem_cons.1 h with rfl | h
    · exact .inl rfl
    · exact .inr (mem_marks_of_mem_superscript h)

theorem not_mem_powerOf (hname : c ≠ name) (hmarks : c ∉ marks) : c ∉ powerOf name power :=
  fun h => (mem_powerOf h).elim hname hmarks

/-- Text without the letter is passed over. -/
theorem powerAt_append (h : name ∉ text) : powerAt name (text ++ rest) = powerAt name rest := by
  rw [powerAt, List.dropWhile_append_of_pos, ← powerAt]
  exact fun c hc => decide_eq_true fun hname => h (hname ▸ hc)

theorem powerAt_cons (h : c ≠ name) : powerAt name (c :: rest) = powerAt name rest := by
  have hc : name ∉ [c] := fun hc => h (List.mem_singleton.1 hc).symm
  exact powerAt_append hc

theorem powerAt_of_not_mem (h : name ∉ text) : powerAt name text = 0 := by
  rw [← List.append_nil text, powerAt_append h]
  rfl

theorem powerAt_powerOf (hrest : ∀ c ∈ rest.head?, c ∉ marks) :
    powerAt name (powerOf name power ++ rest) = power := by
  obtain ⟨behind, hbehind, hmarks, hread⟩ : ∃ behind, powerOf name power = name :: behind ∧
      (∀ c ∈ behind, c ∈ marks) ∧ readPower behind = power := by
    rw [powerOf]
    split
    next h => exact ⟨[], rfl, by simp, h.symm⟩
    next => exact ⟨_, rfl, fun c hc => mem_marks_of_mem_superscript hc, readPower_superscript power⟩
  rw [powerAt, hbehind, List.cons_append, List.dropWhile_cons_of_neg (by simp)]
  dsimp only
  rw [takeWhile_append_eq (by simpa using hmarks) (by simpa using hrest), hread]

theorem powerAt_self : powerAt name (powerOf name power) = power := by
  rw [← List.append_nil (powerOf name power), powerAt_powerOf (by simp)]

theorem product_singleton : product [(name, power)] = powerOf name power := by
  simp [product]

def aboveText (name : Char) (power : Int) : List Char :=
  if power = 0 then ['1'] else powerOf name power

def stroke (name : Char) (above : Int) (below : Char) (power : Int) : Except Fault (List Char) := do
  let power ← negated power
  .ok (aboveText name above ++ '/' :: powerOf below power)

/-- Metres and seconds side by side, each unless its power is zero. -/
def sideBySide (length time : Int) : List Char :=
  product ([('m', length), ('s', time)].filter (·.2 ≠ 0))

/-- A stroke is for one negative power, if the other one is not negative. -/
theorem ofPowers_eq (length time : Int) :
    ofPowers length time =
      if length < 0 ∧ 0 ≤ time then stroke 's' time 'm' length
      else if time < 0 ∧ 0 ≤ length then stroke 'm' length 's' time
      else .ok (sideBySide length time) := by
  have hneg {x : Int} (h : x < 0) : ¬ 0 < x ∧ ¬ 0 ≤ x ∧ x ≤ 0 ∧ x ≠ 0 := by omega
  have hpos {x : Int} (h : 0 < x) : ¬ x < 0 ∧ 0 ≤ x ∧ ¬ x ≤ 0 ∧ x ≠ 0 := by omega
  rcases Int.lt_trichotomy length 0 with hl | rfl | hl <;>
    rcases Int.lt_trichotomy time 0 with ht | rfl | ht
  all_goals
    simp [ofPowers, stroke, aboveText, sideBySide, product_singleton, *]

/-- A symbol is written if its powers are printable; otherwise a power that belongs below the stroke
has no negation. -/
theorem ofPowers_cases (length time : Int) :
    ((Index.quantity length time).Printable → ∃ symbol, ofPowers length time = .ok symbol) ∧
      (¬ (Index.quantity length time).Printable →
        ofPowers length time = .error (.overflow .negate)) := by
  simp only [ofPowers_eq, stroke, negated, Index.Printable]
  split_ifs
  all_goals
    constructor <;> intro h <;> first | exact ⟨_, rfl⟩ | rfl | omega

theorem readPowers_of_no_stroke (h : '/' ∉ text) :
    readPowers text = (powerAt 'm' text, powerAt 's' text) := by
  have habove : aboveStroke text = text :=
    List.takeWhile_eq_self_iff.2 fun c hc => decide_eq_true fun hstroke => h (hstroke ▸ hc)
  have hbelow : belowStroke text = [] :=
    List.dropWhile_eq_nil_iff.2 fun c hc => decide_eq_true fun hstroke => h (hstroke ▸ hc)
  simp [readPowers, habove, hbelow, powerAt]

theorem readPowers_of_stroke (h : '/' ∉ text) :
    readPowers (text ++ '/' :: rest) =
      (powerAt 'm' text - powerAt 'm' rest, powerAt 's' text - powerAt 's' rest) := by
  have hpass : ∀ c ∈ text, decide (c ≠ '/') = true :=
    fun c hc => decide_eq_true fun hstroke => h (hstroke ▸ hc)
  have habove : aboveStroke (text ++ '/' :: rest) = text := takeWhile_append_eq hpass (by simp)
  have hbelow : belowStroke (text ++ '/' :: rest) = '/' :: rest := by
    rw [belowStroke, List.dropWhile_append_of_pos hpass, List.dropWhile_cons_of_neg (by simp)]
  rw [readPowers, habove, hbelow, powerAt_cons (by decide), powerAt_cons (by decide)]

theorem not_mem_aboveText (hname : c ≠ name) (hmarks : c ∉ marks) (hone : c ≠ '1') :
    c ∉ aboveText name power := by
  rw [aboveText]
  split
  · simpa using hone
  · exact not_mem_powerOf hname hmarks

theorem powerAt_aboveText (h : name ∉ text) (hone : name ≠ '1') :
    powerAt name (text ++ aboveText name power) = power := by
  rw [powerAt_append h, aboveText]
  split
  next hpower => rw [powerAt_of_not_mem (by simpa using hone), hpower]
  next => exact powerAt_self

theorem stroke_eq_ok {below : Char} {above : Int} {symbol : List Char}
    (h : stroke name above below power = .ok symbol) :
    symbol = aboveText name above ++ '/' :: powerOf below (-power) := by
  rw [stroke, negated] at h
  split at h
  · cases h
  · exact (Except.ok.inj h).symm

theorem sideBySide_cases (length time : Int) :
    (length = 0 ∧ time = 0 ∧ sideBySide length time = []) ∨
      (length = 0 ∧ sideBySide length time = powerOf 's' time) ∨
        (time = 0 ∧ sideBySide length time = powerOf 'm' length) ∨
          sideBySide length time = powerOf 'm' length ++ ' ' :: powerOf 's' time := by
  rcases eq_or_ne length 0 with rfl | hl <;> rcases eq_or_ne time 0 with rfl | ht
  · exact .inl ⟨rfl, rfl, rfl⟩
  · exact .inr (.inl ⟨rfl, by simp [sideBySide, ht, product_singleton]⟩)
  · exact .inr (.inr (.inl ⟨rfl, by simp [sideBySide, hl, product_singleton]⟩))
  · exact .inr (.inr (.inr (by simp [sideBySide, hl, ht, product])))

/-- Both powers are read where they stand side by side at the end of a text. -/
theorem powerAt_sideBySide (length time : Int) (hm : 'm' ∉ text) (hs : 's' ∉ text) :
    powerAt 'm' (text ++ sideBySide length time) = length ∧
      powerAt 's' (text ++ sideBySide length time) = time := by
  have hother {name other : Char} {power : Int} (hne : name ≠ other) (hmarks : name ∉ marks) :
      powerAt name (powerOf other power) = 0 := powerAt_of_not_mem (not_mem_powerOf hne hmarks)
  rw [powerAt_append hm, powerAt_append hs]
  obtain ⟨rfl, rfl, h⟩ | ⟨rfl, h⟩ | ⟨rfl, h⟩ | h := sideBySide_cases length time <;> rw [h]
  · exact ⟨rfl, rfl⟩
  · exact ⟨hother (by decide) (by decide), powerAt_self⟩
  · exact ⟨powerAt_self, hother (by decide) (by decide)⟩
  · have hblank : ∀ c ∈ (' ' :: powerOf 's' time).head?, c ∉ marks := by
      intro c hc
      cases hc
      decide
    rw [powerAt_powerOf hblank, powerAt_append (not_mem_powerOf (by decide) (by decide)),
      powerAt_cons (by decide), powerAt_self]
    exact ⟨rfl, rfl⟩

/-- One letter above the stroke, the other one below. -/
theorem powerAt_stroke {name below : Char} (power other : Int) (hname : name ∈ ['m', 's'])
    (hbelow : below ∈ ['m', 's']) (hne : name ≠ below)
    (htext : name ∉ text ∧ below ∉ text ∧ '/' ∉ text) :
    let above := text ++ aboveText name power
    '/' ∉ above ∧ powerAt name above - powerAt name (powerOf below other) = power ∧
      powerAt below above - powerAt below (powerOf below other) = -other := by
  have hletters : ∀ c ∈ ['m', 's'], c ∉ marks ∧ c ≠ '1' ∧ '/' ≠ c := by simp [marks]
  obtain ⟨hmarks, hone, hslash⟩ := hletters name hname
  obtain ⟨hmarks', hone', -⟩ := hletters below hbelow
  obtain ⟨hfront, hfront', hstroke⟩ := htext
  have habove {c : Char} (hc : c ∉ text) (hchar : c ≠ name ∧ c ∉ marks ∧ c ≠ '1') :
      c ∉ text ++ aboveText name power :=
    List.not_mem_append hc (not_mem_aboveText hchar.1 hchar.2.1 hchar.2.2)
  refine ⟨habove hstroke ⟨hslash, by decide⟩, ?_, ?_⟩
  · rw [powerAt_aboveText hfront hone, powerAt_of_not_mem (not_mem_powerOf hne hmarks), Int.sub_zero]
  · rw [powerAt_of_not_mem (habove hfront' ⟨hne.symm, hmarks', hone'⟩), powerAt_self, Int.zero_sub]

theorem mem_sideBySide (h : c ∈ sideBySide length time) : c ∈ [' ', 'm', 's'] ∨ c ∈ marks := by
  have hpower {name : Char} {power : Int} (hname : name ∈ [' ', 'm', 's'])
      (h : c ∈ powerOf name power) : c ∈ [' ', 'm', 's'] ∨ c ∈ marks :=
    (mem_powerOf h).imp (fun hc => by rwa [hc]) fun hc => hc
  obtain ⟨-, -, heq⟩ | ⟨-, heq⟩ | ⟨-, heq⟩ | heq := sideBySide_cases length time <;> rw [heq] at h
  · cases h
  · exact hpower (by decide) h
  · exact hpower (by decide) h
  · rcases List.mem_append.1 h with h | h
    · exact hpower (by decide) h
    · rcases List.mem_cons.1 h with rfl | h
      · exact .inl (by decide)
      · exact hpower (by decide) h

end Symbol

namespace Index

open UnitMatrix.Symbol

variable {e : Index} {unit number : List Char}

theorem unitText_quantity {length time : Int} {symbol : List Char}
    (hsymbol : ofPowers length time = .ok symbol)
    (h : (quantity length time).unitText = .ok unit) :
    unit = if symbol.isEmpty then [] else ' ' :: symbol := by
  rw [unitText, hsymbol] at h
  exact (Except.ok.inj h).symm

theorem readPowers_unitText (h : e.unitText = .ok unit)
    (hnumber : 'm' ∉ number ∧ 's' ∉ number ∧ '/' ∉ number) :
    readPowers (number ++ unit) = e.dimension := by
  obtain ⟨hm, hs, hstroke⟩ := hnumber
  have hpure : readPowers (number ++ []) = (0, 0) := by
    rw [List.append_nil, readPowers_of_no_stroke hstroke, powerAt_of_not_mem hm,
      powerAt_of_not_mem hs]
  cases e with
  | identity | double | single =>
    cases h
    exact hpure
  | quantity length time =>
    obtain ⟨symbol, hsymbol, -⟩ := exists_of_bind_ok h
    have hunit := unitText_quantity hsymbol h
    have hfront : 'm' ∉ number ++ [' '] ∧ 's' ∉ number ++ [' '] ∧ '/' ∉ number ++ [' '] := by
      simp [hm, hs, hstroke]
    rw [ofPowers_eq] at hsymbol
    split_ifs at hsymbol
    · -- metres are below the stroke
      have htext : number ++ unit =
          (number ++ [' '] ++ aboveText 's' time) ++ '/' :: powerOf 'm' (-length) := by
        simp [hunit, stroke_eq_ok hsymbol]
      obtain ⟨habove, hs, hm⟩ := powerAt_stroke time (-length) (by decide) (by decide)
        (by decide : 's' ≠ 'm') ⟨hfront.2.1, hfront.1, hfront.2.2⟩
      rw [htext, readPowers_of_stroke habove, hs, hm, Int.neg_neg]
      rfl
    · -- seconds are below the stroke
      have htext : number ++ unit =
          (number ++ [' '] ++ aboveText 'm' length) ++ '/' :: powerOf 's' (-time) := by
        simp [hunit, stroke_eq_ok hsymbol]
      obtain ⟨habove, hm, hs⟩ := powerAt_stroke length (-time) (by decide) (by decide)
        (by decide : 'm' ≠ 's') hfront
      rw [htext, readPowers_of_stroke habove, hs, hm, Int.neg_neg]
      rfl
    · -- there is no stroke, and there may be no symbol at all
      obtain ⟨front, htext, hm, hs, hstroke⟩ : ∃ front : List Char, number ++ unit = front ++ symbol ∧
          'm' ∉ front ∧ 's' ∉ front ∧ '/' ∉ front := by
        cases symbol with
        | nil => exact ⟨number, by rw [hunit]; rfl, hm, hs, hstroke⟩
        | cons c symbol =>
          exact ⟨number ++ [' '], by simp [hunit], hfront⟩
      cases hsymbol
      have hnone : '/' ∉ sideBySide length time := fun h => absurd (mem_sideBySide h) (by decide)
      have hpowers := powerAt_sideBySide length time hm hs
      rw [htext, readPowers_of_no_stroke (List.not_mem_append hstroke hnone), hpowers.1, hpowers.2]
      rfl

def unitChars : List Char := [' ', 'm', 's', '/', '1'] ++ marks

theorem mem_unitText (h : e.unitText = .ok unit) {c : Char} (hc : c ∈ unit) : c ∈ unitChars := by
  have hpower {name : Char} {power : Int} (hname : name ∈ unitChars) (hc : c ∈ powerOf name power) :
      c ∈ unitChars :=
    (mem_powerOf hc).elim (fun hcase => hcase ▸ hname) fun hcase => List.mem_append_right _ hcase
  have hstroke {name below : Char} {above power : Int} (hname : name ∈ unitChars)
      (hbelow : below ∈ unitChars) (hc : c ∈ aboveText name above ++ '/' :: powerOf below power) :
      c ∈ unitChars := by
    rcases List.mem_append.1 hc with hc | hc
    · by_contra hnot
      refine not_mem_aboveText (fun hcase => ?_) (fun hcase => ?_) (fun hcase => ?_) hc
      · exact hnot (hcase ▸ hname)
      · exact hnot (List.mem_append_right _ hcase)
      · exact hnot (hcase ▸ by decide)
    · exact (List.mem_cons.1 hc).elim (fun hcase => hcase ▸ by decide) (hpower hbelow)
  cases e with
  | identity | double | single =>
    cases h
    cases hc
  | quantity length time =>
    obtain ⟨symbol, hsymbol, -⟩ := exists_of_bind_ok h
    rw [unitText_quantity hsymbol h] at hc
    split at hc
    · cases hc
    rcases List.mem_cons.1 hc with rfl | hc
    · decide
    rw [ofPowers_eq] at hsymbol
    split_ifs at hsymbol
    · exact hstroke (by decide) (by decide) (stroke_eq_ok hsymbol ▸ hc)
    · exact hstroke (by decide) (by decide) (stroke_eq_ok hsymbol ▸ hc)
    · cases hsymbol
      rcases mem_sideBySide hc with hc | hc
      · exact (by decide : [' ', 'm', 's'] ⊆ unitChars) hc
      · exact List.mem_append_right _ hc

/-- A blank stands between the number and the unit. -/
theorem head_unitText (h : e.unitText = .ok unit) : ∀ c ∈ unit.head?, c = ' ' := by
  cases e with
  | identity | double | single =>
    cases h
    simp
  | quantity length time =>
    obtain ⟨symbol, hsymbol, -⟩ := exists_of_bind_ok h
    rw [unitText_quantity hsymbol h]
    split <;> simp

/-- The unit is written exactly if the powers are printable. -/
theorem unitText_cases (e : Index) :
    (e.Printable → ∃ unit, e.unitText = .ok unit) ∧
      (¬ e.Printable → e.unitText = .error (.overflow .negate)) := by
  cases e with
  | identity | double | single => exact ⟨fun _ => ⟨[], rfl⟩, fun h => absurd trivial h⟩
  | quantity length time =>
    refine ⟨fun h => ?_, fun h => ?_⟩
    · obtain ⟨symbol, hsymbol⟩ := (ofPowers_cases length time).1 h
      exact ⟨_, by rw [unitText, hsymbol]; rfl⟩
    · rw [unitText, (ofPowers_cases length time).2 h]
      rfl

end Index

end UnitMatrix

import UnitMatrix.Display.Cell
import UnitMatrix.Proofs.Display.UnitSymbols

/-! The layout of texts between brackets, taken apart again. A text without commas and brackets ends
where a comma or a bracket follows, and a list in brackets of texts that end so ends with its last
bracket. So the texts of a list are known from the list, and this goes for lists of lists as well. What
stands without brackets, in one pair of them, or in pairs within a pair cannot be confused. -/

namespace UnitMatrix

def Stops (rest : List Char) : Prop := ∀ c ∈ rest.head?, c = ',' ∨ c = ']'

/-- Where such a text ends can be seen from what follows. -/
def Delimited (P : List Char → Prop) : Prop :=
  ∀ a b u v, P a → P b → Stops u → Stops v → a ++ u = b ++ v → a = b ∧ u = v

structure Plain (text : List Char) : Prop where
  ne_nil : text ≠ []
  chars : ∀ c ∈ text, c ≠ ',' ∧ c ≠ '[' ∧ c ≠ ']'

theorem Plain.takeWhile_append {text rest : List Char} (h : Plain text) (hrest : Stops rest) :
    (text ++ rest).takeWhile (fun c => c ≠ ',' ∧ c ≠ ']') = text := by
  refine takeWhile_append_eq (fun c hc => ?_) fun c hc => ?_
  · exact decide_eq_true ⟨(h.chars c hc).1, (h.chars c hc).2.2⟩
  · rcases hrest c hc with rfl | rfl <;> rfl

theorem delimited_plain : Delimited Plain := by
  intro a b u v ha hb hu hv h
  have hab : a = b := by
    rw [← ha.takeWhile_append hu, h, hb.takeWhile_append hv]
  exact ⟨hab, List.append_cancel_left (hab ▸ h)⟩

def closing (texts : List (List Char)) : List Char :=
  texts.flatMap (fun text => ',' :: ' ' :: text) ++ [']']

theorem stops_closing (texts : List (List Char)) (rest : List Char) :
    Stops (closing texts ++ rest) := by
  intro c hc
  cases texts with
  | nil =>
    cases hc
    exact .inr rfl
  | cons text texts =>
    cases hc
    exact .inl rfl

theorem closing_append_inj {P : List Char → Prop} (hP : Delimited P) {xs ys : List (List Char)}
    (hxs : ∀ x ∈ xs, P x) (hys : ∀ y ∈ ys, P y) {u v : List Char}
    (h : closing xs ++ u = closing ys ++ v) : xs = ys ∧ u = v := by
  induction xs generalizing ys with
  | nil =>
    cases ys with
    | nil => exact ⟨rfl, (List.cons.inj h).2⟩
    | cons y ys => exact absurd (List.cons.inj h).1 (by decide)
  | cons x xs ih =>
    cases ys with
    | nil => exact absurd (List.cons.inj h).1 (by decide)
    | cons y ys =>
      have hcons (x : List Char) (xs : List (List Char)) (u : List Char) :
          closing (x :: xs) ++ u = ',' :: ' ' :: (x ++ (closing xs ++ u)) := by
        simp [closing]
      rw [hcons, hcons] at h
      obtain ⟨rfl, hrest⟩ := hP _ _ _ _ (hxs x (by simp)) (hys y (by simp)) (stops_closing _ _)
        (stops_closing _ _) (List.cons.inj (List.cons.inj h).2).2
      obtain ⟨rfl, huv⟩ := ih (fun z hz => hxs z (by simp [hz])) (fun z hz => hys z (by simp [hz])) hrest
      exact ⟨rfl, huv⟩

namespace Matrix

theorem toList_bracketed (x : String) (xs : List String) :
    (bracketed (x :: xs)).toList = '[' :: (x.toList ++ closing (xs.map String.toList)) := by
  have hjoin (first : List Char) (rest : List (List Char)) :
      List.intercalate [',', ' '] (first :: rest) =
        first ++ rest.flatMap fun text => ',' :: ' ' :: text := by
    induction rest generalizing first with
    | nil => simp
    | cons y rest ih => simp [List.intercalate_cons_cons, ih]
  have hseparator : ", ".toList = [',', ' '] := rfl
  simp [bracketed, String.toList_intercalate, hseparator, hjoin, closing]

/-- Lists of texts that end where it can be seen, and what follows them. -/
theorem bracketed_append_inj {P : List Char → Prop} (hP : Delimited P) {xs ys : List String}
    (hx : xs ≠ []) (hy : ys ≠ []) (hxs : ∀ x ∈ xs, P x.toList) (hys : ∀ y ∈ ys, P y.toList)
    {u v : List Char} (h : (bracketed xs).toList ++ u = (bracketed ys).toList ++ v) :
    xs = ys ∧ u = v := by
  obtain ⟨x, xs, rfl⟩ := List.exists_cons_of_ne_nil hx
  obtain ⟨y, ys, rfl⟩ := List.exists_cons_of_ne_nil hy
  simp only [List.forall_mem_cons] at hxs hys
  rw [toList_bracketed, toList_bracketed, List.cons_append, List.cons_append, List.append_assoc,
    List.append_assoc] at h
  obtain ⟨hfirst, hrest⟩ := hP _ _ _ _ hxs.1 hys.1 (stops_closing _ _) (stops_closing _ _)
    (List.cons.inj h).2
  obtain ⟨hothers, huv⟩ := closing_append_inj hP (by simpa using hxs.2) (by simpa using hys.2) hrest
  have htexts : xs = ys :=
    (List.map_inj_right fun _ _ => String.toList_inj.1).1 hothers
  exact ⟨by rw [String.toList_inj.1 hfirst, htexts], huv⟩

theorem ne_bracketed_of_plain {a u v : List Char} (h : Plain a) (x : String) (xs : List String) :
    a ++ u ≠ (bracketed (x :: xs)).toList ++ v := by
  obtain ⟨c, a, rfl⟩ := List.exists_cons_of_ne_nil h.ne_nil
  rw [toList_bracketed]
  intro heq
  exact (h.chars c List.mem_cons_self).2.1 (List.cons.inj heq).1

inductive Item : List Char → Prop
  | plain {text : List Char} (h : Plain text) : Item text
  | row {texts : List String} (hne : texts ≠ []) (h : ∀ x ∈ texts, Plain x.toList) :
    Item (bracketed texts).toList

theorem delimited_item : Delimited Item := by
  intro a b u v ha hb hu hv h
  cases ha with
  | plain ha =>
    cases hb with
    | plain hb => exact delimited_plain a b u v ha hb hu hv h
    | row hne hb =>
      obtain ⟨x, xs, rfl⟩ := List.exists_cons_of_ne_nil hne
      exact absurd h (ne_bracketed_of_plain ha x xs)
  | row hne ha =>
    cases hb with
    | plain hb =>
      obtain ⟨x, xs, rfl⟩ := List.exists_cons_of_ne_nil hne
      exact absurd h.symm (ne_bracketed_of_plain hb x xs)
    | row hne' hb =>
      obtain ⟨rfl, huv⟩ := bracketed_append_inj delimited_plain hne hne' ha hb h
      exact ⟨rfl, huv⟩

theorem bracketed_inj {xs ys : List String} (hx : xs ≠ []) (hy : ys ≠ [])
    (hxs : ∀ x ∈ xs, Item x.toList) (hys : ∀ y ∈ ys, Item y.toList)
    (h : bracketed xs = bracketed ys) : xs = ys := by
  have happend : (bracketed xs).toList ++ [] = (bracketed ys).toList ++ [] := by rw [h]
  exact (bracketed_append_inj delimited_item hx hy hxs hys happend).1

structure PlainRows (columns : Nat) (rows : List (List String)) : Prop where
  ne_nil : rows ≠ []
  pos : 1 ≤ columns
  length : ∀ row ∈ rows, row.length = columns
  plain : ∀ row ∈ rows, ∀ text ∈ row, Plain text.toList

theorem PlainRows.row_ne_nil {columns : Nat} {rows : List (List String)} (h : PlainRows columns rows)
    {row : List String} (hrow : row ∈ rows) : row ≠ [] := by
  rw [← List.length_pos_iff, h.length row hrow]
  exact h.pos

theorem map_bracketed_inj {n n' : Nat} {xs ys : List (List String)} (hx : PlainRows n xs)
    (hy : PlainRows n' ys) (h : xs.map bracketed = ys.map bracketed) : xs = ys := by
  have hlength : xs.length = ys.length := by simpa using congrArg List.length h
  refine List.ext_getElem hlength fun i hi hi' => ?_
  have hrow : bracketed xs[i] = bracketed ys[i] := by
    simpa [hi, hi'] using congrArg (·[i]?) h
  exact bracketed_inj (hx.row_ne_nil (List.getElem_mem hi)) (hy.row_ne_nil (List.getElem_mem hi'))
    (fun x hx' => .plain (hx.plain _ (List.getElem_mem hi) x hx'))
    (fun y hy' => .plain (hy.plain _ (List.getElem_mem hi') y hy')) hrow

/-- The three layouts: a lone text, a row, and rows. -/
theorem layout_cases {f : Frame} {rows : List (List String)}
    (h : PlainRows f.columns.length rows) :
    (∃ text, rows = [[text]] ∧ layout f rows = text) ∨
      (∃ row, rows = [row] ∧ layout f rows = bracketed row) ∨
        layout f rows = bracketed (rows.map bracketed) := by
  rcases rows with - | ⟨row, - | ⟨row', rows⟩⟩
  · exact absurd rfl h.ne_nil
  · by_cases hcolumn : f.isColumn
    · have hlength : row.length = 1 := by
        rw [h.length row List.mem_cons_self]
        simpa [Frame.isColumn] using hcolumn
      obtain ⟨text, rfl⟩ := List.length_eq_one_iff.1 hlength
      exact .inl ⟨text, rfl, by simp [layout, hcolumn, String.join]⟩
    · exact .inr (.inl ⟨row, rfl, by simp [layout, hcolumn]⟩)
  · exact .inr (.inr rfl)

theorem PlainRows.row {n : Nat} {row : List String} (h : PlainRows n [row]) :
    row ≠ [] ∧ ∀ text ∈ row, Plain text.toList :=
  ⟨h.row_ne_nil List.mem_cons_self, h.plain row List.mem_cons_self⟩

theorem PlainRows.items {n : Nat} {rows : List (List String)} (h : PlainRows n rows) :
    rows.map bracketed ≠ [] ∧ ∀ text ∈ rows.map bracketed, Item text.toList := by
  refine ⟨by simpa using h.ne_nil, fun text htext => ?_⟩
  obtain ⟨row, hrow, rfl⟩ := List.mem_map.1 htext
  exact .row (h.row_ne_nil hrow) (h.plain row hrow)

theorem lone_ne_bracketed {text : String} {items : List String} (h : Plain text.toList)
    (hne : items ≠ []) : text ≠ bracketed items := by
  obtain ⟨item, items, rfl⟩ := List.exists_cons_of_ne_nil hne
  intro heq
  exact ne_bracketed_of_plain h (u := []) (v := []) item items (by rw [heq])

/-- A row begins with one bracket, and rows with two. -/
theorem row_ne_rows {n n' : Nat} {row : List String} {rows : List (List String)}
    (h : PlainRows n [row]) (h' : PlainRows n' rows) :
    bracketed row ≠ bracketed (rows.map bracketed) := by
  intro heq
  have hsame := bracketed_inj h.row.1 h'.items.1 (fun x hx => .plain (h.row.2 x hx)) h'.items.2 heq
  obtain ⟨first, rest, rfl⟩ := List.exists_cons_of_ne_nil h'.ne_nil
  have hfirst : bracketed first ∈ row := by
    rw [hsame]
    exact List.mem_cons_self
  exact lone_ne_bracketed (h.row.2 _ hfirst) (h'.row_ne_nil List.mem_cons_self) rfl

/-- The texts of all elements are known from the whole text. -/
theorem layout_inj {f g : Frame} {xs ys : List (List String)}
    (hx : PlainRows f.columns.length xs) (hy : PlainRows g.columns.length ys)
    (h : layout f xs = layout g ys) : xs = ys := by
  have hlone {n : Nat} {text : String} (h : PlainRows n [[text]]) : Plain text.toList :=
    h.row.2 text List.mem_cons_self
  obtain ⟨x, rfl, hxs⟩ | ⟨row, rfl, hxs⟩ | hxs := layout_cases hx <;>
    obtain ⟨y, rfl, hys⟩ | ⟨row', rfl, hys⟩ | hys := layout_cases hy <;>
      rw [hxs, hys] at h
  · rw [h]
  · exact absurd h (lone_ne_bracketed (hlone hx) hy.row.1)
  · exact absurd h (lone_ne_bracketed (hlone hx) hy.items.1)
  · exact absurd h.symm (lone_ne_bracketed (hlone hy) hx.row.1)
  · rw [bracketed_inj hx.row.1 hy.row.1 (fun x h' => .plain (hx.row.2 x h'))
      (fun y h' => .plain (hy.row.2 y h')) h]
  · exact absurd h (row_ne_rows hx hy)
  · exact absurd h.symm (lone_ne_bracketed (hlone hy) hx.items.1)
  · exact absurd h.symm (row_ne_rows hy hx)
  · exact map_bracketed_inj hx hy (bracketed_inj hx.items.1 hy.items.1 hx.items.2 hy.items.2 h)

end Matrix

end UnitMatrix

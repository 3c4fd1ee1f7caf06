import UnitMatrix.Program.Arrays
import UnitMatrix.Proofs.Matrix.RawRows
import UnitMatrix.Proofs.Number.FloatField

/-! Division that takes nothing for granted. Elimination and substitution have a number at hand for an
entry that is missing, walk two lists as far as the shorter one reaches, and pass over a write to a
place that is not there. Here each of these is a fault, and the output holds something before it is
written. No fault is ever met, whatever the numbers are: both divisions agree, and what the output
held before is gone. -/

namespace UnitMatrix

namespace Strict

section Definitions

open RootField

variable {α β K : Type}

def fetch (xs : List α) (i : Nat) : Except Fault α :=
  match xs[i]? with
  | some x => .ok x
  | none => .error (.outside i 0 xs.length 1)

def tail (k : Nat) (xs : List α) : Except Fault (List α) :=
  if k ≤ xs.length then .ok (xs.drop k) else .error (.outside k 0 xs.length 1)

def pairs (xs : List α) (ys : List β) : Except Fault (List (α × β)) :=
  if xs.length = ys.length then .ok (xs.zip ys) else .error .incompatibleShapes

def bringForward (best : Nat) : List (Column K) → Except Fault (List (Column K))
  | [] => .error (.outside best 0 0 1)
  | first :: others =>
    match best with
    | 0 => .ok (first :: others)
    | n + 1 => do return (← fetch others n) :: others.set n first

variable [RootField K]

def normFrom (k : Nat) (values : List K) : Except Fault K := do
  return sqrt (squareSum (← tail k values))

def choosePivot (k : Nat) (columns : List (Column K)) : Except Fault (List (Column K)) :=
  if columns = [] then .ok []
  else do
    let norms ← columns.mapM fun c => normFrom k c.values
    bringForward (lastLargest norms) columns

def reflector (norm : K) (xs : List K) : Except Fault (Reflector K) := do
  let _ ← fetch xs 0
  return .ofTail norm xs

def reflect (r : Reflector K) (k : Nat) (values : List K) : Except Fault (List K) := do
  let _ ← pairs (← tail k values) r.direction
  return r.apply k values

def reflectColumn (r : Reflector K) (k : Nat) (c : Column K) : Except Fault (Column K) := do
  return ⟨c.origin, ← reflect r k c.values⟩

def eliminateFrom (scale : Nat) : (steps : Nat) → (tolerance? : Option K) → (k : Nat) →
    List (Column K) → List (List K) → Except Fault (Elimination K)
  | 0, _, _, columns, targets => .ok ⟨[], columns, targets⟩
  | steps + 1, tolerance?, k, columns, targets => do
    match ← choosePivot k columns with
    | [] => .ok ⟨[], [], targets⟩
    | pivot :: others =>
      let norm ← normFrom k pivot.values
      let tolerance := tolerance?.getD (mul (mul norm epsilon) (ofNat scale))
      if le norm tolerance then .ok ⟨[], pivot :: others, targets⟩
      else if steps = 0 then .ok ⟨[pivot], others, targets⟩
      else
        let r ← reflector norm (← tail k pivot.values)
        let pivot ← reflectColumn r k pivot
        let others ← others.mapM (reflectColumn r k)
        let targets ← targets.mapM (reflect r k)
        let e ← eliminateFrom scale steps (some tolerance) (k + 1) others targets
        return ⟨pivot :: e.pivots, e.rest, e.targets⟩

def eliminate (height : Nat) (columns targets : List (List K)) : Except Fault (Elimination K) :=
  eliminateFrom (max height columns.length) height none 0
    (columns.mapIdx fun i values => ⟨i, values⟩) targets

def without (row : Nat) (sum : K) (p : Column K × K) : Except Fault K := do
  return sub sum (mul (← fetch p.1.values row) p.2)

def backSubstitute (target : List K) : (row : Nat) → List (Column K) → Except Fault (List K)
  | _, [] => .ok []
  | row, pivot :: pivots => do
    let known ← backSubstitute target (row + 1) pivots
    let sum ← (← pairs pivots known).foldlM (without row) (← fetch target row)
    return div sum (← fetch pivot.values row) :: known

/-- What is written to a row of `count` cells, one after the other: zeros throughout, then the unknowns
at the places in the order of the elimination, which must be enough. -/
def writes (count : Nat) (places : List Nat) (solution : List K) : Except Fault (List (Nat × K)) := do
  return (List.range count).map (·, zero) ++ (← pairs (places.take solution.length) solution)

def writeRow (out : Grid K) (i : Nat) (e : Elimination K) (target : List K) :
    Except Fault (Grid K) := do
  let solution ← backSubstitute target 0 e.pivots
  (← writes out.columns e.permutation solution).foldlM (fun out p => out.set i p.1 p.2) out

/-- The quotient, written over `out`. -/
def divide (dividend divisor out : Grid K) : Except Fault (Solution K) := do
  let columns ← divisor.readRows divisor.rows divisor.columns
  let targets ← dividend.readRows dividend.rows divisor.columns
  let e ← eliminate divisor.columns columns targets
  let out ← e.targets.zipIdx.foldlM (fun out t => writeRow out t.2 e t.1) out
  return ⟨out, e.pivots.length⟩

end Definitions

open RootField

variable {α β K : Type}

theorem fetch_eq {xs : List α} {i : Nat} (h : i < xs.length) (x : α) :
    fetch xs i = .ok (xs.getD i x) := by
  rw [fetch, List.getElem?_eq_getElem h, List.getD_eq_getElem _ _ h]

theorem tail_eq {xs : List α} {k : Nat} (h : k ≤ xs.length) : tail k xs = .ok (xs.drop k) :=
  if_pos h

theorem pairs_eq {xs : List α} {ys : List β} (h : xs.length = ys.length) :
    pairs xs ys = .ok (xs.zip ys) :=
  if_pos h

theorem bringForward_eq {best : Nat} {columns : List (Column K)} (h : best < columns.length) :
    bringForward best columns = .ok (UnitMatrix.bringForward best columns) := by
  cases columns with
  | nil => simp at h
  | cons first others =>
    cases best with
    | zero => rfl
    | succ n =>
      rw [bringForward, fetch_eq (Nat.lt_of_succ_lt_succ h) first]
      rfl

variable [RootField K] {c k : Nat}

theorem normFrom_eq {values : List K} (h : k ≤ values.length) :
    normFrom k values = .ok (UnitMatrix.normFrom k values) :=
  bind_eq_ok_iff.2 ⟨_, tail_eq h, rfl⟩

/-- The largest is sought only where there is a column, so one is found. -/
theorem choosePivot_eq {columns : List (Column K)} (h : ∀ a ∈ columns, k ≤ a.values.length) :
    choosePivot k columns = .ok (UnitMatrix.choosePivot k columns) := by
  unfold choosePivot
  split
  next hnil =>
    subst hnil
    rfl
  next hcons =>
    have hnorms : columns.map (fun a => UnitMatrix.normFrom k a.values) ≠ [] := by simpa using hcons
    have hbest := lastLargest_lt hnorms
    rw [List.length_map] at hbest
    exact bind_eq_ok_iff.2
      ⟨_, mapM_eq_ok_map fun a ha => normFrom_eq (h a ha), bringForward_eq hbest⟩

theorem reflector_eq {norm : K} {xs : List K} (h : 0 < xs.length) :
    reflector norm xs = .ok (.ofTail norm xs) :=
  bind_eq_ok_iff.2 ⟨_, fetch_eq h zero, rfl⟩

section Reflect

variable {r : Reflector K} (hd : k + r.direction.length = c)

include hd

theorem reflect_eq {values : List K} (hv : values.length = c) :
    reflect r k values = .ok (r.apply k values) := by
  have htail : (values.drop k).length = r.direction.length := by
    rw [List.length_drop]
    omega
  exact bind_eq_ok_iff.2
    ⟨_, tail_eq (by omega), bind_eq_ok_iff.2 ⟨_, pairs_eq htail, rfl⟩⟩

theorem reflectColumn_eq {a : Column K} (ha : a.values.length = c) :
    reflectColumn r k a = .ok (r.applyColumn k a) :=
  bind_eq_ok_iff.2 ⟨_, reflect_eq hd ha, rfl⟩

end Reflect

structure Sized (c : Nat) (columns : List (Column K)) (targets : List (List K)) : Prop where
  columns : ∀ a ∈ columns, a.values.length = c
  targets : ∀ t ∈ targets, t.length = c

namespace Sized

variable {columns columns' : List (Column K)} {targets : List (List K)} {r : Reflector K}

omit [RootField K] in
theorem subset (h : Sized c columns targets) (hsub : columns' ⊆ columns) :
    Sized c columns' targets :=
  ⟨fun a ha => h.columns a (hsub ha), h.targets⟩

theorem reflect (h : Sized c columns targets) (hd : k + r.direction.length = c) :
    Sized c (columns.map (r.applyColumn k)) (targets.map (r.apply k)) where
  columns := List.forall_mem_map.2 fun a ha => Reflector.length_apply (h.columns a ha) hd
  targets := List.forall_mem_map.2 fun t ht => Reflector.length_apply (h.targets t ht) hd

theorem mapM_reflect (h : Sized c columns targets) (hd : k + r.direction.length = c) :
    columns.mapM (reflectColumn r k) = .ok (columns.map (r.applyColumn k)) ∧
      targets.mapM (Strict.reflect r k) = .ok (targets.map (r.apply k)) :=
  ⟨mapM_eq_ok_map fun a ha => reflectColumn_eq hd (h.columns a ha),
    mapM_eq_ok_map fun t ht => reflect_eq hd (h.targets t ht)⟩

end Sized

/-- One step after the other nothing is missing, and no column changes its length. -/
theorem eliminateFrom_eq {scale steps : Nat} {tolerance? : Option K} (hk : k + steps = c)
    {columns : List (Column K)} {targets : List (List K)} (h : Sized c columns targets) :
    let e := UnitMatrix.eliminateFrom scale steps tolerance? k columns targets
    eliminateFrom scale steps tolerance? k columns targets = .ok e ∧
      Sized c (e.pivots ++ e.rest) e.targets := by
  induction steps generalizing tolerance? k columns targets with
  | zero => exact ⟨rfl, h⟩
  | succ steps ih =>
    have hlong : ∀ a ∈ columns, k ≤ a.values.length := by
      intro a ha
      have := h.columns a ha
      omega
    have hperm := choosePivot_perm k columns
    rw [eliminateFrom, choosePivot_eq hlong, UnitMatrix.eliminateFrom]
    cases hcons : UnitMatrix.choosePivot k columns with
    | nil => exact ⟨rfl, by simp, h.targets⟩
    | cons pivot others =>
      rw [hcons] at hperm
      have hsized := h.subset hperm.subset
      have hpivot := hsized.columns pivot (by simp)
      have hnorm : normFrom k pivot.values = .ok (UnitMatrix.normFrom k pivot.values) :=
        normFrom_eq (by omega)
      have htail := tail_eq (k := k) (hlong pivot (hperm.subset (by simp)))
      rw [ok_bind]
      dsimp only
      rw [hnorm, htail, ok_bind, ok_bind]
      split
      · exact ⟨rfl, hsized⟩
      · split
        · exact ⟨rfl, hsized⟩
        · have hd : k + (Reflector.ofTail (UnitMatrix.normFrom k pivot.values)
              (pivot.values.drop k)).direction.length = c := by
            rw [Reflector.length_ofTail, List.length_drop]
            omega
          rw [reflector_eq (by rw [List.length_drop]; omega), ok_bind]
          -- from here on nothing matters of the reflector but how long its direction is
          generalize Reflector.ofTail (UnitMatrix.normFrom k pivot.values) _ = r at hd ⊢
          have hothers := hsized.subset (List.subset_cons_self ..)
          obtain ⟨hcolumns, htargets⟩ := hothers.mapM_reflect hd
          have hk : k + 1 + steps = c := by omega
          obtain ⟨hrun, hlater⟩ := ih hk (hothers.reflect hd)
          rw [reflectColumn_eq hd hpivot, ok_bind, hcolumns, ok_bind, htargets, ok_bind, hrun]
          refine ⟨rfl, fun a ha => ?_, hlater.targets⟩
          rcases List.mem_cons.1 ha with rfl | ha
          · exact Reflector.length_apply hpivot hd
          · exact hlater.columns a ha

theorem eliminate_eq {columns targets : List (List K)} (hcolumns : ∀ row ∈ columns, row.length = c)
    (htargets : ∀ t ∈ targets, t.length = c) :
    let e := UnitMatrix.eliminate c columns targets
    eliminate c columns targets = .ok e ∧ Sized c (e.pivots ++ e.rest) e.targets := by
  refine eliminateFrom_eq (Nat.zero_add c) ⟨fun a ha => ?_, htargets⟩
  obtain ⟨i, hi, rfl⟩ := List.mem_mapIdx.1 ha
  exact hcolumns _ (List.getElem_mem hi)

theorem without_eq {row : Nat} (sum : K) {p : Column K × K} (h : row < p.1.values.length) :
    without row sum p = .ok (sub sum (mul (p.1.values.getD row zero) p.2)) :=
  bind_eq_ok_iff.2 ⟨_, fetch_eq h zero, rfl⟩

theorem backSubstitute_eq {target : List K} {row : Nat} {pivots : List (Column K)}
    (ht : row + pivots.length ≤ target.length)
    (hp : ∀ p ∈ pivots, row + pivots.length ≤ p.values.length) :
    backSubstitute target row pivots = .ok (UnitMatrix.backSubstitute target row pivots) := by
  induction pivots generalizing row with
  | nil => rfl
  | cons pivot pivots ih =>
    rw [List.length_cons] at ht hp
    have hrow : ∀ p ∈ pivot :: pivots, row < p.values.length := by
      intro p h
      have := hp p h
      omega
    have hknown : backSubstitute target (row + 1) pivots =
        .ok (UnitMatrix.backSubstitute target (row + 1) pivots) := by
      refine ih (by omega) fun p h => ?_
      have := hp p (List.mem_cons_of_mem _ h)
      omega
    have hlength := length_backSubstitute target (row + 1) pivots
    rw [backSubstitute, UnitMatrix.backSubstitute, hknown, ok_bind]
    generalize UnitMatrix.backSubstitute target (row + 1) pivots = known at hlength ⊢
    have hsum := foldlM_eq_ok_foldl fun sum p (h : p ∈ pivots.zip known) =>
      without_eq sum (hrow p.1 (List.mem_cons_of_mem _ (List.of_mem_zip h).1))
    rw [pairs_eq hlength.symm, ok_bind, fetch_eq (by omega) zero, ok_bind, hsum, ok_bind,
      fetch_eq (hrow pivot (by simp)) zero]
    rfl

section Output

variable {m n i : Nat}

/-- Writing zeros from the front clears what was there before. -/
theorem foldl_set_range (x : α) {row : List α} (hn : n ≤ row.length) :
    ((List.range n).map (·, x)).foldl (fun row p => row.set p.1 p.2) row =
      List.replicate n x ++ row.drop n := by
  induction n with
  | zero => rfl
  | succ n ih =>
    rw [List.range_succ, List.map_append, List.foldl_append, ih (by omega),
      List.drop_eq_getElem_cons (by omega)]
    simp only [List.map_cons, List.map_nil, List.foldl_cons, List.foldl_nil]
    rw [List.set_append_right _ _ (by simp), List.length_replicate, Nat.sub_self, List.set_cons_zero,
      List.replicate_succ', List.append_assoc, List.singleton_append]

theorem exists_set {out : Grid α} (hout : out.Extent m n) (hi : i < m) {j : Nat} (hj : j < n)
    (x : α) : ∃ out', out.set i j x = .ok out' ∧ out'.Extent m n ∧
      out'.entries = out.entries.modify i (·.set j x) := by
  obtain ⟨rfl, rfl⟩ := hout
  obtain ⟨y, hy⟩ := Option.isSome_iff_exists.1 (Grid.get?_isSome_iff.2 ⟨hi, hj⟩)
  have hset : ∃ out', out.set i j x = .ok out' ∧ out'.entries = out.entries.modify i (·.set j x) := by
    rw [Grid.set, hy]
    exact ⟨_, rfl, rfl⟩
  obtain ⟨out', hset, hentries⟩ := hset
  exact ⟨out', hset, ⟨Grid.rows_of_set hset, Grid.columns_of_set hset⟩, hentries⟩

/-- Cells of one row, written one after the other. -/
theorem exists_foldlM_set {out : Grid α} (hout : out.Extent m n) (hi : i < m)
    {cells : List (Nat × α)} (hcells : ∀ p ∈ cells, p.1 < n) :
    ∃ out', cells.foldlM (fun out p => out.set i p.1 p.2) out = .ok out' ∧ out'.Extent m n ∧
      out'.entries =
        out.entries.modify i fun row => cells.foldl (fun row p => row.set p.1 p.2) row := by
  induction cells generalizing out with
  | nil => exact ⟨out, rfl, hout, (List.modify_id i _).symm⟩
  | cons p cells ih =>
    obtain ⟨next, hset, hnext, hfirst⟩ := exists_set hout hi (hcells p (by simp)) p.2
    obtain ⟨out', hrun, hout', hlater⟩ := ih hnext fun q hq => hcells q (by simp [hq])
    refine ⟨out', ?_, hout', ?_⟩
    · rw [List.foldlM_cons, hset]
      exact hrun
    · rw [hlater, hfirst, List.modify_modify_eq]
      rfl

/-- What is written to a row makes it the row that is placed, whatever it was. -/
theorem exists_writes {e : Elimination K} (he : e.permutation.Perm (List.range n))
    {solution : List K} (hs : solution.length = e.pivots.length) :
    ∃ cells, writes n e.permutation solution = .ok cells ∧ (∀ p ∈ cells, p.1 < n) ∧
      ∀ row : List K, row.length = n → cells.foldl (fun row p => row.set p.1 p.2) row =
        placeSolution n e.pivots solution := by
  have hplaces : e.permutation.take solution.length = e.pivots.map Column.origin := by
    rw [hs, e.take_permutation]
  have hlength : (e.permutation.take solution.length).length = solution.length := by
    rw [hplaces, List.length_map, hs]
  refine ⟨_, bind_eq_ok_iff.2 ⟨_, pairs_eq hlength, rfl⟩, fun p hp => ?_, fun row hrow => ?_⟩
  · rcases List.mem_append.1 hp with hzero | hpair
    · obtain ⟨j, hj, rfl⟩ := List.mem_map.1 hzero
      exact List.mem_range.1 hj
    · have hmem := List.mem_of_mem_take (List.of_mem_zip hpair).1
      exact List.mem_range.1 (he.subset hmem)
  · rw [List.foldl_append, foldl_set_range zero hrow.ge, ← hrow, List.drop_length, List.append_nil,
      hplaces, List.zip_map_left, List.foldl_map]
    rfl

theorem exists_writeRow {out : Grid K} (hout : out.Extent m n) (hi : i < m) {e : Elimination K}
    (he : e.permutation.Perm (List.range n)) {target : List K}
    (ht : e.pivots.length ≤ target.length)
    (hp : ∀ p ∈ e.pivots, e.pivots.length ≤ p.values.length) :
    ∃ out', writeRow out i e target = .ok out' ∧ out'.Extent m n ∧ ∀ q, out'.entries[q]? =
      if q = i then some (placeSolution n e.pivots (UnitMatrix.backSubstitute target 0 e.pivots))
      else out.entries[q]? := by
  obtain ⟨cells, hwrites, hcells, hplaced⟩ := exists_writes he (length_backSubstitute target 0 e.pivots)
  obtain ⟨out', hrun, hout', hentries⟩ := exists_foldlM_set hout hi hcells
  refine ⟨out', ?_, hout', fun q => ?_⟩
  · rw [← Nat.zero_add e.pivots.length] at ht hp
    have hsolution := backSubstitute_eq ht hp
    rw [← hout.2] at hwrites
    rw [writeRow, hsolution, ok_bind, hwrites]
    exact hrun
  · rw [hentries]
    split
    next hq =>
      subst hq
      have hrow := List.getElem?_eq_getElem (l := out.entries) (hout.1.symm ▸ hi)
      have hlength := (out.rectangular _ (List.mem_of_getElem? hrow)).trans hout.2
      rw [List.getElem?_modify_eq, hrow, Option.map_eq_map, Option.map_some, hplaced _ hlength]
    next hq => exact List.getElem?_modify_ne _ _ (Ne.symm hq)

/-- Row by row, in the order of the targets, nothing is left of what the output held. -/
theorem exists_writeRows {c : Nat} {out : Grid K} (hout : out.Extent m n) {e : Elimination K}
    (he : e.permutation.Perm (List.range n)) (hrank : e.pivots.length ≤ c)
    (hsized : Sized c (e.pivots ++ e.rest) e.targets) (hrows : e.targets.length = m) :
    ∃ out', e.targets.zipIdx.foldlM (fun out t => writeRow out t.2 e t.1) out = .ok out' ∧
      out'.columns = n ∧ out'.entries = e.targets.map fun target =>
        placeSolution n e.pivots (UnitMatrix.backSubstitute target 0 e.pivots) := by
  have hstep (out : Grid K) (row : Nat → Option (List K)) (target : List K)
      (ht : target ∈ e.targets) (i : Nat) (hi : i < m)
      (h : out.Extent m n ∧ ∀ q, out.entries[q]? = row q) :
      ∃ out', writeRow out i e target = .ok out' ∧ out'.Extent m n ∧ ∀ q, out'.entries[q]? =
        if q = i then some (placeSolution n e.pivots (UnitMatrix.backSubstitute target 0 e.pivots))
        else row q := by
    have hpivots : ∀ p ∈ e.pivots, e.pivots.length ≤ p.values.length := fun p hp =>
      hrank.trans_eq (hsized.columns p (List.mem_append_left _ hp)).symm
    have hlength := hrank.trans_eq (hsized.targets target ht).symm
    obtain ⟨out', hrun, hout', hentries⟩ := exists_writeRow h.1 hi he hlength hpivots
    exact ⟨out', hrun, hout', fun q => by rw [hentries, h.2]⟩
  obtain ⟨out', hrun, hout', hentries⟩ := exists_foldlM_zipIdx
    (fun out t => writeRow out t.2 e t.1) e.targets
    (fun out row => out.Extent m n ∧ ∀ q, out.entries[q]? = row q) _ m hstep (n := 0)
    ⟨hout, fun _ => rfl⟩ (by omega)
  refine ⟨out', hrun, hout'.2, List.ext_getElem? fun q => ?_⟩
  rw [hentries, List.getElem?_map]
  by_cases hq : q < m
  · simp [hrows ▸ hq]
  · have hold : out.entries[q]? = none :=
      List.getElem?_eq_none (hout.1.trans_le (Nat.le_of_not_lt hq))
    have hnew : e.targets[q]? = none :=
      List.getElem?_eq_none (hrows.trans_le (Nat.le_of_not_lt hq))
    simp [hold, hnew]

/-- Whatever the output held, the quotient is written over it without a fault. -/
theorem divide_eq {c : Nat} {dividend divisor out : Grid K} (hdividend : dividend.Extent m c)
    (hdivisor : divisor.Extent n c) (hout : out.Extent m n) :
    divide dividend divisor out = .ok (UnitMatrix.divide dividend divisor) := by
  obtain ⟨rfl, rfl⟩ := hdivisor
  have hlength : ∀ row ∈ dividend.entries, row.length = divisor.columns := fun row hrow =>
    (dividend.rectangular row hrow).trans hdividend.2
  obtain ⟨hrun, hsized⟩ := eliminate_eq divisor.rectangular hlength
  obtain ⟨out', hwrite, hcolumns, hentries⟩ := exists_writeRows hout
    (permutation_eliminate divisor.columns divisor.entries dividend.entries)
    (length_pivots_eliminateFrom ..) hsized ((length_targets_eliminateFrom ..).trans hdividend.1)
  have hgrid : out' = (UnitMatrix.divide dividend divisor).grid := Grid.ext hcolumns hentries
  rw [divide, Grid.readRows_eq ⟨rfl, rfl⟩, ok_bind, Grid.readRows_eq ⟨rfl, hdividend.2⟩, ok_bind,
    hrun, ok_bind, hwrite, hgrid]
  rfl

end Output

end Strict

end UnitMatrix

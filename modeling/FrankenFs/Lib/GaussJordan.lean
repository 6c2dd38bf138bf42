import Mathlib.Algebra.BigOperators.Group.List.Basic
import Mathlib.Algebra.CharP.Two
import Mathlib.LinearAlgebra.Matrix.ToLinearEquiv

/-!
# Gauss-Jordan elimination in characteristic two

A row has the coefficients of the unknowns and a list of values: one system for each position of the
values. A solution of the rows stays one, and no pivot is missed unless the coefficients are
singular.
-/

namespace FrankenFs.Lib

universe u

variable {F : Type u} [Field F]

/-! ## Sums of products -/

def dot (a x : List F) : F := (List.zipWith (· * ·) a x).sum

@[simp]
theorem dot_nil (x : List F) : dot [] x = 0 := rfl

@[simp]
theorem dot_cons (u : F) (a : List F) (v : F) (x : List F) :
    dot (u :: a) (v :: x) = u * v + dot a x := by simp [dot]

@[simp]
theorem dot_nil_right (a : List F) : dot a [] = 0 := by simp [dot]

theorem dot_map_mul (k : F) (a x : List F) : dot (a.map (· * k)) x = dot a x * k := by
  induction a generalizing x with
  | nil => simp
  | cons u a ih =>
    cases x with
    | nil => simp
    | cons v x =>
      simp only [List.map_cons, dot_cons, ih]
      ring

theorem dot_zipWith_add (k : F) {a b : List F} (h : a.length = b.length) (x : List F) :
    dot (List.zipWith (fun u v => u + v * k) a b) x = dot a x + dot b x * k := by
  induction a generalizing b x with
  | nil =>
    rw [List.length_eq_zero_iff.mp h.symm]
    simp
  | cons u a ih =>
    obtain ⟨v, b, rfl⟩ := List.exists_cons_of_length_eq_add_one h.symm
    cases x with
    | nil => simp
    | cons w x =>
      simp only [List.zipWith_cons_cons, dot_cons, ih (Nat.succ.inj h)]
      ring

theorem dot_eq_sum {a x : List F} {m : Nat} (ha : a.length = m) (hx : x.length = m) :
    dot a x = ∑ c : Fin m, a.getD c 0 * x.getD c 0 := by
  induction m generalizing a x with
  | zero =>
    rw [List.length_eq_zero_iff.mp ha]
    simp
  | succ m ih =>
    obtain ⟨u, a, rfl⟩ := List.exists_cons_of_length_eq_add_one ha
    obtain ⟨v, x, rfl⟩ := List.exists_cons_of_length_eq_add_one hx
    rw [dot_cons, Fin.sum_univ_succ, ih (Nat.succ.inj ha) (Nat.succ.inj hx)]
    simp

/-! ## Rows -/

structure Row (F : Type u) where
  coeffs : List F
  rhs : List F
deriving DecidableEq

namespace Row

def coeff (row : Row F) (c : Nat) : F := row.coeffs.getD c 0

def scale (row : Row F) (k : F) : Row F := ⟨row.coeffs.map (· * k), row.rhs.map (k * ·)⟩

def addMul (row pivot : Row F) (k : F) : Row F :=
  ⟨List.zipWith (fun u v => u + v * k) row.coeffs pivot.coeffs,
    List.zipWith (fun u v => u + k * v) row.rhs pivot.rhs⟩

def clear [DecidableEq F] (row pivot : Row F) (col : Nat) : Row F :=
  if row.coeff col = 0 then row else row.addMul pivot (row.coeff col)

def Holds (xs : Nat → List F) (row : Row F) : Prop :=
  ∀ t v, row.rhs[t]? = some v → dot row.coeffs (xs t) = v

theorem coeff_scale (row : Row F) (k : F) (c : Nat) : (row.scale k).coeff c = row.coeff c * k := by
  simp only [coeff, scale, List.getD_eq_getElem?_getD, List.getElem?_map]
  cases row.coeffs[c]? <;> simp

theorem coeff_addMul {row pivot : Row F} (h : row.coeffs.length = pivot.coeffs.length) (k : F)
    (c : Nat) : (row.addMul pivot k).coeff c = row.coeff c + pivot.coeff c * k := by
  simp only [coeff, addMul, List.getD_eq_getElem?_getD, List.getElem?_zipWith]
  by_cases hc : c < row.coeffs.length
  · simp [hc, h ▸ hc]
  · simp [Nat.le_of_not_lt hc, h ▸ Nat.le_of_not_lt hc]

theorem Holds.scale {xs : Nat → List F} {row : Row F} (h : row.Holds xs) (k : F) :
    (row.scale k).Holds xs := by
  intro t v hv
  rw [Row.scale, List.getElem?_map, Option.map_eq_some_iff] at hv
  obtain ⟨w, hw, rfl⟩ := hv
  rw [Row.scale, dot_map_mul, h t w hw, mul_comm]

theorem Holds.addMul {xs : Nat → List F} {row pivot : Row F} (h : row.Holds xs)
    (hp : pivot.Holds xs) (hlen : row.coeffs.length = pivot.coeffs.length) (k : F) :
    (row.addMul pivot k).Holds xs := by
  intro t v hv
  simp only [Row.addMul, List.getElem?_zipWith_eq_some] at hv
  obtain ⟨u, w, hu, hw, rfl⟩ := hv
  rw [Row.addMul, dot_zipWith_add k hlen, h t u hu, hp t w hw, mul_comm]

section Clear

variable [DecidableEq F] {row pivot : Row F} {col : Nat}

theorem dot_clear (h : row.coeffs.length = pivot.coeffs.length) (x : List F) :
    dot (row.clear pivot col).coeffs x =
      dot row.coeffs x + dot pivot.coeffs x * row.coeff col := by
  unfold clear
  split_ifs with hzero
  · rw [hzero, mul_zero, add_zero]
  · exact dot_zipWith_add _ h x

theorem coeff_clear (h : row.coeffs.length = pivot.coeffs.length) (c : Nat) :
    (row.clear pivot col).coeff c = row.coeff c + pivot.coeff c * row.coeff col := by
  unfold clear
  split_ifs with hzero
  · rw [hzero, mul_zero, add_zero]
  · exact coeff_addMul h _ c

theorem length_clear (h : row.coeffs.length = pivot.coeffs.length)
    (hrhs : row.rhs.length = pivot.rhs.length) :
    (row.clear pivot col).coeffs.length = row.coeffs.length ∧
      (row.clear pivot col).rhs.length = row.rhs.length := by
  unfold clear
  split_ifs
  · exact ⟨rfl, rfl⟩
  · simp [addMul, h, hrhs]

theorem Holds.clear {xs : Nat → List F} (h : row.Holds xs) (hp : pivot.Holds xs)
    (hlen : row.coeffs.length = pivot.coeffs.length) : (row.clear pivot col).Holds xs := by
  unfold Row.clear
  split_ifs
  · exact h
  · exact h.addMul hp hlen _

end Clear

end Row

/-! ## Elimination -/

section Elimination

variable [DecidableEq F]

def swapRows (rows : List (Row F)) (i j : Nat) : List (Row F) :=
  match rows[i]?, rows[j]? with
  | some a, some b => (rows.set i b).set j a
  | _, _ => rows

def clearColumn (rows : List (Row F)) (col : Nat) (pivot : Row F) : List (Row F) :=
  rows.mapIdx fun r row =>
    if r = col then pivot else row.clear pivot col

def reduceColumn (rows : List (Row F)) (col : Nat) : Option (List (Row F)) :=
  ((List.range' col (rows.length - col)).find? fun r =>
    rows[r]?.any fun row => decide (row.coeff col ≠ 0)).bind fun p =>
      (rows[p]?).map fun row =>
        clearColumn (swapRows rows col p) col (row.scale (row.coeff col)⁻¹)

def reduce (rows : List (Row F)) : Option (List (Row F)) :=
  (List.range rows.length).foldlM reduceColumn rows

structure Square (m size : Nat) (rows : List (Row F)) : Prop where
  length : rows.length = m
  coeffs : ∀ row ∈ rows, row.coeffs.length = m
  rhs : ∀ row ∈ rows, row.rhs.length = size

def UnitUpTo (col : Nat) (rows : List (Row F)) : Prop :=
  ∀ (r : Nat) (row : Row F), rows[r]? = some row →
    ∀ c < col, row.coeff c = if r = c then 1 else 0

def Kills (x : List F) (rows : List (Row F)) : Prop := ∀ row ∈ rows, dot row.coeffs x = 0

/-! ## One column -/

variable {rows rows' : List (Row F)} {m size col : Nat}

theorem reduceColumn_eq_some (h : reduceColumn rows col = some rows') :
    ∃ p row, col ≤ p ∧ rows[p]? = some row ∧ row.coeff col ≠ 0 ∧
      rows' = clearColumn (swapRows rows col p) col (row.scale (row.coeff col)⁻¹) := by
  obtain ⟨p, hp, h⟩ := Option.bind_eq_some_iff.mp h
  obtain ⟨row, hrow, rfl⟩ := Option.map_eq_some_iff.mp h
  have hle := (List.mem_range'_1.mp (List.mem_of_find?_eq_some hp)).1
  have hpivot := List.find?_some hp
  simp only [hrow, Option.any_some, decide_eq_true_eq] at hpivot
  exact ⟨p, row, hle, hrow, hpivot, rfl⟩

theorem reduceColumn_eq_none (h : reduceColumn rows col = none) {r : Nat} {row : Row F}
    (hr : col ≤ r) (hrow : rows[r]? = some row) : row.coeff col = 0 := by
  rw [reduceColumn, Option.bind_eq_none_iff] at h
  by_contra hne
  cases hfind : (List.range' col (rows.length - col)).find? fun r =>
      rows[r]?.any fun row => decide (row.coeff col ≠ 0) with
  | none =>
    have hlt := (List.getElem?_eq_some_iff.mp hrow).1
    have := List.find?_eq_none.mp hfind r (List.mem_range'_1.mpr ⟨hr, by omega⟩)
    simp [hrow, hne] at this
  | some p =>
    have hnone := Option.map_eq_none_iff.mp (h p hfind)
    have := List.find?_some hfind
    simp [hnone] at this

omit [Field F] [DecidableEq F] in
theorem getElem?_swapRows {i j : Nat} (hi : i < rows.length) (hj : j < rows.length) (r : Nat) :
    (swapRows rows i j)[r]? =
      if r = j then rows[i]? else if r = i then rows[j]? else rows[r]? := by
  unfold swapRows
  rw [List.getElem?_eq_getElem hi, List.getElem?_eq_getElem hj]
  simp only [List.getElem?_set, List.length_set, eq_comm (a := r)]
  split_ifs <;> simp_all

theorem getElem?_clearColumn (pivot : Row F) (r : Nat) :
    (clearColumn rows col pivot)[r]? =
      rows[r]?.map fun row => if r = col then pivot else row.clear pivot col := List.getElem?_mapIdx

theorem getElem?_reduceColumn (hm : Square m size rows) (h : reduceColumn rows col = some rows') :
    ∃ p source pivot, col ≤ p ∧ p < m ∧ rows[p]? = some source ∧ source.coeff col ≠ 0 ∧
      pivot = source.scale (source.coeff col)⁻¹ ∧ pivot.coeffs.length = m ∧ ∀ r, rows'[r]? =
        if r = col then some pivot
        else (if r = p then rows[col]? else rows[r]?).map fun row => row.clear pivot col := by
  obtain ⟨p, source, hle, hsource, hne, rfl⟩ := reduceColumn_eq_some h
  have hp : p < rows.length := (List.getElem?_eq_some_iff.mp hsource).1
  refine ⟨p, source, _, hle, hm.length ▸ hp, hsource, hne, rfl, ?_, fun r => ?_⟩
  · simp [Row.scale, hm.coeffs source (List.mem_of_getElem? hsource)]
  · rw [getElem?_clearColumn, getElem?_swapRows (by omega) hp]
    by_cases hr : r = col
    · subst hr
      by_cases hrp : r = p <;> simp_all
    · simp only [if_neg hr]

/-- The pivot is a multiple of a row, and every other row is there with its column cleared. -/
structure Pivots (m col : Nat) (rows rows' : List (Row F)) (source pivot : Row F) : Prop where
  taken : source ∈ rows ∧ source.coeff col ≠ 0
  scaled : pivot = source.scale (source.coeff col)⁻¹
  length : pivot.coeffs.length = m
  placed : pivot ∈ rows'
  cleared : ∀ row' ∈ rows', row' = pivot ∨ ∃ row ∈ rows, row' = row.clear pivot col
  covered : ∀ row ∈ rows, row = source ∨ row.clear pivot col ∈ rows'

theorem exists_pivots (hm : Square m size rows) (h : reduceColumn rows col = some rows') :
    ∃ source pivot, Pivots m col rows rows' source pivot := by
  obtain ⟨p, source, pivot, hle, hp, hsource, hne, hpivot, hlen, hrows⟩ := getElem?_reduceColumn hm h
  refine ⟨source, pivot, ⟨List.mem_of_getElem? hsource, hne⟩, hpivot, hlen, ?_, ?_, ?_⟩
  · exact List.mem_of_getElem? (i := col) (by rw [hrows, if_pos rfl])
  · intro row' hrow'
    obtain ⟨r, hr⟩ := List.mem_iff_getElem?.mp hrow'
    rw [hrows] at hr
    split_ifs at hr with hcol hrp
    · exact Or.inl (Option.some.inj hr).symm
    · obtain ⟨row, hrow, rfl⟩ := Option.map_eq_some_iff.mp hr
      exact Or.inr ⟨row, List.mem_of_getElem? hrow, rfl⟩
    · obtain ⟨row, hrow, rfl⟩ := Option.map_eq_some_iff.mp hr
      exact Or.inr ⟨row, List.mem_of_getElem? hrow, rfl⟩
  · intro row hrow
    obtain ⟨r, hr⟩ := List.mem_iff_getElem?.mp hrow
    by_cases hrp : r = p
    · rw [hrp, hsource] at hr
      exact Or.inl (Option.some.inj hr).symm
    · refine Or.inr ?_
      by_cases hcol : r = col
      · -- the row in the pivot's place went where the pivot was
        have : rows'[p]? = some (row.clear pivot col) := by
          rw [hrows, if_neg (by omega), if_pos rfl, ← hcol, hr]
          rfl
        exact List.mem_of_getElem? this
      · have : rows'[r]? = some (row.clear pivot col) := by
          rw [hrows, if_neg hcol, if_neg hrp, hr]
          rfl
        exact List.mem_of_getElem? this

theorem length_reduceColumn (h : reduceColumn rows col = some rows') :
    rows'.length = rows.length := by
  obtain ⟨p, row, -, -, -, rfl⟩ := reduceColumn_eq_some h
  unfold clearColumn swapRows
  split <;> simp

theorem Square.reduceColumn (hm : Square m size rows) (h : reduceColumn rows col = some rows') :
    Square m size rows' := by
  obtain ⟨source, pivot, hp⟩ := exists_pivots hm h
  have hrhs : pivot.rhs.length = size := by
    rw [hp.scaled, Row.scale, List.length_map, hm.rhs source hp.taken.1]
  have hlengths : ∀ row' ∈ rows', row'.coeffs.length = m ∧ row'.rhs.length = size := by
    intro row' hrow'
    obtain rfl | ⟨row, hrow, rfl⟩ := hp.cleared row' hrow'
    · exact ⟨hp.length, hrhs⟩
    · obtain ⟨hcoeffs, hvalues⟩ := @Row.length_clear _ _ _ row pivot col
        ((hm.coeffs row hrow).trans hp.length.symm) ((hm.rhs row hrow).trans hrhs.symm)
      exact ⟨hcoeffs.trans (hm.coeffs row hrow), hvalues.trans (hm.rhs row hrow)⟩
  exact ⟨(length_reduceColumn h).trans hm.length, fun row' h => (hlengths row' h).1,
    fun row' h => (hlengths row' h).2⟩

theorem holds_reduceColumn (hm : Square m size rows) (h : reduceColumn rows col = some rows')
    {xs : Nat → List F} (hxs : ∀ row ∈ rows, row.Holds xs) : ∀ row ∈ rows', row.Holds xs := by
  obtain ⟨source, pivot, hp⟩ := exists_pivots hm h
  have hpivot : pivot.Holds xs := hp.scaled ▸ (hxs source hp.taken.1).scale _
  intro row' hrow'
  obtain rfl | ⟨row, hrow, rfl⟩ := hp.cleared row' hrow'
  · exact hpivot
  · exact (hxs row hrow).clear hpivot ((hm.coeffs row hrow).trans hp.length.symm)

theorem kills_reduceColumn (hm : Square m size rows) (h : reduceColumn rows col = some rows')
    (x : List F) : Kills x rows' ↔ Kills x rows := by
  obtain ⟨source, pivot, hp⟩ := exists_pivots hm h
  have hclear : ∀ row ∈ rows, dot (row.clear pivot col).coeffs x =
      dot row.coeffs x + dot pivot.coeffs x * row.coeff col := fun row hrow =>
    Row.dot_clear ((hm.coeffs row hrow).trans hp.length.symm) x
  have hdot : dot pivot.coeffs x = dot source.coeffs x * (source.coeff col)⁻¹ := by
    rw [hp.scaled]
    exact dot_map_mul _ _ _
  constructor
  · intro hkills row hrow
    have hpivot : dot pivot.coeffs x = 0 := hkills pivot hp.placed
    obtain rfl | hmem := hp.covered row hrow
    · rw [hpivot, eq_comm, mul_eq_zero] at hdot
      exact hdot.resolve_right (inv_ne_zero hp.taken.2)
    · have hzero := hkills _ hmem
      rwa [hclear row hrow, hpivot, zero_mul, add_zero] at hzero
  · intro hkills row' hrow'
    have hpivot : dot pivot.coeffs x = 0 := by rw [hdot, hkills source hp.taken.1, zero_mul]
    obtain rfl | ⟨row, hrow, rfl⟩ := hp.cleared row' hrow'
    · exact hpivot
    · rw [hclear row hrow, hkills row hrow, hpivot, zero_mul, add_zero]

theorem UnitUpTo.reduceColumn [CharP F 2] (hu : UnitUpTo col rows) (hm : Square m size rows)
    (h : reduceColumn rows col = some rows') : UnitUpTo (col + 1) rows' := by
  obtain ⟨p, source, pivot, hle, hp, hsource, hne, hpivot, hlen, hrows⟩ := getElem?_reduceColumn hm h
  have hbefore : ∀ c < col, pivot.coeff c = 0 := by
    intro c hc
    rw [hpivot, Row.coeff_scale, hu p source hsource c hc, if_neg (by omega), zero_mul]
  have hone : pivot.coeff col = 1 := by
    rw [hpivot, Row.coeff_scale, mul_inv_cancel₀ hne]
  intro r row' hrow' c hc
  rw [hrows] at hrow'
  by_cases hr : r = col
  · rw [if_pos hr, Option.some.injEq] at hrow'
    rw [← hrow']
    obtain hlt | rfl := Nat.lt_succ_iff_lt_or_eq.mp hc
    · rw [hbefore c hlt, if_neg (by omega)]
    · rw [hone, if_pos hr]
  · rw [if_neg hr] at hrow'
    obtain ⟨row, hrow, rfl⟩ := Option.map_eq_some_iff.mp hrow'
    have hmem : row ∈ rows := by
      split_ifs at hrow <;> exact List.mem_of_getElem? hrow
    rw [Row.coeff_clear ((hm.coeffs row hmem).trans hlen.symm)]
    obtain hlt | rfl := Nat.lt_succ_iff_lt_or_eq.mp hc
    · rw [hbefore c hlt, zero_mul, add_zero]
      split_ifs at hrow with hrp
      · rw [hu col row hrow c hlt, if_neg (by omega), if_neg (by omega)]
      · exact hu r row hrow c hlt
    · rw [hone, one_mul, CharTwo.add_self_eq_zero, if_neg hr]

theorem exists_kills [CharP F 2] (hu : UnitUpTo col rows) (hm : Square m size rows) (hcol : col < m)
    (h : reduceColumn rows col = none) :
    ∃ x : List F, x.length = m ∧ x[col]? = some 1 ∧ Kills x rows := by
  let entry (c : Nat) : F :=
    if c < col then (rows[c]?.map fun row => row.coeff col).getD 0 else if c = col then 1 else 0
  refine ⟨(List.range m).map entry, by simp, by simp [hcol, entry], fun row hrow => ?_⟩
  obtain ⟨r, hr⟩ := List.mem_iff_getElem?.mp hrow
  rw [dot_eq_sum (hm.coeffs row hrow) (by simp)]
  have hterm : ∀ c : Fin m, row.coeffs.getD c 0 * ((List.range m).map entry).getD c 0 =
      (if c.1 = r ∧ r < col then row.coeff col else 0) + if c.1 = col then row.coeff col else 0 := by
    intro c
    have hget : ((List.range m).map entry).getD c 0 = entry c := by simp
    rw [hget]
    show row.coeff c * entry c = _
    by_cases hlt : c.1 < col
    · have hunit := hu r row hr c hlt
      by_cases hrc : r = c
      · subst hrc
        simp [entry, hlt, hunit, hr, Nat.ne_of_lt hlt]
      · simp [hunit, hrc, Nat.ne_of_lt hlt, Ne.symm hrc]
    · by_cases hc : c.1 = col
      · have : ¬ (col = r ∧ r < col) := by omega
        simp [entry, hc, this]
      · have : ¬ (c.1 = r ∧ r < col) := by omega
        simp [entry, hlt, hc, this]
  rw [Finset.sum_congr rfl fun c _ => hterm c, Finset.sum_add_distrib]
  have hlast : ∑ c : Fin m, (if c.1 = col then row.coeff col else 0) = row.coeff col := by
    rw [Finset.sum_eq_single ⟨col, hcol⟩]
    · simp
    · intro c _ hc
      exact if_neg fun heq => hc (Fin.ext heq)
    · simp
  by_cases hrc : r < col
  · have hfirst : ∑ c : Fin m, (if c.1 = r ∧ r < col then row.coeff col else 0) = row.coeff col := by
      rw [Finset.sum_eq_single ⟨r, by omega⟩]
      · simp [hrc]
      · intro c _ hc
        exact if_neg fun heq => hc (Fin.ext heq.1)
      · simp
    rw [hfirst, hlast, CharTwo.add_self_eq_zero]
  · rw [hlast, reduceColumn_eq_none h (Nat.le_of_not_lt hrc) hr]
    simp [hrc]

/-! ## All columns -/

structure Reduces (m size n : Nat) (rows rows' : List (Row F)) : Prop where
  square : Square m size rows'
  unit : UnitUpTo n rows'
  kills : ∀ x, Kills x rows' ↔ Kills x rows
  holds : ∀ xs : Nat → List F, (∀ row ∈ rows, row.Holds xs) → ∀ row ∈ rows', row.Holds xs

variable [CharP F 2]

theorem reduces_of_foldlM (hm : Square m size rows) {n : Nat}
    (h : (List.range n).foldlM reduceColumn rows = some rows') : Reduces m size n rows rows' := by
  induction n generalizing rows' with
  | zero =>
    cases h
    exact ⟨hm, fun _ _ _ c hc => absurd hc (Nat.not_lt_zero c), fun _ => Iff.rfl, fun _ hxs => hxs⟩
  | succ n ih =>
    rw [List.range_succ, List.foldlM_append] at h
    obtain ⟨mid, hmid, h⟩ := Option.bind_eq_some_iff.mp h
    rw [List.foldlM_cons] at h
    obtain ⟨last, hlast, h⟩ := Option.bind_eq_some_iff.mp h
    cases h
    have hr := ih hmid
    exact ⟨hr.square.reduceColumn hlast, hr.unit.reduceColumn hr.square hlast,
      fun x => (kills_reduceColumn hr.square hlast x).trans (hr.kills x),
      fun xs hxs => holds_reduceColumn hr.square hlast (hr.holds xs hxs)⟩

theorem exists_kills_of_foldlM (hm : Square m size rows) {n : Nat} (hn : n ≤ m)
    (h : (List.range n).foldlM reduceColumn rows = none) :
    ∃ x : List F, x.length = m ∧ (∃ c : Nat, x[c]? = some 1) ∧ Kills x rows := by
  induction n with
  | zero => cases h
  | succ n ih =>
    rw [List.range_succ, List.foldlM_append] at h
    cases hmid : (List.range n).foldlM reduceColumn rows with
    | none => exact ih (by omega) hmid
    | some mid =>
      rw [hmid] at h
      have hnone : reduceColumn mid n = none := by
        cases hlast : reduceColumn mid n with
        | none => rfl
        | some last => simp [hlast] at h
      have hr := reduces_of_foldlM hm hmid
      obtain ⟨x, hx, hone, hkills⟩ := exists_kills hr.unit hr.square (by omega) hnone
      exact ⟨x, hx, ⟨n, hone⟩, (hr.kills x).mp hkills⟩

omit [CharP F 2] [DecidableEq F] in
theorem dot_unit {row : Row F} {r : Nat} (hrow : row.coeffs.length = m)
    (hunit : ∀ c < m, row.coeff c = if r = c then 1 else 0) (hr : r < m) {x : List F}
    (hx : x.length = m) : dot row.coeffs x = x.getD r 0 := by
  rw [dot_eq_sum hrow hx, Finset.sum_eq_single ⟨r, hr⟩]
  · rw [show row.coeffs.getD r 0 = 1 from (hunit r hr).trans (if_pos rfl), one_mul]
  · intro c _ hc
    have hne : r ≠ c := fun heq => hc (Fin.ext heq.symm)
    rw [show row.coeffs.getD c 0 = 0 from (hunit c c.isLt).trans (if_neg hne), zero_mul]
  · simp

theorem square_of_reduce (hm : Square m size rows) (h : reduce rows = some rows') :
    Square m size rows' := (reduces_of_foldlM hm h).square

/-- **A solution of the rows is what elimination finds.** -/
theorem reduce_solution (hm : Square m size rows) (h : reduce rows = some rows') {xs : Nat → List F}
    (hlen : ∀ t, (xs t).length = m) (hxs : ∀ row ∈ rows, row.Holds xs) {r : Nat} {row : Row F}
    (hrow : rows'[r]? = some row) {t : Nat} {v : F} (hv : row.rhs[t]? = some v) :
    (xs t).getD r 0 = v := by
  rw [reduce, hm.length] at h
  have hr := reduces_of_foldlM hm h
  have hmem := List.mem_of_getElem? hrow
  have hlt : r < m := hr.square.length ▸ (List.getElem?_eq_some_iff.mp hrow).1
  rw [← dot_unit (hr.square.coeffs row hmem) (hr.unit r row hrow) hlt (hlen t)]
  exact hr.holds xs hxs row hmem t v hv

def coeffMatrix (m : Nat) (rows : List (Row F)) : Matrix (Fin m) (Fin m) F :=
  fun r c => (rows[r.1]?.map fun row => row.coeff c).getD 0

omit [CharP F 2] [DecidableEq F] in
theorem kills_iff_mulVec (hm : Square m size rows) {x : List F} (hx : x.length = m) :
    Kills x rows ↔ (coeffMatrix m rows).mulVec (fun c => x.getD c 0) = 0 := by
  have hrow : ∀ (r : Fin m) row, rows[r.1]? = some row →
      (coeffMatrix m rows).mulVec (fun c => x.getD c 0) r = dot row.coeffs x := by
    intro r row hr
    rw [dot_eq_sum (hm.coeffs row (List.mem_of_getElem? hr)) hx, Matrix.mulVec, dotProduct]
    simp only [coeffMatrix, hr, Option.map_some, Option.getD_some]
    rfl
  constructor
  · intro hkills
    funext r
    have hr : rows[r.1]? = some (rows.get ⟨r.1, hm.length ▸ r.isLt⟩) := by simp [hm.length]
    rw [hrow r _ hr, hkills _ (List.get_mem ..)]
    rfl
  · intro hzero row hmem
    obtain ⟨r, hr⟩ := List.mem_iff_getElem?.mp hmem
    have hlt : r < m := hm.length ▸ (List.getElem?_eq_some_iff.mp hr).1
    rw [← hrow ⟨r, hlt⟩ row hr, hzero]
    rfl

/-- **Elimination finds all its pivots exactly when the coefficients are not singular.** -/
theorem reduce_isSome_iff (hm : Square m size rows) :
    (reduce rows).isSome = true ↔ (coeffMatrix m rows).det ≠ 0 := by
  rw [reduce, hm.length]
  constructor
  · intro hsome hdet
    obtain ⟨rows', h⟩ := Option.isSome_iff_exists.mp hsome
    have hr := reduces_of_foldlM hm h
    obtain ⟨v, hv, hzero⟩ := Matrix.exists_mulVec_eq_zero_iff.mpr hdet
    have hx : (List.ofFn v).length = m := List.length_ofFn
    have hget : (fun c : Fin m => (List.ofFn v).getD c 0) = v := by
      funext c
      simp
    have hkills := (hr.kills (List.ofFn v)).mpr
      ((kills_iff_mulVec hm hx).mpr (by rw [hget, hzero]))
    refine hv (funext fun c => ?_)
    have hc : rows'[c.1]? = some (rows'.get ⟨c.1, hr.square.length ▸ c.isLt⟩) := by
      simp [hr.square.length]
    have hmem := List.mem_of_getElem? hc
    have hdot := hkills _ hmem
    rw [dot_unit (hr.square.coeffs _ hmem) (hr.unit c _ hc) c.isLt hx] at hdot
    simpa using hdot
  · intro hdet
    cases h : (List.range m).foldlM reduceColumn rows with
    | some rows' => rfl
    | none =>
      obtain ⟨x, hx, ⟨c, hc⟩, hkills⟩ := exists_kills_of_foldlM hm le_rfl h
      refine absurd (Matrix.exists_mulVec_eq_zero_iff.mp ⟨fun c : Fin m => x.getD c 0, ?_, ?_⟩) hdet
      · intro hzero
        have hlt : c < m := hx ▸ (List.getElem?_eq_some_iff.mp hc).1
        have := congrFun hzero ⟨c, hlt⟩
        simp [hc] at this
      · exact (kills_iff_mulVec hm hx).mp hkills

end Elimination

end FrankenFs.Lib

import FrankenFs.Zfs.Raidz
import Mathlib.Data.List.Nodup

/-!
# A map tiles its allocation

Seen from the first sector of an allocation, a column holds every `width`-th one, so a map is right
when each column is as long as there are such sectors.
-/

open FrankenFs.Lib

namespace FrankenFs.Zfs

/-! ## Columns -/

def Covers (columns : List RaidzColumn) (child y : Nat) : Prop :=
  ∃ col ∈ columns, col.childId = child ∧ col.offset ≤ y ∧ y < col.offset + col.allocatedBytes

def Stream : Nat → List (Nat × Nat) → Nat → Prop
  | lo, [], hi => lo = hi
  | lo, piece :: rest, hi => piece.1 = lo ∧ 0 < piece.2 ∧ Stream (lo + piece.2) rest hi

def dataPieces (columns : List RaidzColumn) : List (Nat × Nat) :=
  columns.filterMap fun col => col.dataOffset.map fun o => (o, col.bytes)

structure Tiled (dvaOffset sector width allocatedBytes alignedBytes : Nat)
    (columns : List RaidzColumn) : Prop where
  distinct : (columns.map RaidzColumn.childId).Nodup
  children : ∀ col ∈ columns, col.childId < width
  covers : ∀ child y, child < width → (Covers columns child y ↔
    dvaOffset ≤ (y / sector * width + child) * sector ∧
      (y / sector * width + child) * sector < dvaOffset + allocatedBytes)
  stream : Stream 0 (dataPieces columns) alignedBytes

structure Holds (l : Layout) (total : Nat) : Prop where
  sector_pos : 0 < l.sector
  first_lt : l.first < l.width
  count_le : l.columnCount ≤ l.width
  lt : ∀ i < l.columnCount, l.physicalColumn i < l.columnCount
  inj : ∀ i < l.columnCount, ∀ j < l.columnCount, l.physicalColumn i = l.physicalColumn j → i = j
  surj : ∀ c < l.columnCount, ∃ i < l.columnCount, l.physicalColumn i = c
  size : ∀ i < l.columnCount, ∃ n, l.bytes i + l.padding i = n * l.sector ∧
    ∀ k, k < n ↔ l.physicalColumn i + k * l.width < total
  full : total ≤ l.columnCount ∨ l.columnCount = l.width

namespace Layout

variable {l : Layout} {total : Nat}

theorem map_columnsFrom {α : Type} (f : RaidzColumn → α)
    (hf : ∀ i o o', f (l.column i o) = f (l.column i o')) (n ordinal dataOffset : Nat) :
    (l.columnsFrom n ordinal dataOffset).map f =
      (List.range' ordinal n).map fun i => f (l.column i 0) := by
  induction n generalizing ordinal dataOffset with
  | zero => rfl
  | succ n ih =>
    rw [columnsFrom, List.map_cons, ih, List.range'_succ, List.map_cons, hf ordinal dataOffset 0]

theorem mem_columns {P : RaidzColumn → Prop} (hP : ∀ i o o', P (l.column i o) ↔ P (l.column i o')) :
    (∃ col ∈ l.columns, P col) ↔ ∃ i < l.columnCount, P (l.column i 0) := by
  have hmap := map_columnsFrom (l := l) P (fun i o o' => propext (hP i o o')) l.columnCount 0 0
  constructor
  · rintro ⟨col, hcol, hcolP⟩
    have hmem : True ∈ l.columns.map P := List.mem_map.mpr ⟨col, hcol, eq_true hcolP⟩
    rw [columns, hmap] at hmem
    obtain ⟨i, hi, htrue⟩ := List.mem_map.mp hmem
    exact ⟨i, by simpa using hi, of_eq_true htrue⟩
  · rintro ⟨i, hi, hiP⟩
    have hmem : True ∈ (List.range' 0 l.columnCount).map fun i => P (l.column i 0) :=
      List.mem_map.mpr ⟨i, by simpa using hi, eq_true hiP⟩
    rw [← hmap] at hmem
    obtain ⟨col, hcol, htrue⟩ := List.mem_map.mp hmem
    exact ⟨col, hcol, of_eq_true htrue⟩

/-! ## Sectors -/

theorem child_inj {width first c c' : Nat} (hfirst : first < width) (hc : c < width)
    (hc' : c' < width) (h : (first + c) % width = (first + c') % width) : c = c' := by
  have hmod : ∀ x, x < width → (first + x) % width = if first + x < width then first + x
      else first + x - width := by
    intro x hx
    split_ifs with hlt
    · exact Nat.mod_eq_of_lt hlt
    · rw [Nat.mod_eq_sub_mod (by omega), Nat.mod_eq_of_lt (by omega)]
  rw [hmod c hc, hmod c' hc'] at h
  split_ifs at h <;> omega

theorem distinct_children (hl : Holds l total) : (l.columns.map RaidzColumn.childId).Nodup := by
  rw [columns, map_columnsFrom RaidzColumn.childId fun _ _ _ => rfl]
  have hrange : (List.range' 0 l.columnCount).Nodup := List.nodup_range'
  refine hrange.map_on fun i hi j hj heq => ?_
  rw [List.mem_range'_1] at hi hj
  have hi := hl.lt i (by omega)
  have hj := hl.lt j (by omega)
  refine hl.inj i (by omega) j (by omega) ?_
  exact child_inj hl.first_lt (hi.trans_le hl.count_le) (hj.trans_le hl.count_le) heq

theorem covers_column (hpos : 0 < l.sector) {row n : Nat} (hrow : l.rowStart = row * l.sector)
    {i y : Nat} (hn : l.bytes i + l.padding i = n * l.sector) :
    ((l.column i 0).offset ≤ y ∧ y < (l.column i 0).offset + (l.column i 0).allocatedBytes) ↔
      ∃ k < n, y / l.sector = row + (l.first + l.physicalColumn i) / l.width + k := by
  have hoffset : (l.column i 0).offset =
      (row + (l.first + l.physicalColumn i) / l.width) * l.sector := by
    rw [Nat.add_mul, ← hrow]
    rfl
  have halloc : (l.column i 0).allocatedBytes = n * l.sector := hn
  rw [hoffset, halloc, ← Nat.add_mul, ← Nat.le_div_iff_mul_le hpos, ← Nat.div_lt_iff_lt_mul hpos]
  constructor
  · intro h
    exact ⟨y / l.sector - (row + (l.first + l.physicalColumn i) / l.width), by omega, by omega⟩
  · rintro ⟨k, hk, hy⟩
    omega

theorem covers_iff (hl : Holds l total) {row : Nat} (hrow : l.rowStart = row * l.sector)
    {child y : Nat} (hchild : child < l.width) :
    Covers l.columns child y ↔
      row * l.width + l.first ≤ y / l.sector * l.width + child ∧
        y / l.sector * l.width + child < row * l.width + l.first + total := by
  have hwidth : 0 < l.width := by have := hl.first_lt; omega
  unfold Covers
  rw [mem_columns fun i o o' => Iff.rfl]
  constructor
  · rintro ⟨i, hi, hid, hrange⟩
    obtain ⟨n, hn, hsize⟩ := hl.size i hi
    obtain ⟨k, hk, hy⟩ := (covers_column hl.sector_pos hrow hn).mp hrange
    have hk := (hsize k).mp hk
    have hposition := Nat.div_add_mod' (l.first + l.physicalColumn i) l.width
    have hid : (l.first + l.physicalColumn i) % l.width = child := hid
    rw [hid] at hposition
    rw [hy, Nat.add_mul, Nat.add_mul]
    omega
  · rintro ⟨hge, hlt⟩
    -- the sector, counted from the first one of the allocation
    obtain ⟨r, hr⟩ := Nat.exists_eq_add_of_le hge
    have hsplit := Nat.div_add_mod' r l.width
    have hcolumn : r % l.width < l.columnCount := by
      rcases hl.full with hfull | hfull
      · exact (Nat.mod_le r l.width).trans_lt (by omega)
      · rw [hfull]
        exact Nat.mod_lt r hwidth
    obtain ⟨i, hi, hphysical⟩ := hl.surj _ hcolumn
    obtain ⟨n, hn, hsize⟩ := hl.size i hi
    have hsector : y / l.sector * l.width + child =
        (l.first + l.physicalColumn i) + (row + r / l.width) * l.width := by
      rw [hphysical, Nat.add_mul]
      omega
    refine ⟨i, hi, ?_, (covers_column hl.sector_pos hrow hn).mpr ⟨r / l.width, ?_, ?_⟩⟩
    · have hmod := congrArg (· % l.width) hsector
      simp only [Nat.add_mul_mod_self_right] at hmod
      rw [Nat.add_comm, Nat.add_mul_mod_self_right, Nat.mod_eq_of_lt hchild] at hmod
      exact hmod.symm
    · rw [hsize, hphysical]
      omega
    · have hdiv := congrArg (· / l.width) hsector
      simp only [Nat.add_mul_div_right _ _ hwidth] at hdiv
      rw [Nat.add_comm, Nat.add_mul_div_right _ _ hwidth, Nat.div_eq_of_lt hchild] at hdiv
      omega

/-! ## The stream -/

def streamEnd (l : Layout) : (n ordinal dataOffset : Nat) → Nat
  | 0, _, dataOffset => dataOffset
  | n + 1, ordinal, dataOffset => streamEnd l n (ordinal + 1) (l.advance ordinal dataOffset)

theorem streamEnd_succ (n ordinal dataOffset : Nat) :
    streamEnd l (n + 1) ordinal dataOffset =
      l.advance (ordinal + n) (streamEnd l n ordinal dataOffset) := by
  induction n generalizing ordinal dataOffset with
  | zero => rfl
  | succ n ih =>
    rw [streamEnd, ih, streamEnd, Nat.add_right_comm, Nat.add_assoc]

theorem stream_columnsFrom (n ordinal dataOffset : Nat) :
    Stream dataOffset (dataPieces (l.columnsFrom n ordinal dataOffset))
      (streamEnd l n ordinal dataOffset) := by
  induction n generalizing ordinal dataOffset with
  | zero => rfl
  | succ n ih =>
    have ih := ih (ordinal + 1) (l.advance ordinal dataOffset)
    unfold dataPieces at ih ⊢
    unfold columnsFrom streamEnd
    rw [List.filterMap_cons]
    unfold column
    unfold advance at ih ⊢
    by_cases hdata : l.hasData ordinal = true
    · simp only [hdata, if_true, Option.map_some] at ih ⊢
      refine ⟨rfl, ?_, ih⟩
      rw [hasData, Bool.and_eq_true, decide_eq_true_eq, decide_eq_true_eq] at hdata
      exact Nat.pos_of_ne_zero hdata.2
    · simp only [hdata] at ih ⊢
      exact ih

theorem streamEnd_rows {short long : Nat}
    (hbytes : ∀ i < l.columnCount, l.bytes i = (short + if i < long then 1 else 0) * l.sector)
    {n : Nat} (hn : n ≤ l.columnCount) :
    streamEnd l n 0 0 = (short * (n - l.parity) + (min n long - l.parity)) * l.sector := by
  induction n with
  | zero => simp [streamEnd]
  | succ n ih =>
    rw [streamEnd_succ, Nat.zero_add, ih (by omega)]
    have hcolumn := hbytes n (by omega)
    unfold advance hasData
    by_cases hparity : l.parity ≤ n
    · have hstep : (short * (n + 1 - l.parity) + (min (n + 1) long - l.parity)) * l.sector =
          (short * (n - l.parity) + (min n long - l.parity)) * l.sector + l.bytes n := by
        rw [hcolumn, ← Nat.add_mul, Nat.succ_sub hparity, Nat.mul_succ]
        congr 1
        split_ifs <;> omega
      by_cases hzero : l.bytes n = 0
      · simp [hparity, hzero, hstep]
      · simp [hparity, hzero, hstep]
    · have hsame : (short * (n + 1 - l.parity) + (min (n + 1) long - l.parity)) =
          short * (n - l.parity) + (min n long - l.parity) := by
        rw [show n + 1 - l.parity = 0 by omega, show n - l.parity = 0 by omega]
        omega
      simp [hparity, hsame]

theorem lt_rows_iff {width long c : Nat} (short k skip : Nat) (padded : Prop) [Decidable padded]
    (hor : c < long ∨ padded ↔ c < long + skip) (hand : c < long ∧ padded ↔ c + width < long + skip)
    (hc : c < width) (hlong : long < width) (hskip : skip ≤ width) :
    k < (short + if c < long then 1 else 0) + (if padded then 1 else 0) ↔
      c + k * width < short * width + long + skip := by
  rcases Nat.lt_trichotomy k short with hk | rfl | hk
  · have := Nat.mul_le_mul_right width hk
    rw [Nat.succ_mul] at this
    constructor
    · intro
      omega
    · intro
      omega
  · by_cases hlong : c < long <;> by_cases hpad : padded <;> simp [hlong, hpad] at hor ⊢ <;> omega
  · rcases Nat.eq_or_lt_of_le hk with rfl | hk
    · rw [Nat.succ_mul]
      by_cases hlong : c < long <;> by_cases hpad : padded <;> simp [hlong, hpad] at hand ⊢ <;> omega
    · have := Nat.mul_le_mul_right width hk
      rw [Nat.succ_mul, Nat.succ_mul] at this
      constructor
      · intro
        split_ifs at * <;> omega
      · intro
        omega

theorem tiled (hl : Holds l total) {row dvaOffset alignedBytes : Nat}
    (hrow : l.rowStart = row * l.sector)
    (hoffset : dvaOffset = (row * l.width + l.first) * l.sector)
    (hend : streamEnd l l.columnCount 0 0 = alignedBytes) :
    Tiled dvaOffset l.sector l.width (total * l.sector) alignedBytes l.columns where
  distinct := distinct_children hl
  children := by
    intro col hcol
    have hwidth : 0 < l.width := by have := hl.first_lt; omega
    have hmem := List.mem_map_of_mem (f := RaidzColumn.childId) hcol
    rw [columns, map_columnsFrom RaidzColumn.childId fun _ _ _ => rfl] at hmem
    obtain ⟨i, -, hi⟩ := List.mem_map.mp hmem
    rw [← hi]
    exact Nat.mod_lt _ hwidth
  covers := by
    intro child y hchild
    rw [covers_iff hl hrow hchild, hoffset, ← Nat.add_mul, Nat.mul_le_mul_right_iff hl.sector_pos,
      Nat.mul_lt_mul_right hl.sector_pos]
  stream := hend ▸ stream_columnsFrom l.columnCount 0 0

end Layout

theorem Tiled.disjoint {sector width : Nat} {o a g o' a' g' : Nat} {columns columns' : List RaidzColumn}
    (h : Tiled o sector width a g columns) (h' : Tiled o' sector width a' g' columns')
    (hranges : o + a ≤ o' ∨ o' + a' ≤ o) (child y : Nat) :
    ¬ (Covers columns child y ∧ Covers columns' child y) := by
  rintro ⟨hcovers, hcovers'⟩
  have hchild : child < width := by
    obtain ⟨col, hcol, rfl, -⟩ := hcovers
    exact h.children col hcol
  have hrange := (h.covers child y hchild).mp hcovers
  have hrange' := (h'.covers child y hchild).mp hcovers'
  omega

/-! ## Sizes -/

theorem nextMultipleOf_bounds (n : Nat) {k : Nat} (hk : 0 < k) :
    n ≤ nextMultipleOf n k ∧ nextMultipleOf n k < n + k := by
  unfold nextMultipleOf divCeil
  have hsplit := Nat.div_add_mod' (n + k - 1) k
  have hlt := Nat.mod_lt (n + k - 1) hk
  omega

theorem occupied_eq (parity m dataSectors : Nat) :
    dataSectors + parity * (dataSectors / m + if dataSectors % m ≠ 0 then 1 else 0) =
      dataSectors / m * (m + parity) +
        if dataSectors % m = 0 then 0 else dataSectors % m + parity := by
  have hsplit := Nat.div_add_mod' dataSectors m
  have hcomm := Nat.mul_comm parity (dataSectors / m)
  rw [Nat.mul_add, Nat.mul_add]
  by_cases hzero : dataSectors % m = 0
  · rw [if_neg (not_not.mpr hzero), if_pos hzero]
    omega
  · rw [if_pos hzero, if_neg hzero]
    omega

/-! ## RAIDZ2 and RAIDZ3 -/

namespace Parity

variable {width parity dataSectors : Nat}

section Arithmetic

variable (hwidth : parity + 1 ≤ width) (hdata : 0 < dataSectors)

include hwidth in
theorem longColumns_lt (dataSectors : Nat) : longColumns width parity dataSectors < width := by
  unfold longColumns
  have hlt := Nat.mod_lt dataSectors (show 0 < width - parity by omega)
  split_ifs <;> omega

include hwidth in
theorem occupiedSectors_eq (dataSectors : Nat) : occupiedSectors width parity dataSectors =
    shortRows width parity dataSectors * width + longColumns width parity dataSectors := by
  have h := occupied_eq parity (width - parity) dataSectors
  rw [Nat.sub_add_cancel (by omega)] at h
  exact h

include hdata in
theorem longColumns_of_short (hshort : shortRows width parity dataSectors = 0) :
    longColumns width parity dataSectors = dataSectors + parity := by
  unfold longColumns shortRows at *
  have hsplit := Nat.div_add_mod' dataSectors (width - parity)
  rw [hshort, Nat.zero_mul, Nat.zero_add] at hsplit
  rw [hsplit, if_neg (by omega)]

include hwidth in
theorem columnCount_cases (dataSectors : Nat) :
    longColumns width parity dataSectors ≤ columnCount width parity dataSectors ∧
      columnCount width parity dataSectors ≤ width ∧
      (columnCount width parity dataSectors = width ∨
        shortRows width parity dataSectors = 0 ∧
          allocatedSectors width parity dataSectors = columnCount width parity dataSectors) := by
  have hlong := longColumns_lt hwidth dataSectors
  unfold columnCount
  by_cases hshort : shortRows width parity dataSectors = 0
  · have hactive : activeColumns width parity dataSectors = longColumns width parity dataSectors :=
      if_pos hshort
    have hallocated : allocatedSectors width parity dataSectors =
        nextMultipleOf (longColumns width parity dataSectors) (parity + 1) := by
      unfold allocatedSectors
      rw [occupiedSectors_eq hwidth, hshort, Nat.zero_mul, Nat.zero_add]
    have hbounds := nextMultipleOf_bounds (longColumns width parity dataSectors) (k := parity + 1) (by omega)
    rw [if_pos hshort, hactive, hallocated]
    refine ⟨by omega, Nat.min_le_right _ _, ?_⟩
    rcases Nat.le_total (nextMultipleOf (longColumns width parity dataSectors) (parity + 1)) width with
      hle | hle
    · exact Or.inr ⟨hshort, (Nat.min_eq_left hle).symm⟩
    · exact Or.inl (Nat.min_eq_right hle)
  · rw [if_neg hshort]
    exact ⟨hlong.le, Nat.le_refl _, Or.inl rfl⟩

include hwidth in
theorem skipDistance_eq {i : Nat} (hi : i < columnCount width parity dataSectors) :
    skipDistance width parity dataSectors i =
      if longColumns width parity dataSectors ≤ i then i - longColumns width parity dataSectors
      else i + columnCount width parity dataSectors - longColumns width parity dataSectors := by
  have hlong := (columnCount_cases hwidth dataSectors).1
  unfold skipDistance
  split_ifs with hle
  · rw [Nat.add_comm, Nat.add_sub_assoc hle, Nat.add_mod_left, Nat.mod_eq_of_lt (by omega)]
  · exact Nat.mod_eq_of_lt (by omega)

include hwidth in
theorem lt_rows {i : Nat} (hi : i < columnCount width parity dataSectors) (k : Nat) :
    k < (shortRows width parity dataSectors +
          if i < longColumns width parity dataSectors then 1 else 0) +
        (if skipDistance width parity dataSectors i < allocatedSectors width parity dataSectors -
          occupiedSectors width parity dataSectors then 1 else 0) ↔
      i + k * width < allocatedSectors width parity dataSectors := by
  obtain ⟨hlong, hcount, hcases⟩ := columnCount_cases hwidth dataSectors
  have hbounds := nextMultipleOf_bounds (occupiedSectors width parity dataSectors)
    (k := parity + 1) (by omega)
  have hlong' := longColumns_lt hwidth dataSectors
  have hoccupied := occupiedSectors_eq hwidth dataSectors
  have hdistance := skipDistance_eq hwidth hi
  have hallocated : allocatedSectors width parity dataSectors =
      nextMultipleOf (occupiedSectors width parity dataSectors) (parity + 1) := rfl
  have hrows := Layout.lt_rows_iff (shortRows width parity dataSectors) k (c := i)
    (allocatedSectors width parity dataSectors - occupiedSectors width parity dataSectors)
    (skipDistance width parity dataSectors i < allocatedSectors width parity dataSectors -
      occupiedSectors width parity dataSectors) ?_ ?_ (hi.trans_le hcount) hlong' ?_
  · rw [hrows]
    omega
  · rw [hdistance]
    split_ifs with hle <;> omega
  · rw [hdistance]
    rcases hcases with hfull | ⟨hshort, hfull⟩
    · split_ifs with hle <;> omega
    · rw [hshort, Nat.zero_mul] at hoccupied
      split_ifs with hle <;> omega
  · omega

theorem bytes_eq {i : Nat} (sector : Nat) (hi : i < width) :
    (if i < activeColumns width parity dataSectors then
      (shortRows width parity dataSectors +
        if i < longColumns width parity dataSectors then 1 else 0) * sector
      else 0) =
      (shortRows width parity dataSectors +
        if i < longColumns width parity dataSectors then 1 else 0) * sector := by
  unfold activeColumns
  by_cases hshort : shortRows width parity dataSectors = 0
  · rw [if_pos hshort, hshort]
    split_ifs with hlong
    · rfl
    · simp
  · rw [if_neg hshort, if_pos hi]

include hwidth hdata in
theorem stream_sectors :
    shortRows width parity dataSectors * (columnCount width parity dataSectors - parity) +
      (min (columnCount width parity dataSectors) (longColumns width parity dataSectors) - parity) =
      dataSectors := by
  obtain ⟨hlong, -, -⟩ := columnCount_cases hwidth dataSectors
  rw [Nat.min_eq_right hlong]
  by_cases hshort : shortRows width parity dataSectors = 0
  · rw [longColumns_of_short hdata hshort, hshort, Nat.zero_mul, Nat.zero_add, Nat.add_sub_cancel]
  · have hsplit := Nat.div_add_mod' dataSectors (width - parity)
    have hcount : columnCount width parity dataSectors = width := if_neg hshort
    rw [hcount]
    unfold longColumns shortRows
    split_ifs <;> omega

end Arithmetic

theorem layout_holds (hwidth : parity + 1 ≤ width) {sector : Nat} (hsector : 0 < sector)
    (dvaOffset : Nat) : Holds (layout dvaOffset sector width parity dataSectors)
      (allocatedSectors width parity dataSectors) where
  sector_pos := hsector
  first_lt := Nat.mod_lt _ (by omega)
  count_le := (columnCount_cases hwidth dataSectors).2.1
  lt := fun _ hi => hi
  inj := fun _ _ _ _ h => h
  surj := fun c hc => ⟨c, hc, rfl⟩
  size := by
    intro i hi
    have hwide := hi.trans_le (columnCount_cases hwidth dataSectors).2.1
    refine ⟨_, ?_, lt_rows hwidth hi⟩
    rw [Nat.add_mul, ite_mul, Nat.one_mul, Nat.zero_mul]
    exact congrArg (· + _) (bytes_eq sector hwide)
  full := (columnCount_cases hwidth dataSectors).2.2.symm.imp (fun h => h.2.le) id

theorem layout_streamEnd (hwidth : parity + 1 ≤ width) (hdata : 0 < dataSectors)
    (dvaOffset sector : Nat) :
    Layout.streamEnd (layout dvaOffset sector width parity dataSectors)
      (columnCount width parity dataSectors) 0 0 = dataSectors * sector := by
  have hend := Layout.streamEnd_rows (l := layout dvaOffset sector width parity dataSectors)
    (fun i hi => bytes_eq sector (hi.trans_le (columnCount_cases hwidth dataSectors).2.1))
    (Nat.le_refl _)
  exact hend.trans (congrArg (· * sector) (stream_sectors hwidth hdata))

end Parity

/-! ## RAIDZ1 -/

namespace Raidz1

section Arithmetic

variable {width dataSectors : Nat} (hwidth : 2 ≤ width) (hdata : 0 < dataSectors)

theorem longColumns_eq (width dataSectors : Nat) :
    longColumns width dataSectors = Parity.longColumns width 1 dataSectors := rfl

include hwidth in
theorem occupiedSectors_eq :
    occupiedSectors width dataSectors = Parity.occupiedSectors width 1 dataSectors := by
  unfold occupiedSectors Parity.occupiedSectors
  rw [divCeil_eq dataSectors (by omega), Nat.one_mul]
  rfl

include hwidth in
theorem allocatedSectors_eq :
    allocatedSectors width dataSectors = Parity.allocatedSectors width 1 dataSectors := by
  unfold allocatedSectors Parity.allocatedSectors
  rw [occupiedSectors_eq hwidth]

include hwidth hdata in
theorem usedColumns_eq : usedColumns width dataSectors = Parity.activeColumns width 1 dataSectors := by
  unfold usedColumns Parity.activeColumns
  by_cases hshort : Parity.shortRows width 1 dataSectors = 0
  · rw [if_pos hshort, Parity.longColumns_of_short hdata hshort]
    have := (Nat.div_eq_zero_iff_lt (by omega)).mp hshort
    omega
  · rw [if_neg hshort]
    have := Nat.div_ne_zero_iff.mp hshort
    omega

include hwidth hdata in
theorem columnCount_eq : columnCount width dataSectors = Parity.columnCount width 1 dataSectors := by
  unfold columnCount Parity.columnCount
  rw [usedColumns_eq hwidth hdata]
  unfold Parity.activeColumns
  split_ifs
  · rfl
  · exact Nat.min_eq_right (nextMultipleOf_bounds width (by omega)).1

include hwidth hdata in
theorem two_le_columnCount : 2 ≤ columnCount width dataSectors := by
  have hbounds := nextMultipleOf_bounds (usedColumns width dataSectors) (k := 2) (by omega)
  unfold columnCount usedColumns at *
  omega

theorem longColumns_ne_one (width dataSectors : Nat) : longColumns width dataSectors ≠ 1 := by
  unfold longColumns
  split_ifs <;> omega

include hwidth hdata in
theorem skipStart_iff {i c : Nat} {swapped : Bool} (hi : i < columnCount width dataSectors)
    (hc : c = if swapped = true ∧ i < 2 then 1 - i else i)
    (hodd : allocatedSectors width dataSectors ≠ occupiedSectors width dataSectors) :
    i = skipStart width dataSectors swapped % columnCount width dataSectors ↔
      Parity.skipDistance width 1 dataSectors c = 0 := by
  have htwo := two_le_columnCount hwidth hdata
  have hone := longColumns_ne_one width dataSectors
  have hlt : longColumns width dataSectors < columnCount width dataSectors := by
    obtain ⟨hle, -, hcases⟩ := Parity.columnCount_cases (show 1 + 1 ≤ width from hwidth) dataSectors
    have hwide := Parity.longColumns_lt (show 1 + 1 ≤ width from hwidth) dataSectors
    have hoccupied := Parity.occupiedSectors_eq (show 1 + 1 ≤ width from hwidth) dataSectors
    rw [allocatedSectors_eq hwidth, occupiedSectors_eq hwidth] at hodd
    rw [columnCount_eq hwidth hdata, longColumns_eq]
    rcases hcases with hfull | ⟨hshort, hfull⟩
    · omega
    · rw [hshort, Nat.zero_mul] at hoccupied
      omega
  have hcount : c < Parity.columnCount width 1 dataSectors := by
    rw [hc, ← columnCount_eq hwidth hdata]
    split_ifs <;> omega
  have hdistance := Parity.skipDistance_eq hwidth hcount
  rw [← columnCount_eq hwidth hdata, ← longColumns_eq] at hdistance
  have hstart : skipStart width dataSectors swapped % columnCount width dataSectors =
      skipStart width dataSectors swapped := by
    refine Nat.mod_eq_of_lt ?_
    unfold skipStart
    split_ifs <;> omega
  rw [hstart, hdistance, hc]
  unfold skipStart
  cases swapped with
  | false => simp; split_ifs <;> omega
  | true => simp; split_ifs <;> omega

end Arithmetic

section Layout

variable {width dataSectors sector : Nat} (hwidth : 2 ≤ width) (hdata : 0 < dataSectors)
variable (dvaOffset : Nat) (swapped : Bool)

theorem physicalColumn_eq (i : Nat) :
    (layout dvaOffset sector width dataSectors swapped).physicalColumn i =
      if swapped = true ∧ i < 2 then 1 - i else i := by
  simp [layout]

include hwidth hdata in
theorem layout_bytes {i : Nat} (hi : i < columnCount width dataSectors) :
    (layout dvaOffset sector width dataSectors swapped).bytes i =
      (Parity.shortRows width 1 dataSectors +
        if i < Parity.longColumns width 1 dataSectors then 1 else 0) * sector := by
  have hwide : i < width := hi.trans_le (Nat.min_le_right _ _)
  rw [← Parity.bytes_eq sector hwide, ← usedColumns_eq hwidth hdata]
  rfl

include hwidth hdata in
theorem layout_size {i : Nat} (hi : i < columnCount width dataSectors) :
    ∃ n, (layout dvaOffset sector width dataSectors swapped).bytes i +
        (layout dvaOffset sector width dataSectors swapped).padding i = n * sector ∧
      ∀ k, k < n ↔ (layout dvaOffset sector width dataSectors swapped).physicalColumn i + k * width <
        allocatedSectors width dataSectors := by
  have htwo := two_le_columnCount hwidth hdata
  have hone := longColumns_ne_one width dataSectors
  obtain ⟨c, hc⟩ : ∃ c, c = if swapped = true ∧ i < 2 then 1 - i else i := ⟨_, rfl⟩
  have hcount : c < Parity.columnCount width 1 dataSectors := by
    rw [hc, ← columnCount_eq hwidth hdata]
    split_ifs <;> omega
  have hrows := Parity.lt_rows hwidth hcount
  -- the exchanged columns are both long or both short
  have hlong : i < Parity.longColumns width 1 dataSectors ↔
      c < Parity.longColumns width 1 dataSectors := by
    rw [← longColumns_eq, hc]
    split_ifs <;> omega
  have hskip : (allocatedSectors width dataSectors ≠ occupiedSectors width dataSectors ∧
        i = skipStart width dataSectors swapped % columnCount width dataSectors) ↔
      Parity.skipDistance width 1 dataSectors c < Parity.allocatedSectors width 1 dataSectors -
        Parity.occupiedSectors width 1 dataSectors := by
    have hbounds := nextMultipleOf_bounds (Parity.occupiedSectors width 1 dataSectors) (k := 2)
      (by omega)
    have hallocated : Parity.allocatedSectors width 1 dataSectors =
      nextMultipleOf (Parity.occupiedSectors width 1 dataSectors) 2 := rfl
    by_cases hodd : allocatedSectors width dataSectors = occupiedSectors width dataSectors
    · rw [allocatedSectors_eq hwidth, occupiedSectors_eq hwidth] at hodd ⊢
      omega
    · have hstart := skipStart_iff hwidth hdata hi hc hodd
      rw [allocatedSectors_eq hwidth, occupiedSectors_eq hwidth] at hodd ⊢
      omega
  rw [physicalColumn_eq, ← hc, allocatedSectors_eq hwidth]
  refine ⟨_, ?_, hrows⟩
  simp only [layout_bytes hwidth hdata dvaOffset swapped hi, hlong, ← hskip]
  rw [Nat.add_mul (_ + _) (ite _ _ _) sector]
  congr 1
  rw [ite_mul, Nat.one_mul, Nat.zero_mul]
  rfl

include hwidth hdata in
theorem layout_holds (hsector : 0 < sector) :
    Holds (layout dvaOffset sector width dataSectors swapped)
      (allocatedSectors width dataSectors) where
  sector_pos := hsector
  first_lt := Nat.mod_lt _ (by omega)
  count_le := Nat.min_le_right _ _
  lt := by
    intro i hi
    have htwo := two_le_columnCount hwidth hdata
    rw [physicalColumn_eq]
    change i < columnCount width dataSectors at hi
    change _ < columnCount width dataSectors
    split_ifs <;> omega
  inj := by
    intro i _ j _ h
    rw [physicalColumn_eq, physicalColumn_eq] at h
    cases swapped with
    | false => simpa using h
    | true => simp only [true_and] at h; split_ifs at h <;> omega
  surj := by
    intro c hc
    have htwo := two_le_columnCount hwidth hdata
    change c < columnCount width dataSectors at hc
    refine ⟨if swapped = true ∧ c < 2 then 1 - c else c, ?_, ?_⟩
    · change _ < columnCount width dataSectors
      split_ifs <;> omega
    · rw [physicalColumn_eq]
      cases swapped with
      | false => simp
      | true => simp only [true_and]; split_ifs <;> omega
  size := fun _ hi => layout_size hwidth hdata dvaOffset swapped hi
  full := by
    rw [allocatedSectors_eq hwidth]
    change _ ≤ columnCount width dataSectors ∨ columnCount width dataSectors = width
    rw [columnCount_eq hwidth hdata]
    exact (Parity.columnCount_cases hwidth dataSectors).2.2.symm.imp (fun h => h.2.le) id

include hwidth hdata in
theorem layout_streamEnd :
    Layout.streamEnd (layout dvaOffset sector width dataSectors swapped)
      (columnCount width dataSectors) 0 0 = dataSectors * sector := by
  have hend := Layout.streamEnd_rows (l := layout dvaOffset sector width dataSectors swapped)
    (fun i hi => layout_bytes hwidth hdata dvaOffset swapped hi) (Nat.le_refl _)
  refine hend.trans (congrArg (· * sector) ?_)
  change _ * (columnCount width dataSectors - 1) + (min (columnCount width dataSectors) _ - 1) = _
  rw [columnCount_eq hwidth hdata]
  exact Parity.stream_sectors hwidth hdata

end Layout

end Raidz1

/-! ## Accepted maps -/

/-- An accepted map on a vdev: its parity, its offset and what it says about the allocation. -/
inductive Accepted (ashift width : Nat) :
    (parity dvaOffset allocatedBytes alignedBytes : Nat) → List RaidzColumn → Prop
  | raidz1 {dvaOffset physicalBytes : Nat} {map : Raidz1Map}
      (h : Raidz1Map.new dvaOffset physicalBytes ashift width = .ok map) :
      Accepted ashift width 1 dvaOffset map.allocatedBytes map.alignedBytes map.columns
  | parity {dvaOffset physicalBytes parity : Nat} {map : RaidzParityMap}
      (h : RaidzParityMap.new dvaOffset physicalBytes ashift width parity = .ok map) :
      Accepted ashift width parity dvaOffset map.allocatedBytes map.alignedBytes map.columns

theorem offset_eq {dvaOffset sector : Nat} (width : Nat) (h : dvaOffset % sector = 0) :
    dvaOffset =
      (dvaOffset / sector / width * width + dvaOffset / sector % width) * sector := by
  rw [Nat.div_add_mod', Nat.div_mul_cancel (Nat.dvd_of_mod_eq_zero h)]

theorem Accepted.tiled {ashift width parity dvaOffset allocatedBytes alignedBytes : Nat}
    {columns : List RaidzColumn}
    (h : Accepted ashift width parity dvaOffset allocatedBytes alignedBytes columns) :
    Tiled dvaOffset (2 ^ ashift) width allocatedBytes alignedBytes columns := by
  have hsector : 0 < 2 ^ ashift := Nat.two_pow_pos ashift
  cases h with
  | @raidz1 _ physicalBytes map h =>
    obtain ⟨_, hcheck, h⟩ := bind_ok.mp h
    obtain ⟨_, haligned, h⟩ := bind_ok.mp h
    obtain ⟨_, -, h⟩ := bind_ok.mp h
    have hcheck := failIf_ok.mp hcheck
    have haligned := failIf_ok.mp haligned
    injection h with h
    have hdata := divCeil_pos (n := physicalBytes) (by omega) hsector
    subst h
    exact Layout.tiled (Raidz1.layout_holds (by omega) hdata dvaOffset _ hsector) rfl
      (offset_eq width (by omega)) (Raidz1.layout_streamEnd (by omega) hdata dvaOffset _)
  | @parity _ physicalBytes _ map h =>
    obtain ⟨_, hcheck, h⟩ := bind_ok.mp h
    obtain ⟨_, haligned, h⟩ := bind_ok.mp h
    obtain ⟨_, -, h⟩ := bind_ok.mp h
    have hcheck := failIf_ok.mp hcheck
    have haligned := failIf_ok.mp haligned
    injection h with h
    have hdata := divCeil_pos (n := physicalBytes) (by omega) hsector
    subst h
    exact Layout.tiled (Parity.layout_holds (by omega) hsector dvaOffset) rfl
      (offset_eq width (by omega)) (Parity.layout_streamEnd (by omega) hdata dvaOffset _)

/-- **Every accepted map tiles its allocation**, and allocations of disjoint ranges on one vdev share
no byte of a child. -/
theorem raidz_maps_tile (ashift width : Nat) :
    (∀ parity dvaOffset allocatedBytes alignedBytes columns,
      Accepted ashift width parity dvaOffset allocatedBytes alignedBytes columns →
        Tiled dvaOffset (2 ^ ashift) width allocatedBytes alignedBytes columns) ∧
      ∀ parity o a g columns o' a' g' columns',
        Accepted ashift width parity o a g columns →
          Accepted ashift width parity o' a' g' columns' →
            (o + a ≤ o' ∨ o' + a' ≤ o) →
              ∀ child y, ¬ (Covers columns child y ∧ Covers columns' child y) :=
  ⟨fun _ _ _ _ _ h => h.tiled, fun _ _ _ _ _ _ _ _ _ h h' hranges =>
    h.tiled.disjoint h'.tiled hranges⟩

theorem raidz_maps_tile_sample :
    ∃ map next, Raidz1Map.new (2 ^ 20) 1536 9 3 = .ok map ∧
      Raidz1Map.new (2 ^ 20 + 3072) 512 9 3 = .ok next ∧
      Tiled (2 ^ 20) 512 3 map.allocatedBytes map.alignedBytes map.columns ∧
      ¬ (Covers map.columns 1 0 ∧ Covers next.columns 1 0) :=
  ⟨_, _, rfl, rfl, (raidz_maps_tile 9 3).1 1 (2 ^ 20) _ _ _ (@Accepted.raidz1 9 3 _ 1536 _ rfl),
    (raidz_maps_tile 9 3).2 1 (2 ^ 20) _ _ _ (2 ^ 20 + 3072) _ _ _
      (@Accepted.raidz1 9 3 _ 1536 _ rfl) (@Accepted.raidz1 9 3 _ 512 _ rfl)
      (Or.inl (by decide)) 1 0⟩

end FrankenFs.Zfs

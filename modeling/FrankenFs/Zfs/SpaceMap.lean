import FrankenFs.Lib.Spans
import FrankenFs.Lib.Wire
import Mathlib.Algebra.Group.Nat.Defs
import Mathlib.Order.CompletePartialOrder

/-!
# Replay of a space map

`AllocationMap` of `ffs-ondisk` keeps the allocated bytes of a region as a map of ranges. `apply` makes
one change after a look at the range on its left and the one on its right.
-/

open FrankenFs.Lib

namespace FrankenFs.Zfs

def SpaceMap.invalid (reason : String) : ParseError := .invalidField "zfs.space_map" reason

inductive MapType where
  | allocate
  | free
deriving DecidableEq, Repr

/-! ## Records -/

structure Extent where
  kind : MapType
  /-- Only a record of two words has one. -/
  vdev : Option Nat
  offsetUnits : Nat
  runUnits : Nat
deriving DecidableEq, Repr

/-- `1_u64.checked_shl(shift)`. -/
def checkedUnit (shift : Nat) : Option Nat := if shift < 64 then some (2 ^ shift) else none

def Extent.byteRange (e : Extent) (start size shift : Nat) : Except ParseError (Nat × Nat) := do
  let unit ← okOr (checkedUnit shift) (SpaceMap.invalid "space-map unit shift overflow")
  failIf (2 ^ 64 ≤ start + size) (SpaceMap.invalid "space-map region overflow")
  failIf (size = 0 ∨ ¬ unit ∣ start ∨ ¬ unit ∣ size)
    (SpaceMap.invalid "unaligned or empty space-map region")
  failIf (2 ^ 64 ≤ start + e.offsetUnits * unit) (SpaceMap.invalid "space-map entry offset overflow")
  failIf (2 ^ 64 ≤ e.runUnits * unit) (SpaceMap.invalid "space-map entry length overflow")
  let offset := start + e.offsetUnits * unit
  let run := e.runUnits * unit
  failIf (2 ^ 64 ≤ offset + run) (SpaceMap.invalid "space-map entry end overflow")
  failIf (run = 0 ∨ start + size ≤ offset ∨ start + size < offset + run)
    (SpaceMap.invalid "space-map entry exceeds its selected region")
  return (offset, offset + run)

/-! ## The map -/

structure AllocationMap where
  regionStart : Nat
  regionEnd : Nat
  unit : Nat
  allocated : Nat
  maxRanges : Nat
  ranges : OrdMap Nat Nat

namespace AllocationMap

def new (start size shift maxRanges : Nat) : Except ParseError AllocationMap := do
  let unit ← okOr (checkedUnit shift) (SpaceMap.invalid "allocation-map shift overflow")
  failIf (2 ^ 64 ≤ start + size) (SpaceMap.invalid "allocation-map region overflow")
  failIf (size = 0 ∨ ¬ unit ∣ start ∨ ¬ unit ∣ size ∨ ¬ (1 ≤ maxRanges ∧ maxRanges ≤ 1048576))
    (SpaceMap.invalid "invalid allocation-map geometry or range budget")
  return ⟨start, start + size, unit, 0, maxRanges, ∅⟩

/-- The ranges without `[start, stop)`, which is a part of `[a, b)`. -/
def cutRange (ranges : OrdMap Nat Nat) (a b start stop : Nat) : OrdMap Nat Nat :=
  let erased := ranges.erase a
  let low := if a < start then erased.insert a start else erased
  if stop < b then low.insert stop b else low

def applyFree (map : AllocationMap) (start stop : Nat) : Except ParseError Unit × AllocationMap :=
  match (map.ranges.lastUpTo start).filter fun r => r.1 ≤ start && stop ≤ r.2 with
  | none => (.error (SpaceMap.invalid "space-map free includes unallocated space"), map)
  | some r =>
    let newCount := map.ranges.entries.length - 1 + (if r.1 < start then 1 else 0) +
      (if stop < r.2 then 1 else 0)
    if map.maxRanges < newCount then
      (.error (SpaceMap.invalid "allocation-map range budget exceeded"), map)
    else
      (.ok (), { map with
        ranges := cutRange map.ranges r.1 r.2 start stop
        allocated := map.allocated - (stop - start) })

def joinRange (ranges : OrdMap Nat Nat) (left right : Option (Nat × Nat)) (start stop : Nat) :
    OrdMap Nat Nat :=
  let erased := left.elim ranges fun r => ranges.erase r.1
  let erased := right.elim erased fun r => erased.erase r.1
  erased.insert (left.elim start Prod.fst) (right.elim stop Prod.snd)

def applyAllocate (map : AllocationMap) (start stop : Nat) :
    Except ParseError Unit × AllocationMap :=
  let left := map.ranges.lastUpTo start
  let right := map.ranges.firstFrom start
  if (left.any fun r => start < r.2) || right.any fun r => r.1 < stop then
    (.error (SpaceMap.invalid "space-map allocation overlaps allocated space"), map)
  else
    let left := left.filter fun r => r.2 == start
    let right := right.filter fun r => r.1 == stop
    let newCount := map.ranges.entries.length + 1 - (if left.isSome then 1 else 0) -
      (if right.isSome then 1 else 0)
    if map.maxRanges < newCount then
      (.error (SpaceMap.invalid "allocation-map range budget exceeded"), map)
    else
      (.ok (), { map with
        ranges := joinRange map.ranges left right start stop
        allocated := map.allocated + (stop - start) })

def apply (map : AllocationMap) (kind : MapType) (start stop : Nat) :
    Except ParseError Unit × AllocationMap :=
  if stop ≤ start ∨ start < map.regionStart ∨ map.regionEnd < stop ∨ ¬ map.unit ∣ start ∨
      ¬ map.unit ∣ stop then
    (.error (SpaceMap.invalid "invalid allocation-map change range"), map)
  else
    match kind with
    | .free => map.applyFree start stop
    | .allocate => map.applyAllocate start stop

def allocatedBytes (map : AllocationMap) : Nat := map.allocated

def rangeCount (map : AllocationMap) : Nat := map.ranges.entries.length

def replay (map : AllocationMap) (changes : List (MapType × Nat × Nat)) : AllocationMap :=
  changes.foldl (fun map c => (map.apply c.1 c.2.1 c.2.2).2) map

end AllocationMap

/-! ## One change of the ranges -/

section Ranges

open AllocationMap

variable {ranges : OrdMap Nat Nat} {T : Set Nat} (h : Spans ranges T) {a b start stop : Nat}

include h

theorem get?_inside (hab : ranges.get? a = some b) (hlow : a < start) (hhigh : start ≤ b) :
    ranges.get? start = none := by
  cases hs : ranges.get? start with
  | none => rfl
  | some stop => exact absurd (h.apart hab hs hlow) (by omega)

theorem spans_cutRange (hab : ranges.get? a = some b) (hstart : a ≤ start) (hlt : start < stop)
    (hstop : stop ≤ b) : Spans (cutRange ranges a b start stop) (T \ Set.Ico start stop) := by
  have hinside := get?_inside h hab (show a < stop by omega) hstop
  refine h.remove hab hstart hlt hstop fun x y => ?_
  unfold cutRange
  split_ifs
  all_goals
    simp only [OrdMap.get?_insert, OrdMap.get?_erase]
    grind

theorem length_cutRange (hab : ranges.get? a = some b) (hstart : a ≤ start) (hlt : start < stop)
    (hstop : stop ≤ b) : (cutRange ranges a b start stop).entries.length =
      ranges.entries.length - 1 + (if a < start then 1 else 0) + (if stop < b then 1 else 0) := by
  have hinside := get?_inside h hab (show a < stop by omega) hstop
  have herase := OrdMap.length_erase hab
  unfold cutRange
  split_ifs with hlow hhigh hhigh
  · rw [OrdMap.length_insert b (by simp [hinside, show stop ≠ a by omega]),
      OrdMap.length_insert start (by simp)]
    omega
  · rw [OrdMap.length_insert start (by simp)]
    omega
  · rw [OrdMap.length_insert b (by simp [hinside])]
    omega
  · exact Nat.eq_sub_of_add_eq herase

theorem spans_joinRange {left right : Option (Nat × Nat)} (hlt : start < stop)
    (hfree : ∀ p, start ≤ p → p < stop → p ∉ T)
    (hleft : ∀ r ∈ left, ranges.get? r.1 = some start)
    (hleft' : left = none → ∀ x, ranges.get? x ≠ some start)
    (hright : ∀ r ∈ right, r.1 = stop ∧ ranges.get? stop = some r.2)
    (hright' : right = none → ranges.get? stop = none) :
    Spans (joinRange ranges left right start stop) (T ∪ Set.Ico start stop) ∧
      (joinRange ranges left right start stop).entries.length =
        ranges.entries.length + 1 - (if left.isSome then 1 else 0) -
          (if right.isSome then 1 else 0) := by
  have hhere : ranges.get? start = none := by
    cases hs : ranges.get? start with
    | none => rfl
    | some b => exact absurd (h.mem_iff.mpr ⟨start, b, hs, le_rfl, h.lt hs⟩) (hfree start le_rfl hlt)
  cases left with
  | none =>
    cases right with
    | none =>
      refine ⟨h.add hlt hfree (.inr ⟨rfl, hleft' rfl⟩) (.inr ⟨rfl, hright' rfl⟩) fun x y => ?_, ?_⟩
      · simp only [joinRange, Option.elim_none, OrdMap.get?_insert]
        grind
      · exact OrdMap.length_insert stop hhere
    | some r =>
      obtain ⟨hr, hget⟩ := hright r rfl
      refine ⟨h.add hlt hfree (.inr ⟨rfl, hleft' rfl⟩) (.inl hget) fun x y => ?_, ?_⟩
      · simp only [joinRange, Option.elim_none, Option.elim_some, OrdMap.get?_insert,
          OrdMap.get?_erase]
        grind
      · have hcount := OrdMap.length_erase hget
        simp only [joinRange, Option.elim_none, Option.elim_some, hr]
        rw [OrdMap.length_insert r.2 (by simp [hhere])]
        exact hcount
  | some l =>
    have hl := hleft l rfl
    have hlow := h.lt hl
    have hcount := OrdMap.length_erase hl
    cases right with
    | none =>
      refine ⟨h.add hlt hfree (.inl hl) (.inr ⟨rfl, hright' rfl⟩) fun x y => ?_, ?_⟩
      · simp only [joinRange, Option.elim_none, Option.elim_some, OrdMap.get?_insert,
          OrdMap.get?_erase]
        grind
      · simp only [joinRange, Option.elim_none, Option.elim_some]
        rw [OrdMap.length_insert stop (by simp)]
        exact hcount
    | some r =>
      obtain ⟨hr, hget⟩ := hright r rfl
      refine ⟨h.add hlt hfree (.inl hl) (.inl hget) fun x y => ?_, ?_⟩
      · simp only [joinRange, Option.elim_some, OrdMap.get?_insert, OrdMap.get?_erase]
        grind
      · have hget' : (ranges.erase l.1).get? stop = some r.2 := by
          rw [OrdMap.get?_erase, if_neg (by omega), hget]
        have hcount' := OrdMap.length_erase hget'
        simp only [joinRange, Option.elim_some, hr]
        rw [OrdMap.length_insert r.2 (by simp)]
        simp only [Option.isSome_some, if_true]
        omega

end Ranges

/-! ## One change of the map -/

namespace AllocationMap

variable {map : AllocationMap} {T : Set Nat} (h : Spans map.ranges T) {start stop : Nat}

include h

theorem applyFree_cases (hlt : start < stop) :
    (∃ ranges, map.applyFree start stop = (.ok (), { map with
        ranges := ranges, allocated := map.allocated - (stop - start) }) ∧
      Set.Ico start stop ⊆ T ∧ Spans ranges (T \ Set.Ico start stop) ∧
      ranges.entries.length ≤ map.maxRanges) ∨
    (∃ e, map.applyFree start stop = (.error e, map)) ∧
      ¬ (Set.Ico start stop ⊆ T ∧ Lib.rangeCount (T \ Set.Ico start stop) ≤ map.maxRanges) := by
  obtain ⟨hsome, -⟩ := map.ranges.lastUpTo_spec start
  unfold applyFree
  cases hleft : (map.ranges.lastUpTo start).filter fun r => r.1 ≤ start && stop ≤ r.2 with
  | none =>
    refine .inr ⟨⟨_, rfl⟩, fun hin => ?_⟩
    obtain ⟨a, b, hab, ha, hb⟩ := h.mem_iff.mp (hin.1 ⟨le_rfl, hlt⟩)
    have hstop := h.stop_le hab hb hin.1
    rw [h.lastUpTo_eq hab ha hb.le, Option.filter_some, if_pos (by simp [ha, hstop])] at hleft
    cases hleft
  | some r =>
    obtain ⟨hr, hcover⟩ := Option.filter_eq_some_iff.mp hleft
    obtain ⟨hget, -, -⟩ := hsome r.1 r.2 hr
    simp only [Bool.and_eq_true, decide_eq_true_iff] at hcover
    have hspans := spans_cutRange h hget hcover.1 hlt hcover.2
    have hcount := length_cutRange h hget hcover.1 hlt hcover.2
    dsimp only
    rw [← hcount]
    split_ifs with hbudget
    · refine .inr ⟨⟨_, rfl⟩, fun hin => ?_⟩
      rw [hspans.rangeCount_eq] at hin
      omega
    · refine .inl ⟨_, rfl, fun p hp => ?_, hspans, Nat.not_lt.mp hbudget⟩
      have hp' := Set.mem_Ico.mp hp
      exact h.mem_iff.mpr ⟨r.1, r.2, hget, by omega, by omega⟩

theorem allocate_free (hleft : ∀ r ∈ map.ranges.lastUpTo start, r.2 ≤ start)
    (hright : ∀ r ∈ map.ranges.firstFrom start, stop ≤ r.1) :
    ∀ p, start ≤ p → p < stop → p ∉ T := by
  intro p hp hp' hmem
  obtain ⟨a, b, hab, ha, hb⟩ := h.mem_iff.mp hmem
  by_cases hside : a ≤ start
  · have := hleft (a, b) (h.lastUpTo_eq hab hside (by omega))
    exact absurd this (by omega)
  · obtain ⟨hfirst, hfirst'⟩ := map.ranges.firstFrom_spec start
    cases hr : map.ranges.firstFrom start with
    | none => exact absurd (hfirst' hr a b hab) (by omega)
    | some r =>
      have := (hfirst r.1 r.2 hr).2.2 a b hab (by omega)
      have := hright r hr
      omega

theorem allocate_join (hlt : start < stop)
    (hleft : ∀ r ∈ map.ranges.lastUpTo start, r.2 ≤ start)
    (hright : ∀ r ∈ map.ranges.firstFrom start, stop ≤ r.1)
    {ranges : OrdMap Nat Nat} {left right : Option (Nat × Nat)}
    (hl : left = (map.ranges.lastUpTo start).filter fun r => r.2 == start)
    (hr : right = (map.ranges.firstFrom start).filter fun r => r.1 == stop)
    (hranges : ranges = joinRange map.ranges left right start stop) :
    Spans ranges (T ∪ Set.Ico start stop) ∧
      ranges.entries.length = map.ranges.entries.length + 1 - (if left.isSome then 1 else 0) -
        (if right.isSome then 1 else 0) := by
  obtain ⟨hlast, -⟩ := map.ranges.lastUpTo_spec start
  obtain ⟨hfirst, hfirst'⟩ := map.ranges.firstFrom_spec start
  rw [hranges]
  refine spans_joinRange h hlt (allocate_free h hleft hright) (fun r hmem => ?_)
    (fun hnone x hx => ?_) (fun r hmem => ?_) fun hnone => ?_
  · obtain ⟨hmem, heq⟩ := Option.filter_eq_some_iff.mp (hl.symm.trans hmem)
    rw [(hlast r.1 r.2 hmem).1, beq_iff_eq.mp heq]
  · rw [h.lastUpTo_eq hx (h.lt hx).le le_rfl, Option.filter_some, if_pos (beq_self_eq_true start)]
      at hl
    cases hnone.symm.trans hl
  · obtain ⟨hmem, heq⟩ := Option.filter_eq_some_iff.mp (hr.symm.trans hmem)
    have hstop := beq_iff_eq.mp heq
    exact ⟨hstop, hstop ▸ (hfirst r.1 r.2 hmem).1⟩
  · cases hget : map.ranges.get? stop with
    | none => rfl
    | some b =>
      cases hf : map.ranges.firstFrom start with
      | none => exact absurd (hfirst' hf stop b hget) (by omega)
      | some r =>
        have hle := (hfirst r.1 r.2 hf).2.2 stop b hget hlt.le
        have hstop : r.1 = stop := Nat.le_antisymm hle (hright r hf)
        rw [hf, Option.filter_some, if_pos (beq_iff_eq.mpr hstop)] at hr
        cases hnone.symm.trans hr

theorem applyAllocate_cases (hlt : start < stop) :
    (∃ ranges, map.applyAllocate start stop = (.ok (), { map with
        ranges := ranges, allocated := map.allocated + (stop - start) }) ∧
      Disjoint (Set.Ico start stop) T ∧ Spans ranges (T ∪ Set.Ico start stop) ∧
      ranges.entries.length ≤ map.maxRanges) ∨
    (∃ e, map.applyAllocate start stop = (.error e, map)) ∧
      ¬ (Disjoint (Set.Ico start stop) T ∧
        Lib.rangeCount (T ∪ Set.Ico start stop) ≤ map.maxRanges) := by
  obtain ⟨hlast, -⟩ := map.ranges.lastUpTo_spec start
  obtain ⟨hfirst, -⟩ := map.ranges.firstFrom_spec start
  unfold applyAllocate
  dsimp only
  by_cases hoverlap : ((map.ranges.lastUpTo start).any (fun r => start < r.2) ||
      (map.ranges.firstFrom start).any fun r => r.1 < stop) = true
  · rw [if_pos hoverlap]
    refine .inr ⟨⟨_, rfl⟩, fun hin => ?_⟩
    rw [Set.disjoint_left] at hin
    simp only [Bool.or_eq_true, Option.any_eq_true, decide_eq_true_iff] at hoverlap
    rcases hoverlap with ⟨r, hr, hbehind⟩ | ⟨r, hr, hbefore⟩
    · obtain ⟨hget, hle, -⟩ := hlast r.1 r.2 hr
      exact hin.1 ⟨le_rfl, hlt⟩ (h.mem_iff.mpr ⟨r.1, r.2, hget, hle, hbehind⟩)
    · obtain ⟨hget, hle, -⟩ := hfirst r.1 r.2 hr
      exact hin.1 ⟨hle, hbefore⟩ (h.mem_iff.mpr ⟨r.1, r.2, hget, le_rfl, h.lt hget⟩)
  · rw [if_neg hoverlap]
    have hsides : (∀ r ∈ map.ranges.lastUpTo start, r.2 ≤ start) ∧
        ∀ r ∈ map.ranges.firstFrom start, stop ≤ r.1 := by
      simp only [Bool.or_eq_true, Option.any_eq_true, decide_eq_true_iff, not_or, not_exists,
        not_and, Nat.not_lt] at hoverlap
      exact hoverlap
    have hfree := allocate_free h hsides.1 hsides.2
    obtain ⟨hspans, hcount⟩ := allocate_join h hlt hsides.1 hsides.2 rfl rfl rfl
    rw [← hcount]
    split_ifs with hbudget
    · refine .inr ⟨⟨_, rfl⟩, fun hin => ?_⟩
      rw [hspans.rangeCount_eq] at hin
      omega
    · exact .inl ⟨_, rfl, Set.disjoint_left.mpr fun p hp => hfree p hp.1 hp.2, hspans,
        Nat.not_lt.mp hbudget⟩

end AllocationMap

/-! ## Units -/

def bytesOf (unit : Nat) (U : Set Nat) : Set Nat := {p | p / unit ∈ U}

section Units

variable {unit start stop : Nat} {U V : Set Nat}

theorem bytesOf_Ico (hunit : 0 < unit) (hstart : unit ∣ start) (hstop : unit ∣ stop) :
    bytesOf unit (Set.Ico (start / unit) (stop / unit)) = Set.Ico start stop := by
  obtain ⟨i, rfl⟩ := hstart
  obtain ⟨j, rfl⟩ := hstop
  ext p
  rw [Nat.mul_div_cancel_left i hunit, Nat.mul_div_cancel_left j hunit, bytesOf, Set.mem_ofPred_eq,
    Set.mem_Ico, Set.mem_Ico, Nat.le_div_iff_mul_le hunit, Nat.div_lt_iff_lt_mul hunit,
    Nat.mul_comm i, Nat.mul_comm j]

theorem bytesOf_subset_iff (hunit : 0 < unit) : bytesOf unit U ⊆ bytesOf unit V ↔ U ⊆ V := by
  refine ⟨fun hsub u hu => ?_, fun hsub p hp => hsub hp⟩
  have hmem : u * unit ∈ bytesOf unit U := by
    rwa [bytesOf, Set.mem_ofPred_eq, Nat.mul_div_cancel u hunit]
  have hmem' := hsub hmem
  rwa [bytesOf, Set.mem_ofPred_eq, Nat.mul_div_cancel u hunit] at hmem'

theorem disjoint_bytesOf_iff (hunit : 0 < unit) :
    Disjoint (bytesOf unit U) (bytesOf unit V) ↔ Disjoint U V := by
  rw [Set.disjoint_iff, Set.disjoint_iff]
  exact bytesOf_subset_iff (U := U ∩ V) (V := ∅) hunit

theorem finite_bytesOf {limit : Nat} (h : bytesOf unit U ⊆ Set.Iio limit) :
    (bytesOf unit U).Finite :=
  (Set.finite_Iio limit).subset h

end Units

/-! ## The map holds a set of units -/

namespace AllocationMap

/-- The map holds the units of `U`: as ranges that are not empty and do not touch, with their
bytes counted and their number within the budget. -/
structure Holds (map : AllocationMap) (U : Set Nat) : Prop where
  spans : Spans map.ranges (bytesOf map.unit U)
  allocated : map.allocatedBytes = (bytesOf map.unit U).ncard
  budget : map.rangeCount ≤ map.maxRanges
  inside : bytesOf map.unit U ⊆ Set.Iio map.regionEnd

/-- A range of whole units inside the region. -/
structure ValidRange (map : AllocationMap) (start stop : Nat) : Prop where
  lt : start < stop
  regionStart : map.regionStart ≤ start
  regionEnd : stop ≤ map.regionEnd
  alignedStart : map.unit ∣ start
  alignedStop : map.unit ∣ stop

def unitsOf (map : AllocationMap) (start stop : Nat) : Set Nat :=
  Set.Ico (start / map.unit) (stop / map.unit)

def changed (map : AllocationMap) (U : Set Nat) (kind : MapType) (start stop : Nat) : Set Nat :=
  match kind with
  | .allocate => U ∪ map.unitsOf start stop
  | .free => U \ map.unitsOf start stop

def Agrees (map : AllocationMap) (U : Set Nat) (kind : MapType) (start stop : Nat) : Prop :=
  match kind with
  | .allocate => Disjoint (map.unitsOf start stop) U
  | .free => map.unitsOf start stop ⊆ U

structure Admits (map : AllocationMap) (U : Set Nat) (kind : MapType) (start stop : Nat) :
    Prop where
  valid : map.ValidRange start stop
  agrees : map.Agrees U kind start stop
  budget : Lib.rangeCount (bytesOf map.unit (map.changed U kind start stop)) ≤ map.maxRanges

variable {map : AllocationMap} {U : Set Nat} {start stop : Nat}

theorem apply_of_invalid (kind : MapType) (h : ¬ map.ValidRange start stop) :
    ∃ e, map.apply kind start stop = (.error e, map) := by
  refine ⟨_, if_pos ?_⟩
  by_contra hcon
  push Not at hcon
  exact h ⟨hcon.1, hcon.2.1, hcon.2.2.1, hcon.2.2.2.1, hcon.2.2.2.2⟩

theorem apply_of_valid (kind : MapType) (h : map.ValidRange start stop) :
    map.apply kind start stop = match kind with
      | .free => map.applyFree start stop
      | .allocate => map.applyAllocate start stop := by
  refine if_neg ?_
  have := h.lt
  have := h.regionStart
  have := h.regionEnd
  simp [h.alignedStart, h.alignedStop]
  omega

def geometry (map : AllocationMap) : Nat × Nat × Nat × Nat :=
  (map.regionStart, map.regionEnd, map.unit, map.maxRanges)

/-- The change is made exactly where it is admitted, and else the map stays as it is. -/
def Decides (map : AllocationMap) (U : Set Nat) (kind : MapType) (start stop : Nat)
    (result : Except ParseError Unit × AllocationMap) : Prop :=
  (map.Admits U kind start stop ∧ ∃ map', result = (.ok (), map') ∧
      map'.Holds (map.changed U kind start stop) ∧ map'.geometry = map.geometry) ∨
    (¬ map.Admits U kind start stop ∧ ∃ e, result = (.error e, map))

theorem ncard_Ico (start stop : Nat) : (Set.Ico start stop).ncard = stop - start := by
  rw [Set.ncard_eq_toFinset_card', Set.toFinset_Ico, Nat.card_Ico]

section Kinds

variable (hunit : 0 < map.unit) (h : map.Holds U) (hvalid : map.ValidRange start stop)

include hunit h hvalid

theorem applyFree_decides : map.Decides U .free start stop (map.applyFree start stop) := by
  have hbytes : bytesOf map.unit (map.unitsOf start stop) = Set.Ico start stop :=
    bytesOf_Ico hunit hvalid.alignedStart hvalid.alignedStop
  have hchanged : bytesOf map.unit (map.changed U .free start stop) =
      bytesOf map.unit U \ Set.Ico start stop := by
    rw [← hbytes]
    rfl
  have hagrees : map.Agrees U .free start stop ↔ Set.Ico start stop ⊆ bytesOf map.unit U := by
    rw [← hbytes, bytesOf_subset_iff hunit]
    rfl
  rcases applyFree_cases h.spans hvalid.lt with ⟨ranges, hok, hin, hspans, hcount⟩ | ⟨herror, hnot⟩
  · refine .inl ⟨⟨hvalid, hagrees.mpr hin, ?_⟩, _, hok, ⟨?_, ?_, hcount, ?_⟩, rfl⟩
    · rw [hchanged, hspans.rangeCount_eq]
      exact hcount
    · exact hchanged ▸ hspans
    · show map.allocatedBytes - (stop - start) = _
      rw [hchanged, Set.ncard_sdiff hin, ncard_Ico, h.allocated]
    · exact hchanged ▸ Set.sdiff_subset.trans h.inside
  · refine .inr ⟨fun hadmits => hnot ⟨hagrees.mp hadmits.agrees, ?_⟩, herror⟩
    exact hchanged ▸ hadmits.budget

theorem applyAllocate_decides :
    map.Decides U .allocate start stop (map.applyAllocate start stop) := by
  have hbytes : bytesOf map.unit (map.unitsOf start stop) = Set.Ico start stop :=
    bytesOf_Ico hunit hvalid.alignedStart hvalid.alignedStop
  have hchanged : bytesOf map.unit (map.changed U .allocate start stop) =
      bytesOf map.unit U ∪ Set.Ico start stop := by
    rw [← hbytes]
    rfl
  have hagrees : map.Agrees U .allocate start stop ↔
      Disjoint (Set.Ico start stop) (bytesOf map.unit U) := by
    rw [← hbytes, disjoint_bytesOf_iff hunit]
    rfl
  rcases applyAllocate_cases h.spans hvalid.lt with
    ⟨ranges, hok, hin, hspans, hcount⟩ | ⟨herror, hnot⟩
  · refine .inl ⟨⟨hvalid, hagrees.mpr hin, ?_⟩, _, hok, ⟨?_, ?_, hcount, ?_⟩, rfl⟩
    · rw [hchanged, hspans.rangeCount_eq]
      exact hcount
    · exact hchanged ▸ hspans
    · show map.allocatedBytes + (stop - start) = _
      rw [hchanged, Set.ncard_union_eq hin.symm (finite_bytesOf h.inside), ncard_Ico, h.allocated]
    · rw [hchanged]
      refine Set.union_subset h.inside fun p hp => ?_
      exact lt_of_lt_of_le hp.2 hvalid.regionEnd
  · refine .inr ⟨fun hadmits => hnot ⟨hagrees.mp hadmits.agrees, ?_⟩, herror⟩
    exact hchanged ▸ hadmits.budget

end Kinds

theorem apply_decides (hunit : 0 < map.unit) (h : map.Holds U) (kind : MapType)
    (start stop : Nat) : map.Decides U kind start stop (map.apply kind start stop) := by
  by_cases hvalid : map.ValidRange start stop
  · rw [apply_of_valid kind hvalid]
    cases kind with
    | free => exact applyFree_decides hunit h hvalid
    | allocate => exact applyAllocate_decides hunit h hvalid
  · exact .inr ⟨fun hadmits => hvalid hadmits.valid, apply_of_invalid kind hvalid⟩

/-! ## Runs -/

open Classical in
/-- The units after a sequence of changes, each made where it is admitted. -/
noncomputable def unitsAfter (map : AllocationMap) (U : Set Nat) :
    List (MapType × Nat × Nat) → Set Nat
  | [] => U
  | c :: changes =>
    map.unitsAfter (if map.Admits U c.1 c.2.1 c.2.2 then map.changed U c.1 c.2.1 c.2.2 else U) changes

theorem Admits.of_geometry {map map' : AllocationMap} {kind : MapType}
    (hg : map.geometry = map'.geometry) (h : map.Admits U kind start stop) :
    map'.Admits U kind start stop := by
  obtain ⟨regionStart, regionEnd, unit, allocated, maxRanges, ranges⟩ := map
  obtain ⟨regionStart', regionEnd', unit', allocated', maxRanges', ranges'⟩ := map'
  simp only [geometry, Prod.mk.injEq] at hg
  obtain ⟨rfl, rfl, rfl, rfl⟩ := hg
  exact ⟨⟨h.valid.1, h.valid.2, h.valid.3, h.valid.4, h.valid.5⟩, h.agrees, h.budget⟩

theorem unitsAfter_congr {map map' : AllocationMap} (hg : map.geometry = map'.geometry)
    (changes : List (MapType × Nat × Nat)) (U : Set Nat) :
    map.unitsAfter U changes = map'.unitsAfter U changes := by
  have hunit : map.unit = map'.unit := congrArg (fun g => g.2.2.1) hg
  induction changes generalizing U with
  | nil => rfl
  | cons c changes ih =>
    have hadmits : map.Admits U c.1 c.2.1 c.2.2 ↔ map'.Admits U c.1 c.2.1 c.2.2 :=
      ⟨Admits.of_geometry hg, Admits.of_geometry hg.symm⟩
    have hchanged : map.changed U c.1 c.2.1 c.2.2 = map'.changed U c.1 c.2.1 c.2.2 := by
      simp only [changed, unitsOf, hunit]
    rw [unitsAfter, unitsAfter, hchanged, ih]
    by_cases hmade : map.Admits U c.1 c.2.1 c.2.2
    · rw [if_pos hmade, if_pos (hadmits.mp hmade)]
    · rw [if_neg hmade, if_neg (mt hadmits.mpr hmade)]

theorem replay_holds (hunit : 0 < map.unit) (h : map.Holds U)
    (changes : List (MapType × Nat × Nat)) :
    (map.replay changes).Holds (map.unitsAfter U changes) ∧
      (map.replay changes).geometry = map.geometry := by
  induction changes generalizing map U with
  | nil => exact ⟨h, rfl⟩
  | cons c changes ih =>
    rw [replay, List.foldl_cons, unitsAfter]
    rcases apply_decides hunit h c.1 c.2.1 c.2.2 with
      ⟨hadmits, map', happly, hholds, hg⟩ | ⟨hnot, e, happly⟩
    · rw [happly, if_pos hadmits, ← unitsAfter_congr hg]
      have hunit' : map'.unit = map.unit := congrArg (fun g => g.2.2.1) hg
      obtain ⟨hrest, hg'⟩ := ih (hunit' ▸ hunit) hholds
      exact ⟨hrest, hg'.trans hg⟩
    · rw [happly, if_neg hnot]
      exact ih hunit h

theorem new_ok {start size shift maxRanges : Nat}
    (hnew : AllocationMap.new start size shift maxRanges = .ok map) :
    (map.regionStart = start ∧ map.regionEnd = start + size ∧ map.unit = 2 ^ shift) ∧
      shift < 64 ∧ start + size < 2 ^ 64 ∧ (size ≠ 0 ∧ map.unit ∣ start ∧ map.unit ∣ size) ∧
      map.Holds ∅ := by
  unfold AllocationMap.new at hnew
  obtain ⟨unit, hunit, hnew⟩ := bind_ok.mp hnew
  obtain ⟨_, hend, hnew⟩ := bind_ok.mp hnew
  obtain ⟨_, hgeometry, hnew⟩ := bind_ok.mp hnew
  obtain rfl := Except.ok.inj hnew
  obtain ⟨hshift, rfl⟩ : shift < 64 ∧ 2 ^ shift = unit := by
    simpa [checkedUnit] using okOr_ok.mp hunit
  have hend := failIf_ok.mp hend
  have hgeometry := failIf_ok.mp hgeometry
  push Not at hend hgeometry
  refine ⟨⟨rfl, rfl, rfl⟩, hshift, hend, ⟨hgeometry.1, hgeometry.2.1, hgeometry.2.2.1⟩, ?_⟩
  have hempty : bytesOf (2 ^ shift) ∅ = ∅ := rfl
  exact ⟨⟨by simp, by simp, by simp [hempty]⟩, by simp [allocatedBytes, hempty],
    Nat.zero_le _, by simp [hempty]⟩

end AllocationMap

theorem Extent.byteRange_ok {e : Extent} {start size shift : Nat} {r : Nat × Nat}
    (h : e.byteRange start size shift = .ok r) :
    (0 < e.runUnits ∧ (e.offsetUnits + e.runUnits) * 2 ^ shift ≤ size) ∧
      r = (start + e.offsetUnits * 2 ^ shift,
        start + e.offsetUnits * 2 ^ shift + e.runUnits * 2 ^ shift) := by
  unfold byteRange at h
  obtain ⟨unit, hunit, h⟩ := bind_ok.mp h
  obtain ⟨-, rfl⟩ : shift < 64 ∧ 2 ^ shift = unit := by
    simpa [checkedUnit] using okOr_ok.mp hunit
  obtain ⟨_, -, h⟩ := bind_ok.mp h
  obtain ⟨_, -, h⟩ := bind_ok.mp h
  obtain ⟨_, -, h⟩ := bind_ok.mp h
  obtain ⟨_, -, h⟩ := bind_ok.mp h
  obtain ⟨_, -, h⟩ := bind_ok.mp h
  obtain ⟨_, hinside, h⟩ := bind_ok.mp h
  have hinside := failIf_ok.mp hinside
  push Not at hinside
  obtain rfl := Except.ok.inj h
  refine ⟨⟨Nat.pos_of_mul_pos_right (Nat.pos_of_ne_zero hinside.1), ?_⟩, rfl⟩
  have := hinside.2.2
  rw [Nat.add_mul]
  omega

theorem Extent.byteRange_eq_ok {e : Extent} {start size shift : Nat} (hshift : shift < 64)
    (hend : start + size < 2 ^ 64) (hgeometry : size ≠ 0 ∧ 2 ^ shift ∣ start ∧ 2 ^ shift ∣ size)
    (hrun : 0 < e.runUnits) (hinside : (e.offsetUnits + e.runUnits) * 2 ^ shift ≤ size) :
    e.byteRange start size shift = .ok (start + e.offsetUnits * 2 ^ shift,
      start + e.offsetUnits * 2 ^ shift + e.runUnits * 2 ^ shift) := by
  have hpos : 0 < e.runUnits * 2 ^ shift := Nat.mul_pos hrun (Nat.two_pow_pos shift)
  rw [Nat.add_mul] at hinside
  exact bind_ok.mpr ⟨2 ^ shift, okOr_ok.mpr (if_pos hshift),
    bind_ok.mpr ⟨(), failIf_of_not (by omega) _,
    bind_ok.mpr ⟨(), failIf_of_not (by simpa using hgeometry) _,
    bind_ok.mpr ⟨(), failIf_of_not (by omega) _, bind_ok.mpr ⟨(), failIf_of_not (by omega) _,
    bind_ok.mpr ⟨(), failIf_of_not (by omega) _, bind_ok.mpr ⟨(), failIf_of_not (by omega) _,
    rfl⟩⟩⟩⟩⟩⟩⟩

namespace AllocationMap

variable {map : AllocationMap}

/-- **Replay holds the units its changes leave allocated**: after any sequence of changes the map
is the sorted list of the maximal ranges of these units, with their bytes counted, and within the
budget. The next change is made exactly where it is admitted, and a change that fails leaves the
map as it is. A record decodes to the range of its units, where it has some and they are inside
the region. -/
theorem replay_refines {start size shift maxRanges : Nat}
    (hnew : AllocationMap.new start size shift maxRanges = .ok map)
    (changes : List (MapType × Nat × Nat)) :
    (map.replay changes).Holds (map.unitsAfter ∅ changes) ∧
    (∀ kind first last, (map.replay changes).Decides (map.unitsAfter ∅ changes) kind first last
      ((map.replay changes).apply kind first last)) ∧
    ∀ e : Extent, if 0 < e.runUnits ∧ (e.offsetUnits + e.runUnits) * map.unit ≤ size then
        ∃ r, e.byteRange start size shift = .ok r ∧ map.ValidRange r.1 r.2 ∧
          map.unitsOf r.1 r.2 = Set.Ico (start / map.unit + e.offsetUnits)
            (start / map.unit + e.offsetUnits + e.runUnits)
      else ∃ err, e.byteRange start size shift = .error err := by
  obtain ⟨⟨hstart, hend, hunit⟩, hshift, hlimit, hgeometry, hempty⟩ := new_ok hnew
  have hpos : 0 < map.unit := hunit ▸ Nat.two_pow_pos shift
  obtain ⟨hholds, hg⟩ := replay_holds hpos hempty changes
  have hunit' : (map.replay changes).unit = map.unit := congrArg (fun g => g.2.2.1) hg
  refine ⟨hholds, apply_decides (hunit' ▸ hpos) hholds, fun e => ?_⟩
  split_ifs with hvalid
  · obtain ⟨hrun, hinside⟩ := hvalid
    rw [hunit] at hinside hgeometry
    refine ⟨_, Extent.byteRange_eq_ok hshift hlimit hgeometry hrun hinside, ?_, ?_⟩
    · have hlong := Nat.mul_pos hrun (Nat.two_pow_pos shift)
      rw [Nat.add_mul] at hinside
      have haligned : map.unit ∣ start + e.offsetUnits * 2 ^ shift := by
        rw [hunit]
        exact Nat.dvd_add hgeometry.2.1 (Nat.dvd_mul_left _ _)
      exact ⟨by omega, by omega, by omega, haligned,
        Nat.dvd_add haligned (hunit ▸ Nat.dvd_mul_left _ _)⟩
    · rw [unitsOf, ← hunit, Nat.add_mul_div_right _ _ hpos, Nat.add_mul_div_right _ _ hpos,
        Nat.add_mul_div_right _ _ hpos]
  · cases hrange : e.byteRange start size shift with
    | error err => exact ⟨err, rfl⟩
    | ok r => exact absurd (Extent.byteRange_ok hrange).1 (hunit ▸ hvalid)

theorem replay_refines_sample :
    ∃ map, AllocationMap.new 0 16 1 2 = .ok map ∧
      (map.replay [(.allocate, 0, 4), (.allocate, 6, 10), (.allocate, 14, 16), (.allocate, 4, 6),
        (.free, 2, 4)]).ranges.entries = [(0, 2), (4, 10)] ∧
      (map.replay [(.allocate, 0, 4), (.allocate, 6, 10), (.allocate, 14, 16), (.allocate, 4, 6),
        (.free, 2, 4)]).Holds (map.unitsAfter ∅ [(.allocate, 0, 4), (.allocate, 6, 10),
          (.allocate, 14, 16), (.allocate, 4, 6), (.free, 2, 4)]) := by
  have hnew : AllocationMap.new 0 16 1 2 = .ok ⟨0, 16, 2, 0, 2, ∅⟩ := rfl
  exact ⟨_, hnew, by decide +kernel, (replay_refines hnew _).1⟩

/-! ## Changes taken back -/

def opposite : MapType → MapType
  | .allocate => .free
  | .free => .allocate

theorem Holds.unique {map' : AllocationMap} (h : map.Holds U) (h' : map'.Holds U)
    (hg : map'.geometry = map.geometry) : map' = map := by
  obtain ⟨_, _, _, _, _, _⟩ := map
  obtain ⟨_, _, _, _, _, _⟩ := map'
  simp only [geometry, Prod.mk.injEq] at hg
  obtain ⟨rfl, rfl, rfl, rfl⟩ := hg
  obtain rfl := h.spans.unique h'.spans
  obtain rfl := h.allocated.trans h'.allocated.symm
  rfl

theorem changed_opposite {kind : MapType} (h : map.Agrees U kind start stop) :
    map.changed (map.changed U kind start stop) (opposite kind) start stop = U ∧
      map.Agrees (map.changed U kind start stop) (opposite kind) start stop := by
  cases kind with
  | allocate => exact ⟨h.symm.sup_sdiff_cancel_right, Set.subset_union_right⟩
  | free => exact ⟨sdiff_sup_cancel h, disjoint_sdiff_self_right⟩

/-- **A change can be taken back exactly**: after any replay, a range just allocated can be freed
and one just freed can be allocated, and the map is then the one before, range for range. -/
theorem apply_opposite {size shift maxRanges : Nat}
    (hnew : AllocationMap.new start size shift maxRanges = .ok map)
    (changes : List (MapType × Nat × Nat)) (kind : MapType) (first last : Nat)
    {map' : AllocationMap}
    (hok : (map.replay changes).apply kind first last = (.ok (), map')) :
    map'.apply (opposite kind) first last = (.ok (), map.replay changes) := by
  obtain ⟨⟨-, -, hunit⟩, -, -, -, hempty⟩ := new_ok hnew
  have hpos : 0 < map.unit := hunit ▸ Nat.two_pow_pos shift
  obtain ⟨h, hg⟩ := replay_holds hpos hempty changes
  have hpos : 0 < (map.replay changes).unit :=
    hpos.trans_eq (congrArg (fun g => g.2.2.1) hg.symm)
  rcases apply_decides hpos h kind first last with
    ⟨hadmits, made, happly, hholds, hg'⟩ | ⟨-, e, happly⟩
  · obtain rfl := (Prod.mk.inj (happly.symm.trans hok)).2
    obtain ⟨hback, hagrees⟩ := changed_opposite hadmits.agrees
    have hunit' : made.unit = (map.replay changes).unit := congrArg (fun g => g.2.2.1) hg'
    rcases apply_decides (hunit' ▸ hpos) hholds (opposite kind) first last with
      ⟨-, back, hdone, hholds', hg''⟩ | ⟨hnot, -⟩
    · simp only [changed, unitsOf, hunit'] at hholds' hback
      rw [hdone, h.unique (hback ▸ hholds') (hg''.trans hg')]
    · refine absurd (Admits.of_geometry hg'.symm ⟨hadmits.valid, hagrees, ?_⟩) hnot
      rw [hback, h.spans.rangeCount_eq]
      exact h.budget
  · cases happly.symm.trans hok

theorem apply_opposite_sample :
    ∃ map map', AllocationMap.new 0 16 1 2 = .ok map ∧
      (map.replay [(.allocate, 0, 4)]).apply .allocate 6 10 = (.ok (), map') ∧
      map'.apply .free 6 10 = (.ok (), map.replay [(.allocate, 0, 4)]) := by
  have hnew : AllocationMap.new 0 16 1 2 = .ok ⟨0, 16, 2, 0, 2, ∅⟩ := rfl
  exact ⟨_, _, hnew, rfl, apply_opposite hnew [(.allocate, 0, 4)] .allocate 6 10 rfl⟩

end AllocationMap

end FrankenFs.Zfs

import Mathlib.Data.List.Sort
import Mathlib.Data.List.Basic
import Mathlib.Data.Prod.Lex
import Mathlib.Algebra.Group.Nat.Defs
import Mathlib.Data.Nat.Basic

/-!
# Block groups and their metadata

Metadata is at the start of a group, and in the bitmaps and inode tables that lie in it. With
`FLEX_BG` those may belong to any group.
-/

namespace FrankenFs.Alloc

def u32Max : Nat := 2 ^ 32 - 1

structure FsGeometry where
  blocksPerGroup : Nat
  inodesPerGroup : Nat
  blockSize : Nat
  totalBlocks : Nat
  firstDataBlock : Nat
  groupCount : Nat
  inodeSize : Nat
  descSize : Nat
  reservedGdtBlocks : Nat
  firstMetaBg : Nat
  sparseSuper2 : Bool
  resizeInode : Bool
  flexBg : Bool
  metaBg : Bool
  sparseSuper : Bool
  backupBgs : Nat × Nat
deriving DecidableEq, Repr

/-- The loop of `is_power_of`; a value has fewer divisions than its size. -/
def isPowerOfFrom (factor : Nat) : (fuel value : Nat) → Bool
  | 0, value => value == 1
  | fuel + 1, value =>
    if factor ≤ value then
      if value % factor ≠ 0 then false else isPowerOfFrom factor fuel (value / factor)
    else value == 1

def isPowerOf (value factor : Nat) : Bool :=
  if factor ≤ 1 then value == 1 else isPowerOfFrom factor value value

namespace FsGeometry

variable (geo : FsGeometry)

def hasBackupSuperblock (group : Nat) : Bool :=
  if group = 0 then true
  else if geo.sparseSuper2 then group == geo.backupBgs.1 || group == geo.backupBgs.2
  else if group ≤ 1 || !geo.sparseSuper then true
  else if group % 2 = 0 then false
  else isPowerOf group 3 || isPowerOf group 5 || isPowerOf group 7

def descPerBlock : Nat := if geo.descSize = 0 then 0 else geo.blockSize / geo.descSize

def gdtBlocksCount : Nat :=
  if geo.descPerBlock = 0 then 0
  else (geo.groupCount + geo.descPerBlock - 1) / geo.descPerBlock

def groupInMetaBg (group : Nat) : Bool :=
  geo.metaBg && geo.descPerBlock != 0 && decide (geo.firstMetaBg ≤ group / geo.descPerBlock)

def groupGdtBlocks (group : Nat) : Nat :=
  if geo.groupInMetaBg group then
    let first := group / geo.descPerBlock * geo.descPerBlock
    let last := first + (geo.descPerBlock - 1)
    if group = first ∨ group = first + 1 ∨ group = last then 1 else 0
  else if !geo.hasBackupSuperblock group then 0
  else if geo.metaBg then geo.firstMetaBg
  else geo.gdtBlocksCount

def reservedGdtBlocksInGroup (group : Nat) : Nat :=
  if !geo.resizeInode || !geo.hasBackupSuperblock group || geo.groupInMetaBg group then 0
  else geo.reservedGdtBlocks

def baseMetaBlocksInGroup (group : Nat) : Nat :=
  let hasSuper := if geo.hasBackupSuperblock group then 1 else 0
  if geo.groupInMetaBg group then hasSuper + geo.groupGdtBlocks group
  else if hasSuper = 0 then 0
  else 1 + geo.groupGdtBlocks group + geo.reservedGdtBlocksInGroup group

def groupStart (group : Nat) : Nat := geo.firstDataBlock + group * geo.blocksPerGroup

def blocksInGroup (group : Nat) : Nat :=
  let remaining := geo.totalBlocks - geo.groupStart group
  if geo.blocksPerGroup ≤ remaining then geo.blocksPerGroup else remaining

def groupBlockToAbsolute (group relBlock : Nat) : Nat := geo.groupStart group + relBlock

variable {geo}

theorem blocksInGroup_le (group : Nat) : geo.blocksInGroup group ≤ geo.blocksPerGroup := by
  unfold blocksInGroup
  dsimp only
  split_ifs <;> omega

end FsGeometry

/-! ## Reserved blocks -/

structure ReservedBlocks where
  blocks : List Nat
  sorted : blocks.Pairwise (· < ·)
deriving DecidableEq

/-- What a group keeps for its life: where its metadata is, and the memo of its reserved blocks. -/
structure GroupLayout where
  blockBitmapBlock : Nat
  inodeBitmapBlock : Nat
  inodeTableBlock : Nat
  reservedCache : Option ReservedBlocks
deriving DecidableEq

def metadataBlockRanges (geo : FsGeometry) (owner : GroupLayout) : List (Nat × Nat) :=
  let tableBlocks :=
    if geo.blockSize = 0 then 0
    else (geo.inodesPerGroup * geo.inodeSize + geo.blockSize - 1) / geo.blockSize
  [(owner.blockBitmapBlock, 1), (owner.inodeBitmapBlock, 1), (owner.inodeTableBlock, tableBlocks)]

/-- The part of a range of blocks that lies in the group, as offsets in it. -/
def reserveMetadataRange (geo : FsGeometry) (group : Nat) (range : Nat × Nat) :
    List (Nat × Nat) :=
  let groupStart := geo.groupBlockToAbsolute group 0
  let groupEnd := groupStart + geo.blocksInGroup group
  let first := max range.1 groupStart
  let stop := min (range.1 + range.2) groupEnd
  if first < stop then [(first - groupStart, stop - groupStart)] else []

/-- The offsets of the ranges, each once; those below `covered` are there already. -/
def expandRanges : (covered : Nat) → List (Nat × Nat) → List Nat
  | _, [] => []
  | covered, (start, stop) :: ranges =>
    List.range' (max start covered) (stop - max start covered) ++
      expandRanges (max covered stop) ranges

theorem le_of_mem_expandRanges {ranges : List (Nat × Nat)} {covered i : Nat}
    (h : i ∈ expandRanges covered ranges) : covered ≤ i := by
  induction ranges generalizing covered with
  | nil => cases h
  | cons range ranges ih =>
    rcases List.mem_append.mp h with h | h
    · have := List.mem_range'_1.mp h
      omega
    · have := ih h
      omega

theorem expandRanges_sorted (covered : Nat) (ranges : List (Nat × Nat)) :
    (expandRanges covered ranges).Pairwise (· < ·) := by
  induction ranges generalizing covered with
  | nil => exact List.Pairwise.nil
  | cons range ranges ih =>
    refine List.pairwise_append.mpr ⟨List.pairwise_lt_range', ih _, fun a ha b hb => ?_⟩
    have ha := List.mem_range'_1.mp ha
    have hb := le_of_mem_expandRanges hb
    omega

theorem mem_expandRanges {ranges : List (Nat × Nat)} {covered i : Nat}
    (hsorted : ranges.Pairwise fun r q => r.1 ≤ q.1) :
    i ∈ expandRanges covered ranges ↔
      covered ≤ i ∧ ∃ r ∈ ranges, r.1 ≤ i ∧ i < r.2 := by
  induction ranges generalizing covered with
  | nil => simp [expandRanges]
  | cons range ranges ih =>
    obtain ⟨hhead, htail⟩ := List.pairwise_cons.mp hsorted
    rw [expandRanges, List.mem_append, ih htail, List.mem_range'_1]
    constructor
    · rintro (h | ⟨hle, r, hr, hi⟩)
      · exact ⟨by omega, range, List.mem_cons_self, by omega⟩
      · exact ⟨by omega, r, List.mem_cons_of_mem _ hr, hi⟩
    · rintro ⟨hle, r, hr, hi⟩
      by_cases hin : range.1 ≤ i ∧ i < range.2
      · exact .inl (by omega)
      · right
        rcases List.mem_cons.mp hr with rfl | hr
        · exact absurd hi hin
        · have := hhead r hr
          exact ⟨by omega, r, hr, hi⟩

def rangeLe (r q : Nat × Nat) : Prop := r.1 < q.1 ∨ r.1 = q.1 ∧ r.2 ≤ q.2

instance : DecidableRel rangeLe := fun r q =>
  inferInstanceAs (Decidable (r.1 < q.1 ∨ r.1 = q.1 ∧ r.2 ≤ q.2))

def mergeRanges (ranges : List (Nat × Nat)) : ReservedBlocks where
  blocks := expandRanges 0 (ranges.insertionSort rangeLe)
  sorted := expandRanges_sorted ..

theorem mem_mergeRanges {ranges : List (Nat × Nat)} {i : Nat} :
    i ∈ (mergeRanges ranges).blocks ↔ ∃ r ∈ ranges, r.1 ≤ i ∧ i < r.2 := by
  have : Std.Total rangeLe := ⟨fun r q => by unfold rangeLe; omega⟩
  have : IsTrans (Nat × Nat) rangeLe := ⟨fun r q t => by unfold rangeLe; omega⟩
  have hsorted := (List.pairwise_insertionSort rangeLe ranges).imp
    fun {r q} (h : rangeLe r q) => show r.1 ≤ q.1 by unfold rangeLe at h; omega
  unfold mergeRanges
  dsimp only
  rw [mem_expandRanges hsorted]
  simp only [List.mem_insertionSort, Nat.zero_le, true_and]

def computeReservedBlocks (geo : FsGeometry) (layouts : List GroupLayout) (group : Nat)
    (layout : GroupLayout) : ReservedBlocks :=
  let baseMetaBlocks := min (geo.baseMetaBlocksInGroup group) (geo.blocksInGroup group)
  let owners := if geo.flexBg then layouts else [layout]
  mergeRanges ((0, baseMetaBlocks) ::
    owners.flatMap fun owner =>
      (metadataBlockRanges geo owner).flatMap (reserveMetadataRange geo group))

/-- The memo of the group, or what it would be: a computed memo is not stored, which changes no
later answer. -/
def reservedBlocksInGroup (geo : FsGeometry) (layouts : List GroupLayout) (group : Nat) :
    ReservedBlocks :=
  match layouts[group]? with
  | none => ⟨[], List.Pairwise.nil⟩
  | some layout =>
    match layout.reservedCache with
    | some cached => cached
    | none => computeReservedBlocks geo layouts group layout

/-! ## What is reserved -/

/-- A block that holds metadata: it is at the start of the group, or in a bitmap or an inode table
of a group that may have its own here. -/
def IsMetadata (geo : FsGeometry) (layouts : List GroupLayout) (group rel : Nat) : Prop :=
  rel < geo.blocksInGroup group ∧
    (rel < geo.baseMetaBlocksInGroup group ∨
      ∃ owner ∈ layouts, (geo.flexBg ∨ layouts[group]? = some owner) ∧
        ∃ range ∈ metadataBlockRanges geo owner,
          range.1 ≤ geo.groupBlockToAbsolute group rel ∧
            geo.groupBlockToAbsolute group rel < range.1 + range.2)

theorem mem_reserveMetadataRange {geo : FsGeometry} {group rel : Nat} {range : Nat × Nat} :
    (∃ r ∈ reserveMetadataRange geo group range, r.1 ≤ rel ∧ rel < r.2) ↔
      rel < geo.blocksInGroup group ∧ range.1 ≤ geo.groupBlockToAbsolute group rel ∧
        geo.groupBlockToAbsolute group rel < range.1 + range.2 := by
  unfold reserveMetadataRange FsGeometry.groupBlockToAbsolute
  dsimp only
  split_ifs with hne
  · simp only [List.mem_singleton, exists_eq_left]
    omega
  · simp only [List.not_mem_nil, false_and, exists_false, false_iff]
    omega

theorem mem_computeReservedBlocks {geo : FsGeometry} {layouts : List GroupLayout} {group rel : Nat}
    {layout : GroupLayout} (hlayout : layouts[group]? = some layout) :
    rel ∈ (computeReservedBlocks geo layouts group layout).blocks ↔
      IsMetadata geo layouts group rel := by
  unfold computeReservedBlocks
  dsimp only
  rw [mem_mergeRanges, List.exists_mem_cons_iff]
  have howner : ∀ owner,
      owner ∈ (if geo.flexBg then layouts else [layout]) ↔
        owner ∈ layouts ∧ (geo.flexBg ∨ layouts[group]? = some owner) := by
    intro owner
    rw [hlayout]
    by_cases hflex : geo.flexBg
    · simp [hflex]
    · simp only [hflex, Bool.false_eq_true, if_false, List.mem_singleton, false_or,
        Option.some.injEq]
      constructor
      · rintro rfl
        exact ⟨List.mem_of_getElem? hlayout, rfl⟩
      · exact fun h => h.2.symm
  have hranges : (∃ r ∈ (if geo.flexBg then layouts else [layout]).flatMap fun owner =>
        (metadataBlockRanges geo owner).flatMap (reserveMetadataRange geo group),
        r.1 ≤ rel ∧ rel < r.2) ↔
      rel < geo.blocksInGroup group ∧ ∃ owner ∈ layouts,
        (geo.flexBg ∨ layouts[group]? = some owner) ∧
        ∃ range ∈ metadataBlockRanges geo owner,
          range.1 ≤ geo.groupBlockToAbsolute group rel ∧
            geo.groupBlockToAbsolute group rel < range.1 + range.2 := by
    constructor
    · rintro ⟨r, hr, hin⟩
      obtain ⟨owner, ho, hr⟩ := List.mem_flatMap.mp hr
      obtain ⟨range, hrange, hr⟩ := List.mem_flatMap.mp hr
      have hblock := mem_reserveMetadataRange.mp ⟨r, hr, hin⟩
      have ho := (howner owner).mp ho
      exact ⟨hblock.1, owner, ho.1, ho.2, range, hrange, hblock.2⟩
    · rintro ⟨hlt, owner, ho, hflex, range, hrange, hin⟩
      obtain ⟨r, hr, hin⟩ := mem_reserveMetadataRange.mpr ⟨hlt, hin⟩
      exact ⟨r, List.mem_flatMap.mpr ⟨owner, (howner owner).mpr ⟨ho, hflex⟩,
        List.mem_flatMap.mpr ⟨range, hrange, hr⟩⟩, hin⟩
  rw [hranges, IsMetadata]
  constructor
  · rintro (h | h)
    · exact ⟨by omega, .inl (by omega)⟩
    · exact ⟨h.1, .inr h.2⟩
  · rintro ⟨hlt, h | h⟩
    · exact .inl (by omega)
    · exact .inr ⟨hlt, h⟩

end FrankenFs.Alloc

import FrankenFs.Alloc.Geometry

/-!
# The memos of reserved blocks

`populate_reserved_block_caches` hands out the metadata ranges of all descriptors at once, where a
query looks for those of one group. The sums of the source saturate at 64 bits, which changes no part
of a range that lies in a group.
-/

namespace FrankenFs.Alloc

def cacheReservedMetadataRanges (stats : GroupLayout) (ranges : List (Nat × Nat)) : GroupLayout :=
  match stats.reservedCache with
  | some _ => stats
  | none => { stats with reservedCache := some (mergeRanges ranges) }

def cacheReservedBlocks (geo : FsGeometry) (groups : List GroupLayout) (group : Nat) :
    List GroupLayout :=
  groups.modify group fun stats =>
    { stats with reservedCache := some (reservedBlocksInGroup geo groups group) }

/-- A range for the groups from `firstGroup` on; groups that have a memo take none. -/
def distributeRange (geo : FsGeometry) (groupCount : Nat)
    (pending : List (Option (List (Nat × Nat)))) (range : Nat × Nat) :
    List (Option (List (Nat × Nat))) :=
  let stop := min (range.1 + range.2) geo.totalBlocks
  let start := max range.1 geo.firstDataBlock
  if stop ≤ start then pending
  else
    let firstGroup := (start - geo.firstDataBlock) / geo.blocksPerGroup
    let endGroup := (stop - geo.firstDataBlock + geo.blocksPerGroup - 1) / geo.blocksPerGroup
    (List.range' firstGroup (min endGroup groupCount - firstGroup)).foldl
      (fun pending index => pending.modify index
        (Option.map (· ++ reserveMetadataRange geo index (start, stop - start)))) pending

def populateReservedBlockCaches (geo : FsGeometry) (groups : List GroupLayout) :
    List GroupLayout :=
  let groupCount := min groups.length geo.groupCount
  if !geo.flexBg || geo.blocksPerGroup == 0 then
    (List.range groupCount).foldl (cacheReservedBlocks geo) groups
  else
    let pending := (groups.take groupCount).mapIdx fun index stats =>
      if stats.reservedCache.isNone then
        some [(0, min (geo.baseMetaBlocksInGroup index) (geo.blocksInGroup index))]
      else none
    let pending := groups.foldl (fun pending owner =>
      (metadataBlockRanges geo owner).foldl (distributeRange geo groupCount) pending) pending
    groups.mapIdx fun index stats =>
      match pending[index]? with
      | some (some ranges) => cacheReservedMetadataRanges stats ranges
      | _ => stats

def withMemos (geo : FsGeometry) (groups : List GroupLayout) (bound : Nat) : List GroupLayout :=
  groups.mapIdx fun group stats =>
    if group < bound then
      { stats with reservedCache := some (reservedBlocksInGroup geo groups group) }
    else stats

variable {geo : FsGeometry} {groups : List GroupLayout}

theorem getElem?_withMemos (bound group : Nat) :
    (withMemos geo groups bound)[group]? = groups[group]?.map fun stats =>
      if group < bound then
        { stats with reservedCache := some (reservedBlocksInGroup geo groups group) }
      else stats := by
  unfold withMemos
  rw [List.getElem?_mapIdx]

/-! ## One query after another -/

theorem flatMap_metadataBlockRanges (group : Nat) (owners : List GroupLayout) :
    (owners.flatMap fun owner =>
      (metadataBlockRanges geo owner).flatMap (reserveMetadataRange geo group)) =
    (owners.flatMap (metadataBlockRanges geo)).flatMap (reserveMetadataRange geo group) :=
  List.flatMap_assoc.symm

theorem withMemos_metadataBlockRanges (bound : Nat) :
    (withMemos geo groups bound).flatMap (metadataBlockRanges geo) =
      groups.flatMap (metadataBlockRanges geo) := by
  have hmap : (withMemos geo groups bound).map (metadataBlockRanges geo) =
      groups.map (metadataBlockRanges geo) := by
    refine List.ext_getElem? fun group => ?_
    rw [List.getElem?_map, List.getElem?_map, getElem?_withMemos, Option.map_map]
    refine congrArg (fun f => Option.map f _) (funext fun stats => ?_)
    dsimp only [Function.comp_apply]
    split_ifs <;> rfl
  rw [List.flatMap_def, List.flatMap_def, hmap]

theorem reservedBlocksInGroup_withMemos (group : Nat) :
    reservedBlocksInGroup geo (withMemos geo groups group) group =
      reservedBlocksInGroup geo groups group := by
  unfold reservedBlocksInGroup
  rw [getElem?_withMemos]
  cases hstats : groups[group]? with
  | none => rfl
  | some stats =>
    simp only [Option.map_some, if_neg (Nat.lt_irrefl group)]
    cases stats.reservedCache with
    | some cached => rfl
    | none =>
      unfold computeReservedBlocks
      dsimp only
      by_cases hflex : geo.flexBg
      · rw [if_pos hflex, if_pos hflex, flatMap_metadataBlockRanges, flatMap_metadataBlockRanges,
          withMemos_metadataBlockRanges]
      · rw [if_neg hflex, if_neg hflex]

theorem foldl_cacheReservedBlocks (bound : Nat) :
    (List.range bound).foldl (cacheReservedBlocks geo) groups = withMemos geo groups bound := by
  induction bound with
  | zero =>
    refine List.ext_getElem? fun group => ?_
    rw [getElem?_withMemos]
    simp
  | succ bound ih =>
    rw [List.range_succ, List.foldl_append, ih, List.foldl_cons, List.foldl_nil]
    unfold cacheReservedBlocks
    rw [reservedBlocksInGroup_withMemos]
    refine List.ext_getElem? fun group => ?_
    rw [List.getElem?_modify, getElem?_withMemos, getElem?_withMemos, Option.map_eq_map,
      Option.map_map]
    refine congrArg (fun f => Option.map f _) (funext fun stats => ?_)
    dsimp only [Function.comp_apply]
    by_cases hgroup : bound = group
    · subst hgroup
      simp
    · rw [if_neg hgroup]
      have hlt : group < bound + 1 ↔ group < bound := by omega
      simp only [hlt]

/-! ## Every range to the groups it meets -/

theorem groupStart_add_blocksInGroup_le (group : Nat) :
    geo.groupStart group + geo.blocksInGroup group ≤ geo.totalBlocks ∨
      geo.blocksInGroup group = 0 := by
  unfold FsGeometry.blocksInGroup
  dsimp only
  split_ifs <;> omega

theorem reserveMetadataRange_clip (group : Nat) (range : Nat × Nat) :
    reserveMetadataRange geo group (max range.1 geo.firstDataBlock,
        min (range.1 + range.2) geo.totalBlocks - max range.1 geo.firstDataBlock) =
      reserveMetadataRange geo group range := by
  have hend := @groupStart_add_blocksInGroup_le geo group
  have hstart : geo.firstDataBlock ≤ geo.groupStart group := Nat.le_add_right ..
  unfold reserveMetadataRange FsGeometry.groupBlockToAbsolute
  dsimp only
  rw [Nat.add_zero, Nat.max_assoc, Nat.max_eq_right hstart]
  by_cases hmeets : max range.1 (geo.groupStart group) <
      min (range.1 + range.2) (geo.groupStart group + geo.blocksInGroup group)
  · have hstop : max range.1 geo.firstDataBlock +
        (min (range.1 + range.2) geo.totalBlocks - max range.1 geo.firstDataBlock) =
        min (range.1 + range.2) geo.totalBlocks := by omega
    have htotal : geo.groupStart group + geo.blocksInGroup group ≤ geo.totalBlocks := by omega
    rw [hstop, Nat.min_assoc, Nat.min_eq_right htotal]
  · rw [if_neg (by omega), if_neg hmeets]

theorem reserveMetadataRange_eq_nil {group start stop : Nat}
    (h : geo.groupStart group + geo.blocksPerGroup ≤ start ∨ stop ≤ geo.groupStart group) :
    reserveMetadataRange geo group (start, stop - start) = [] := by
  have hblocks := @FsGeometry.blocksInGroup_le geo group
  unfold reserveMetadataRange FsGeometry.groupBlockToAbsolute
  dsimp only
  rw [if_neg (by omega)]

theorem getElem?_foldl_modify {α : Type} (f : Nat → α → α) {indices : List Nat}
    (hnodup : indices.Nodup) (items : List α) (j : Nat) :
    (indices.foldl (fun items i => items.modify i (f i)) items)[j]? =
      if j ∈ indices then items[j]?.map (f j) else items[j]? := by
  induction indices generalizing items with
  | nil => simp
  | cons i indices ih =>
    obtain ⟨hnot, hnodup⟩ := List.nodup_cons.mp hnodup
    rw [List.foldl_cons, ih hnodup, List.getElem?_modify]
    by_cases hij : i = j
    · subst hij
      simp [hnot]
    · have hji : j ≠ i := Ne.symm hij
      simp [hij, hji]

theorem getElem?_distributeRange (hpos : 0 < geo.blocksPerGroup) {groupCount group : Nat}
    {pending : List (Option (List (Nat × Nat)))}
    (hgroup : pending[group]?.isSome → group < groupCount) (range : Nat × Nat) :
    (distributeRange geo groupCount pending range)[group]? =
      pending[group]?.map (Option.map (· ++ reserveMetadataRange geo group range)) := by
  rw [← reserveMetadataRange_clip]
  unfold distributeRange
  dsimp only
  generalize min (range.1 + range.2) geo.totalBlocks = stop
  have hstart : geo.firstDataBlock ≤ max range.1 geo.firstDataBlock := Nat.le_max_right ..
  revert hstart
  generalize max range.1 geo.firstDataBlock = start
  intro hstart
  -- A group that is passed over takes nothing.
  have hnone : reserveMetadataRange geo group (start, stop - start) = [] →
      pending[group]? = pending[group]?.map
        (Option.map (· ++ reserveMetadataRange geo group (start, stop - start))) := by
    intro hnil
    simp [hnil]
  split_ifs with hempty
  · refine hnone ?_
    unfold reserveMetadataRange
    dsimp only
    rw [if_neg (by omega)]
  · rw [getElem?_foldl_modify (fun index => Option.map
      (· ++ reserveMetadataRange geo index (start, stop - start))) List.nodup_range']
    split_ifs with hmem
    · rfl
    · cases hpending : pending[group]? with
      | none => rfl
      | some part =>
      rw [← hpending]
      have hgroup := hgroup (hpending ▸ rfl)
      refine hnone (reserveMetadataRange_eq_nil ?_)
      rw [List.mem_range'_1] at hmem
      unfold FsGeometry.groupStart
      by_cases hfirst : group < (start - geo.firstDataBlock) / geo.blocksPerGroup
      · have := (Nat.le_div_iff_mul_le hpos).mp (Nat.succ_le_of_lt hfirst)
        rw [Nat.succ_mul] at this
        exact .inl (by omega)
      · have hend : (stop - geo.firstDataBlock + geo.blocksPerGroup - 1) / geo.blocksPerGroup <
            group + 1 := by omega
        have := (Nat.div_lt_iff_lt_mul hpos).mp hend
        rw [Nat.succ_mul] at this
        exact .inr (by omega)

theorem getElem?_foldl_distributeRange (hpos : 0 < geo.blocksPerGroup) {groupCount group : Nat}
    (ranges : List (Nat × Nat)) {pending : List (Option (List (Nat × Nat)))}
    (hgroup : pending[group]?.isSome → group < groupCount) :
    (ranges.foldl (distributeRange geo groupCount) pending)[group]? =
      pending[group]?.map (Option.map (· ++ ranges.flatMap (reserveMetadataRange geo group))) := by
  induction ranges generalizing pending with
  | nil => simp
  | cons range ranges ih =>
    have hstep := getElem?_distributeRange hpos hgroup range
    rw [List.foldl_cons, ih (by rw [hstep, Option.isSome_map]; exact hgroup), hstep,
      Option.map_map, List.flatMap_cons]
    refine congrArg (fun f => Option.map f _) (funext fun part => ?_)
    cases part <;> simp

theorem populateReservedBlockCaches_flexBg (hflex : geo.flexBg) (hpos : 0 < geo.blocksPerGroup) :
    populateReservedBlockCaches geo groups = withMemos geo groups geo.groupCount := by
  unfold populateReservedBlockCaches
  dsimp only
  rw [if_neg (by simp [hflex, hpos.ne'])]
  refine List.ext_getElem? fun group => ?_
  rw [List.getElem?_mapIdx, getElem?_withMemos]
  cases hstats : groups[group]? with
  | none => rfl
  | some stats =>
    have hlt : group < groups.length := (List.getElem?_eq_some_iff.mp hstats).1
    simp only [Option.map_some]
    rw [← List.foldl_flatMap, getElem?_foldl_distributeRange hpos]
    · rw [List.getElem?_mapIdx, List.getElem?_take]
      unfold cacheReservedMetadataRanges reservedBlocksInGroup
      rw [hstats]
      by_cases hcount : group < geo.groupCount
      · rw [if_pos (by omega), if_pos hcount]
        cases hcache : stats.reservedCache with
        | some cached =>
          obtain ⟨_, _, _, _⟩ := stats
          cases hcache
          rfl
        | none =>
          simp only [Option.map_some, hcache, Option.isNone_none, if_true]
          unfold computeReservedBlocks
          dsimp only
          rw [if_pos hflex, flatMap_metadataBlockRanges]
          rfl
      · rw [if_neg (by omega), if_neg hcount]
        rfl
    · intro hsome
      rw [List.getElem?_mapIdx, List.getElem?_take] at hsome
      by_contra hge
      rw [if_neg hge] at hsome
      cases hsome

/-! ## Both ways -/

theorem withMemos_min_length (bound : Nat) :
    withMemos geo groups (min groups.length bound) = withMemos geo groups bound := by
  refine List.ext_getElem? fun group => ?_
  rw [getElem?_withMemos, getElem?_withMemos]
  by_cases hlt : group < groups.length
  · have hbound : group < min groups.length bound ↔ group < bound := by omega
    simp only [hbound]
  · rw [List.getElem?_eq_none (by omega)]
    rfl

/-- **The memos made for all groups at once are the answers to one query for each.** The answer is
the list, in ascending order, of the blocks of the group that hold metadata. -/
theorem populateReservedBlockCaches_eq_lazy (geo : FsGeometry) (groups : List GroupLayout) :
    populateReservedBlockCaches geo groups = withMemos geo groups geo.groupCount ∧
      ∀ group stats, groups[group]? = some stats →
        (∀ cached, stats.reservedCache = some cached →
          cached = computeReservedBlocks geo groups group stats) →
        (reservedBlocksInGroup geo groups group).blocks.Pairwise (· < ·) ∧
          ∀ rel, rel ∈ (reservedBlocksInGroup geo groups group).blocks ↔
            IsMetadata geo groups group rel := by
  constructor
  · by_cases heager : geo.flexBg = true ∧ 0 < geo.blocksPerGroup
    · exact populateReservedBlockCaches_flexBg heager.1 heager.2
    · unfold populateReservedBlockCaches
      dsimp only
      have hlazy : (!geo.flexBg || geo.blocksPerGroup == 0) = true := by
        rw [Bool.or_eq_true, Bool.not_eq_true', beq_iff_eq]
        by_contra hno
        rw [not_or, Bool.not_eq_false] at hno
        exact heager ⟨hno.1, Nat.pos_of_ne_zero hno.2⟩
      rw [if_pos hlazy, foldl_cacheReservedBlocks, withMemos_min_length]
  · intro group stats hstats hmemo
    refine ⟨(reservedBlocksInGroup geo groups group).sorted, fun rel => ?_⟩
    rw [← mem_computeReservedBlocks hstats]
    unfold reservedBlocksInGroup
    rw [hstats]
    dsimp only
    cases hcache : stats.reservedCache with
    | none => rfl
    | some cached => rw [hmemo cached hcache]

/-- Two groups of eight blocks with `FLEX_BG`; the inode table of the second begins in the first. -/
def straddlingGeometry : FsGeometry where
  blocksPerGroup := 8
  inodesPerGroup := 12
  blockSize := 1024
  totalBlocks := 16
  firstDataBlock := 1
  groupCount := 2
  inodeSize := 256
  descSize := 32
  reservedGdtBlocks := 0
  firstMetaBg := 0
  sparseSuper2 := false
  resizeInode := false
  flexBg := true
  metaBg := false
  sparseSuper := true
  backupBgs := (0, 0)

def straddlingGroups : List GroupLayout :=
  [⟨3, 4, 5, none⟩, ⟨12, 20, 8, none⟩]

theorem populateReservedBlockCaches_straddling :
    (populateReservedBlockCaches straddlingGeometry straddlingGroups).map
        (fun stats => stats.reservedCache.map ReservedBlocks.blocks) =
      [some [0, 1, 2, 3, 4, 5, 6, 7], some [0, 1, 3]] ∧
    ∀ rel, rel ∈ [0, 1, 3] ↔ IsMetadata straddlingGeometry straddlingGroups 1 rel := by
  obtain ⟨heager, hlazy⟩ := populateReservedBlockCaches_eq_lazy straddlingGeometry straddlingGroups
  refine ⟨?_, (hlazy 1 _ rfl (fun _ hcache => by cases hcache)).2⟩
  rw [heager]
  decide +kernel

end FrankenFs.Alloc

import FrankenFs.Dir.Scans

/-!
# The space of a removed entry

Removal leaves the name. Insertion first looks whether the block is an inner node of a hash tree, and
reads those bytes as its counts when one free record covers the block.
-/

namespace FrankenFs.Dir

open FrankenFs.Lib

variable {segs : List Segment} {tail name : Bytes}

/-! ## The checks before a scan -/

theorem validateReservedTail_segments {limit : Nat}
    (h : validateReservedTail (flat segs ++ tail).length tail.length = .ok limit) :
    limit = (flat segs).length := by
  unfold validateReservedTail at h
  split_ifs at h
  cases h
  rw [List.length_append, Nat.add_sub_cancel]

variable {s : Segment}

theorem leAt_first {k w : Nat} (h : k + w ≤ s.bytes.length) :
    leAt k w (flat (s :: segs) ++ tail) = leAt k w s.bytes := by
  rw [flat_cons, List.append_assoc, leAt_append_left h]

variable {block : Bytes}

theorem isInteriorHtreeDxNodeBlock_iff :
    isInteriorHtreeDxNodeBlock block = true ↔
      leAt 0 4 block = 0 ∧ leAt 4 2 block = block.length ∧ 0 < leAt 10 2 block ∧
        leAt 10 2 block ≤ leAt 8 2 block ∧ 8 + leAt 10 2 block * 8 ≤ block.length := by
  unfold isInteriorHtreeDxNodeBlock readLe
  by_cases hlen : 12 ≤ block.length
  · simp only [show 0 + 4 ≤ block.length by omega, show 4 + 2 ≤ block.length by omega,
      show 8 + 2 ≤ block.length by omega, show 10 + 2 ≤ block.length by omega, if_true]
    by_cases hino : leAt 0 4 block = 0 <;> by_cases hrec : leAt 4 2 block = block.length <;>
      simp [hino, hrec]
    omega
  · -- The count lies outside of the block.
    simp only [show ¬ 10 + 2 ≤ block.length by omega, if_false]
    refine ⟨fun h => ?_, fun h => by omega⟩
    split_ifs at h

theorem covers_of_leAt (h : leAt 4 2 (flat (s :: segs) ++ tail) = (flat (s :: segs) ++ tail).length)
    : segs = [] ∧ tail = [] := by
  have hmin := s.min
  rw [leAt_first (by omega), s.recLen, flat_cons, List.length_append, List.length_append] at h
  refine ⟨?_, List.length_eq_zero_iff.mp (by omega)⟩
  cases segs with
  | nil => rfl
  | cons t segs =>
    have htmin := t.min
    rw [flat_cons, List.length_append] at h
    omega

theorem free_of_interior (h : isInteriorHtreeDxNodeBlock (flat segs ++ tail) = true) :
    ∀ s ∈ segs, s.ino = 0 := by
  obtain ⟨hino, hlen, -⟩ := isInteriorHtreeDxNodeBlock_iff.mp h
  cases segs with
  | nil => simp
  | cons s segs =>
    have hmin := s.min
    obtain ⟨rfl, rfl⟩ := covers_of_leAt hlen
    rw [leAt_first (by omega)] at hino
    exact List.forall_mem_singleton.mpr hino

theorem mem_length_le (h : s ∈ segs) : s.bytes.length ≤ (flat segs).length := by
  obtain ⟨before, after, rfl⟩ := List.append_of_mem h
  rw [flat_append, flat_cons, List.length_append, List.length_append]
  omega

theorem Segment.Room.le {need : Nat} (h : s.Room need) : need ≤ s.bytes.length := by
  unfold Room at h
  split_ifs at h <;> omega

theorem addEntryTracked_segments {ino : Nat} {fileType : Ext4FileType} (hino : ino ≠ 0)
    (hbound : ino < 2 ^ 32) (hname : validateName name = .ok ())
    (htail : validateReservedTail (flat segs ++ tail).length tail.length = .ok (flat segs).length)
    (hroom : requiredRecLen name.length ≤ (flat segs).length)
    (hinterior : ¬ isInteriorHtreeDxNodeBlock (flat segs ++ tail) = true) :
    Placed ino name fileType [] tail segs
      (addEntryTracked (flat segs ++ tail) ino name fileType tail.length) := by
  unfold addEntryTracked
  rw [if_neg hino, hname]
  dsimp only
  rw [htail]
  dsimp only
  rw [if_neg (Nat.not_lt.mpr hroom), if_neg hinterior]
  exact addEntryFrom_segments [] tail segs hino hbound (validateName_ok.mp hname).2.1
    (by rw [List.length_nil, Nat.zero_add])

theorem removeEntryTakeInodeTracked_segments (hname : validateName name = .ok ())
    (htail : validateReservedTail (flat segs ++ tail).length tail.length = .ok (flat segs).length) :
    Removed name tail segs
      (removeEntryTakeInodeTracked (flat segs ++ tail) name tail.length) := by
  unfold removeEntryTakeInodeTracked
  rw [hname]
  dsimp only
  rw [htail]
  dsimp only
  by_cases hinterior : isInteriorHtreeDxNodeBlock (flat segs ++ tail) = true
  · rw [if_pos hinterior]
    exact .absent fun s hs hnamed => hnamed.1 (free_of_interior hinterior s hs)
  · rw [if_neg hinterior]
    exact removeEntryFrom_segments name tail [] segs (fun s hs => absurd hs List.not_mem_nil)
      (fun s hs => absurd hs List.not_mem_nil) rfl

/-! ## After a removal -/

def Tiles (block : Bytes) (reservedTail : Nat) : Prop :=
  ∃ segs tail, block = flat segs ++ tail ∧ tail.length = reservedTail

/-- One record covers the block, and the first bytes of its name read as the counts of an inner
node. -/
def NameReadsAsCounts (block : Bytes) : Prop :=
  leAt 4 2 block = block.length ∧ 0 < leAt 10 2 block ∧ leAt 10 2 block ≤ leAt 8 2 block ∧
    8 + leAt 10 2 block * 8 ≤ block.length

theorem Segment.length_name (s : Segment) : s.name.length = s.nameLen := by
  have hnamed : 8 + s.nameLen ≤ s.bytes.length := s.named
  unfold Segment.name nameAt dirEntryHeaderLen
  rw [List.length_take, List.length_drop]
  omega

theorem Segment.asEntry_absorb (s : Segment) {rest : Bytes} (haligned : rest.length % 4 = 0)
    (hlt : s.bytes.length + rest.length < 65536) :
    (s.absorb rest haligned hlt).asEntry = s.asEntry := s.asEntry_resize _ _ _

theorem Segment.length_absorb (s : Segment) {rest : Bytes} (haligned : rest.length % 4 = 0)
    (hlt : s.bytes.length + rest.length < 65536) :
    (s.absorb rest haligned hlt).bytes.length = s.bytes.length + rest.length := by
  unfold absorb
  rw [length_resize, List.length_append]

theorem Segment.header_of_asEntry {s' : Segment} (h : s'.asEntry = s.asEntry) (hlive : s.ino ≠ 0) :
    s'.ino = s.ino ∧ s'.nameLen = s.nameLen := by
  unfold asEntry at h
  rw [if_neg hlive] at h
  split_ifs at h with hfree
  have hfields := Option.some.inj h
  rw [LiveEntry.mk.injEq] at hfields
  exact ⟨hfields.2.1, by rw [← s'.length_name, ← s.length_name, hfields.1]⟩

theorem not_covers (h : segs ≠ []) :
    ¬ isInteriorHtreeDxNodeBlock (flat (s :: segs) ++ tail) = true ∧
      ¬ NameReadsAsCounts (flat (s :: segs) ++ tail) :=
  ⟨fun hinterior => h (covers_of_leAt (isInteriorHtreeDxNodeBlock_iff.mp hinterior).2.1).1,
    fun hcounts => h (covers_of_leAt hcounts.1).1⟩

theorem interior_clear {after : List Segment} (hname : s.name ≠ []) :
    isInteriorHtreeDxNodeBlock (flat (s.clear :: after) ++ tail) = true ↔
      NameReadsAsCounts (flat (s :: after) ++ tail) := by
  have hlong : 10 + 2 ≤ s.bytes.length := by
    have hpos := List.length_pos_iff.mpr hname
    have hnamed : 8 + s.nameLen ≤ s.bytes.length := s.named
    have haligned := s.aligned
    rw [s.length_name] at hpos
    omega
  have hclear := s.length_clear
  have hlen : (flat (s.clear :: after) ++ tail).length = (flat (s :: after) ++ tail).length := by
    simp only [flat_cons, List.length_append, hclear]
  have hcount : ∀ k w, 8 ≤ k → leAt k w s.clear.bytes = leAt k w s.bytes := by
    intro k w hk
    unfold Segment.clear Segment.setType Segment.dropName Segment.setIno
    rw [Segment.leAt_patch _ _ _ (by simp only [List.length_singleton]; omega),
      Segment.leAt_patch _ _ _ (by simp only [List.length_singleton]; omega),
      Segment.leAt_patch _ _ _ (by rw [length_toLe]; omega)]
  have hino : leAt 0 4 s.clear.bytes = 0 := s.ino_clear
  rw [isInteriorHtreeDxNodeBlock_iff, NameReadsAsCounts, hlen,
    leAt_first (k := 0) (w := 4) (by omega), leAt_first (s := s.clear) (k := 4) (w := 2) (by omega),
    leAt_first (s := s.clear) (k := 10) (w := 2) (by omega),
    leAt_first (s := s.clear) (k := 8) (w := 2) (by omega),
    leAt_first (s := s) (k := 4) (w := 2) (by omega),
    leAt_first (s := s) (k := 10) (w := 2) (by omega),
    leAt_first (s := s) (k := 8) (w := 2) (by omega),
    hcount 10 2 (by omega), hcount 8 2 (by omega), s.clear.recLen, s.recLen, hclear, hino]
  exact and_iff_right rfl

theorem Removed.room {outcome : Outcome (Option (Nat × DirBlockEdit))}
    (h : Removed name tail segs outcome) (hname : name ≠ []) {found : Nat × DirBlockEdit}
    (hok : outcome = .ok (some found) block) :
    ∃ segs', block = flat segs' ++ tail ∧ (flat segs').length = (flat segs).length ∧
      (∃ s ∈ segs', s.Room (requiredRecLen name.length)) ∧
      (isInteriorHtreeDxNodeBlock block = true ↔ NameReadsAsCounts (flat segs ++ tail)) := by
  cases h with
  | absent => cases hok
  | tooLong => cases hok
  | @cleared before after s edit hsegs hnamed hfree =>
    cases hok
    have hlen : requiredRecLen name.length ≤ s.bytes.length := by
      rw [← hnamed.2, s.length_name]
      exact s.requiredRecLen_le
    refine ⟨before ++ s.clear :: after, rfl, ?_, ⟨s.clear, by simp, ?_⟩, ?_⟩
    · simp only [hsegs, flat_append, flat_cons, List.length_append, s.length_clear]
    · unfold Segment.Room
      rwa [if_pos s.ino_clear, s.length_clear]
    · rw [hsegs]
      cases before with
      | nil => exact interior_clear (by rwa [hnamed.2])
      | cons t before =>
        have hafter := @not_covers (before ++ s.clear :: after) tail t (by simp)
        have hbefore := @not_covers (before ++ s :: after) tail t (by simp)
        exact iff_of_false hafter.1 hbefore.2
  | @merged before free after prev s edit haligned hlt hsegs hnamed hlive hfree =>
    cases hok
    have hsame := prev.asEntry_absorb haligned hlt
    have hlen := prev.length_absorb haligned hlt
    have hfits : requiredRecLen name.length ≤ s.bytes.length := by
      rw [← hnamed.2, s.length_name]
      exact s.requiredRecLen_le
    obtain ⟨hino, hnameLen⟩ := Segment.header_of_asEntry hsame hlive
    rw [List.length_append, s.length_clear] at hlen
    refine ⟨_, rfl, ?_, ⟨_, List.mem_append_right _ List.mem_cons_self, ?_⟩, ?_⟩
    · simp only [hsegs, flat_append, flat_cons, List.length_append, hlen]
      omega
    · have hprev := prev.requiredRecLen_le
      unfold Segment.Room
      rw [if_neg (by rwa [hino]), hlen, hnameLen]
      omega
    · rw [hsegs]
      cases before with
      | nil =>
        refine iff_of_false (fun hinterior => ?_) (@not_covers (free ++ s :: after) tail prev
          (by simp)).2
        exact hlive (hino ▸ free_of_interior hinterior _ List.mem_cons_self)
      | cons t before =>
        have hbefore := @not_covers (before ++ prev :: (free ++ s :: after)) tail t (by simp)
        exact iff_of_false (@not_covers (before ++ _ :: after) tail t (by simp)).1 hbefore.2

theorem addEntry_fails_of_interior {ino reservedTail : Nat} {fileType : Ext4FileType}
    (h : isInteriorHtreeDxNodeBlock block = true) (off : Nat) (block' : Bytes) :
    addEntry block ino name fileType reservedTail ≠ .ok off block' := by
  intro hok
  unfold addEntry addEntryTracked at hok
  split_ifs at hok
  · cases hok
  · cases hname : validateName name with
    | error e =>
      rw [hname] at hok
      cases hok
    | ok _ =>
      rw [hname] at hok
      dsimp only at hok
      cases htail : validateReservedTail block.length reservedTail with
      | error e =>
        rw [htail] at hok
        cases hok
      | ok limit =>
        rw [htail] at hok
        dsimp only at hok
        rw [ite_self] at hok
        cases hok

theorem removeEntry_ok {block' : Bytes} {reservedTail : Nat}
    (h : removeEntry block name reservedTail = .ok true block') :
    validateName name = .ok () ∧
      (∃ limit, validateReservedTail block.length reservedTail = .ok limit) ∧
      ∃ found, removeEntryTakeInodeTracked block name reservedTail = .ok (some found) block' := by
  have hfound : ∃ found,
      removeEntryTakeInodeTracked block name reservedTail = .ok (some found) block' := by
    unfold removeEntry removeEntryTakeInode at h
    generalize removeEntryTakeInodeTracked block name reservedTail = outcome at h
    match outcome with
    | .error e left => cases h
    | .ok none left => cases h
    | .ok (some found) left =>
      cases h
      exact ⟨found, rfl⟩
  obtain ⟨found, hrun⟩ := hfound
  refine ⟨?_, ?_, found, hrun⟩
  · unfold removeEntryTakeInodeTracked at hrun
    cases hname : validateName name with
    | error e =>
      rw [hname] at hrun
      cases hrun
    | ok _ => rfl
  · unfold removeEntryTakeInodeTracked at hrun
    cases htail : validateReservedTail block.length reservedTail with
    | error e =>
      rw [htail] at hrun
      split at hrun <;> cases hrun
    | ok limit => exact ⟨limit, rfl⟩

/-- **The space of a removed entry is taken again** by every name that needs no more of it, exactly
when no inner node can be read from the name that was left. -/
theorem removedSpace_reusable_iff {block block' name : Bytes} {reservedTail : Nat}
    (htiles : Tiles block reservedTail)
    (hremoved : removeEntry block name reservedTail = .ok true block') :
    (∀ newName ino fileType, validateName newName = .ok () →
        requiredRecLen newName.length ≤ requiredRecLen name.length → ino ≠ 0 → ino < 2 ^ 32 →
        ∃ off block'', addEntry block' ino newName fileType reservedTail = .ok off block'') ↔
      ¬ NameReadsAsCounts block := by
  obtain ⟨segs, tail, rfl, rfl⟩ := htiles
  obtain ⟨hname, ⟨limit, htail⟩, found, hrun⟩ := removeEntry_ok hremoved
  obtain rfl := validateReservedTail_segments htail
  obtain ⟨segs', rfl, hlen, ⟨s, hs, hroom⟩, hinterior⟩ :=
    (removeEntryTakeInodeTracked_segments hname htail).room (validateName_ok.mp hname).1 hrun
  rw [← hinterior]
  constructor
  · intro hadd hlooks
    obtain ⟨off, block'', hok⟩ := hadd name 1 .regFile hname (Nat.le_refl _) (by omega) (by omega)
    exact addEntry_fails_of_interior hlooks off block'' hok
  · intro hlooks newName ino fileType hnew hneed hino hbound
    have hlength : (flat segs' ++ tail).length = (flat segs ++ tail).length := by
      rw [List.length_append, List.length_append, hlen]
    have hfits : requiredRecLen newName.length ≤ (flat segs').length :=
      hneed.trans (hroom.le.trans (mem_length_le hs))
    have hplaced := @addEntryTracked_segments segs' tail newName ino fileType hino hbound hnew
      (by rw [hlength, hlen, htail]) hfits hlooks
    unfold addEntry
    rcases hplaced with ⟨off, edit, segs'', hok, -⟩ | ⟨-, hnone⟩
    · exact ⟨off, _, by rw [hok]; rfl⟩
    · refine absurd ?_ (hnone s hs)
      unfold Segment.Room at hroom ⊢
      split_ifs at hroom ⊢ <;> omega

theorem removedSpace_reusable_short :
    Tiles oneEntryBlock 0 ∧ ¬ NameReadsAsCounts oneEntryBlock ∧
      ∃ block', removeEntry oneEntryBlock [0x61] 0 = .ok true block' ∧
        ∃ off block'', addEntry block' 7 [0x62, 0x63] .dir 0 = .ok off block'' := by
  have htiles : Tiles oneEntryBlock 0 :=
    ⟨[Segment.new 1 12 .regFile [0x61] (by decide) (by decide) (by decide) (by decide)], [],
      by decide, rfl⟩
  have hcounts : ¬ NameReadsAsCounts oneEntryBlock := by
    unfold NameReadsAsCounts
    decide
  have hremoved : removeEntry oneEntryBlock [0x61] 0 =
      .ok true (entryHeader 0 12 0 0 ++ [0x61, 0, 0, 0]) := by decide +kernel
  exact ⟨htiles, hcounts, _, hremoved, (removedSpace_reusable_iff htiles hremoved).mpr hcounts
    [0x62, 0x63] 7 .dir (by decide) (by decide) (by decide) (by decide)⟩

/-- The block of one file `aaa`: what is left of the name reads as an inner node of 97 entries, and
not even the same name can be added again. -/
theorem removedSpace_lost :
    Tiles (entryBytes 12 1024 .regFile [0x61, 0x61, 0x61]) 0 ∧
      ∃ block', removeEntry (entryBytes 12 1024 .regFile [0x61, 0x61, 0x61]) [0x61, 0x61, 0x61] 0 =
          .ok true block' ∧
        addEntry block' 12 [0x61, 0x61, 0x61] .regFile 0 = .error .noSpace block' := by
  refine ⟨⟨[Segment.new 12 1024 .regFile [0x61, 0x61, 0x61] (by decide) (by decide) (by decide)
    (by decide)], [], ?_, rfl⟩, entryHeader 0 1024 0 0 ++ [0x61, 0x61, 0x61] ++
      List.replicate 1013 0, ?_, ?_⟩
  · rw [flat_cons, flat_nil, List.append_nil, List.append_nil]
    unfold Segment.new
    rfl
  · decide +kernel
  · decide +kernel

end FrankenFs.Dir

import FrankenFs.Checksum.ZeroTail
import FrankenFs.Dir.Reuse

/-!
# The checksum of a directory block after an edit

An edit records the bytes that an operation may change, and the checksum in the tail is brought up to
date from their difference.
-/

namespace FrankenFs.Dir

open FrankenFs.Lib FrankenFs.Checksum

def dirChecksumSeed (csumSeed ino generation : BitVec 32) : BitVec 32 :=
  ext4Chksum (ext4Chksum csumSeed (toLe 4 ino.toNat)) (toLe 4 generation.toNat)

def stampDirBlockChecksum (dirBlock : Bytes) (csumSeed ino generation : BitVec 32) :
    Except OutOfBounds Bytes :=
  let bs := dirBlock.length
  if bs < 12 then .ok dirBlock
  else
    match ext4ChksumSkipZeroTail (dirChecksumSeed csumSeed ino generation)
      (dirBlock.take (bs - 12)) with
    | .error panic => .error panic
    | .ok computed => .ok (overwrite (bs - 4) (toLe 4 computed.toNat) dirBlock)

def stampDirBlockChecksumIncremental (dirBlock : Bytes) (regionStart : Nat) (delta : Bytes) :
    Except OutOfBounds (Bool × Bytes) :=
  let bs := dirBlock.length
  if bs < 12 then .ok (false, dirBlock)
  else
    let coverageEnd := bs - 12
    let regionEnd := regionStart + delta.length
    if coverageEnd < regionEnd then .ok (false, dirBlock)
    else
      let oldTail := BitVec.ofNat 32 (leAt (bs - 4) 4 dirBlock)
      match crc32cUpdateRegion oldTail delta (coverageEnd - regionEnd) with
      | .error panic => .error panic
      | .ok newTail => .ok (true, overwrite (bs - 4) (toLe 4 newTail.toNat) dirBlock)

/-! ## What an operation changes -/

structure ChangedWithin (start stop : Nat) (block block' : Bytes) : Prop where
  length : block'.length = block.length
  same : ∀ i, ¬ (start ≤ i ∧ i < stop) → block'[i]? = block[i]?

section ChangedWithin

variable {start stop start' stop' off : Nat} {block block' block'' field name : Bytes}

theorem ChangedWithin.refl : ChangedWithin start stop block block := ⟨rfl, fun _ _ => rfl⟩

theorem ChangedWithin.trans (h : ChangedWithin start stop block block')
    (h' : ChangedWithin start stop block' block'') : ChangedWithin start stop block block'' :=
  ⟨h'.length.trans h.length, fun i hi => (h'.same i hi).trans (h.same i hi)⟩

theorem changedWithin_overwrite (hfits : off + field.length ≤ block.length) (hstart : start ≤ off)
    (hstop : off + field.length ≤ stop) :
    ChangedWithin start stop block (overwrite off field block) := by
  refine ⟨length_overwrite hfits, fun i hi => ?_⟩
  rw [getElem?_overwrite hfits, if_neg (by omega)]

theorem changedWithin_writeEntry {ino recLen : Nat} {fileType : Ext4FileType}
    (h : writeEntry block off ino recLen fileType name = .ok block') (hstart : start ≤ off)
    (hstop : off + recLen ≤ stop) : ChangedWithin start stop block block' := by
  unfold writeEntry at h
  dsimp only at h
  by_cases hname : 255 < name.length
  · rw [if_pos hname] at h
    cases h
  by_cases hrec : 65535 < recLen
  · rw [if_neg hname, if_pos hrec] at h
    cases h
  by_cases hbounds : block.length < off + recLen
  · rw [if_neg hname, if_neg hrec, if_pos hbounds] at h
    cases h
  by_cases hmin : recLen < requiredRecLen name.length
  · rw [if_neg hname, if_neg hrec, if_neg hbounds, if_pos hmin] at h
    cases h
  rw [if_neg hname, if_neg hrec, if_neg hbounds, if_neg hmin] at h
  have hneed := le_requiredRecLen name.length
  have hheader := length_entryHeader ino recLen name.length fileType.code
  have hlen := @length_overwrite off (entryHeader ino recLen name.length fileType.code) block
    (by omega)
  have hlen' := @length_overwrite (off + dirEntryHeaderLen) name
    (overwrite off (entryHeader ino recLen name.length fileType.code) block)
    (by unfold dirEntryHeaderLen; omega)
  have hnamed : ChangedWithin start stop block (overwrite (off + dirEntryHeaderLen) name
      (overwrite off (entryHeader ino recLen name.length fileType.code) block)) :=
    (changedWithin_overwrite (by omega) hstart (by omega)).trans
      (changedWithin_overwrite (by unfold dirEntryHeaderLen; omega)
        (by unfold dirEntryHeaderLen; omega) (by unfold dirEntryHeaderLen; omega))
  unfold dirEntryHeaderLen at *
  split_ifs at h with hpad
  · cases h
    exact hnamed.trans (changedWithin_overwrite (by rw [List.length_replicate]; omega) (by omega)
      (by rw [List.length_replicate]; omega))
  · cases h
    exact hnamed

theorem changedWithin_writeLe {w value : Nat} {detail : String}
    (h : writeLe w off value detail block = .ok block') (hstart : start ≤ off)
    (hstop : off + w ≤ stop) : ChangedWithin start stop block block' := by
  unfold writeLe at h
  split_ifs at h with hfits
  cases h
  exact changedWithin_overwrite (by rwa [length_toLe]) hstart (by rwa [length_toLe])

end ChangedWithin

/-- The edit holds the old bytes of a region before `limit`, and nothing else has changed. -/
structure Recorded (limit : Nat) (block block' : Bytes) (edit : DirBlockEdit) : Prop where
  old : edit.oldBytes = (block.drop edit.regionStart).take edit.oldBytes.length
  fits : edit.regionStart + edit.oldBytes.length ≤ limit
  changed : ChangedWithin edit.regionStart (edit.regionStart + edit.oldBytes.length) block block'

section Recorded

variable {limit off : Nat} {block block' name : Bytes} {edit : DirBlockEdit}

theorem recorded_slice {start len : Nat} (hfits : start + len ≤ limit) (hlimit : limit ≤ block.length)
    (hchanged : ChangedWithin start (start + len) block block') :
    Recorded limit block block' ⟨start, (block.drop start).take len⟩ := by
  have hlen : ((block.drop start).take len).length = len := by
    rw [List.length_take, List.length_drop]
    omega
  refine ⟨?_, ?_, ?_⟩
  · dsimp only
    rw [hlen]
  · dsimp only
    rwa [hlen]
  · dsimp only
    rwa [hlen]

theorem dirBlockEdit_some {start stop : Nat} (h : dirBlockEdit block start stop = some edit) :
    start ≤ stop ∧ edit = ⟨start, (block.drop start).take (stop - start)⟩ := by
  unfold dirBlockEdit at h
  dsimp only at h
  split_ifs at h with hlt hlong
  cases h
  exact ⟨by omega, rfl⟩

def Slot.Fits (limit : Nat) : Slot → Prop
  | .tombstone off recLen => off + recLen ≤ limit
  | .split off actual slack => 8 ≤ actual ∧ off + actual + slack ≤ limit

theorem insertAt_recorded {slot : Slot} (hslot : slot.Fits limit) (hlimit : limit ≤ block.length)
    {ino : Nat} {fileType : Ext4FileType}
    (h : insertAt block ino name fileType slot = .ok (off, some edit) block') :
    Recorded limit block block' edit := by
  cases slot with
  | tombstone place recLen =>
    unfold insertAt at h
    dsimp only at h
    cases hwrite : writeEntry block place ino recLen fileType name with
    | error e =>
      rw [hwrite] at h
      cases h
    | ok written =>
      rw [hwrite] at h
      injection h with hresult hblock
      subst hblock
      obtain ⟨hle, rfl⟩ := dirBlockEdit_some (Prod.mk.inj hresult).2
      unfold Slot.Fits at hslot
      rw [Nat.add_sub_cancel_left]
      exact recorded_slice hslot hlimit
        (changedWithin_writeEntry hwrite (Nat.le_refl _) (Nat.le_refl _))
  | split place actual slack =>
    obtain ⟨hactual, hslot⟩ := hslot
    unfold insertAt at h
    dsimp only at h
    by_cases hlong : 65535 < actual
    · rw [if_pos hlong] at h
      cases h
    rw [if_neg hlong] at h
    cases hlen : writeU16Le block (place + 4) actual with
    | error e =>
      rw [hlen] at h
      cases h
    | ok shortened =>
      rw [hlen] at h
      dsimp only at h
      cases hwrite : writeEntry shortened (place + actual) ino slack fileType name with
      | error e =>
        rw [hwrite] at h
        cases h
      | ok written =>
        rw [hwrite] at h
        injection h with hresult hblock
        subst hblock
        obtain ⟨hle, rfl⟩ := dirBlockEdit_some (Prod.mk.inj hresult).2
        have hspan : place + 4 + (place + actual + slack - (place + 4)) = place + actual + slack := by
          omega
        refine recorded_slice (by omega) hlimit ?_
        rw [hspan]
        exact (changedWithin_writeLe hlen (Nat.le_refl _) (by omega)).trans
          (changedWithin_writeEntry hwrite (by omega) (Nat.le_refl _))

theorem Record.tombstone_fits (record : Record limit off) :
    (Slot.tombstone off record.recLen).Fits limit := record.fits

theorem Record.split_fits (record : Record limit off) :
    (Slot.split off (requiredRecLen record.nameLen)
      (record.recLen - requiredRecLen record.nameLen)).Fits limit := by
  have hfits := record.fits
  have hle := record.requiredRecLen_le
  have hmin := le_requiredRecLen record.nameLen
  exact ⟨by omega, by omega⟩

theorem addEntryFrom_recorded (hlimit : limit ≤ block.length) {ino need place : Nat}
    {fileType : Ext4FileType}
    (h : addEntryFrom block ino name fileType need limit off = .ok (place, some edit) block') :
    Recorded limit block block' edit := by
  fun_induction addEntryFrom block ino name fileType need limit off with
  | case1 => cases h
  | case2 off hlt record hread hfree hneed => exact insertAt_recorded record.tombstone_fits hlimit h
  | case3 off hlt record hread hfree hneed ih => exact ih h
  | case4 => cases h
  | case5 off hlt record hread hfree actual hroom slack hneed =>
    exact insertAt_recorded record.split_fits hlimit h
  | case6 off hlt record hread hfree actual hroom slack hneed ih => exact ih h
  | case7 => cases h

theorem rejectExistingFrom_fits {need : Nat} {slot : Option Slot} {found : Slot}
    (hslot : ∀ s, slot = some s → s.Fits limit)
    (h : rejectExistingFrom block name need limit off slot = .ok (some found)) :
    found.Fits limit := by
  fun_induction rejectExistingFrom block name need limit off slot with
  | case1 => cases h
  | case2 off slot hlt record hread hfree slot' ih =>
    refine ih (fun s hs => ?_) h
    unfold slot' at hs
    split_ifs at hs with htaken
    · cases hs
      exact record.tombstone_fits
    · exact hslot s hs
  | case3 => cases h
  | case4 => cases h
  | case5 off slot hlt record hread hfree hname actual hroom slot' ih =>
    refine ih (fun s hs => ?_) h
    unfold slot' at hs
    split_ifs at hs with htaken
    · cases hs
      exact record.split_fits
    · exact hslot s hs
  | case6 off slot hend =>
    cases h
    exact hslot found rfl

theorem changedWithin_clearEntry {start stop : Nat} (h : clearEntry block off = .ok block')
    (hfits : off + 8 ≤ block.length) (hstart : start ≤ off) (hstop : off + 8 ≤ stop) :
    ChangedWithin start stop block block' := by
  unfold clearEntry at h
  cases hino : writeU32Le block off 0 with
  | error e =>
    rw [hino] at h
    cases h
  | ok cleared =>
    rw [hino] at h
    cases h
    have hcleared := @changedWithin_writeLe start stop off block cleared 4 0 _ hino hstart (by omega)
    have hlen := hcleared.length
    have hname : ChangedWithin start stop cleared (overwrite (off + 6) [0] cleared) :=
      changedWithin_overwrite (by rw [List.length_singleton]; omega) (by omega)
        (by rw [List.length_singleton]; omega)
    have hlen' := hname.length
    exact (hcleared.trans hname).trans (changedWithin_overwrite
      (by rw [List.length_singleton]; omega) (by omega) (by rw [List.length_singleton]; omega))

theorem removeEntryFrom_recorded (hlimit : limit ≤ block.length) {prevOff : Option Nat}
    (hprev : ∀ prev, prevOff = some prev → prev + 8 ≤ off) {ino : Nat}
    (h : removeEntryFrom block name limit off prevOff = .ok (some (ino, edit)) block') :
    Recorded limit block block' edit := by
  fun_induction removeEntryFrom block name limit off prevOff with
  | case1 => cases h
  | case2 => cases h
  | case3 => cases h
  | case4 off prevOff hlt record hread hfound regionStart regionEnd edit' merged left hmerged
      cleared hclear =>
    have hfits := record.fits
    have hmin := record.min
    obtain ⟨hresult, hblock⟩ := EStateM.Result.ok.inj h
    obtain ⟨-, hedit⟩ := Prod.mk.inj (Option.some.inj hresult)
    subst hblock hedit
    have hregion : regionStart ≤ off ∧ ChangedWithin regionStart regionEnd block left := by
      cases prevOff with
      | none =>
        obtain ⟨-, rfl⟩ := EStateM.Result.ok.inj hmerged
        exact ⟨Nat.le_refl _, .refl⟩
      | some prev =>
        have hle := hprev prev rfl
        refine ⟨show prev + 4 ≤ off by omega, ?_⟩
        unfold merged at hmerged
        dsimp only at hmerged
        split_ifs at hmerged with hunder hlong
        cases hwrite : writeU16Le block (prev + 4) (off + record.recLen - prev) with
        | error e =>
          rw [hwrite] at hmerged
          cases hmerged
        | ok written =>
          rw [hwrite] at hmerged
          obtain ⟨-, rfl⟩ := EStateM.Result.ok.inj hmerged
          exact changedWithin_writeLe hwrite (Nat.le_refl _)
            (show prev + 4 + 2 ≤ off + 8 by omega)
    obtain ⟨hstart, hchanged⟩ := hregion
    have hspan : regionStart + (regionEnd - regionStart) = regionEnd :=
      Nat.add_sub_cancel' (hstart.trans (Nat.le_add_right _ _))
    have hlen := hchanged.length
    refine recorded_slice (by rw [hspan]; exact hlt) hlimit ?_
    rw [hspan]
    exact hchanged.trans (changedWithin_clearEntry hclear (by omega) hstart (Nat.le_refl _))
  | case5 off prevOff hlt record hread hother prevOff' ih =>
    refine ih (fun prev hp => ?_) h
    have hmin := record.min
    unfold prevOff' at hp
    split_ifs at hp with hlive
    · cases hp
      omega
    · have := hprev prev hp
      omega
  | case6 => cases h

end Recorded

/-! ## The operations that return an edit -/

/-- One of the tracked operations on a block with a checksum tail returned this edit. -/
inductive Edited (block : Bytes) (edit : DirBlockEdit) (block' : Bytes) : Prop
  | addEntry {ino off : Nat} {name : Bytes} {fileType : Ext4FileType} :
      addEntryTracked block ino name fileType 12 = .ok (off, some edit) block' →
      Edited block edit block'
  | addEntryRejectExisting {ino off : Nat} {name : Bytes} {fileType : Ext4FileType} :
      addEntryRejectExistingTracked block ino name fileType 12 = .ok (off, some edit) block' →
      Edited block edit block'
  | removeEntryTakeInode {ino : Nat} {name : Bytes} :
      removeEntryTakeInodeTracked block name 12 = .ok (some (ino, edit)) block' →
      Edited block edit block'

theorem Edited.recorded {block block' : Bytes} {edit : DirBlockEdit} (h : Edited block edit block') :
    12 ≤ block.length ∧ Recorded (block.length - 12) block block' edit := by
  have htail : ∀ {limit}, validateReservedTail block.length 12 = .ok limit →
      12 ≤ block.length ∧ limit = block.length - 12 := by
    intro limit hok
    unfold validateReservedTail at hok
    split_ifs at hok
    cases hok
    omega
  cases h with
  | @addEntry ino off name fileType h =>
    unfold addEntryTracked at h
    by_cases hino : ino = 0
    · rw [if_pos hino] at h
      cases h
    rw [if_neg hino] at h
    cases hname : validateName name with
    | error e =>
      rw [hname] at h
      cases h
    | ok _ =>
      rw [hname] at h
      dsimp only at h
      cases hlimit : validateReservedTail block.length 12 with
      | error e =>
        rw [hlimit] at h
        cases h
      | ok limit =>
        obtain ⟨hlen, rfl⟩ := htail hlimit
        rw [hlimit] at h
        dsimp only at h
        split_ifs at h
        exact ⟨hlen, addEntryFrom_recorded (Nat.sub_le _ _) h⟩
  | @addEntryRejectExisting ino off name fileType h =>
    unfold addEntryRejectExistingTracked at h
    by_cases hino : ino = 0
    · rw [if_pos hino] at h
      cases h
    rw [if_neg hino] at h
    cases hname : validateName name with
    | error e =>
      rw [hname] at h
      cases h
    | ok _ =>
      rw [hname] at h
      dsimp only at h
      cases hlimit : validateReservedTail block.length 12 with
      | error e =>
        rw [hlimit] at h
        cases h
      | ok limit =>
        obtain ⟨hlen, rfl⟩ := htail hlimit
        rw [hlimit] at h
        dsimp only at h
        split_ifs at h
        generalize hscan : rejectExistingFrom block name (requiredRecLen name.length)
          (block.length - 12) 0 none = scan at h
        match scan with
        | .error e => cases h
        | .ok none => cases h
        | .ok (some slot) =>
          have hslot : slot.Fits (block.length - 12) :=
            rejectExistingFrom_fits (fun s hs => by cases hs) hscan
          exact ⟨hlen, insertAt_recorded hslot (Nat.sub_le _ _) h⟩
  | @removeEntryTakeInode ino name h =>
    unfold removeEntryTakeInodeTracked at h
    cases hname : validateName name with
    | error e =>
      rw [hname] at h
      cases h
    | ok _ =>
      rw [hname] at h
      dsimp only at h
      cases hlimit : validateReservedTail block.length 12 with
      | error e =>
        rw [hlimit] at h
        cases h
      | ok limit =>
        obtain ⟨hlen, rfl⟩ := htail hlimit
        rw [hlimit] at h
        dsimp only at h
        split_ifs at h with hinterior
        · cases h
        · exact ⟨hlen, removeEntryFrom_recorded (Nat.sub_le _ _) (fun prev hp => by cases hp) h⟩

/-! ## The checksum -/

theorem ChangedWithin.take_eq {start stop : Nat} {block block' : Bytes}
    (h : ChangedWithin start stop block block') : block.take start = block'.take start := by
  refine List.ext_getElem? fun i => ?_
  rw [List.getElem?_take, List.getElem?_take]
  split_ifs with hi
  · exact (h.same i (by omega)).symm
  · rfl

theorem ChangedWithin.drop_eq {start stop k : Nat} {block block' : Bytes}
    (h : ChangedWithin start stop block block') (hk : stop ≤ k) : block.drop k = block'.drop k := by
  refine List.ext_getElem? fun i => ?_
  rw [List.getElem?_drop, List.getElem?_drop]
  exact (h.same _ (by omega)).symm

def Stamped (block : Bytes) (csumSeed ino generation : BitVec 32) : Prop :=
  leAt (block.length - 4) 4 block =
    (ext4Chksum (dirChecksumSeed csumSeed ino generation) (block.take (block.length - 12))).toNat

theorem zipWith_take_right {α β γ : Type} (f : α → β → γ) (a : List α) (b : List β) :
    List.zipWith f a (b.take a.length) = List.zipWith f a b := by
  induction a generalizing b with
  | nil => rfl
  | cons x a ih =>
    cases b with
    | nil => rfl
    | cons y b => rw [List.length_cons, List.take_succ_cons, List.zipWith_cons_cons, ih,
        List.zipWith_cons_cons]

/-- **Tracked edits keep the checksum exact.** All changes lie in the region of the edit, and the
tail that is brought up to date from it is the one that a whole computation gives. -/
theorem edited_checksum_exact {block block' : Bytes} {edit : DirBlockEdit}
    {csumSeed ino generation : BitVec 32} (hstamped : Stamped block csumSeed ino generation)
    (hbound : block.length < 2 ^ 37) (hedited : Edited block edit block') :
    ChangedWithin edit.regionStart (edit.regionStart + edit.oldBytes.length) block block' ∧
    ∃ stamped, stampDirBlockChecksumIncremental block' edit.regionStart (edit.delta block') =
        .ok (true, stamped) ∧
      stampDirBlockChecksum block' csumSeed ino generation = .ok stamped := by
  obtain ⟨hlen, hold, hfits, hchanged⟩ := hedited.recorded
  have hlength := hchanged.length
  have hdelta : edit.delta block' = xorBytes
      ((block.drop edit.regionStart).take edit.oldBytes.length)
      ((block'.drop edit.regionStart).take edit.oldBytes.length) := by
    unfold DirBlockEdit.delta xorBytes
    rw [← hold, zipWith_take_right]
  have hdeltaLen : (edit.delta block').length = edit.oldBytes.length := by
    rw [hdelta, xorBytes, List.length_zipWith, List.length_take, List.length_take, List.length_drop,
      List.length_drop]
    omega
  have htail : leAt (block.length - 4) 4 block' = leAt (block.length - 4) 4 block := by
    unfold leAt
    rw [hchanged.drop_eq (show edit.regionStart + edit.oldBytes.length ≤ block.length - 4 by omega)]
  have hupdate := crc32cUpdateRegion_slices hlength.symm hfits (Nat.sub_le _ _) (by omega)
    (by omega) hchanged.take_eq (hchanged.drop_eq (Nat.le_refl _))
    (dirChecksumSeed csumSeed ino generation)
  refine ⟨hchanged, overwrite (block.length - 4) (toLe 4 (ext4Chksum
    (dirChecksumSeed csumSeed ino generation) (block'.take (block.length - 12))).toNat) block',
    ?_, ?_⟩
  · unfold stampDirBlockChecksumIncremental
    dsimp only
    rw [hlength, hdeltaLen, if_neg (by omega), if_neg (by omega), htail, hstamped,
      BitVec.ofNat_toNat, BitVec.setWidth_eq, hdelta, hupdate]
  · unfold stampDirBlockChecksum
    dsimp only
    rw [hlength, if_neg (by omega), ext4ChksumSkipZeroTail_eq _ (by rw [List.length_take]; omega)]

def withTail (body : Bytes) (csumSeed ino generation : BitVec 32) : Bytes :=
  body ++ (toLe 4 0 ++ toLe 2 12 ++ [0, ext4FtDirCsum] ++
    toLe 4 (ext4Chksum (dirChecksumSeed csumSeed ino generation) body).toNat)

theorem stamped_withTail (body : Bytes) (csumSeed ino generation : BitVec 32) :
    Stamped (withTail body csumSeed ino generation) csumSeed ino generation := by
  have hlen : (withTail body csumSeed ino generation).length = body.length + 12 := by
    simp [withTail]
  unfold Stamped
  rw [hlen, Nat.add_sub_cancel, show body.length + 12 - 4 = body.length + (8 + 0) by omega]
  unfold withTail
  rw [List.take_left, leAt_append_add, leAt_skip (by simp)]
  have hfield := @leAt_here 4
    (ext4Chksum (dirChecksumSeed csumSeed ino generation) body).toNat (BitVec.isLt _) []
  rwa [List.append_nil] at hfield

theorem edited_checksum_exact_small :
    ∃ edit block' stamped,
      addEntryTracked (withTail (entryBytes 11 24 .regFile [0x61]) 1 2 3) 7 [0x62] .dir 12 =
        .ok (12, some edit) block' ∧
      stampDirBlockChecksumIncremental block' edit.regionStart (edit.delta block') =
        .ok (true, stamped) ∧
      stampDirBlockChecksum block' 1 2 3 = .ok stamped := by
  let block := withTail (entryBytes 11 24 .regFile [0x61]) 1 2 3
  have hadd : addEntryTracked block 7 [0x62] .dir 12 = .ok (12, some ⟨4, (block.drop 4).take 20⟩)
      (overwrite 12 (entryBytes 7 12 .dir [0x62]) (overwrite 4 (toLe 2 12) block)) := by
    decide +kernel
  obtain ⟨-, stamped, hincremental, hfull⟩ :=
    edited_checksum_exact (stamped_withTail _ 1 2 3) (by decide) (.addEntry hadd)
  exact ⟨_, _, stamped, hadd, hincremental, hfull⟩

def freeRecord : Segment :=
  .new 0 12 .unknown [] (by decide) (by decide) (by decide) (by decide)

theorem addEntryTracked_freeRecord {back : Bytes} (hback : 12 ≤ back.length) :
    addEntryTracked (freeRecord.bytes ++ back) 7 [0x61] .regFile 12 =
      .ok (0, some ⟨0, freeRecord.bytes⟩) (entryBytes 7 12 .regFile [0x61] ++ back) := by
  have hlen : (freeRecord.bytes ++ back).length = 12 + back.length := List.length_append
  have htail : validateReservedTail (freeRecord.bytes ++ back).length 12 = .ok back.length := by
    unfold validateReservedTail
    rw [if_neg (by omega), if_neg (by omega), if_neg (by omega), hlen, Nat.add_sub_cancel_left]
  have hinterior : ¬ isInteriorHtreeDxNodeBlock (freeRecord.bytes ++ back) = true := by
    intro h
    have hrec := (isInteriorHtreeDxNodeBlock_iff.mp h).2.1
    rw [leAt_append_left (by decide), hlen] at hrec
    have : leAt 4 2 freeRecord.bytes = 12 := by decide
    omega
  obtain ⟨record, hread, hino, hrecLen, -⟩ :=
    readRecord_segment [] back freeRecord (show 0 + 12 ≤ back.length by omega)
  have hrecLen' : record.recLen = 12 := hrecLen
  have hino' : record.ino = 0 := hino.trans (by decide)
  have hwrite := @writeEntry_whole [] back freeRecord.bytes [0x61] 7 .regFile (by decide) (by decide)
    (by decide)
  have hedit : dirBlockEdit (freeRecord.bytes ++ back) 0 12 = some ⟨0, freeRecord.bytes⟩ := by
    unfold dirBlockEdit
    dsimp only
    rw [if_neg (by decide), if_neg (by decide), List.drop_zero, List.take_left' (by decide)]
  unfold addEntryTracked
  rw [if_neg (by decide), show validateName [0x61] = .ok () by decide]
  dsimp only
  rw [htail]
  dsimp only
  rw [show requiredRecLen ([0x61] : Bytes).length = 12 from rfl,
    if_neg (show ¬ back.length < 12 by omega), if_neg hinterior, addEntryFrom,
    if_pos (show 0 + dirEntryHeaderLen ≤ back.length by unfold dirEntryHeaderLen; omega)]
  have hread' : readRecord (freeRecord.bytes ++ back) back.length 0 = .ok record := hread
  rw [hread']
  dsimp only
  rw [if_pos hino', if_pos (Nat.le_of_eq hrecLen'.symm), hrecLen']
  unfold insertAt
  dsimp only
  rw [hedit]
  have hwrite' : writeEntry (freeRecord.bytes ++ back) 0 7 12 .regFile [0x61] =
      .ok (entryBytes 7 12 .regFile [0x61] ++ back) := hwrite
  rw [hwrite']

/-- A free record in front of 2^37 other bytes: the shift of the difference is not in the table. -/
theorem edited_checksum_long :
    ∃ block edit block', Stamped block 1 2 3 ∧ Edited block edit block' ∧
      stampDirBlockChecksumIncremental block' edit.regionStart (edit.delta block') =
        .error .index := by
  obtain ⟨filler, hfiller⟩ : ∃ filler : Bytes, filler.length = 2 ^ 37 :=
    ⟨List.replicate (2 ^ 37) 0xFF, List.length_replicate⟩
  let tail := toLe 4 0 ++ toLe 2 12 ++ [0, ext4FtDirCsum] ++
    toLe 4 (ext4Chksum (dirChecksumSeed 1 2 3) (freeRecord.bytes ++ filler)).toNat
  have htail : tail.length = 12 := by simp [tail]
  have hblock : withTail (freeRecord.bytes ++ filler) 1 2 3 =
      freeRecord.bytes ++ (filler ++ tail) := by
    unfold withTail
    rw [List.append_assoc]
  have hadd := @addEntryTracked_freeRecord (filler ++ tail)
    (by rw [List.length_append, htail]; omega)
  rw [← hblock] at hadd
  refine ⟨_, _, _, stamped_withTail _ 1 2 3, .addEntry hadd, ?_⟩
  have hnew : (entryBytes 7 12 .regFile [0x61]).length = 12 := by decide
  have hold : freeRecord.bytes.length = 12 := by decide
  have hlen : (entryBytes 7 12 .regFile [0x61] ++ (filler ++ tail)).length = 2 ^ 37 + 24 := by
    rw [List.length_append, List.length_append, hnew, htail, hfiller]
    rfl
  have hdelta : (DirBlockEdit.delta ⟨0, freeRecord.bytes⟩
      (entryBytes 7 12 .regFile [0x61] ++ (filler ++ tail))).length = 12 := by
    unfold DirBlockEdit.delta
    rw [List.length_zipWith, List.drop_zero, hlen, hold]
    rfl
  unfold stampDirBlockChecksumIncremental
  dsimp only
  rw [hlen, hdelta, if_neg (by omega), if_neg (by omega),
    show 2 ^ 37 + 24 - 12 - (0 + 12) = 2 ^ 37 by omega, crc32cUpdateRegion_long _ (by omega)]

end FrankenFs.Dir
